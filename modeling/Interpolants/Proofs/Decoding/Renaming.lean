import Interpolants.Decoding.Term
import Mathlib.Data.List.Basic

/-!
# Interpolants — renaming variables

A renaming of variables changes names and nothing else: it goes through the operators that decoding
applies, and a renamed name finds the renamed formula, as long as no two names become one.
-/

namespace Interpolants

/-- The variable under another name. -/
def Variable.rename (f : String → String) (v : Variable) : Variable :=
  { v with name := f v.name }

/-- The declared variables under other names. -/
def Registry.rename (f : String → String) (declared : Registry) : Registry :=
  ⟨declared.entries.map (Variable.rename f)⟩

/-- The formula with its variables under other names. -/
def Expr.rename (f : String → String) : Expr → Expr
  | .var v => .var (v.rename f)
  | .const c => .const c
  | .unary op e => .unary op (e.rename f)
  | .binary op left right => .binary op (left.rename f) (right.rename f)
  | .cast e target => .cast (e.rename f) target
  | .quantified q bound body => .quantified q (bound.map (Variable.rename f)) (body.rename f)

/-- Names and the formulas they stand for, with other names for names and variables. -/
def renameBindings (f : String → String) (bindings : Bindings) : Bindings :=
  bindings.map fun entry => (f entry.1, entry.2.rename f)

def Names.rename (f : String → String) (names : Names) : Names :=
  ⟨renameBindings f names.scope, renameBindings f names.blocks, names.declared.rename f⟩

variable {f : String → String} {e l r : Expr} {es : List Expr}

/-! ## Operators -/

namespace Expr

/-- A formula keeps its type under other names. -/
theorem ty_rename (f : String → String) (e : Expr) : (e.rename f).ty = e.ty := by
  induction e with
  | var | const => rfl
  | unary op e ih => cases op <;> first | rfl | exact ih
  | binary op left right ihl => cases op <;> first | rfl | exact ihl
  | cast | quantified => rfl

/-- Whether an equality is an equivalence is decided by the types, so it stays what it is. -/
theorem rename_equal : (equal l r).rename f = equal (l.rename f) (r.rename f) := by
  rw [equal, equal, ty_rename, ty_rename]
  split <;> rfl

theorem rename_differ : (differ l r).rename f = differ (l.rename f) (r.rename f) := by
  rw [differ, differ, ty_rename, ty_rename]
  split <;> rfl

/-- A renaming goes through operands that are joined to the left. -/
theorem rename_foldl (build : Expr → Expr → Expr)
    (hbuild : ∀ l r, (build l r).rename f = build (l.rename f) (r.rename f)) (e : Expr)
    (es : List Expr) :
    (es.foldl build e).rename f = (es.map (Expr.rename f)).foldl build (e.rename f) := by
  induction es generalizing e with
  | nil => rfl
  | cons e' es ih =>
    rw [List.foldl_cons, ih, hbuild]
    rfl

/-- A conjunction or a disjunction is renamed operand by operand. -/
theorem rename_join (op : Connective) (b : Bool) (es : List Expr) :
    (join op (literal b) es).rename f = join op (literal b) (es.map (Expr.rename f)) := by
  cases es with
  | nil => rfl
  | cons e es => exact rename_foldl (logic op) (fun _ _ => rfl) e es

theorem rename_conj : (conj es).rename f = conj (es.map (Expr.rename f)) :=
  rename_join .and true es

theorem rename_disj : (disj es).rename f = disj (es.map (Expr.rename f)) :=
  rename_join .or false es

/-- So is a chain of operations. -/
theorem rename_chain (op : Arith) : (chain op es).rename f = chain op (es.map (Expr.rename f)) := by
  cases es with
  | nil => rfl
  | cons e es => exact rename_foldl (arith op) (fun _ _ => rfl) e es

theorem neighbours_map (g : Expr → Expr) :
    neighbours (es.map g) = (neighbours es).map (Prod.map g g) := by
  rw [neighbours, neighbours, ← List.map_drop, List.zip_map]

theorem pairs_map (g : Expr → Expr) : pairs (es.map g) = (pairs es).map (Prod.map g g) := by
  induction es with
  | nil => rfl
  | cons e es ih => simp [pairs, ih]

/-- A chain of equalities goes over to renamed operands. -/
theorem rename_equalities (es : List Expr) :
    (conj ((neighbours es).map fun p => equal p.1 p.2)).rename f
      = conj ((neighbours (es.map (Expr.rename f))).map fun p => equal p.1 p.2) := by
  simp [rename_conj, neighbours_map, Function.comp_def, rename_equal]

/-- And so do the differences of all pairs. -/
theorem rename_differences (es : List Expr) :
    (conj ((pairs es).map fun p => differ p.1 p.2)).rename f
      = conj ((pairs (es.map (Expr.rename f))).map fun p => differ p.1 p.2) := by
  simp [rename_conj, pairs_map, Function.comp_def, rename_differ]

end Expr

/-- **An operator takes renamed operands to the renamed formula**, and wants as many of them. -/
theorem Operator.apply_rename (op : Operator) (es : List Expr) :
    op.apply (es.map (Expr.rename f)) = (op.apply es).map (Expr.rename f) := by
  -- an operator that takes enough operands of any number
  have henough : ∀ (n length : Nat) (e : Expr),
      (if n ≤ length then Except.ok e else .error (Operands.atLeast n)).map (Expr.rename f)
        = if n ≤ length then Except.ok (e.rename f) else .error (Operands.atLeast n) := by
    intro n length e
    split <;> rfl
  cases op with
  | equal =>
    match es with
    | [l, r] => exact congrArg Except.ok Expr.rename_equal.symm
    | [] | [_] => rfl
    | e₁ :: e₂ :: e₃ :: es =>
      have hequal := Expr.rename_equalities (f := f) (e₁ :: e₂ :: e₃ :: es)
      simp only [List.map_cons] at hequal
      simp only [List.map_cons, apply, henough, hequal, List.length_cons, List.length_map]
  | distinct => simp only [apply, henough, Expr.rename_differences, List.length_map]
  | compare =>
    match es with
    | [] | [_] | [_, _] | _ :: _ :: _ :: _ => rfl
  | minus =>
    match es with
    | [] | [_] => rfl
    | e₁ :: e₂ :: es =>
      simp only [List.map_cons, apply, henough, Expr.rename_chain, List.length_cons,
        List.length_map]
  | plus | mul => simp only [apply, henough, Expr.rename_chain, List.length_map]
  | quotient | remainder =>
    match es with
    | [] | [_] | [_, _] | _ :: _ :: _ :: _ => rfl
  | and => simp only [apply, henough, Expr.rename_conj, List.length_map]
  | or => simp only [apply, henough, Expr.rename_disj, List.length_map]
  | not =>
    match es with
    | [] | [_] | _ :: _ :: _ => rfl

/-- **What an operator makes of operands** is renamed with them. -/
theorem applyNamed_rename (name : String) (es : List Expr) :
    (applyNamed name (es.map (Expr.rename f))).toOption
      = (applyNamed name es).toOption.map (Expr.rename f) := by
  unfold applyNamed
  cases Operator.ofName? name with
  | none => rfl
  | some op =>
    dsimp only
    rw [Operator.apply_rename]
    cases op.apply es <;> rfl

/-! ## Names -/

section

variable (hf : Function.Injective f)

include hf

/-- A name that the renaming keeps apart from others is found under its new name. -/
theorem lookup_rename (bindings : Bindings) (name : String) :
    (renameBindings f bindings).lookup (f name) = (bindings.lookup name).map (Expr.rename f) := by
  induction bindings with
  | nil => rfl
  | cons entry bindings ih =>
    have hsame : (f name == f entry.1) = (name == entry.1) := by
      rw [Bool.eq_iff_iff, beq_iff_eq, beq_iff_eq, hf.eq_iff]
    rw [renameBindings, List.map_cons, List.lookup_cons, List.lookup_cons, hsame]
    split
    · rfl
    · exact ih

/-- So is a variable of the registry. -/
theorem Registry.find?_rename (declared : Registry) (name : String) :
    (declared.rename f).find? (f name) = (declared.find? name).map (Variable.rename f) := by
  have hsame : (fun v : Variable => v.name == f name) ∘
      Variable.rename f = fun v => v.name == name := by
    funext v
    show (f v.name == f name) = (v.name == name)
    rw [Bool.eq_iff_iff, beq_iff_eq, beq_iff_eq, hf.eq_iff]
  rw [Registry.find?, Registry.find?, Registry.rename, List.find?_map, hsame]

/-- **A renamed name finds the renamed formula.** -/
theorem Names.find?_rename (names : Names) (name : String) :
    (names.rename f).find? (f name) = (names.find? name).map (Expr.rename f) := by
  simp only [Names.find?, Names.rename, lookup_rename hf, Registry.find?_rename hf]
  cases names.scope.lookup name with
  | some => rfl
  | none =>
    cases names.blocks.lookup name with
    | some => rfl
    | none => cases names.declared.find? name <;> rfl

end

/-! ## Renamings that agree -/

/-- Renamings that agree on the names of declared variables rename them alike. -/
theorem Registry.rename_congr {g : String → String} {declared : Registry}
    (h : ∀ v ∈ declared.entries, f v.name = g v.name) : declared.rename f = declared.rename g := by
  rw [Registry.rename, Registry.rename, Registry.mk.injEq]
  exact List.map_congr_left fun v hv => by rw [Variable.rename, Variable.rename, h v hv]

end Interpolants
