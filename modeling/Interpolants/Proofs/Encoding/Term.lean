import Interpolants.Encoding
import Interpolants.Proofs.Outcome

/-!
# Interpolants — the term of a formula

Encoding does two things at once: it declares the variables of a formula and it builds a term. The
term does not depend on what is declared: `Expr.HasTerm` relates the formulas that have an encoding
to their terms, and encoding that succeeds returns the term (`encode_ok`). What was declared before
stays declared. Proofs about terms of formulas go by induction on the relation, which has one case
for each construct with an encoding.
-/

namespace Interpolants

namespace Expr

/-- A formula has a term. -/
inductive HasTerm : Expr → Sexp → Prop where
  | var (x : Variable) : HasTerm (.var x) (.symbol x.name)
  | literal (b : Bool) : HasTerm (literal b) (.symbol (if b then "true" else "false"))
  | integer (i : Int64) : HasTerm (integer i) (intTerm i)
  | negation {e : Expr} {t : Sexp} (h : HasTerm e t) : HasTerm (negation e) (.app "not" [t])
  | minus {e : Expr} {t : Sexp} (h : HasTerm e t) : HasTerm (minus e) (.app "-" [t])
  | compare (op : Comparison) {left right : Expr} {l r : Sexp} (hl : HasTerm left l)
      (hr : HasTerm right r) : HasTerm (compare op left right) (op.term l r)
  | arith (op : Arith) {left right : Expr} {l r : Sexp} (hl : HasTerm left l)
      (hr : HasTerm right r) : HasTerm (arith op left right) (.app op.head [l, r])
  | logic {op : Connective} {head : String} (hhead : op.head? = some head) {left right : Expr}
      {l r : Sexp} (hl : HasTerm left l) (hr : HasTerm right r) :
      HasTerm (logic op left right) (.app head [l, r])

/-- The variable nodes of a formula from left to right, with repetitions. -/
def vars : Expr → List Variable
  | .var v => [v]
  | .const _ => []
  | .unary _ e | .cast e _ | .quantified _ _ e => e.vars
  | .binary _ left right => left.vars ++ right.vars

end Expr

/-! ## Declarations -/

/-- What is declared in one registry is declared in the other, with the same type. -/
def Registry.Within (r r' : Registry) : Prop :=
  ∀ name x, r.find? name = some x → r'.find? name = some x

namespace Registry.Within

variable {r r' r'' : Registry}

theorem refl (r : Registry) : r.Within r :=
  fun _ _ h => h

theorem trans (h : r.Within r') (h' : r'.Within r'') : r.Within r'' :=
  fun name x hx => h' name x (h name x hx)

/-- A registry is within the one with a new name. -/
theorem insert {v : Variable} (h : r.find? v.name = none) : r.Within (r.insert v) := by
  intro name x hx
  rw [Registry.find?_insert_of_ne]
  · exact hx
  · rintro rfl
    rw [h] at hx
    cases hx

end Registry.Within

/-- Sending adds the commands to the log, in their order. -/
theorem foldl_send (commands : List Sexp) (enc : Encoder) :
    commands.foldl Encoder.send enc = ⟨enc.declared, enc.sent ++ commands⟩ := by
  induction commands generalizing enc with
  | nil => simp
  | cons command commands ih => simp [ih, Encoder.send]

/-- A variable that is declared with success is known under its name, and nothing is forgotten. -/
theorem declare_ok {v : Variable} {enc enc' : Encoder} {u : Unit}
    (h : outcome (declare v) enc = (.ok u, enc')) :
    enc.declared.Within enc'.declared ∧ enc'.declared.find? v.name = some v := by
  unfold declare at h
  rw [outcome_bind_of_ok (outcome_get enc)] at h
  split at h
  · next known hknown =>
    split at h
    · next hty =>
      cases h
      -- known under this name and with this type, so it is the same variable
      have hname := Registry.name_of_find? hknown
      refine ⟨.refl _, ?_⟩
      rw [hknown]
      obtain ⟨name, ty⟩ := known
      cases hname
      cases hty
      rfl
    · cases h
  · next hnone =>
    split at h
    · cases h
    · next sort hsort =>
      cases h
      -- what is sent to the solver on the way declares nothing more here
      rw [foldl_send]
      exact ⟨.insert hnone, Registry.find?_insert_self _ v⟩

/-! ## Encoding -/

section

variable {enc enc' : Encoder} {s : Sexp}

/-- What encoding returns with success: the term of the formula, in a session that knows its
variables and all it knew before. -/
structure Encodes (e : Expr) (s : Sexp) (enc enc' : Encoder) : Prop where
  term : e.HasTerm s
  within : enc.declared.Within enc'.declared
  declared : ∀ x ∈ e.vars, enc'.declared.find? x.name = some x

/-- Both operands are encoded, the left one first. -/
theorem encodes_both {left right : Expr} (build : Sexp → Sexp → Sexp)
    (hleft : ∀ {enc enc' s}, outcome left.encode enc = (.ok s, enc') → Encodes left s enc enc')
    (hright : ∀ {enc enc' s}, outcome right.encode enc = (.ok s, enc') → Encodes right s enc enc')
    (h : outcome (do return build (← left.encode) (← right.encode)) enc = (.ok s, enc')) :
    ∃ l r, left.HasTerm l ∧ right.HasTerm r ∧ s = build l r ∧
      enc.declared.Within enc'.declared ∧
      ∀ x ∈ left.vars ++ right.vars, enc'.declared.find? x.name = some x := by
  obtain ⟨l, enc₁, hl, h⟩ := outcome_bind_eq_ok_iff.1 h
  obtain ⟨r, enc₂, hr, h⟩ := outcome_bind_eq_ok_iff.1 h
  cases h
  have hl := hleft hl
  have hr := hright hr
  refine ⟨l, r, hl.term, hr.term, rfl, hl.within.trans hr.within, fun x hx => ?_⟩
  -- what the left operand declared, the right one leaves declared
  rcases List.mem_append.1 hx with hx | hx
  · exact hr.within _ _ (hl.declared x hx)
  · exact hr.declared x hx

/-- **Encoding returns the term of the formula.** -/
theorem encode_ok {e : Expr} (h : outcome e.encode enc = (.ok s, enc')) : Encodes e s enc enc' := by
  induction e generalizing enc enc' s with
  | var v =>
    obtain ⟨u, enc₁, hdeclare, h⟩ := outcome_bind_eq_ok_iff.1 h
    cases h
    obtain ⟨hwithin, hfind⟩ := declare_ok hdeclare
    exact ⟨.var v, hwithin, by simpa [Expr.vars] using hfind⟩
  | const c =>
    cases c with
    | bool b =>
      cases h
      exact ⟨.literal b, .refl _, nofun⟩
    | int i =>
      cases h
      exact ⟨.integer i, .refl _, nofun⟩
    | bitvec => cases h
  | unary op e ih =>
    cases op with
    | complement => cases h
    | not =>
      obtain ⟨t, enc₁, ht, h⟩ := outcome_bind_eq_ok_iff.1 h
      cases h
      have ht := ih ht
      exact ⟨.negation ht.term, ht.within, ht.declared⟩
    | minus =>
      obtain ⟨t, enc₁, ht, h⟩ := outcome_bind_eq_ok_iff.1 h
      cases h
      have ht := ih ht
      exact ⟨.minus ht.term, ht.within, ht.declared⟩
  | binary op left right ihl ihr =>
    cases op with
    | compare op =>
      -- the right operand is encoded on what the left one has declared
      obtain ⟨l, r, hl, hr, rfl, hwithin, hdeclared⟩ := encodes_both op.term ihl ihr h
      exact ⟨.compare op hl hr, hwithin, hdeclared⟩
    | arith op =>
      obtain ⟨l, r, hl, hr, rfl, hwithin, hdeclared⟩ :=
        encodes_both (fun l r => .app op.head [l, r]) ihl ihr h
      exact ⟨.arith op hl hr, hwithin, hdeclared⟩
    | logic op =>
      rw [Expr.encode] at h
      cases hhead : op.head? with
      | none =>
        rw [hhead] at h
        cases h
      | some head =>
        rw [hhead] at h
        obtain ⟨l, r, hl, hr, rfl, hwithin, hdeclared⟩ :=
          encodes_both (fun l r => .app head [l, r]) ihl ihr h
        exact ⟨.logic hhead hl hr, hwithin, hdeclared⟩
    | bits op => cases h
  | cast => cases h
  | quantified => cases h

end

end Interpolants
