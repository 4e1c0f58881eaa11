import Interpolants.Proofs.Decoding.Meaning
import Interpolants.Proofs.Encoding.Meaning
import Interpolants.Proofs.Encoding.Session
import Interpolants.Proofs.Expr.Agreement

/-!
# Interpolants — assignments of a session

A valuation of the variables that a session has reached is an assignment of values to the symbols
that are declared in it. If it respects types and bounds, the assignment has the declared sorts and
satisfies what is asserted about the symbols, and formulas keep their values.
-/

namespace Interpolants

namespace Smt

/-- The sort of a name. -/
def Srt.ofName? : String → Option Srt
  | "Bool" => some .bool
  | "Int" => some .int
  | _ => none

end Smt

/-- The sorts of the symbols that commands declare. -/
def Command.sorts (commands : List Sexp) : Env Smt.Srt :=
  fun name => ((commands.filterMap declared?).lookup name).bind Smt.Srt.ofName?

/-- An assignment gives the symbols that commands declare values of their sorts, and no others. -/
def Assigns (ρ : Env Smt.Value) (commands : List Sexp) : Prop :=
  ∀ name, (ρ name).map Smt.Value.srt = Command.sorts commands name

/-- A symbol that is declared as an integer is given one. -/
theorem Assigns.exists_int {ρ : Env Smt.Value} {commands : List Sexp} (h : Assigns ρ commands)
    (name : String) (hsort : Command.sorts commands name = some .int) :
    ∃ n, ρ name = some (.int n) := by
  have hname := h name
  rw [hsort] at hname
  obtain ⟨a, ha, hsrt⟩ := Option.map_eq_some_iff.1 hname
  cases a with
  | int n => exact ⟨n, ha⟩
  | bool => cases hsrt

/-- Whether a value is of a type and within its bounds. -/
def Ty.admits : Ty → Value → Bool
  | .bool, .bool _ => true
  | .int bounds, .int i => bounds.contains i
  | _, _ => false

/-- A valuation gives each of the variables a value of its type within its bounds. -/
def Valuation.Within (v : Valuation) (vs : List Variable) : Prop :=
  ∀ x ∈ vs, ∃ a, v x.name = some a ∧ x.ty.admits a = true

/-- A valuation of no other names than those of the variables. -/
def Valuation.restrict (v : Valuation) (vs : List Variable) : Valuation :=
  fun name => if vs.any (·.name == name) then v name else none

/-- The exact integer that a variable of an integer type has. -/
def Valuation.exact (v : Valuation) (name : String) : Int :=
  match v name with
  | some (.int i) => i.toInt
  | _ => 0

/-! ## Declared sorts -/

theorem Ty.sort?_bind_ofName? (ty : Ty) : ty.sort?.bind Smt.Srt.ofName? = ty.srt? := by
  cases ty <;> rfl

/-- The bounds of a variable declare nothing. -/
theorem declared?_boundAssertions (x : Variable) :
    x.boundAssertions.filterMap Command.declared? = [] := by
  unfold Variable.boundAssertions
  split
  · simp
  · rfl

/-- What is sent for a variable declares its name under its sort. -/
theorem declared?_commands (x : Variable) :
    x.commands.filterMap Command.declared? = x.ty.sort?.toList.map fun sort => (x.name, sort) := by
  cases hsort : x.ty.sort? with
  | none => simp [Variable.commands, hsort]
  | some sort => simp [Variable.commands_eq hsort, declared?_boundAssertions]

/-- A name is declared under the sort of the first variable that has it. -/
theorem lookup_declared (vs : List Variable) (hsorts : ∀ x ∈ vs, ∃ sort, x.ty.sort? = some sort)
    (name : String) :
    ((vs.flatMap Variable.commands).filterMap Command.declared?).lookup name
      = (vs.find? (·.name == name)).bind fun x => x.ty.sort? := by
  induction vs with
  | nil => rfl
  | cons x vs ih =>
    obtain ⟨sort, hsort⟩ := hsorts x List.mem_cons_self
    rw [List.flatMap_cons, List.filterMap_append, declared?_commands, hsort, List.find?_cons]
    by_cases hname : x.name = name
    · subst hname
      simp [hsort]
    · have hother : (name == x.name) = false := by simpa using fun h => hname h.symm
      simp only [Option.toList_some, List.map_cons, List.map_nil, List.cons_append, List.nil_append,
        List.lookup_cons, hother, beq_eq_false_iff_ne.2 hname]
      exact ih fun y hy => hsorts y (List.mem_cons_of_mem x hy)

/-- The symbols of a session have the sorts of the variables that it has reached. -/
theorem Coherent.sorts_commands {vs : List Variable} (h : Coherent vs) {commands : List Sexp}
    (hdeclared : commands.filterMap Command.declared?
      = (commandsFor [] vs).filterMap Command.declared?) :
    Command.sorts commands = (Registry.reaching vs).srts := by
  funext name
  have hsorts : ∀ x ∈ vs.eraseDups, ∃ sort, x.ty.sort? = some sort :=
    fun x hx => h.sorts x (List.mem_eraseDups.1 hx)
  rw [Command.sorts, hdeclared, commandsFor_of_nil, lookup_declared _ hsorts, Option.bind_assoc]
  simp only [Ty.sort?_bind_ofName?]
  rfl

/-! ## Values -/

/-- A value that a type admits has a counterpart of the sort of the type. -/
theorem Ty.exists_smt?_of_admits {ty : Ty} {a : Value} (h : ty.admits a = true) :
    ∃ b, a.smt? = some b ∧ ty.srt? = some b.srt := by
  unfold Ty.admits at h
  split at h
  · exact ⟨_, rfl, rfl⟩
  · exact ⟨_, rfl, rfl⟩
  · cases h

/-- What evaluation asks for is written in the formula. -/
theorem Expr.eval_congr {v v' : Valuation} {e : Expr} (h : ∀ x ∈ e.vars, v x.name = v' x.name) :
    e.eval v = e.eval v' := by
  refine eval_congr_of_reads fun n hn => ?_
  obtain ⟨x, hx, rfl⟩ := exists_of_mem_freeVariables (mem_freeVariables_of_mem_reads hn)
  exact h x hx

section

variable {vs : List Variable} {v : Valuation}

theorem Valuation.restrict_of_mem {x : Variable} (hx : x ∈ vs) :
    v.restrict vs x.name = v x.name :=
  if_pos (List.any_eq_true.2 ⟨x, hx, by simp⟩)

theorem Valuation.exists_of_restrict {name : String} {a : Value} (h : v.restrict vs name = some a) :
    (∃ x ∈ vs, x.name = name) ∧ v name = some a := by
  obtain ⟨hany, ha⟩ := Option.ite_none_right_eq_some.1 h
  obtain ⟨x, hx, hname⟩ := List.any_eq_true.1 hany
  exact ⟨⟨x, hx, eq_of_beq hname⟩, ha⟩

namespace Valuation.Within

/-- A valuation of variables within their types gives no bitvectors. -/
theorem scalar (h : v.Within vs) : (v.restrict vs).Scalar := by
  intro name a ha
  obtain ⟨⟨x, hx, rfl⟩, ha⟩ := Valuation.exists_of_restrict ha
  obtain ⟨a', ha', hadmits⟩ := h x hx
  rw [ha] at ha'
  cases ha'
  obtain ⟨b, hb, -⟩ := Ty.exists_smt?_of_admits hadmits
  exact ⟨b, hb⟩

/-- A valuation of variables within their types gives values of their sorts. -/
theorem sorted (h : v.Within vs) (hvs : Coherent vs) : v.Sorted (.reaching vs) := by
  intro name x τ hx hτ
  obtain ⟨hmem, rfl⟩ := hvs.find?_eq_some_iff.1 hx
  obtain ⟨a, ha, hadmits⟩ := h x hmem
  obtain ⟨b, hb, hsrt⟩ := Ty.exists_smt?_of_admits hadmits
  rw [hsrt, Option.some.injEq] at hτ
  exact ⟨a, b, ha, hb, hτ⟩

/-- **A valuation is an assignment of the symbols that are declared.** -/
theorem assigns (h : v.Within vs) (hvs : Coherent vs) {commands : List Sexp}
    (hsorts : Command.sorts commands = (Registry.reaching vs).srts) :
    Assigns (v.restrict vs).smt commands := by
  intro name
  rw [hsorts, Registry.srts]
  cases hfind : (Registry.reaching vs).find? name with
  | none =>
    -- what no variable is called has no value
    have hnone : v.restrict vs name = none := by
      rw [Option.eq_none_iff_forall_ne_some]
      intro a ha
      obtain ⟨⟨x, hx, hname⟩, -⟩ := Valuation.exists_of_restrict ha
      rw [hvs.find?_eq_some_iff.2 ⟨hx, hname⟩] at hfind
      cases hfind
    rw [Valuation.smt, hnone]
    rfl
  | some x =>
    obtain ⟨hmem, rfl⟩ := hvs.find?_eq_some_iff.1 hfind
    obtain ⟨a, ha, hadmits⟩ := h x hmem
    obtain ⟨b, hb, hsrt⟩ := Ty.exists_smt?_of_admits hadmits
    have hvalue : (v.restrict vs).smt x.name = some b := by
      rw [Valuation.smt, Valuation.restrict_of_mem hmem, ha]
      exact hb
    rw [hvalue, Option.bind_some, hsrt]
    rfl

/-- What is asserted about the declared symbols is true. -/
theorem satisfied (h : v.Within vs) (hvs : Coherent vs) {zero : Smt.ByZero}
    {I : Interpretation Smt.Value} (hI : Smt.Computes zero I)
    (hnames : ∀ x ∈ vs, x.name ≠ "true" ∧ x.name ≠ "false") :
    ∀ c ∈ commandsFor [] vs, Command.Satisfied I (v.restrict vs).smt c := by
  -- within its bounds a variable has the word that it has as an exact integer
  have hword : ∀ x ∈ vs, ∀ b, x.ty = .int b →
      ∃ i : Int64, v x.name = some (.int i) ∧ v.exact x.name = i.toInt ∧ b.contains i = true := by
    intro x hx b hty
    obtain ⟨a, ha, hadmits⟩ := h x hx
    rw [hty] at hadmits
    cases a with
    | int i => exact ⟨i, ha, by rw [Valuation.exact, ha], hadmits⟩
    | bool | bitvec => cases hadmits
  have hvalues : ∀ x ∈ vs, ∀ b, x.ty = .int b →
      (Sexp.symbol x.name).interpret I (v.restrict vs).smt = some (.int (v.exact x.name)) := by
    intro x hx b hty
    obtain ⟨i, hv, hi, -⟩ := hword x hx b hty
    obtain ⟨htrue, hfalse⟩ := hnames x hx
    show (if _ then _ else if _ then _ else (v.restrict vs).smt x.name) = _
    rw [if_neg htrue, if_neg hfalse, Valuation.smt, Valuation.restrict_of_mem hx, hv, hi]
    rfl
  rw [commandsFor_of_nil, satisfied_commands hI hvs hvalues]
  intro x hx b hty
  obtain ⟨i, -, hi, hcontains⟩ := hword x (List.mem_eraseDups.1 hx) b hty
  rw [hi]
  exact Bounds.allows_toInt.2 hcontains

end Valuation.Within

end

end Interpolants
