import Interpolants.Encoding
import Interpolants.Proofs.Number.Word
import Interpolants.Proofs.Script.Command

/-!
# Interpolants — bounds as assertions

A session is told the bounds of a variable as assertions over exact integers. They say what the
bounds say: the assertions of a variable are satisfied exactly if its value is within the bounds,
for the least and the greatest word as bounds and for bounds that no integer is within.
-/

namespace Interpolants

/-- Whether an integer, of any size, lies within bounds. -/
def Bounds.Allows (b : Bounds) (n : Int) : Prop :=
  (∀ lo, b.min = some lo → lo.toInt ≤ n) ∧ ∀ hi, b.max = some hi → n ≤ hi.toInt

/-- For words this is what `Bounds.contains` decides. -/
theorem Bounds.allows_toInt {b : Bounds} {i : Int64} : b.Allows i.toInt ↔ b.contains i = true := by
  rw [Bounds.contains_iff]
  simp only [Int64.le_iff_toInt_le, Bounds.Allows]

namespace Smt

/-- An interpretation that computes with integers as the solver's language does. -/
structure Computes (zero : ByZero) (I : Interpretation Value) : Prop where
  numeral : ∀ n, I.numeral n = some (.int n.toNat)
  negative : ∀ n, I.negative n = some (.int (-(n.toNat : Int)))
  apply : ∀ {head as a}, Smt.apply zero head as = some a → I.apply head as = some a

theorem computes_values (zero : ByZero) : Computes zero (values zero) :=
  ⟨fun _ => rfl, fun _ => rfl, id⟩

/-- Integer terms under an assignment of integers to all names. In an integer term there are no
literals, so `true` and `false` are names like any other. -/
def integers (zero : ByZero) (ρ : String → Int) : Interpretation Value :=
  { values zero with literal := fun b => .int (ρ (if b then "true" else "false")) }

theorem computes_integers (zero : ByZero) (ρ : String → Int) : Computes zero (integers zero ρ) :=
  ⟨fun _ => rfl, fun _ => rfl, id⟩

/-- An assignment of integers as an environment. -/
def integerEnv (ρ : String → Int) : Env Value :=
  fun name => some (.int (ρ name))

/-- A symbol is the integer that is assigned to its name. -/
theorem interpret_symbol_integers (zero : ByZero) (ρ : String → Int) (name : String) :
    (Sexp.symbol name).interpret (integers zero ρ) (integerEnv ρ) = some (.int (ρ name)) := by
  show (if _ then _ else if _ then _ else _) = _
  split
  · next h => rw [h]; rfl
  · split
    · next h => rw [h]; rfl
    · rfl

end Smt

section

variable {zero : Smt.ByZero} {I : Interpretation Smt.Value} {env : Env Smt.Value}

/-- The term of a word has the word as its value, the least one included. -/
theorem Smt.Computes.interpret_intTerm (hI : Smt.Computes zero I) (i : Int64) :
    (intTerm i).interpret I env = some (.int i.toInt) := by
  have hmagnitude := Word.toNat_magnitude i
  unfold intTerm
  split
  · next hneg =>
    rw [Word.neg_iff] at hneg
    -- the magnitude of a negative word is its negation, also of the least one
    have hsign : -((Word.magnitude i).toNat : Int) = i.toInt := by omega
    rw [Sexp.interpret_app (by decide), ← hsign]
    exact hI.negative _
  · next hneg =>
    rw [Word.neg_iff] at hneg
    have hsign : ((Word.magnitude i).toNat : Int) = i.toInt := by omega
    rw [← hsign]
    exact hI.numeral _

/-- A bound on a variable is the comparison of its value with the word. -/
theorem Smt.Computes.interpret_bound (hI : Smt.Computes zero I) (head : String) {name : String}
    (i : Int64) {n : Int} {b : Bool} (hhead : head ≠ "let") (hminus : head ≠ "-")
    (hname : (Sexp.symbol name).interpret I env = some (.int n))
    (happly : Smt.apply zero head [.int n, .int i.toInt] = some (.bool b)) :
    (Sexp.app head [.symbol name, intTerm i]).interpret I env = some (.bool b) := by
  have hmagnitude : Sexp.magnitude? head [.symbol name, intTerm i] = none := by
    rw [Option.eq_none_iff_forall_ne_some]
    intro m hm
    exact hminus (Sexp.magnitude?_eq_some_iff.1 hm).1
  rw [Sexp.interpret_app hhead, hmagnitude]
  simp only [Sexp.interpretAll, hname, hI.interpret_intTerm, Option.bind_some]
  exact hI.apply happly

/-- The assertions of a variable compare it with words. -/
theorem Variable.exists_of_mem_boundAssertions {x : Variable} {c : Sexp}
    (h : c ∈ x.boundAssertions) : ∃ i,
      c = Command.assertTerm (.app ">=" [.symbol x.name, intTerm i]) ∨
      c = Command.assertTerm (.app "<=" [.symbol x.name, intTerm i]) := by
  unfold boundAssertions at h
  split at h
  · rcases List.mem_append.1 h with h | h
    · obtain ⟨lo, -, rfl⟩ := List.mem_map.1 h
      exact ⟨lo, .inl rfl⟩
    · obtain ⟨hi, -, rfl⟩ := List.mem_map.1 h
      exact ⟨hi, .inr rfl⟩
  · cases h

/-- The assertions of an integer variable say that its value is within its bounds. -/
theorem Smt.Computes.satisfied_boundAssertions (hI : Smt.Computes zero I) {x : Variable}
    {bounds : Bounds} (hty : x.ty = .int bounds) {n : Int}
    (hx : (Sexp.symbol x.name).interpret I env = some (.int n)) :
    (∀ c ∈ x.boundAssertions, Command.Satisfied I env c) ↔ bounds.Allows n := by
  have hlow : ∀ lo, Command.Satisfied I env
      (Command.assertTerm (.app ">=" [.symbol x.name, intTerm lo])) ↔ lo.toInt ≤ n := by
    intro lo
    have hvalue := hI.interpret_bound ">=" lo (by decide) (by decide) hx rfl
    show (∀ t, some _ = some t → _) ↔ _
    simp [hvalue]
  have hhigh : ∀ hi, Command.Satisfied I env
      (Command.assertTerm (.app "<=" [.symbol x.name, intTerm hi])) ↔ n ≤ hi.toInt := by
    intro hi
    have hvalue := hI.interpret_bound "<=" hi (by decide) (by decide) hx rfl
    show (∀ t, some _ = some t → _) ↔ _
    simp [hvalue]
  -- each bound that there is has its assertion, and a bound that there is not asks for nothing
  obtain ⟨min, max⟩ := bounds
  simp only [Variable.boundAssertions, hty, List.forall_mem_append, List.forall_mem_map,
    Option.mem_toList, hlow, hhigh, Bounds.Allows]

end

end Interpolants
