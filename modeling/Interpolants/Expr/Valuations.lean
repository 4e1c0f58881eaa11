import Interpolants.Expr.Eval

/-!
# Interpolants — all valuations over a range

To compare formulas by brute force, every valuation is listed in which the integers stay within a
range and within their own bounds.
-/

namespace Interpolants

/-- Every way to choose one element of each list, in lexicographic order: the choice from the last
list varies fastest. -/
def choices {α : Type} : List (List α) → List (List α)
  | [] => [[]]
  | options :: others => options.flatMap fun a => (choices others).map (a :: ·)

/-- The words from `lo` to `hi`, both included, in ascending order. -/
def wordsBetween (lo hi : Int64) : List Int64 :=
  (List.range (hi.toInt - lo.toInt + 1).toNat).map fun (i : Nat) => Int64.ofInt (lo.toInt + i)

/-- The values that a variable of a type takes if integers stay between `lo` and `hi`. A bitvector
takes none. -/
def Ty.domain (lo hi : Int64) : Ty → List Value
  | .bool => [.bool false, .bool true]
  | .int bounds => ((wordsBetween lo hi).filter bounds.contains).map .int
  | .bitvec _ => []

/-- Every valuation of the variables in which integers stay between `lo` and `hi`. Without variables
there is one, which is empty. -/
def valuations (vars : List Variable) (lo hi : Int64) : List Valuation :=
  (choices (vars.map fun x => x.ty.domain lo hi)).map fun values =>
    Valuation.ofList ((vars.map Variable.name).zip values)

/-- A choice from a list and some others is one element of the list and a choice from the others. -/
theorem mem_choices_cons {α : Type} {options : List α} {others : List (List α)} {c : List α} :
    c ∈ choices (options :: others) ↔ ∃ a ∈ options, ∃ d ∈ choices others, c = a :: d := by
  simp only [choices, List.mem_flatMap, List.mem_map, eq_comm]

theorem length_of_mem_choices {α : Type} {options : List (List α)} {c : List α}
    (h : c ∈ choices options) : c.length = options.length := by
  induction options generalizing c with
  | nil => simp_all [choices]
  | cons l ls ih =>
    obtain ⟨a, _, d, hd, rfl⟩ := mem_choices_cons.1 h
    simp [ih hd]

end Interpolants
