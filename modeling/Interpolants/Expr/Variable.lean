import Interpolants.Expr.Ty

/-!
# Interpolants — variables

A `Registry` is the set of declared variables. It knows each name at most once and keeps the order
in which the names were first declared.
-/

namespace Interpolants

/-- A named, typed variable. -/
structure Variable where
  name : String
  ty : Ty
deriving DecidableEq, Repr

/-- The declared variables, in the order of their declaration. -/
structure Registry where
  entries : List Variable
deriving DecidableEq

namespace Registry

/-- No variable is declared. -/
def empty : Registry :=
  ⟨[]⟩

/-- The declared variable of a name. -/
def find? (r : Registry) (name : String) : Option Variable :=
  r.entries.find? (·.name == name)

/-- Declares a variable. An earlier one of the same name is forgotten. -/
def insert (r : Registry) (v : Variable) : Registry :=
  ⟨r.entries.filter (·.name != v.name) ++ [v]⟩

/-- Declares some variables in turn, so that the last of each name stays. -/
def ofList (vs : List Variable) : Registry :=
  vs.foldl insert empty

/-- An entry found under a name has that name. -/
theorem name_of_find? {r : Registry} {name : String} {v : Variable} (h : r.find? name = some v) :
    v.name = name := by
  simpa using List.find?_some h

theorem find?_insert_self (r : Registry) (v : Variable) : (r.insert v).find? v.name = some v := by
  have : List.find? (fun _ => false) r.entries = none := by simp
  simp [find?, insert, List.find?_append, List.find?_filter, this]

theorem find?_insert_of_ne (r : Registry) {v : Variable} {name : String} (h : name ≠ v.name) :
    (r.insert v).find? name = r.find? name := by
  have other : (v.name == name) = false := by simpa using fun e => h e.symm
  simp only [find?, insert, List.find?_append, List.find?_filter, List.find?_cons, other,
    List.find?_nil, Option.or_none]
  congr 1
  funext w
  by_cases hw : w.name = name
  · simp [hw, h]
  · simp [hw]

end Registry

end Interpolants
