import Interpolants.Number.Decimal
import Interpolants.Sexp.Basic

/-!
# Interpolants — interpreting terms

A solver's term can stand for many things: for a formula, for a value under an assignment, for a
sort. In each case names are scoped in the same way, so the recursion over the term is written once:
`Sexp.interpret` follows an `Interpretation`, which says what the parts of a term stand for, in an
environment, which says what the names do.

* The literals `true` and `false` are never looked up.
* `(let ((name term) …) body)` interprets the terms in the environment of the block and the body in
  that environment extended by all the names at once; of two equal names the later counts.
* `(head args …)` interprets all the arguments and then applies the head, except that a minus sign
  before a numeral is the written form of a negative number.
* Nothing else is a term.
-/

namespace Interpolants

/-- What the parts of terms stand for. -/
structure Interpretation (α : Type) where
  literal : Bool → α
  numeral : UInt64 → Option α
  /-- A minus sign applied to a numeral. -/
  negative : UInt64 → Option α
  apply : String → List α → Option α

/-- What names stand for. -/
abbrev Env (α : Type) : Type :=
  String → Option α

/-- The environment in which some names are bound, the first entry of a name before the others. -/
def Env.extend {α : Type} (env : Env α) (entries : List (String × α)) :
    Env α :=
  fun name => (entries.lookup name).or (env name)

/-- Names that are bound in two steps are those of the second before those of the first. -/
theorem Env.extend_append {α : Type} (env : Env α) (inner scope : List (String × α)) :
    env.extend (inner ++ scope) = (env.extend scope).extend inner := by
  funext name
  simp only [Env.extend, List.lookup_append, Option.or_assoc]

/-- The name that an atom binds in a let block. -/
def Atom.name : Atom → String
  | .numeral n => String.ofList (Decimal.digits n.toNat)
  | .symbol s => s

namespace Sexp

/-- The magnitude of a number that is written with a minus sign. -/
def magnitude? : String → List Sexp → Option UInt64
  | "-", [.atom (.numeral n)] => some n
  | _, _ => none

/-- A number with a minus sign is the sign applied to its magnitude. -/
theorem magnitude?_eq_some_iff {head : String} {args : List Sexp} {n : UInt64} :
    magnitude? head args = some n ↔ head = "-" ∧ args = [.numeral n] := by
  constructor
  · intro h
    unfold magnitude? at h
    split at h
    · cases h
      exact ⟨rfl, rfl⟩
    · cases h
  · rintro ⟨rfl, rfl⟩
    rfl

section

variable {α : Type} (I : Interpretation α)

mutual

/-- What a term stands for in an environment, if anything. -/
def interpret (env : Env α) : Sexp → Option α
  | .atom (.numeral n) => I.numeral n
  | .atom (.symbol s) =>
    if s = "true" then some (I.literal true)
    else if s = "false" then some (I.literal false)
    else env s
  | .list (.atom (.symbol head) :: args) =>
    if head = "let" then
      match args with
      | [.list entries, body] =>
        (interpretEntries env [] entries).bind fun inner => interpret (env.extend inner) body
      | _ => none
    else
      match magnitude? head args with
      | some n => I.negative n
      | none => (interpretAll env args).bind (I.apply head)
  | _ => none

/-- What some terms stand for, if they all stand for something. -/
def interpretAll (env : Env α) : List Sexp → Option (List α)
  | [] => some []
  | t :: ts =>
    (interpret env t).bind fun a => (interpretAll env ts).bind fun as => some (a :: as)

/-- What the names of a let block stand for, put before what is already in `inner`. -/
def interpretEntries (env : Env α) (inner : List (String × α)) :
    List Sexp → Option (List (String × α))
  | [] => some inner
  | .list [.atom name, bound] :: entries =>
    (interpret env bound).bind fun a => interpretEntries env ((name.name, a) :: inner) entries
  | _ => none

end

/-! ## What an interpretation does with a list -/

variable {I} {env : Env α}

/-- An application stands for its operator on what its arguments stand for, but for a number with a
minus sign. -/
theorem interpret_app {head : String} (hlet : head ≠ "let") (args : List Sexp) :
    (app head args).interpret I env =
      match magnitude? head args with
      | some n => I.negative n
      | none => (interpretAll I env args).bind (I.apply head) := by
  show interpret I env (.list (.atom (.symbol head) :: args)) = _
  rw [interpret.eq_def]
  exact if_neg hlet

/-- A let block stands for its body, where its names are bound. -/
theorem interpret_let (entries : List Sexp) (body : Sexp) :
    (app "let" [.list entries, body]).interpret I env =
      (interpretEntries I env [] entries).bind fun inner => body.interpret I
      (env.extend inner) := by
  show interpret I env (.list [.atom (.symbol "let"), .list entries, body]) = _
  rw [interpret.eq_def]
  exact if_pos rfl

/-- An application of `let` to anything but entries and a body stands for nothing. -/
theorem interpret_let_eq_none {args : List Sexp}
    (h : ∀ entries body, args ≠ [.list entries, body]) :
    (app "let" args).interpret I env = none := by
  show interpret I env (.list (.atom (.symbol "let") :: args)) = _
  rw [interpret.eq_def]
  refine (if_pos rfl).trans ?_
  split
  · exact absurd rfl (h _ _)
  · rfl

variable (I) in
/-- What stands behind the entries of a let block stands for something if it is one term. -/
def interpretBody (env : Env α) : List Sexp → Option α
  | [body] => body.interpret I env
  | _ => none

/-- A let block with any number of bodies stands for something if it has one. -/
theorem interpret_block (entries ts : List Sexp) :
    (list (symbol "let" :: list entries :: ts)).interpret I env
      = (interpretEntries I env [] entries).bind fun inner =>
          interpretBody I (env.extend inner) ts := by
  match ts with
  | [body] => exact interpret_let entries body
  | [] | _ :: _ :: _ =>
    refine (interpret_let_eq_none fun _ _ heq => by cases heq).trans ?_
    cases interpretEntries I env [] entries <;> rfl

end

end Sexp

end Interpolants
