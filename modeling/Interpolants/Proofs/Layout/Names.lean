import Interpolants.Proofs.Layout.Passes

/-!
# Interpolants — the names of a tree

Which tokens of a tree are names: those that stand for a term and are no literal, and those that let
blocks bind. Operators are none, as nothing is looked up for them.
-/

namespace Interpolants

namespace TokenTree

/-- Whether a token is a truth value or a numeral, and so no name. -/
def isLiteral (token : List Char) : Bool :=
  token == "true".toList || token == "false".toList || Decimal.isNumeral token

/-- The formula of a truth value or a numeral. -/
def literal? (token : List Char) : Option Expr :=
  if token = "true".toList then some (.literal true)
  else if token = "false".toList then some (.literal false)
  else (Word.signed? (Decimal.value token)).map .integer

/-- A token is a literal or stands for the formula under its name. -/
theorem toOption_leaf (names : Names) (token : List Char) :
    (names.leaf token).toOption
      = if isLiteral token then literal? token else names.find? (unquote token) := by
  unfold Names.leaf isLiteral literal?
  by_cases htrue : token = "true".toList
  · simp [htrue]
    rfl
  · by_cases hfalse : token = "false".toList
    · simp [hfalse]
      rfl
    · by_cases hnumeral : Decimal.isNumeral token = true
      · simp only [htrue, hfalse, hnumeral, if_true, if_false, Bool.or_true]
        cases Word.signed? (Decimal.value token) <;> rfl
      · simp only [htrue, hfalse, hnumeral, if_false, beq_iff_eq, Bool.or_eq_true, or_self]
        cases names.find? (unquote token) <;> rfl

mutual

/-- The names that a tree uses or binds. -/
def names : TokenTree → List String
  | leaf token => if isLiteral token then [] else [unquote token]
  | node (leaf op :: args) => if op = "let".toList then namesOfParts args else namesOfAll args
  | node items => namesOfAll items

def namesOfAll : List TokenTree → List String
  | [] => []
  | t :: ts => names t ++ namesOfAll ts

def namesOfParts : List TokenTree → List String
  | node entries :: ts => namesOfEntries entries ++ namesOfAll ts
  | _ => []

def namesOfEntries : List TokenTree → List String
  | node [leaf name, bound] :: entries => unquote name :: names bound ++ namesOfEntries entries
  | _ => []

end

variable {items : List TokenTree}

/-- The names in the parentheses of an application. -/
def namesOfItems : List TokenTree → List String
  | leaf _ :: args => namesOfAll args
  | items => namesOfAll items

/-- The names of a list that is no let block are those of its items. -/
theorem names_node (h : isLet (node items) = false) : names (node items) = namesOfItems items := by
  match items with
  | [] => rfl
  | [leaf op] =>
    rw [names, namesOfItems]
    split <;> rfl
  | leaf op :: _ :: _ => rw [names, if_neg (beq_eq_false_iff_ne.1 h), namesOfItems]
  | node inside :: args => rw [names, namesOfItems] <;> nofun

/-- The names of a let block are those of its parts, the word `let` aside. -/
theorem names_let (args : List TokenTree) :
    names (node (leaf "let".toList :: args)) = namesOfParts args := by
  rw [names, if_pos rfl]

end TokenTree

end Interpolants
