import Interpolants.Decoding.LetBlock
import Interpolants.Decoding.Term

/-!
# Interpolants — decoding terms

A text is decoded in two passes. First its let blocks, from left to right, are each decoded on their
own and replaced in the text by a placeholder that stands for the decoded body. The text left has no
let block and is read as a term. Bound terms are decoded in the enclosing scope and only the body
sees the new names.

Each round removes a let block and adds no parenthesis, and the parts of a block have fewer
parentheses than the block: so the number of opening parentheses bounds the depth of the recursion,
which `fuel` counts. The table of decoded blocks outlives the text, so that no placeholder is used
twice in a session.
-/

namespace Interpolants

/-- A step that may fail and keeps the table of decoded let blocks either way. -/
abbrev Decode (α : Type) : Type :=
  ExceptT DecodeError (StateM Bindings) α

namespace Decode

/-- The placeholder for the next let block. -/
def placeholder (blocks : Bindings) : List Char :=
  "#let".toList ++ Decimal.digits blocks.length

/-- Enters a decoded let block under a new placeholder. -/
def enter (body : Expr) : Decode (List Char) := do
  let blocks ← get
  set ((String.ofList (placeholder blocks), body) :: blocks)
  return placeholder blocks

/-- Decodes some bound terms and puts their names before the bindings of `inner`. -/
def bindAll (decode : List Char → Decode Expr) :
    Bindings → List (String × List Char) → Decode Bindings
  | inner, [] => return inner
  | inner, (name, bound) :: more => do
    let e ← decode bound
    bindAll decode ((name, e) :: inner) more

/-- Decodes a let block in a scope. -/
def block (decode : Bindings → List Char → Decode Expr) (scope : Bindings) (text : List Char) :
    Decode Expr := do
  let parts := LetBlock.ofText text
  let inner ← bindAll (decode scope) scope parts.bindings
  match parts.body with
  | .ok body => decode inner body
  | .error e => throw e

/-- Reads a text without let blocks, in a scope. -/
def plain (declared : Registry) (scope : Bindings) (text : List Char) : Decode Expr := do
  match wholeTerm ⟨scope, ← get, declared⟩ text with
  | .ok e => return e
  | .error e => throw e

/-- Replaces the let blocks of a text by placeholders. -/
def resolve (declared : Registry) : Nat → Bindings → List Char → Decode (List Char)
  | 0, _, text => return text
  | fuel + 1, scope, text =>
    match splitAtLet text with
    | none => return text
    | some (before, here) =>
      match enclosed here with
      | none => throw (.unbalanced here)
      | some (found, after) => do
        let decode (inner : Bindings) (part : List Char) : Decode Expr := do
          plain declared inner (← resolve declared fuel inner part)
        let body ← block decode scope found
        -- the blocks inside this one are numbered before it
        let key ← enter body
        resolve declared fuel scope (before ++ key ++ after)

/-- Decodes a text in a scope. -/
def inScope (declared : Registry) (scope : Bindings) (text : List Char) : Decode Expr := do
  plain declared scope (← resolve declared (text.count '(' + 1) scope text)

/-- Decodes a text, with the blocks decoded before in the same session. -/
def run (declared : Registry) (blocks : Bindings) (text : String) :
    Except DecodeError Expr × Bindings :=
  StateT.run (ExceptT.run (inScope declared [] text.toList)) blocks

end Decode

/-- Decodes some texts in one session. A text that fails does not stop the others. -/
def decodeEachFrom (declared : Registry) : Bindings → List String →
    List (Except DecodeError Expr)
  | _, [] => []
  | blocks, text :: more =>
    (Decode.run declared blocks text).1 ::
      decodeEachFrom declared (Decode.run declared blocks text).2 more

/-- Decodes some texts in one new session. -/
def decodeEach (declared : Registry) (texts : List String) : List (Except DecodeError Expr) :=
  decodeEachFrom declared [] texts

/-- Decodes a text in a session of its own. -/
def decode (declared : Registry) (text : String) : Except DecodeError Expr :=
  (Decode.run declared [] text).1

end Interpolants
