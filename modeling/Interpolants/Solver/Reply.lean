import Interpolants.Sexp.Parser
import Interpolants.Sexp.Printer
import Interpolants.Solver.Answer
import Interpolants.Text.Lines

/-!
# Interpolants — reading a solver's replies

After each command with a reply the solver is asked to echo a marker, so that the end of a reply can
be seen. A reply is the lines before the marker, without acknowledgements of commands. An error that
the solver reports anywhere in a reply counts before any answer in it.
-/

namespace Interpolants.Reply

open Text

/-- The line that ends a reply. -/
def marker : List Char :=
  "<<DONE>>".toList

/-- The request for the marker. -/
def echoRequest : List Char :=
  "(echo \"".toList ++ marker ++ "\")".toList

/-- Whether a line ends a reply. Some solvers echo a string with its quotes. -/
def isMarker (line : List Char) : Bool :=
  line == marker || line == '"' :: marker ++ ['"']

/-- Whether a line acknowledges a command. -/
def isAcknowledgement (line : List Char) : Bool :=
  trim line == "success".toList

/-- The message of the first reported error. -/
def errorMessage? (items : List Sexp) : Option String :=
  items.findSome? fun item =>
    match item.app? with
    | some ("error", [text]) => text.symbol?
    | _ => none

/-- The message of the first error reported in a reply, or the whole reply if none is found. -/
def errorText (reply : String) : String :=
  match Sexp.parseMany reply with
  | .ok items => (errorMessage? items).getD reply
  | .error _ => reply

/-- The single s-expression of a reply. -/
def single (reply : String) : Except SolverError Sexp :=
  match Sexp.parseMany reply with
  | .error _ => .error (.unreadable reply)
  | .ok items =>
    match errorMessage? items with
    | some text => .error (.stopped text)
    | none =>
      match items with
      | [item] => .ok item
      | _ => .error (.unreadable reply)

/-- The value under a keyword, from a list of the two. -/
def info (keyword : String) (reply : Sexp) : Except SolverError Sexp :=
  match reply with
  | .list [key, value] =>
    if key.symbol? = some keyword then .ok value else .error (.unreadable reply.render)
  | _ => .error (.unreadable reply.render)

/-- The terms of a list. -/
def terms (reply : Sexp) : Except SolverError (List Sexp) :=
  match reply with
  | .list items => .ok items
  | _ => .error (.unreadable reply.render)

end Interpolants.Reply
