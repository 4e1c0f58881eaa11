import Interpolants.Solver.Reply
import Interpolants.Text.Lines
import Interpolants.Text.Utf8

/-!
# Interpolants — a solver process seen through its pipes

A `Child` reads lines and answers each request for the marker with the next of its replies; other
lines get no answer. A reply may end the process, which then reads no more.

A session need not wait for the process: it waits where it asks for the marker, unless it finds the
end of a reading in what was written before. What the process is told is noted at once, with what it
writes for it, since a session reads nothing else however long the process takes. Only what it has
surely done by now depends on the waiting (`Child.answered`): a session that ends stops the process,
with the rest of what it was told unread.
-/

namespace Interpolants

open Text

/-- What a process writes when it is asked for the marker. -/
structure ScriptedReply where
  text : String := ""
  /-- Bytes behind the text, which need not be UTF-8. -/
  bytes : List UInt8 := []
  /-- The line behind the reply, if any. -/
  marker : Option String := some (String.ofList Reply.marker)
  /-- Whether the process closes its input before it writes and ends after it. -/
  closes : Bool := false

/-- The lines that a reply writes, as bytes. -/
def ScriptedReply.lines (reply : ScriptedReply) : List (List UInt8) :=
  terminated 10 (utf8 reply.text.toList ++ reply.bytes) ++
    match reply.marker with
    | some marker => pieces 10 (utf8 marker.toList)
    | none => []

/-- The text of a line as it is read, unless the line is no UTF-8. Blanks at its end are dropped. -/
def Connection.lineText? (line : List UInt8) : Option (List Char) :=
  (ofUtf8? line).map trimEnd

/-- Whether a request reads no further than a line. -/
def Connection.endsReading (line : List UInt8) : Bool :=
  match lineText? line with
  | some text => Reply.isMarker text
  | none => true

/-- A solver process. -/
structure Child where
  /-- The replies still to be given; behind the last they are empty. -/
  replies : List ScriptedReply
  /-- Whether it still reads its input. -/
  listening : Bool := true
  /-- The lines it reads, requests for the marker aside, oldest first. -/
  heard : List String := []
  /-- The lines it had read when it gave the last answer that a session has waited for. -/
  answered : List String := []
  /-- The lines it writes that nobody has read yet. -/
  output : List (List UInt8) := []
  /-- How many of the last lines of the output it writes since a session has waited for it. -/
  pending : Nat := 0

namespace Child

/-- Answers a request for the marker. -/
def answer (c : Child) : Child :=
  let reply := c.replies.headD {}
  { c with
    replies := c.replies.drop 1
    listening := !reply.closes
    output := c.output ++ reply.lines
    pending := c.pending + reply.lines.length }

/-- Reads a line, if it still reads. -/
def hearLine (c : Child) (line : List Char) : Child :=
  if !c.listening then c
  else if line = Reply.echoRequest then c.answer
  else { c with heard := c.heard ++ [String.ofList line] }

/-- Whether a session that asks for the marker has to wait: no reading ends in what is surely
written. -/
def awaited (c : Child) : Bool :=
  (c.output.take (c.output.length - c.pending)).all fun line => !Connection.endsReading line

/-- Has done all that it was told. -/
def caughtUp (c : Child) : Child :=
  { c with answered := c.heard, pending := 0 }

/-- Reads a message, which a line end follows. A session waits for the answer to its request if it
has to; no command is printed like one. -/
def hear (c : Child) (message : List Char) : Child :=
  let told := (pieces '\n' message).foldl hearLine c
  if message = Reply.echoRequest ∧ c.listening ∧ c.awaited then told.caughtUp else told

end Child

end Interpolants
