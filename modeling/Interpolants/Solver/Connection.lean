import Interpolants.Solver.Child
import Interpolants.Solver.Invocation
import Interpolants.Solver.Place
import Interpolants.Solver.Session
import Interpolants.Solver.Transcript

/-!
# Interpolants — sessions with a solver process

Commands are written to the process one a line, and replies are read up to the marker. A command
that cannot be delivered is noticed at the next reply. With a transcript, each command is recorded
whether or not it is delivered.
-/

namespace Interpolants

open Text

/-- A session with a solver process, and what it can reach: the one program of the machine, which
behaves as `child`, and a folder for transcripts. -/
structure Connection where
  invocation : Invocation
  program : String
  child : Child
  folder : Folder
  transcript : Option Transcript := none
  /-- Whether a command could not be delivered since the last attempt to get a reply. -/
  undelivered : Bool := false

namespace Connection

/-- Why the invocation cannot be launched, if it cannot. Whatever the name of another program than
the machine's one leads to is no program. -/
def launchFault? (p : Connection) : Option IoFault :=
  if (p.invocation.program :: p.invocation.args).any (·.toList.contains '\x00') then
    some .nullCharacter
  else if p.invocation.program = p.program then none
  else
    match Place.ofPath p.invocation.program with
    | .error fault => some fault
    | .ok _ => some .notPermitted

/-- Records an entry, if there is a transcript. -/
def record (p : Connection) (entry : Sexp) : Connection :=
  { p with transcript := p.transcript.map (·.add entry) }

/-- Writes a line to the process; nothing more is written behind a failure. -/
def deliver (p : Connection) (message : List Char) : Connection :=
  if p.undelivered then p
  else if p.child.listening then { p with child := p.child.hear message }
  else { p with undelivered := true }

/-- Sends a command. -/
def send (p : Connection) (command : Sexp) : Connection :=
  (p.record command).deliver command.chars

/-- Annotates the transcript, behind an empty line. -/
def comment (p : Connection) (text : String) : Connection :=
  (p.record (.comment "")).record (.comment text)

/-- Saves the transcript so far, and whether that was possible. -/
def save (p : Connection) : Bool × Connection :=
  match p.transcript.bind p.folder.save? with
  | some folder => (true, { p with folder := folder })
  | none => (false, p)

/-- The reply made of the lines up to the marker, and the lines behind it. Acknowledgements and the
blanks at the end of the reply are dropped. A line that is no UTF-8 is gone once it is read, but
what stands behind it is not. -/
def collect : List (List Char) → List (List UInt8) →
    Except SolverError String × List (List UInt8)
  | kept, [] => (.error (.stopped (Reply.errorText (String.ofList (unlines kept)))), [])
  | kept, line :: rest =>
    match lineText? line with
    | none => (.error (.io .invalidUtf8), rest)
    | some text =>
      if Reply.isMarker text then (.ok (String.ofList (trimEnd (unlines kept))), rest)
      else collect (if Reply.isAcknowledgement text then kept else kept ++ [text]) rest

/-- Asks for the marker and reads everything up to it. -/
def reply : Step Connection String := do
  let p ← get
  if p.undelivered || !p.child.listening then
    -- reported once; the next command tries again
    set { p with undelivered := false }
    throw (.stopped "solver closed its input")
  else
    let child := p.child.hear Reply.echoRequest
    let (result, unread) := collect [] child.output
    set { p with child := { child with output := unread } }
    match result with
    | .ok text => return text
    | .error e => throw e

/-- The result of looking at a reply, as a step. -/
def ofResult {α : Type} : Except SolverError α → Step Connection α
  | .ok a => return a
  | .error e => throw e

/-- Sends a command and reads the s-expression it is answered with. -/
def ask (command : Sexp) : Step Connection Sexp := do
  modify (·.send command)
  ofResult (Reply.single (← reply))

/-- The value that the solver reports under a keyword. -/
def info (keyword : String) : Step Connection Sexp := do
  ofResult (Reply.info keyword (← ask (Command.getInfo keyword)))

/-- Checks satisfiability. Where the solver gives up it is asked for its reason, and the transcript
is saved. -/
def checkSat : Step Connection SatAnswer := do
  modify (·.send Command.checkSat)
  let text ← reply
  if text = "sat" then return .sat
  else if text = "unsat" then return .unsat
  else if text = "unknown" then
    let reason ← info ":reason-unknown"
    -- a transcript that cannot be saved does not spoil the answer
    modify (·.save.2)
    return .unknown reason.render
  else throw (.stopped (Reply.errorText text))

/-- Asks for the interpolants between the assertions of some names. -/
def interpolants (names : List String) : Step Connection (List Sexp) := do
  ofResult (Reply.terms (← ask (Command.getInterpolants names)))

/-- Launches the program and sends its options. A transcript starts with the command line. -/
def launch (recorded : Bool) : Step Connection Unit := do
  let p ← get
  match p.launchFault? with
  | some fault => throw (.io fault)
  | none =>
    let transcript : Option Transcript :=
      if recorded then some ⟨[.comment p.invocation.commandLine]⟩ else none
    set (p.invocation.options.foldl
      (fun p option => p.send (Command.setOption option.1 option.2))
      { p with transcript := transcript })

instance : Session Connection where
  launch folder := launch folder.isSome
  send := send
  comment := comment
  checkSat := checkSat
  interpolants names := return (← interpolants names).map Sexp.render

end Connection

end Interpolants
