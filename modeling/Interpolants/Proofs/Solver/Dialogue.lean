import Interpolants.Proofs.Outcome
import Interpolants.Solver.Connection
import Mathlib.Control.Monad.Basic

/-!
# Interpolants — operations as dialogues

An operation on a connection sends commands, annotates and saves the transcript, and asks for
replies; what it does next depends on the texts that it is handed. `Operation.dialogue` is that
alone, without a connection. Held on a connection it does what the operation does
(`Operation.outcome_step`), and it leaves a record of all that was exchanged. What is proved of each
kind of exchange holds of all operations, in any order.
-/

namespace Interpolants

open Text

/-! ## What exchanges do to a process -/

namespace Child

variable {c : Child}

/-- A process that does not read does not change. -/
theorem foldl_hearLine_of_not_listening (h : c.listening = false) (lines : List (List Char)) :
    lines.foldl hearLine c = c := by
  induction lines with
  | nil => rfl
  | cons line lines ih => rw [List.foldl_cons, hearLine, if_pos (by simp [h]), ih]

/-- A process that still reads has read before. -/
theorem listening_of_foldl_hearLine {lines : List (List Char)}
    (h : (lines.foldl hearLine c).listening = true) : c.listening = true := by
  cases hlistening : c.listening with
  | true => rfl
  | false => rwa [foldl_hearLine_of_not_listening hlistening, hlistening] at h

/-- A message is heard line by line, and a session that waits for the process changes only how far
it has surely come. -/
theorem hear_eq_or (c : Child) (message : List Char) :
    c.hear message = (pieces '\n' message).foldl hearLine c ∨
      c.hear message = ((pieces '\n' message).foldl hearLine c).caughtUp := by
  unfold hear
  split
  · exact .inr rfl
  · exact .inl rfl

@[simp] theorem replies_hear (c : Child) (message : List Char) :
    (c.hear message).replies = ((pieces '\n' message).foldl hearLine c).replies := by
  rcases c.hear_eq_or message with h | h <;> rw [h] <;> rfl

@[simp] theorem listening_hear (c : Child) (message : List Char) :
    (c.hear message).listening = ((pieces '\n' message).foldl hearLine c).listening := by
  rcases c.hear_eq_or message with h | h <;> rw [h] <;> rfl

@[simp] theorem heard_hear (c : Child) (message : List Char) :
    (c.hear message).heard = ((pieces '\n' message).foldl hearLine c).heard := by
  rcases c.hear_eq_or message with h | h <;> rw [h] <;> rfl

@[simp] theorem output_hear (c : Child) (message : List Char) :
    (c.hear message).output = ((pieces '\n' message).foldl hearLine c).output := by
  rcases c.hear_eq_or message with h | h <;> rw [h] <;> rfl

/-- Nothing reaches a process that does not listen. -/
theorem hear_of_not_listening (h : c.listening = false) (message : List Char) :
    c.hear message = c := by
  rw [hear, if_neg (by simp [h]), foldl_hearLine_of_not_listening h]

/-- A process that listens answers a request. -/
theorem foldl_hearLine_request (h : c.listening = true) :
    (pieces '\n' Reply.echoRequest).foldl hearLine c = c.answer := by
  rw [show pieces '\n' Reply.echoRequest = [Reply.echoRequest] by decide, List.foldl_cons,
    List.foldl_nil, hearLine, if_neg (by simp [h]), if_pos rfl]

end Child

/-! ## What exchanges do to a connection -/

namespace Connection

variable {p : Connection}

/-- Nothing is written behind a failure, and nothing can be written to a process that does not
listen. -/
theorem child_send (p : Connection) (command : Sexp) :
    (p.send command).child = if p.undelivered then p.child else p.child.hear command.chars := by
  rw [send, deliver]
  cases hdelivered : p.undelivered with
  | true => simp [record, hdelivered]
  | false =>
    cases hlistening : p.child.listening with
    | true => simp [record, hdelivered, hlistening]
    | false =>
      have hhear : p.child.hear command.chars = p.child :=
        Child.hear_of_not_listening hlistening _
      simp [record, hdelivered, hlistening, hhear]

/-- A command is not delivered if one before it was not, or if the process does not read. -/
theorem undelivered_send (p : Connection) (command : Sexp) :
    (p.send command).undelivered = (p.undelivered || !p.child.listening) := by
  rw [send, deliver]
  cases hdelivered : p.undelivered <;> cases hlistening : p.child.listening <;>
    simp [record, hdelivered, hlistening]

/-- A command reaches a process that reads. -/
theorem send_of_listening (hdelivered : p.undelivered = false)
    (hlistening : p.child.listening = true) (command : Sexp) :
    p.send command = { p.record command with child := p.child.hear command.chars } := by
  rw [send, deliver, if_neg (by simp [record, hdelivered]),
    if_pos (by simpa [record] using hlistening)]
  rfl

/-- A request to a process that reads is answered from the output that there is by then. -/
theorem outcome_reply (hdelivered : p.undelivered = false) (hlistening : p.child.listening = true) :
    outcome reply p = ((collect [] (p.child.hear Reply.echoRequest).output).1,
      { p with child := { p.child.hear Reply.echoRequest with
        output := (collect [] (p.child.hear Reply.echoRequest).output).2 } }) := by
  rw [reply, outcome_bind_of_ok (outcome_get p), if_neg (by simp [hdelivered, hlistening])]
  dsimp only
  rcases collect [] (p.child.hear Reply.echoRequest).output with ⟨_ | _, unread⟩ <;> rfl

/-- A request that cannot be written is not answered. -/
theorem outcome_reply_of_closed (h : p.undelivered = true ∨ p.child.listening = false) :
    outcome reply p = (.error (.stopped "solver closed its input"),
      { p with undelivered := false }) := by
  rw [reply, outcome_bind_of_ok (outcome_get p), if_pos (by simpa using h)]
  rfl

/-- A request can be written, or it meets a failure or a process that does not listen. -/
theorem closed_or_open (p : Connection) :
    (p.undelivered = true ∨ p.child.listening = false) ∨
      p.undelivered = false ∧ p.child.listening = true := by
  cases p.undelivered <;> cases p.child.listening <;> simp

/-- Saving has nothing to do with the process. -/
theorem child_save (p : Connection) : p.save.2.undelivered = p.undelivered ∧
    p.save.2.child = p.child := by
  unfold save
  split <;> exact ⟨rfl, rfl⟩

end Connection

/-! ## Dialogues -/

/-- What an operation does with a connection. A reply that cannot be had ends it with that error. -/
inductive Dialogue (α : Type) where
  | done (result : Except SolverError α)
  | send (command : Sexp) (next : Dialogue α)
  | comment (text : String) (next : Dialogue α)
  | save (next : Bool → Dialogue α)
  | request (next : String → Dialogue α)

/-- What passes between an operation and a connection. -/
inductive Exchange where
  | told (command : Sexp)
  | noted (text : String)
  | saved (written : Bool)
  | handed (reply : Except SolverError String)
deriving DecidableEq

namespace Dialogue

variable {α β : Type}

/-- Holds a dialogue on a connection: its result, all that was exchanged, and what is left of the
connection. -/
def hold : Dialogue α → Connection → Except SolverError α × List Exchange × Connection
  | done result, p => (result, [], p)
  | send command next, p =>
    let (result, exchanges, p') := next.hold (p.send command)
    (result, .told command :: exchanges, p')
  | comment text next, p =>
    let (result, exchanges, p') := next.hold (p.comment text)
    (result, .noted text :: exchanges, p')
  | save next, p =>
    let (result, exchanges, p') := (next p.save.1).hold p.save.2
    (result, .saved p.save.1 :: exchanges, p')
  | request next, p =>
    match outcome Connection.reply p with
    | (.ok text, p') =>
      let (result, exchanges, p'') := (next text).hold p'
      (result, .handed (.ok text) :: exchanges, p'')
    | (.error e, p') => (.error e, [.handed (.error e)], p')

/-- A dialogue comes to a result over some exchanges. -/
inductive Follows : Dialogue α → List Exchange → Except SolverError α → Prop where
  | done (result : Except SolverError α) : Follows (done result) [] result
  | send {command : Sexp} {next : Dialogue α} {exchanges : List Exchange}
    {result : Except SolverError α} (h : Follows next exchanges result) :
    Follows (send command next) (.told command :: exchanges) result
  | comment {text : String} {next : Dialogue α} {exchanges : List Exchange}
    {result : Except SolverError α} (h : Follows next exchanges result) :
    Follows (comment text next) (.noted text :: exchanges) result
  | save {written : Bool} {next : Bool → Dialogue α} {exchanges : List Exchange}
    {result : Except SolverError α} (h : Follows (next written) exchanges result) :
    Follows (save next) (.saved written :: exchanges) result
  | request {text : String} {next : String → Dialogue α} {exchanges : List Exchange}
    {result : Except SolverError α} (h : Follows (next text) exchanges result) :
    Follows (request next) (.handed (.ok text) :: exchanges) result
  | unanswered {next : String → Dialogue α} (e : SolverError) :
    Follows (request next) [.handed (.error e)] (.error e)

/-- What is held on a connection follows the dialogue. -/
theorem follows_hold (d : Dialogue α) (p : Connection) :
    d.Follows (d.hold p).2.1 (d.hold p).1 := by
  induction d generalizing p with
  | done result => exact .done result
  | send command next ih => exact .send (ih _)
  | comment text next ih => exact .comment (ih _)
  | save next ih => exact .save (ih _ _)
  | request next ih =>
    rw [hold]
    split
    · exact .request (ih _ _)
    · exact .unanswered _

/-- Goes on with a result, unless it is an error. -/
def after (result : Except SolverError β) (next : β → Dialogue α) : Dialogue α :=
  match result with
  | .ok b => next b
  | .error e => done (.error e)

/-- Sends a command and goes on with the s-expression it is answered with. -/
def ask (command : Sexp) (next : Sexp → Dialogue α) : Dialogue α :=
  send command (request fun text => after (Reply.single text) next)

/-- Goes on with the value that the solver reports under a keyword. -/
def info (keyword : String) (next : Sexp → Dialogue α) : Dialogue α :=
  ask (Command.getInfo keyword) fun reply => after (Reply.info keyword reply) next

/-- A step does what a dialogue does. -/
def Describes (d : Dialogue α) (step : Step Connection α) : Prop :=
  ∀ p, outcome step p = ((d.hold p).1, (d.hold p).2.2)

theorem describes_done (a : α) : (done (.ok a)).Describes (pure a) :=
  fun _ => rfl

/-- A dialogue that is over with an error describes a step that throws it. -/
theorem describes_throw (e : SolverError) : (done (.error e) : Dialogue α).Describes (throw e) :=
  fun _ => rfl

section

variable {d : Dialogue α} {next : Step Connection α}

/-- Sending first is described by sending first. -/
theorem Describes.send (h : d.Describes next) (command : Sexp) :
    (d.send command).Describes (do modify (·.send command); next) :=
  fun p => h (p.send command)

theorem Describes.comment (h : d.Describes next) (text : String) :
    (d.comment text).Describes (do modify (·.comment text); next) :=
  fun p => h (p.comment text)

end

section

variable {d : β → Dialogue α} {next : β → Step Connection α}

/-- Going on with a result is described by going on with it. -/
theorem Describes.after (h : ∀ b, (d b).Describes (next b)) (result : Except SolverError β) :
    (after result d).Describes (Connection.ofResult result >>= next) := by
  cases result with
  | ok b => exact h b
  | error e => exact describes_throw e

/-- A request is described by a request. -/
theorem Describes.request {d : String → Dialogue α} {next : String → Step Connection α}
    (h : ∀ text, (d text).Describes (next text)) :
    (request d).Describes (Connection.reply >>= next) := by
  intro p
  rw [outcome_bind, hold]
  rcases outcome Connection.reply p with ⟨e | text, p'⟩
  · rfl
  · exact h text p'

end

section

variable {d : Sexp → Dialogue α} {next : Sexp → Step Connection α}

/-- A question is described by a question. -/
theorem Describes.ask (h : ∀ reply, (d reply).Describes (next reply)) (command : Sexp) :
    (ask command d).Describes (Connection.ask command >>= next) := by
  rw [Connection.ask, bind_assoc]
  simp only [bind_assoc]
  exact (Describes.request fun text => .after h (Reply.single text)).send command

/-- A question for a value is described by one. -/
theorem Describes.info (h : ∀ value, (d value).Describes (next value)) (keyword : String) :
    (info keyword d).Describes (Connection.info keyword >>= next) := by
  rw [Connection.info, bind_assoc]
  exact .ask (fun reply => .after h (Reply.info keyword reply)) (Command.getInfo keyword)

end

end Dialogue

/-! ## Operations -/

/-- The operations on a launched connection. -/
inductive Operation where
  | send (command : Sexp)
  | comment (text : String)
  | save
  | checkSat
  | info (keyword : String)
  | interpolants (names : List String)
deriving DecidableEq

/-- What an operation gives. -/
inductive Answer where
  | silence
  | saved (written : Bool)
  | verdict (answer : SatAnswer)
  | value (value : Sexp)
  | terms (terms : List Sexp)
deriving DecidableEq

namespace Operation

/-- An operation on a connection. -/
def step : Operation → Step Connection Answer
  | send command => do
    modify (·.send command)
    return .silence
  | comment text => do
    modify (·.comment text)
    return .silence
  | save => return .saved (← modifyGet Connection.save)
  | checkSat => return .verdict (← Connection.checkSat)
  | info keyword => return .value (← Connection.info keyword)
  | interpolants names => return .terms (← Connection.interpolants names)

/-- What an operation does with a connection. -/
def dialogue : Operation → Dialogue Answer
  | send command => .send command (.done (.ok .silence))
  | comment text => .comment text (.done (.ok .silence))
  | save => .save fun written => .done (.ok (.saved written))
  | checkSat => .send Command.checkSat (.request fun text =>
      if text = "sat" then .done (.ok (.verdict .sat))
      else if text = "unsat" then .done (.ok (.verdict .unsat))
      else if text = "unknown" then
        .info ":reason-unknown" fun reason =>
          .save fun _ => .done (.ok (.verdict (.unknown reason.render)))
      else .done (.error (.stopped (Reply.errorText text))))
  | info keyword => .info keyword fun value => .done (.ok (.value value))
  | interpolants names => .ask (Command.getInterpolants names) fun reply =>
      .after (Reply.terms reply) fun terms => .done (.ok (.terms terms))

/-- **An operation is its dialogue**, held on the connection. -/
theorem outcome_step (op : Operation) (p : Connection) :
    outcome op.step p = ((op.dialogue.hold p).1, (op.dialogue.hold p).2.2) := by
  revert p
  show op.dialogue.Describes op.step
  cases op with
  | send command => exact (Dialogue.describes_done Answer.silence).send command
  | comment text => exact (Dialogue.describes_done Answer.silence).comment text
  | save => exact fun p => rfl
  | checkSat =>
    rw [step, Connection.checkSat, bind_assoc]
    simp only [bind_assoc]
    -- the three verdicts in the order in which they are compared
    refine (Dialogue.Describes.request fun text => ?_).send Command.checkSat
    by_cases hsat : text = "sat"
    · rw [if_pos hsat, if_pos hsat]
      exact Dialogue.describes_done (Answer.verdict .sat)
    rw [if_neg hsat, if_neg hsat]
    by_cases hunsat : text = "unsat"
    · rw [if_pos hunsat, if_pos hunsat]
      exact Dialogue.describes_done (Answer.verdict .unsat)
    rw [if_neg hunsat, if_neg hunsat]
    by_cases hunknown : text = "unknown"
    · rw [if_pos hunknown, if_pos hunknown, bind_assoc]
      exact .info (fun reason p => rfl) ":reason-unknown"
    · rw [if_neg hunknown, if_neg hunknown]
      exact Dialogue.describes_throw (.stopped (Reply.errorText text))
  | info keyword => exact .info (fun value => Dialogue.describes_done (Answer.value value)) keyword
  | interpolants names =>
    rw [step, Connection.interpolants, bind_assoc]
    exact .ask (fun reply => .after (fun terms => Dialogue.describes_done (Answer.terms terms))
      (Reply.terms reply)) (Command.getInterpolants names)

end Operation

/-! ## Sessions -/

/-- An operation in a session: what it gave, and what it exchanged with the connection. -/
structure Turn where
  operation : Operation
  result : Except SolverError Answer
  exchanges : List Exchange
deriving DecidableEq

namespace Exchange

/-- The commands that were sent. -/
def commands (exchanges : List Exchange) : List Sexp :=
  exchanges.filterMap fun
    | told command => some command
    | _ => none

/-- The replies that were handed over. -/
def replies (exchanges : List Exchange) : List (Except SolverError String) :=
  exchanges.filterMap fun
    | handed reply => some reply
    | _ => none

theorem commands_append (exchanges more : List Exchange) :
    commands (exchanges ++ more) = commands exchanges ++ commands more :=
  List.filterMap_append

theorem replies_append (exchanges more : List Exchange) :
    replies (exchanges ++ more) = replies exchanges ++ replies more :=
  List.filterMap_append

end Exchange

namespace Connection

/-- Operations one after the other, whatever they give. -/
def converse : List Operation → Connection → List Turn × Connection
  | [], p => ([], p)
  | op :: ops, p =>
    let (turns, p') := converse ops (outcome op.step p).2
    (⟨op, (outcome op.step p).1, (op.dialogue.hold p).2.1⟩ :: turns, p')

/-- A connection before its launch. -/
def unlaunched (invocation : Invocation) (program : String) (replies : List ScriptedReply)
    (folder : Folder) : Connection :=
  { invocation, program, child := { replies }, folder }

/-- The transcript that a session starts with, if it is recorded. -/
def firstTranscript (p : Connection) (recorded : Bool) : Option Transcript :=
  if recorded then some ⟨[.comment p.invocation.commandLine]⟩ else none

/-- What is exchanged while a connection is launched. -/
def opening (p : Connection) : List Exchange :=
  p.invocation.options.map fun option => .told (Command.setOption option.1 option.2)

/-- What is exchanged in a session from its launch on. -/
def exchanges (p : Connection) (turns : List Turn) : List Exchange :=
  p.opening ++ turns.flatMap Turn.exchanges

/-- A launch sends the options, one after the other. -/
theorem outcome_launch {p : Connection} (h : p.launchFault? = none) (recorded : Bool) :
    outcome (launch recorded) p
      = (.ok (), p.invocation.options.foldl
          (fun p option => p.send (Command.setOption option.1 option.2))
          { p with transcript := p.firstTranscript recorded }) := by
  rw [launch, outcome_bind_of_ok (outcome_get p), h]
  rfl

/-- Each operation of a session gives what its exchanges lead to. -/
theorem follows_converse (ops : List Operation) (p : Connection) :
    ∀ turn ∈ (converse ops p).1, turn.operation.dialogue.Follows turn.exchanges turn.result := by
  induction ops generalizing p with
  | nil => nofun
  | cons op ops ih =>
    intro turn hturn
    rcases List.mem_cons.1 hturn with rfl | hturn
    · rw [op.outcome_step p]
      exact op.dialogue.follows_hold p
    · exact ih _ turn hturn

/-- A relation between all that was exchanged so far and a connection that every exchange keeps. -/
structure Invariant (R : List Exchange → Connection → Prop) : Prop where
  send : ∀ {log p}, R log p → ∀ command, R (log ++ [.told command]) (p.send command)
  comment : ∀ {log p}, R log p → ∀ text, R (log ++ [.noted text]) (p.comment text)
  save : ∀ {log p}, R log p → R (log ++ [.saved p.save.1]) p.save.2
  request : ∀ {log p}, R log p → R (log ++ [.handed (outcome reply p).1]) (outcome reply p).2

namespace Invariant

variable {R : List Exchange → Connection → Prop} {log : List Exchange} {p : Connection}

/-- What every exchange keeps, a dialogue keeps, by induction on the dialogue. -/
theorem hold {α : Type} (h : Invariant R) (d : Dialogue α) (hR : R log p) :
    R (log ++ (d.hold p).2.1) (d.hold p).2.2 := by
  induction d generalizing log p with
  | done result =>
    rw [← List.append_nil log] at hR
    exact hR
  | send command next ih =>
    have hnext := ih (h.send hR command)
    rwa [← List.append_cons] at hnext
  | comment text next ih =>
    have hnext := ih (h.comment hR text)
    rwa [← List.append_cons] at hnext
  | save next ih =>
    have hnext := ih p.save.1 (h.save hR)
    rwa [← List.append_cons] at hnext
  | request next ih =>
    -- a request ends the dialogue with an error or goes on with the text
    have hreply := h.request hR
    rw [Dialogue.hold]
    rcases houtcome : outcome reply p with ⟨e | text, p'⟩
    · rwa [houtcome] at hreply
    · rw [houtcome] at hreply
      have hnext := ih text hreply
      rwa [← List.append_cons] at hnext

/-- What every exchange keeps, operations keep. -/
theorem converse (h : Invariant R) (ops : List Operation) (hR : R log p) :
    R (log ++ (Connection.converse ops p).1.flatMap Turn.exchanges)
      (Connection.converse ops p).2 := by
  induction ops generalizing log p with
  | nil =>
    rw [← List.append_nil log] at hR
    exact hR
  | cons op ops ih =>
    have hop := h.hold op.dialogue hR
    rw [Connection.converse, op.outcome_step p]
    have hrest := ih hop
    rwa [List.append_assoc] at hrest

/-- What every exchange keeps, sending options keeps. -/
theorem foldl_send (h : Invariant R) (options : List (String × String)) (hR : R log p) :
    R (log ++ options.map fun option => .told (Command.setOption option.1 option.2))
      (options.foldl (fun p option => p.send (Command.setOption option.1 option.2)) p) := by
  induction options generalizing log p with
  | nil =>
    rw [← List.append_nil log] at hR
    exact hR
  | cons option options ih =>
    have hrest := ih (h.send hR (Command.setOption option.1 option.2))
    rwa [← List.append_cons] at hrest

/-- **What each exchange keeps holds of whole sessions**, from the launch on. -/
theorem session (h : Invariant R) (hlaunch : p.launchFault? = none) (recorded : Bool)
    (hR : R [] { p with transcript := p.firstTranscript recorded }) (ops : List Operation) :
    let run := Connection.converse ops (outcome (launch recorded) p).2
    R (p.exchanges run.1) run.2 := by
  intro run
  have hopening := h.foldl_send p.invocation.options hR
  refine h.converse ops ?_
  rw [outcome_launch hlaunch]
  exact hopening

end Invariant

end Connection

end Interpolants
