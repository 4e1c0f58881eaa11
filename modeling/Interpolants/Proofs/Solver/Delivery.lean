import Interpolants.Proofs.Solver.Interference

/-!
# Interpolants — lost commands

A command that cannot be delivered is noticed at the next request only, and reporting it lets the
connection try again. Still no answer is given behind a lost command. At any time either everything
that was sent has arrived (`Wire.Complete`), or the process is gone for good: it has closed its
input, or its output is read to the end (`Wire.Gone`). Each exchange keeps this, and what a process
does on its own as well (`Wire.Accounted`). A request to a process that is gone fails, and an
operation with an answer makes a request behind each of its commands (`Dialogue.Confirms`).
-/

namespace Interpolants

open Text

/-! ## What a process hears -/

/-- What a process notes of some commands: their lines without requests for the marker. -/
def Command.heard (commands : List Sexp) : List String :=
  ((commands.flatMap fun command => pieces '\n' command.chars).filter
    fun line => line ≠ Reply.echoRequest).map String.ofList

theorem Command.heard_append (commands more : List Sexp) :
    heard (commands ++ more) = heard commands ++ heard more := by
  rw [heard, List.flatMap_append, List.filter_append, List.map_append]
  rfl

theorem Command.heard_singleton (command : Sexp) :
    heard [command] = ((pieces '\n' command.chars).filter
      fun line => line ≠ Reply.echoRequest).map String.ofList := by
  rw [heard, List.flatMap_singleton]

/-- A process that still listens behind some lines has noted each of them. -/
theorem Child.heard_foldl_hearLine {c : Child} {lines : List (List Char)}
    (h : (lines.foldl hearLine c).listening = true) :
    (lines.foldl hearLine c).heard
      = c.heard ++ (lines.filter fun line => line ≠ Reply.echoRequest).map String.ofList := by
  induction lines generalizing c with
  | nil => exact (List.append_nil _).symm
  | cons line lines ih =>
    have hline : (c.hearLine line).listening = true := listening_of_foldl_hearLine h
    have hlistening : c.listening = true :=
      listening_of_foldl_hearLine (show ([line].foldl hearLine c).listening = true from hline)
    rw [List.foldl_cons, ih h, hearLine, if_neg (by simp [hlistening])]
    by_cases hrequest : line = Reply.echoRequest
    · rw [if_pos hrequest, List.filter_cons_of_neg (by simpa using hrequest)]
      rfl
    · rw [if_neg hrequest, List.filter_cons_of_pos (by simpa using hrequest), List.map_cons]
      exact (List.append_cons ..).symm

/-- Reading to the end of a stream that never ends a reading leaves nothing of it. -/
theorem Connection.dry_of_collect {kept : List (List Char)} {lines rest : List (List UInt8)}
    {text : String} (h : collect kept lines = (.error (.stopped text), rest)) :
    rest = [] ∧ (lines.all fun line => !endsReading line) = true := by
  induction lines generalizing kept with
  | nil =>
    rw [collect] at h
    exact ⟨(Prod.mk.inj h).2.symm, rfl⟩
  | cons line lines ih =>
    rw [collect] at h
    rw [List.all_cons, endsReading]
    cases htext : lineText? line with
    | none => simp [htext] at h
    | some content =>
      by_cases hmarker : Reply.isMarker content = true
      · simp [htext, hmarker] at h
      · simp only [htext, hmarker] at h ⊢
        exact ih h

namespace Wire

/-! ## Processes that are gone -/

/-- The process has closed its input, or its output and all of that is read. -/
def Gone (w : Wire) : Prop :=
  w.connection.child.listening = false ∨ w.ended = true ∧ w.connection.child.output = []

namespace Gone

variable {w w' : Wire}

/-- A process that is gone stays so. -/
theorem stirs (h : w.Gone) (hstirs : w.Stirs w') : w'.Gone := by
  rcases h with hlistening | ⟨hended, houtput⟩
  · refine .inl (Bool.eq_false_iff.2 fun hlistening' => ?_)
    rw [hstirs.listening hlistening'] at hlistening
    cases hlistening
  · obtain ⟨hended', houtput'⟩ := hstirs.ended hended
    exact .inr ⟨hended', houtput'.trans houtput⟩

/-- Behind a message a process is as gone as before. -/
theorem hears (h : w.Gone) (message : List Char) (hmute : w.Mute (pieces '\n' message))
    {p : Connection} (hp : p.child = w.connection.child.hear message) :
    Gone { w with connection := p } := by
  rcases h with hlistening | ⟨hended, houtput⟩
  · refine .inl ?_
    rwa [hp, Child.hear_of_not_listening hlistening]
  · refine .inr ⟨hended, ?_⟩
    rw [hp, Child.output_hear, hmute hended, houtput]

/-- What does not concern the process. -/
theorem annotate (h : w.Gone) {p : Connection} (hp : p.child = w.connection.child) :
    Gone { w with connection := p } := by
  unfold Gone at h ⊢
  rwa [hp]

end Gone

/-- A process that closes its input in the middle of a command is gone. -/
theorem gone_torn (p : Connection) (command : Sexp) (ended : Bool) :
    Gone { connection := p.closed.send command, ended } := by
  have hlistening : p.closed.child.listening = false := rfl
  refine .inl ?_
  show (p.closed.send command).child.listening = false
  rw [Connection.child_send, Child.hear_of_not_listening hlistening]
  split <;> exact hlistening

/-- Sending brings no process back. -/
theorem Gone.sends {w w' : Wire} {command : Sexp} (h : w.Gone) (hsends : w.Sends command w') :
    w'.Gone := by
  cases hsends with
  | whole hmute =>
    have hchild := w.connection.child_send command
    by_cases hundelivered : w.connection.undelivered = true
    · exact h.annotate (by rw [hchild, if_pos hundelivered])
    · exact h.hears _ hmute (by rw [hchild, if_neg hundelivered])
  | torn => exact gone_torn _ command w.ended

/-- **A request to a process that is gone fails**, and the process stays gone. -/
theorem Gone.request {w : Wire} (h : w.Gone) (hmute : w.Mute (pieces '\n' Reply.echoRequest)) :
    (outcome Connection.reply w.connection).1.isOk = false ∧ w.request.Gone := by
  rcases w.connection.closed_or_open with hclosed | ⟨hdelivered, hlistening⟩
  · rw [Wire.request, Connection.outcome_reply_of_closed hclosed]
    refine ⟨rfl, h.imp_right (And.imp_left fun hended => ?_)⟩
    show (w.ended || w.connection.runsDry) = true
    rw [hended, Bool.true_or]
  · obtain ⟨hended, houtput⟩ := h.resolve_left (by simp [hlistening])
    -- nothing is written any more, so the request reads from an empty stream
    have hdry : (w.connection.child.hear Reply.echoRequest).output = [] := by
      rw [Child.output_hear, hmute hended, houtput]
    rw [Wire.request, Connection.outcome_reply hdelivered hlistening, hdry, hended, Bool.true_or]
    exact ⟨rfl, .inr ⟨rfl, rfl⟩⟩

/-! ## Everything has arrived -/

/-- All commands of the exchanges so far have arrived, line by line and in order. None is
undelivered, and no request has met a process that had closed its input or its output. -/
structure Complete (w : Wire) (log : List Exchange) : Prop where
  heard_eq : w.connection.child.heard = Command.heard (Exchange.commands log)
  delivered : w.connection.undelivered = false
  answered : ∀ text, Exchange.handed (.error (.stopped text)) ∉ log

variable {w w' : Wire} {log : List Exchange}

/-- What the process does on its own loses nothing that has arrived. -/
theorem Complete.stirs (h : w.Complete log) (hstirs : w.Stirs w') : w'.Complete log where
  heard_eq := hstirs.heard_eq.trans h.heard_eq
  delivered := by
    rw [hstirs.connection_eq]
    exact h.delivered
  answered := h.answered

/-- What is neither sent nor handed over as an error of a closed process. -/
theorem Complete.exchange (h : w.Complete log) (exchange : Exchange) (p : Connection) (ended : Bool)
    (hcommands : Exchange.commands [exchange] = [])
    (hanswered : ∀ text, exchange ≠ .handed (.error (.stopped text)))
    (hheard : p.child.heard = w.connection.child.heard)
    (hdelivered : p.undelivered = w.connection.undelivered) :
    Complete { connection := p, ended } (log ++ [exchange]) where
  heard_eq := by
    rw [Exchange.commands_append, hcommands, List.append_nil]
    exact hheard.trans h.heard_eq
  delivered := hdelivered.trans h.delivered
  answered text hmem := by
    rcases List.mem_append.1 hmem with hmem | hmem
    · exact h.answered text hmem
    · exact hanswered text (List.mem_singleton.1 hmem).symm

/-- A comment is not sent. -/
theorem Complete.comment (h : w.Complete log) (text : String) :
    Complete { w with connection := w.connection.comment text } (log ++ [.noted text]) :=
  h.exchange (.noted text) (w.connection.comment text) w.ended rfl (by simp) rfl rfl

/-- Saving sends nothing. -/
theorem Complete.save (h : w.Complete log) :
    Complete { w with connection := w.connection.save.2 } (log ++ [.saved w.connection.save.1]) :=
  have hsave := Connection.child_save w.connection
  h.exchange (.saved w.connection.save.1) w.connection.save.2 w.ended rfl (by simp)
    (congrArg Child.heard hsave.2) hsave.1

/-- A command arrives, or the process is gone. -/
theorem Complete.sends {command : Sexp} (h : w.Complete log) (hsends : w.Sends command w') :
    w'.Gone ∨ w'.Complete (log ++ [.told command]) := by
  cases hsends with
  | torn => exact .inl (gone_torn _ command w.ended)
  | whole =>
    have hchild : (w.connection.send command).child = w.connection.child.hear command.chars := by
      rw [Connection.child_send, if_neg (by simp [h.delivered])]
    cases hlistening : (w.connection.send command).child.listening with
    | false => exact .inl (.inl hlistening)
    | true =>
      -- a process that still reads has read all lines of the command
      rw [hchild, Child.listening_hear] at hlistening
      refine .inr ⟨?_, ?_, fun text hmem => ?_⟩
      · show (w.connection.send command).child.heard = _
        rw [hchild, Child.heard_hear, Child.heard_foldl_hearLine hlistening, h.heard_eq,
          Exchange.commands_append, Command.heard_append, ← Command.heard_singleton]
        rfl
      · show (w.connection.send command).undelivered = false
        rw [Connection.undelivered_send, h.delivered,
          Child.listening_of_foldl_hearLine hlistening]
        rfl
      · refine h.answered text ((List.mem_append.1 hmem).resolve_right fun hmem => ?_)
        cases List.mem_singleton.1 hmem

/-- A request that meets a closed process shows that it is gone. -/
theorem gone_of_stopped {text : String} (hdelivered : w.connection.undelivered = false)
    (hreply : (outcome Connection.reply w.connection).1 = .error (.stopped text)) :
    w.request.Gone := by
  cases hlistening : w.connection.child.listening with
  | false =>
    rw [Wire.request, Connection.outcome_reply_of_closed (.inr hlistening)]
    exact .inl hlistening
  | true =>
    rw [Connection.outcome_reply hdelivered hlistening] at hreply
    obtain ⟨hrest, hdry⟩ := Connection.dry_of_collect (Prod.ext hreply rfl)
    refine .inr ⟨?_, ?_⟩
    · show (w.ended || w.connection.runsDry) = true
      rw [Connection.runsDry, hdelivered, hlistening, hdry]
      exact Bool.or_true _
    · rw [Wire.request, Connection.outcome_reply hdelivered hlistening]
      exact hrest

/-- Any other request leaves everything arrived. -/
theorem Complete.request (h : w.Complete log)
    (hreply : ∀ text, (outcome Connection.reply w.connection).1 ≠ .error (.stopped text)) :
    w.request.Complete (log ++ [.handed (outcome Connection.reply w.connection).1]) := by
  cases hlistening : w.connection.child.listening with
  | false =>
    have hclosed := Connection.outcome_reply_of_closed (.inr hlistening)
    exact absurd (congrArg Prod.fst hclosed) (hreply _)
  | true =>
    refine h.exchange (.handed (outcome Connection.reply w.connection).1) _ w.request.ended rfl
      (fun text heq => hreply text (Exchange.handed.inj heq)) ?_ ?_
    · rw [Connection.outcome_reply h.delivered hlistening]
      show (w.connection.child.hear Reply.echoRequest).heard = w.connection.child.heard
      rw [Child.heard_hear, Child.foldl_hearLine_request hlistening]
      rfl
    · rw [Connection.outcome_reply h.delivered hlistening]

/-! ## The invariant -/

/-- The process is gone, or everything has arrived. -/
def Accounted (w : Wire) (log : List Exchange) : Prop :=
  w.Gone ∨ w.Complete log

namespace Accounted

/-- What the process does on its own leaves everything accounted for. -/
theorem stirs (h : w.Accounted log) (hstirs : w.Stirs w') : w'.Accounted log :=
  h.imp (·.stirs hstirs) (·.stirs hstirs)

/-- A command that is sent arrives, or the process is gone. -/
theorem sends {command : Sexp} (h : w.Accounted log) (hsends : w.Sends command w') :
    w'.Accounted (log ++ [.told command]) :=
  h.elim (fun hgone => .inl (hgone.sends hsends)) (·.sends hsends)

theorem comment (h : w.Accounted log) (text : String) :
    Accounted { w with connection := w.connection.comment text } (log ++ [.noted text]) :=
  h.imp (·.annotate rfl) (·.comment text)

theorem save (h : w.Accounted log) :
    Accounted { w with connection := w.connection.save.2 } (log ++ [.saved w.connection.save.1]) :=
  h.imp (·.annotate (Connection.child_save w.connection).2) (·.save)

/-- A request finds everything arrived, or the process gone. -/
theorem request (h : w.Accounted log) (hmute : w.Mute (pieces '\n' Reply.echoRequest)) :
    w.request.Accounted (log ++ [.handed (outcome Connection.reply w.connection).1]) := by
  rcases h with hgone | hcomplete
  · exact .inl (hgone.request hmute).2
  by_cases hstopped : ∃ text, (outcome Connection.reply w.connection).1 = .error (.stopped text)
  · obtain ⟨text, hstopped⟩ := hstopped
    exact .inl (gone_of_stopped hcomplete.delivered hstopped)
  · exact .inr (hcomplete.request fun text heq => hstopped ⟨text, heq⟩)

end Accounted

end Wire

/-! ## Dialogues that confirm what they send -/

namespace Dialogue

variable {α β : Type}

/-- Any result comes behind a request that follows the last command. The flag tells whether this is
so if nothing more is exchanged. -/
inductive Confirms : Bool → Dialogue α → Prop where
  | answer (a : α) : Confirms true (done (.ok a))
  | error (confirmed : Bool) (e : SolverError) : Confirms confirmed (done (.error e))
  | send {confirmed : Bool} {command : Sexp} {next : Dialogue α} (h : Confirms false next) :
    Confirms confirmed (send command next)
  | comment {confirmed : Bool} {text : String} {next : Dialogue α} (h : Confirms confirmed next) :
    Confirms confirmed (comment text next)
  | save {confirmed : Bool} {next : Bool → Dialogue α}
      (h : ∀ written, Confirms confirmed (next written)) : Confirms confirmed (save next)
  | request {confirmed : Bool} {next : String → Dialogue α}
      (h : ∀ text, Confirms true (next text)) : Confirms confirmed (request next)

/-- Going on with a result confirms what came before. -/
theorem Confirms.after {confirmed : Bool} {next : β → Dialogue α}
    (h : ∀ b, (next b).Confirms confirmed) (result : Except SolverError β) :
    (Dialogue.after result next).Confirms confirmed := by
  cases result with
  | ok b => exact h b
  | error e => exact .error confirmed e

/-- A question confirms all commands up to its own. -/
theorem Confirms.ask {next : Sexp → Dialogue α} (h : ∀ reply, (next reply).Confirms true)
    (command : Sexp) (confirmed : Bool) : (Dialogue.ask command next).Confirms confirmed :=
  .send (.request fun text => .after h (Reply.single text))

/-- A question for a value confirms all commands up to its own. -/
theorem Confirms.info {next : Sexp → Dialogue α} (h : ∀ value, (next value).Confirms true)
    (keyword : String) (confirmed : Bool) : (Dialogue.info keyword next).Confirms confirmed :=
  .ask (fun reply => .after h (Reply.info keyword reply)) (Command.getInfo keyword) confirmed

namespace Held

variable {d : Dialogue α} {w w' : Wire} {exchanges log : List Exchange}
    {result : Except SolverError α}
  {confirmed : Bool}

/-- A dialogue brings no process back. -/
theorem gone (h : d.Held w exchanges result w') (hw : w.Gone) : w'.Gone := by
  induction h with
  | stirs hstirs _ ih => exact ih (hw.stirs hstirs)
  | done => exact hw
  | send hsends _ ih => exact ih (hw.sends hsends)
  | comment _ ih => exact ih (hw.annotate rfl)
  | save _ ih => exact ih (hw.annotate (Connection.child_save _).2)
  | request hmute _ _ ih => exact ih (hw.request hmute).2
  | unanswered hmute _ => exact (hw.request hmute).2

/-- Held on a process that is gone, a dialogue that confirms what it sends has no result. -/
theorem isOk_eq_false_of_gone (h : d.Held w exchanges result w') (hd : d.Confirms false)
    (hw : w.Gone) :
    result.isOk = false := by
  induction h with
  | stirs hstirs _ ih => exact ih hd (hw.stirs hstirs)
  | done => cases hd; rfl
  | send hsends _ ih =>
    cases hd with
    | send hnext => exact ih hnext (hw.sends hsends)
  | comment _ ih =>
    cases hd with
    | comment hnext => exact ih hnext (hw.annotate rfl)
  | save _ ih =>
    cases hd with
    | save hnext => exact ih (hnext _) (hw.annotate (Connection.child_save _).2)
  | request hmute hreply _ _ =>
    -- a process that is gone hands over no text
    have hfails := (hw.request hmute).1
    rw [hreply] at hfails
    cases hfails
  | unanswered => rfl

/-- **Everything has arrived, or the process is gone**, whatever it does and whatever it is
handed. -/
theorem accounted (h : d.Held w exchanges result w') (hw : w.Accounted log) :
    w'.Accounted (log ++ exchanges) := by
  induction h generalizing log with
  | stirs hstirs _ ih => exact ih (hw.stirs hstirs)
  | done => rwa [List.append_nil]
  | send hsends _ ih =>
    rw [List.append_cons]
    exact ih (hw.sends hsends)
  | comment _ ih =>
    rw [List.append_cons]
    exact ih (hw.comment _)
  | save _ ih =>
    rw [List.append_cons]
    exact ih hw.save
  | request hmute hreply _ ih =>
    rw [List.append_cons, ← hreply]
    exact ih (hw.request hmute)
  | unanswered hmute hreply =>
    rw [← hreply]
    exact hw.request hmute

/-- **A result is given only if everything has arrived.** -/
theorem complete (h : d.Held w exchanges result w') (hd : d.Confirms confirmed)
    (hw : w.Accounted log) (hconfirmed : confirmed = true → w.Complete log)
    (hok : result.isOk = true) : w'.Complete (log ++ exchanges) := by
  induction h generalizing confirmed log with
  | stirs hstirs _ ih =>
    exact ih hd (hw.stirs hstirs) (fun h => (hconfirmed h).stirs hstirs) hok
  | done =>
    rw [List.append_nil]
    cases hd with
    | answer => exact hconfirmed rfl
    | error => cases hok
  | send hsends _ ih =>
    cases hd with
    | send hnext =>
      rw [List.append_cons]
      exact ih hnext (hw.sends hsends) (fun h => absurd h Bool.false_ne_true) hok
  | comment _ ih =>
    cases hd with
    | comment hnext =>
      rw [List.append_cons]
      exact ih hnext (hw.comment _) (fun h => (hconfirmed h).comment _) hok
  | save _ ih =>
    cases hd with
    | save hnext =>
      rw [List.append_cons]
      exact ih (hnext _) hw.save (fun h => (hconfirmed h).save) hok
  | request hmute hreply _ ih =>
    cases hd with
    | request hnext =>
      -- a process that is gone would not have answered
      have hcomplete := hw.resolve_left fun hgone => by
        have hfails := (hgone.request hmute).1
        rw [hreply] at hfails
        cases hfails
      have hrequest := hcomplete.request (by simp [hreply])
      rw [hreply] at hrequest
      rw [List.append_cons]
      exact ih (hnext _) (.inr hrequest) (fun _ => hrequest) hok
  | unanswered => cases hok

end Held

end Dialogue

/-! ## Operations with an answer -/

namespace Operation

/-- Whether an operation awaits a reply. -/
def awaitsReply : Operation → Bool
  | checkSat | info _ | interpolants _ => true
  | send _ | comment _ | save => false

/-- An operation with an answer makes a request behind each of its commands, also where it asks for
the reason of an unknown answer. -/
theorem confirms_dialogue {op : Operation} (h : op.awaitsReply = true) :
    op.dialogue.Confirms false := by
  cases op with
  | send | comment | save => cases h
  | checkSat =>
    refine .send (.request fun text => ?_)
    split_ifs
    · exact .answer (Answer.verdict .sat)
    · exact .answer (Answer.verdict .unsat)
    · exact .info (fun reason => .save fun _ =>
        .answer (Answer.verdict (.unknown reason.render))) ":reason-unknown" true
    · exact .error true (.stopped (Reply.errorText text))
  | info keyword => exact .info (fun value => .answer (Answer.value value)) keyword false
  | interpolants names =>
    exact .ask (fun reply => .after (fun terms => .answer (Answer.terms terms)) (Reply.terms reply))
      (Command.getInterpolants names) false

end Operation

/-! ## Sessions -/

namespace Wire.Session

variable {w w' : Wire} {turns : List Turn} {log : List Exchange}

/-- In a session everything is accounted for, by induction on the turns. -/
theorem accounted (h : Session w turns w') (hw : w.Accounted log) :
    w'.Accounted (log ++ turns.flatMap Turn.exchanges) := by
  induction h generalizing log with
  | nil => rwa [List.flatMap_nil, List.append_nil]
  | stirs hstirs _ ih => exact ih (hw.stirs hstirs)
  | cons hheld _ ih =>
    rw [List.flatMap_cons, ← List.append_assoc]
    exact ih (hheld.accounted hw)

/-- A process that is gone answers no operation any more. -/
theorem isOk_eq_false_of_gone (h : Session w turns w') (hw : w.Gone) :
    ∀ turn ∈ turns, turn.operation.awaitsReply = true → turn.result.isOk = false := by
  induction h with
  | nil => simp
  | stirs hstirs _ ih => exact ih (hw.stirs hstirs)
  | cons hheld _ ih =>
    intro turn hturn hawaits
    rcases List.mem_cons.1 hturn with rfl | hturn
    · exact hheld.isOk_eq_false_of_gone (Operation.confirms_dialogue hawaits) hw
    · exact ih (hheld.gone hw) turn hturn hawaits

/-- Everything has arrived still if nothing is done. -/
theorem complete_of_nil (h : Session w [] w') (hw : w.Complete log) : w'.Complete log := by
  generalize hturns : ([] : List Turn) = turns at h
  induction h with
  | nil => exact hw
  | stirs hstirs _ ih => exact ih (hw.stirs hstirs) hturns
  | cons => cases hturns

/-- Everything has arrived behind an answer. -/
theorem complete_of_answer (h : Session w turns w') (hw : w.Accounted log) {turn : Turn}
    (hturn : turns.getLast? = some turn) (hawaits : turn.operation.awaitsReply = true)
    (hok : turn.result.isOk = true) : w'.Complete (log ++ turns.flatMap Turn.exchanges) := by
  induction h generalizing log with
  | nil => cases hturn
  | stirs hstirs _ ih => exact ih (hw.stirs hstirs) hturn
  | @cons _ _ _ _ _ _ turns hheld hrest ih =>
    rw [List.flatMap_cons, ← List.append_assoc]
    cases turns with
    | nil =>
      cases hturn
      rw [List.flatMap_nil, List.append_nil]
      refine hrest.complete_of_nil (hheld.complete (Operation.confirms_dialogue hawaits) hw ?_ hok)
      exact fun h => absurd h Bool.false_ne_true
    | cons next turns => exact ih (hheld.accounted hw) hturn

end Wire.Session

/-- **A lost command is never silent.** Launch a connection and hold any operations on it, while its
process does whatever it likes at any time. If the last of them awaits a reply and gives a result,
then the process has heard all commands since the launch, each once and in order, and nothing is
undelivered. If a command was lost or a request has met a closed input or the end of the output, no
later operation that awaits a reply gives a result. -/
theorem delivered_of_answer (invocation : Invocation) (program : String)
    (replies : List ScriptedReply)
    (folder : Folder) (recorded : Bool) {w₀ w w' : Wire} {turns more : List Turn}
    (hlaunched : Wire.Launched (Connection.unlaunched invocation program replies folder)
      recorded w₀)
    (hturns : Wire.Session w₀ turns w) (hmore : Wire.Session w more w') :
    let log := (Connection.unlaunched invocation program replies folder).exchanges turns
    (∀ turn, turns.getLast? = some turn → turn.operation.awaitsReply = true →
      turn.result.isOk = true → w.Complete log) ∧
    (¬ w.Complete log → ∀ turn ∈ more, turn.operation.awaitsReply = true →
      turn.result.isOk = false) := by
  intro log
  let p := Connection.unlaunched invocation program replies folder
  have hstart :
      Wire.Complete { connection := { p with transcript := p.firstTranscript recorded } } [] :=
    ⟨rfl, rfl, by simp⟩
  -- at the start nothing has been sent, so everything has arrived
  have hopening : w₀.Accounted p.opening := hlaunched.2.accounted (.inr hstart)
  refine ⟨fun turn hturn hawaits hok => hturns.complete_of_answer hopening hturn hawaits hok,
    fun hlost => ?_⟩
  exact hmore.isOk_eq_false_of_gone ((hturns.accounted hopening).resolve_right hlost)

/-- A check is answered, the process closes its input, a command is lost and the next check
fails. -/
theorem delivered_of_answer_unknown :
    let p := Connection.unlaunched { program := "z", options := [("a", "b")] } "z"
      [{ text := "unknown" }, { text := "(:reason-unknown timeout)" }] ⟨false, []⟩
    let checked := Connection.converse [.checkSat] (outcome (Connection.launch false) p).2
    let sent := Connection.converse [.send (.symbol "a")] checked.2.closed
    let again := Connection.converse [.checkSat] sent.2
    checked.1.map Turn.result = [.ok (.verdict (.unknown "timeout"))] ∧
      checked.2.child.heard = ["(set-option :a b)", "(check-sat)", "(get-info :reason-unknown)"] ∧
      sent.2.undelivered = true ∧ again.1.map (·.result.isOk) = [false] := by
  intro p checked sent again
  have hstart : Wire.Reacts { connection := p } := by
    refine ⟨fun hended => absurd hended Bool.false_ne_true, ?_⟩
    decide +kernel
  -- the runs of the operations are sessions of such a process
  obtain ⟨_, hlaunched, hreacts⟩ := hstart.exists_launched (by decide) false
  obtain ⟨_, hchecked, hreacts⟩ := hreacts.exists_session_converse [.checkSat]
  obtain ⟨_, hsent, hreacts'⟩ := hreacts.closed.exists_session_converse [.send (.symbol "a")]
  obtain ⟨_, hagain, -⟩ := hreacts'.exists_session_converse [.checkSat]
  have hunknown : checked.1.map Turn.result = [.ok (.verdict (.unknown "timeout"))] := by
    decide +kernel
  have hheard : Command.heard (Exchange.commands (p.exchanges checked.1))
      = ["(set-option :a b)", "(check-sat)", "(get-info :reason-unknown)"] := by decide +kernel
  have hundelivered : sent.2.undelivered = true :=
    (Connection.undelivered_send checked.2.closed (.symbol "a")).trans (Bool.or_true _)
  obtain ⟨hanswered, -⟩ := delivered_of_answer p.invocation p.program p.child.replies p.folder false
    hlaunched hchecked (.nil _)
  have hcomplete := hanswered _ rfl rfl (congrArg Except.isOk (List.cons.inj hunknown).1)
  obtain ⟨-, hrefused⟩ := delivered_of_answer p.invocation p.program p.child.replies p.folder false
    hlaunched (hchecked.append (.stirs (Wire.stirs_closed _) hsent)) hagain
  have hlost := hrefused (fun hcomplete => Bool.eq_false_iff.1 hcomplete.delivered hundelivered) _
    List.mem_cons_self rfl
  exact ⟨hunknown, hcomplete.heard_eq.trans hheard, hundelivered, congrArg (fun b => [b]) hlost⟩

end Interpolants
