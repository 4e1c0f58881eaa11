import Interpolants.Proofs.Solver.Interference
import Interpolants.Proofs.Solver.Transcript

/-!
# Interpolants — transcripts replay their sessions

A session is seen in three ways: as the commands that were sent, in the file of its transcript, and
as what was written to the process. All three are kept apart exchange by exchange (`Passage`), and
whatever the process does, a step adds the same command to each of them. The transcript at any time
is the command line with what the exchanges so far add to it (`Carries.transcript_eq`), and its file
is read back (`Transcript.parseMany_fileText`).

## The architecture

* **`Passes`** — what one exchange does to a connection.
* **`Carries`** — exchanges one after the other, between which the process may become any other.
* **`Recounts`** — the passages of a recorded session, from its launch on; every session on a wire
  has them (`Wire.Session.exists_recounts`).
* **`transcript_replays`** — the headline: what each saved file holds.
-/

namespace Interpolants

open Text

/-! ## Passages -/

/-- An exchange with the connection in front of it, the process being what it has become by then,
and the connection behind it. -/
structure Passage where
  before : Connection
  exchange : Exchange
  behind : Connection

/-- The connection behind an exchange. -/
def Connection.behind (p : Connection) : Exchange → Connection
  | .told command => p.send command
  | .noted text => p.comment text
  | .saved _ => p.save.2
  | .handed _ => (outcome reply p).2

/-- What an exchange adds to a transcript. -/
def Exchange.entries : Exchange → List Sexp
  | .told command => [command]
  | .noted text => [.comment "", .comment text]
  | .saved _ | .handed _ => []

namespace Passage

/-- The message that has to be written for an exchange. -/
def message? (q : Passage) : Option (List Char) :=
  match q.exchange with
  | .told command => some command.chars
  | .handed _ => some Reply.echoRequest
  | .noted _ | .saved _ => none

/-- Whether a message is written: no other one has failed since the last request, and the process
reads. -/
def writes (q : Passage) : Bool :=
  !q.before.undelivered && q.before.child.listening

/-- What is written to the process. -/
def written (q : Passage) : List (List Char) :=
  if q.writes then q.message?.toList else []

/-- Whether a message should be written and is not. -/
def fails (q : Passage) : Bool :=
  q.message?.isSome && !q.writes

variable {q : Passage}

/-- Nothing is written to a process that does not read. -/
theorem written_of_closed (h : q.before.undelivered = true ∨ q.before.child.listening = false) :
    q.written = [] := by
  rw [written, if_neg]
  rcases h with h | h <;> simp [writes, h]

/-- A message is written to a process that reads. -/
theorem written_of_listening (hdelivered : q.before.undelivered = false)
    (hlistening : q.before.child.listening = true) : q.written = q.message?.toList := by
  rw [written, if_pos]
  simp [writes, hdelivered, hlistening]

/-- Saving writes nothing to the process. -/
theorem written_saved (before behind : Connection) (written : Bool) :
    Passage.written ⟨before, .saved written, behind⟩ = [] :=
  ite_self _

/-- What does not fail is written. -/
theorem written_of_not_fails (h : q.fails = false) : q.written = q.message?.toList := by
  cases hwrites : q.writes with
  | true => exact if_pos hwrites
  | false =>
    rw [fails, hwrites, Bool.not_false, Bool.and_true] at h
    rw [written, if_neg (Bool.eq_false_iff.1 hwrites),
      Option.not_isSome_iff_eq_none.1 (Bool.eq_false_iff.1 h)]
    rfl

end Passage

namespace Connection

/-- What an exchange does to a connection. -/
inductive Passes (p : Connection) : Exchange → Connection → Prop where
  | told (command : Sexp) : Passes p (.told command) (p.send command)
  | noted (text : String) : Passes p (.noted text) (p.comment text)
  | saved : Passes p (.saved p.save.1) p.save.2
  | handed : Passes p (.handed (outcome reply p).1) (outcome reply p).2

/-- Exchanges one after the other. In front of each of them and behind the last the process may have
become any other. -/
inductive Carries : Connection → List Passage → Connection → Prop where
  | nil (p : Connection) (child : Child) : Carries p [] { p with child }
  | cons {p p₁ p' : Connection} {child : Child} {exchange : Exchange} {passages : List Passage}
    (h : Passes { p with child } exchange p₁) (hmore : Carries p₁ passages p') :
    Carries p (⟨{ p with child }, exchange, p₁⟩ :: passages) p'

section

variable {p p₁ p' : Connection} {exchange : Exchange} {passages more : List Passage} {q : Passage}

/-- Nothing reaches a process that does not listen, nor does anything behind a failure. -/
theorem Passes.child_eq_of_closed (h : Passes p exchange p')
    (hclosed : p.undelivered = true ∨ p.child.listening = false) : p'.child = p.child := by
  cases h with
  | told command =>
    rw [child_send]
    split
    · rfl
    · exact Child.hear_of_not_listening (hclosed.resolve_left ‹_›) _
  | noted text => rfl
  | saved => exact (child_save p).2
  | handed => rw [outcome_reply_of_closed hclosed]

/-- **What is written is what the process reads.** A request reads some of what the process wrote as
well. -/
theorem Passes.child_eq (h : Passes p exchange p') :
    p'.child = { (Passage.written ⟨p, exchange, p'⟩).foldl Child.hear p.child with
      output := p'.child.output } := by
  rcases p.closed_or_open with hclosed | ⟨hdelivered, hlistening⟩
  · rw [Passage.written_of_closed hclosed, h.child_eq_of_closed hclosed]
    rfl
  · rw [Passage.written_of_listening hdelivered hlistening]
    cases h with
    | told command =>
      rw [send_of_listening hdelivered hlistening]
      rfl
    | noted text => rfl
    | saved =>
      rw [(child_save p).2]
      rfl
    | handed =>
      rw [outcome_reply hdelivered hlistening]
      rfl

/-- A command is added to the transcript, whether it arrives or not. -/
theorem transcript_send (p : Connection) (command : Sexp) :
    (p.send command).transcript = p.transcript.map (·.add command) := by
  rw [send, deliver]
  split
  · rfl
  · split <;> rfl

theorem transcript_save (p : Connection) : p.save.2.transcript = p.transcript := by
  unfold save
  split <;> rfl

theorem transcript_reply (p : Connection) : (outcome reply p).2.transcript = p.transcript := by
  rcases p.closed_or_open with hclosed | ⟨hdelivered, hlistening⟩
  · rw [outcome_reply_of_closed hclosed]
  · rw [outcome_reply hdelivered hlistening]

/-- An exchange adds its entries to the transcript. -/
theorem Passes.transcript_eq (h : Passes p exchange p') :
    p'.transcript = p.transcript.map fun t => ⟨t.entries ++ exchange.entries⟩ := by
  cases h with
  | told command => exact transcript_send p command
  | noted text =>
    show (p.transcript.map _).map _ = _
    rw [Option.map_map]
    refine congrArg (Option.map · p.transcript) (funext fun t => ?_)
    simp [Transcript.add, Exchange.entries]
  | saved => simp [transcript_save, Exchange.entries]
  | handed => simp [transcript_reply, Exchange.entries]

/-- **The transcript** has what all exchanges so far add to it, whatever the process does. -/
theorem Carries.transcript_eq (h : Carries p passages p') :
    p'.transcript = p.transcript.map fun t =>
      ⟨t.entries ++ (passages.map Passage.exchange).flatMap Exchange.entries⟩ := by
  induction h with
  | nil p child => simp
  | cons h _ ih =>
    rw [ih, h.transcript_eq, Option.map_map]
    refine congrArg (Option.map · _) (funext fun t => ?_)
    simp

/-- What stands in front of a passage has carried the session to it. -/
theorem Carries.before (h : Carries p (passages ++ q :: more) p') :
    Carries p passages q.before ∧ Passes q.before q.exchange q.behind := by
  induction passages generalizing p with
  | nil =>
    cases h with
    | @cons _ _ _ child _ _ h _ => exact ⟨.nil p child, h⟩
  | cons q' passages ih =>
    cases h with
    | cons h hmore =>
      obtain ⟨hcarries, hpasses⟩ := ih hmore
      exact ⟨.cons h hcarries, hpasses⟩

/-- Exchanges may start with any process. -/
theorem Carries.of_child {child : Child} (h : Carries { p with child } passages p') :
    Carries p passages p' := by
  cases h with
  | nil _ child' => exact .nil p child'
  | cons h hmore => exact .cons h hmore

/-- The process need not become another. -/
theorem Carries.refl (p : Connection) : Carries p [] p :=
  .nil p p.child

/-- One more exchange may come before others. -/
theorem Carries.next (h : Passes p exchange p₁) (hmore : Carries p₁ passages p') :
    Carries p (⟨p, exchange, p₁⟩ :: passages) p' :=
  @cons p p₁ p' p.child exchange passages h hmore

/-- Exchanges may follow others. -/
theorem Carries.append (h : Carries p passages p₁) (hmore : Carries p₁ more p') :
    Carries p (passages ++ more) p' := by
  induction h with
  | nil p child => exact hmore.of_child
  | cons h _ ih => exact .cons h (ih hmore)

theorem Carries.snoc (h : Carries p passages p₁) (hpasses : Passes p₁ exchange p') :
    Carries p (passages ++ [⟨p₁, exchange, p'⟩]) p' :=
  h.append (.next hpasses (.refl p'))

/-- In a passage a process reads what is written, and its output is read. -/
theorem Carries.child_eq (h : Carries p passages p') (hq : q ∈ passages) :
    q.behind.child = { q.written.foldl Child.hear q.before.child with
      output := q.behind.child.output } := by
  obtain ⟨soFar, rest, rfl⟩ := List.append_of_mem hq
  exact h.before.2.child_eq

/-- A transcript is saved whole. -/
theorem Passes.saved_eq (h : Passes p (.saved true) p') :
    ∃ t, p.transcript = some t ∧ p.folder.save? t = some p'.folder := by
  generalize hexchange : Exchange.saved true = exchange at h
  cases h with
  | told | noted | handed => cases hexchange
  | saved =>
    have hsaved : true = p.save.1 := Exchange.saved.inj hexchange
    unfold save at hsaved ⊢
    cases hfolder : p.transcript.bind p.folder.save? with
    | none =>
      rw [hfolder] at hsaved
      cases hsaved
    | some folder => exact Option.bind_eq_some_iff.1 hfolder

end

end Connection

/-! ## What a transcript holds -/

/-- A command line names a program. -/
theorem Invocation.commandLine_ne_empty (inv : Invocation) : inv.commandLine ≠ "" := by
  intro h
  have hempty := congrArg String.toList h
  rw [commandLine, String.toList_append, String.toList_append] at hempty
  simp at hempty

/-- No command is printed like the request for the marker, since a text with quotes is quoted
again. -/
theorem Sexp.Replayable.chars_ne_echoRequest {t : Sexp} (h : t.Replayable) :
    t.chars ≠ Reply.echoRequest := by
  obtain ⟨t', ht', hchars⟩ := exists_reparsable h.composed
  intro hecho
  have hread := ht'.parse_eq
  rw [render, hchars, hecho] at hread
  have hrequest : parse (String.ofList Reply.echoRequest)
      = .ok (.app "echo" [.symbol "<<DONE>>"]) := by decide +kernel
  obtain rfl : t' = _ := Except.ok.inj (hread.symm.trans hrequest)
  rw [hecho] at hchars
  exact absurd hchars (by decide +kernel)

namespace Exchange

variable {log : List Exchange}

theorem commands_cons (exchange : Exchange) (log : List Exchange) :
    commands (exchange :: log) = commands [exchange] ++ commands log :=
  commands_append [exchange] log

/-- What exchanges add to a transcript is read back, if the commands are and the comments are of one
line. -/
theorem recordable_entries (hcommands : ∀ command ∈ commands log, command.Replayable)
    (hcomments : ∀ text, noted text ∈ log → Sexp.OneLine text) :
    ∀ entry ∈ log.flatMap entries, Transcript.Recordable entry := by
  intro entry hentry
  obtain ⟨exchange, hexchange, hentry⟩ := List.mem_flatMap.1 hentry
  cases exchange with
  | told command =>
    obtain rfl := List.mem_singleton.1 hentry
    exact .command (hcommands entry (List.mem_filterMap.2 ⟨_, hexchange, rfl⟩))
  | noted text =>
    rcases List.mem_pair.1 hentry with rfl | rfl
    · exact .comment (by decide)
    · exact .comment (hcomments text hexchange)
  | saved | handed => cases hentry

/-- Among what exchanges add to a transcript are the commands in their order. -/
theorem commandTexts_entries (hcommands : ∀ command ∈ commands log, command.Replayable) :
    Transcript.commandTexts (log.flatMap entries) = (commands log).map Sexp.render := by
  induction log with
  | nil => rfl
  | cons exchange log ih =>
    rw [commands_cons] at hcommands ⊢
    have hlog := ih fun command h => hcommands command (List.mem_append_right _ h)
    cases exchange with
    | told command =>
      have hcommand := hcommands command (List.mem_append_left _ List.mem_cons_self)
      exact (Transcript.commandTexts_cons_of_ne (Sexp.ne_comment_of_composed hcommand.composed)
        _).trans
        (congrArg _ hlog)
    | noted text => exact hlog
    | saved | handed => exact hlog

end Exchange

/-- **Where no message fails, the commands are what is written**, requests for the marker aside. -/
theorem Passage.filter_written {passages : List Passage}
    (hcommands : ∀ command ∈ Exchange.commands (passages.map exchange), command.Replayable)
    (hwritten : ∀ q ∈ passages, q.fails = false) :
    (passages.flatMap written).filter (· ≠ Reply.echoRequest)
      = (Exchange.commands (passages.map exchange)).map Sexp.chars := by
  induction passages with
  | nil => rfl
  | cons q passages ih =>
    obtain ⟨hq, hmore⟩ := List.forall_mem_cons.1 hwritten
    rw [List.map_cons, Exchange.commands_cons] at hcommands ⊢
    have hrest := ih (fun command h => hcommands command (List.mem_append_right _ h)) hmore
    rw [List.flatMap_cons, List.filter_append, hrest, List.map_append, written_of_not_fails hq]
    refine congrArg (· ++ _) ?_
    obtain ⟨before, exchange, behind⟩ := q
    cases exchange with
    | told command =>
      have hcommand := hcommands command (List.mem_append_left _ List.mem_cons_self)
      -- no command is printed like a request
      exact List.filter_cons_of_pos (decide_eq_true hcommand.chars_ne_echoRequest)
    | noted | saved => rfl
    | handed => exact List.filter_cons_of_neg (by simp)

/-! ## Sessions -/

/-- The passages of a recorded session of some turns, from its launch on. -/
structure Recounts (p : Connection) (turns : List Turn) (passages : List Passage)
    (p' : Connection) :
    Prop where
  launches : p.launchFault? = none
  follows : ∀ turn ∈ turns, turn.operation.dialogue.Follows turn.exchanges turn.result
  exchanges_eq : passages.map Passage.exchange = p.exchanges turns
  carries : Connection.Carries { p with transcript := p.firstTranscript true } passages p'

section

variable {p p' : Connection} {turns : List Turn} {passages : List Passage}

/-- **Whatever the process does, what is held on a wire goes from passage to passage.** -/
theorem Dialogue.Held.exists_carries {α : Type} {d : Dialogue α} {w w' : Wire}
    {exchanges : List Exchange} {result : Except SolverError α} (h : d.Held w exchanges result w') :
    ∃ passages, passages.map Passage.exchange = exchanges ∧
      Connection.Carries w.connection passages w'.connection := by
  induction h with
  | stirs hstirs _ ih =>
    obtain ⟨passages, hexchanges, hcarries⟩ := ih
    rw [hstirs.connection_eq] at hcarries
    exact ⟨passages, hexchanges, hcarries.of_child⟩
  | done result w => exact ⟨[], rfl, .refl w.connection⟩
  | @send command _ _ _ _ _ _ hsends _ ih =>
    obtain ⟨passages, hexchanges, hcarries⟩ := ih
    cases hsends with
    | whole =>
      -- all of the command is read, or the process closes its input before
      exact ⟨_ :: passages, congrArg _ hexchanges, .next (.told command) hcarries⟩
    | torn => exact ⟨_ :: passages, congrArg _ hexchanges, .cons (.told command) hcarries⟩
  | @comment text _ _ _ _ _ _ ih =>
    obtain ⟨passages, hexchanges, hcarries⟩ := ih
    exact ⟨_ :: passages, congrArg _ hexchanges, .next (.noted text) hcarries⟩
  | save _ ih =>
    obtain ⟨passages, hexchanges, hcarries⟩ := ih
    exact ⟨_ :: passages, congrArg _ hexchanges, .next .saved hcarries⟩
  | request _ hreply _ ih =>
    obtain ⟨passages, hexchanges, hcarries⟩ := ih
    refine ⟨_ :: passages, ?_, .next .handed hcarries⟩
    rw [List.map_cons, hexchanges, ← hreply]
  | @unanswered _ _ w _ hreply =>
    refine ⟨[_], ?_, .next .handed (.refl w.request.connection)⟩
    rw [List.map_singleton, ← hreply]

/-- The exchanges of a session have their passages. -/
theorem Wire.Session.exists_carries {w w' : Wire} (h : Wire.Session w turns w') :
    ∃ passages, passages.map Passage.exchange = turns.flatMap Turn.exchanges ∧
      Connection.Carries w.connection passages w'.connection ∧
      ∀ turn ∈ turns, turn.operation.dialogue.Follows turn.exchanges turn.result := by
  induction h with
  | nil w => exact ⟨[], rfl, .refl w.connection, nofun⟩
  | stirs hstirs _ ih =>
    obtain ⟨passages, hexchanges, hcarries, hfollows⟩ := ih
    rw [hstirs.connection_eq] at hcarries
    exact ⟨passages, hexchanges, hcarries.of_child, hfollows⟩
  | cons hheld _ ih =>
    obtain ⟨passages, hexchanges, hcarries⟩ := hheld.exists_carries
    obtain ⟨more, hmore, hcarriesMore, hfollows⟩ := ih
    refine ⟨passages ++ more, ?_, hcarries.append hcarriesMore,
      List.forall_mem_cons.2 ⟨hheld.follows, hfollows⟩⟩
    rw [List.map_append, hexchanges, hmore, List.flatMap_cons]

/-- **Every recorded session is recounted**, whatever its process does at any time. -/
theorem Wire.Session.exists_recounts {w₀ w' : Wire} (hlaunched : Wire.Launched p true w₀)
    (h : Wire.Session w₀ turns w') : ∃ passages, Recounts p turns passages w'.connection := by
  obtain ⟨opening, hopening, hcarriesOpening⟩ := hlaunched.2.exists_carries
  obtain ⟨passages, hexchanges, hcarries, hfollows⟩ := h.exists_carries
  refine ⟨opening ++ passages, hlaunched.1, hfollows, ?_, hcarriesOpening.append hcarries⟩
  rw [List.map_append, hopening, hexchanges, Connection.exchanges]

/-- The passages of some exchanges with a process that does nothing on its own. -/
def Connection.quietPassages (p : Connection) : List Exchange → List Passage
  | [] => []
  | exchange :: exchanges =>
    ⟨p, exchange, p.behind exchange⟩ :: (p.behind exchange).quietPassages exchanges

/-- The last passage starts where the exchanges before it have led. -/
theorem Connection.quietPassages_snoc (p : Connection) (log : List Exchange) (exchange : Exchange) :
    p.quietPassages (log ++ [exchange])
      = p.quietPassages log
        ++ [⟨log.foldl behind p, exchange, (log.foldl behind p).behind exchange⟩] := by
  induction log generalizing p with
  | nil => rfl
  | cons first log ih => exact congrArg _ (ih _)

theorem Connection.map_exchange_quietPassages (p : Connection) (log : List Exchange) :
    (p.quietPassages log).map Passage.exchange = log := by
  induction log generalizing p with
  | nil => rfl
  | cons first log ih => exact congrArg _ (ih _)

/-- The exchanges so far have led from one connection to another. -/
def Connection.Led (start : Connection) (log : List Exchange) (p : Connection) : Prop :=
  start.Carries (start.quietPassages log) p ∧ log.foldl behind start = p

/-- One more exchange leads on from where the others have led. -/
theorem Connection.Led.step {start : Connection} {log : List Exchange} (h : start.Led log p)
    {exchange : Exchange} (hpasses : p.Passes exchange (p.behind exchange)) :
    start.Led (log ++ [exchange]) (p.behind exchange) := by
  obtain ⟨hcarries, hfold⟩ := h
  refine ⟨?_, ?_⟩
  · rw [quietPassages_snoc, hfold]
    exact hcarries.snoc hpasses
  · rw [List.foldl_append, hfold]
    rfl

/-- All exchanges lead on. -/
theorem Connection.invariant_led (start : Connection) : Invariant start.Led where
  send h command := h.step (.told command)
  comment h text := h.step (.noted text)
  save h := h.step .saved
  request h := h.step .handed

/-- A session whose process does nothing on its own. -/
theorem recounts_converse (hlaunch : p.launchFault? = none) (ops : List Operation) :
    let run := Connection.converse ops (outcome (Connection.launch true) p).2
    let start := { p with transcript := p.firstTranscript true }
    Recounts p run.1 (start.quietPassages (p.exchanges run.1)) run.2 := by
  intro run start
  have hled := (Connection.invariant_led start).session hlaunch true
    ⟨.refl start, rfl⟩ ops
  exact ⟨hlaunch, Connection.follows_converse ops _,
    Connection.map_exchange_quietPassages _ _, hled.1⟩

/-- **A saved transcript replays its session.** Launch a recorded connection and hold any operations
on it, while its process does whatever it likes at any time. Where the transcript is saved, its file
is read as the commands so far, each as it is printed, with comments between them. Where no message
failed before, these are also what was written to the process, requests for the marker aside. -/
theorem transcript_replays (h : Recounts p turns passages p')
    (hline : Sexp.OneLine p.invocation.commandLine)
    (hcommands : ∀ command ∈ Exchange.commands (p.exchanges turns), command.Replayable)
    (hcomments : ∀ text, Exchange.noted text ∈ p.exchanges turns → Sexp.OneLine text) :
    (∀ q ∈ passages, q.behind.child = { q.written.foldl Child.hear q.before.child with
      output := q.behind.child.output }) ∧
    ∀ soFar q rest, passages = soFar ++ q :: rest → q.exchange = .saved true →
      ∃ t items, q.before.transcript = some t ∧ t.fileText ∈ q.behind.folder.files ∧
        Sexp.parseMany t.fileText = .ok items ∧
        Transcript.commandTexts items
          = (Exchange.commands (soFar.map Passage.exchange)).map Sexp.render ∧
        ((∀ q ∈ soFar, q.fails = false) →
          (soFar.flatMap Passage.written).filter (· ≠ Reply.echoRequest)
            = (Exchange.commands (soFar.map Passage.exchange)).map Sexp.chars) := by
  refine ⟨fun q hq => h.carries.child_eq hq, ?_⟩
  rintro soFar q rest rfl hsaved
  obtain ⟨hcarries, hpasses⟩ := h.carries.before
  rw [hsaved] at hpasses
  obtain ⟨t, htranscript, hfolder⟩ := hpasses.saved_eq
  -- the exchanges in front of the passage are some of the session's
  have hexchanges : p.exchanges turns
      = soFar.map Passage.exchange ++ q.exchange :: rest.map Passage.exchange := by
    rw [← h.exchanges_eq, List.map_append, List.map_cons]
  have hsoFar : ∀ command ∈ Exchange.commands (soFar.map Passage.exchange), command.Replayable := by
    refine fun command hcommand => hcommands command ?_
    rw [hexchanges, Exchange.commands_append]
    exact List.mem_append_left _ hcommand
  have hentries := Exchange.recordable_entries hsoFar fun text htext => hcomments text (by
    rw [hexchanges]
    exact List.mem_append_left _ htext)
  -- the transcript is the command line with what they add to it
  have ht : t.entries = .comment p.invocation.commandLine
      :: (soFar.map Passage.exchange).flatMap Exchange.entries := by
    rw [hcarries.transcript_eq] at htranscript
    exact congrArg Transcript.entries (Option.some.inj htranscript).symm
  obtain ⟨items, hitems, htexts⟩ := t.parseMany_fileText
    (by rw [ht]; exact List.forall_mem_cons.2 ⟨.comment hline, hentries⟩)
    ⟨_, _, ht, p.invocation.commandLine_ne_empty⟩
  rw [ht] at htexts
  exact ⟨t, items, htranscript, Folder.mem_of_save? hfolder, hitems,
    htexts.trans (Exchange.commandTexts_entries hsoFar), Passage.filter_written hsoFar⟩

/-- A check is answered with unknown, the reason is asked for, and the transcript is saved. -/
theorem transcript_replays_unknown :
    let p := Connection.unlaunched { program := "z3", options := [("timeout", "10")] } "z3"
      [{ text := "unknown" }, { text := "(:reason-unknown incomplete)" }] ⟨true, []⟩
    let run :=
      Connection.converse [.send (Command.declareFun "x y" "Bool"), .comment "phi_1", .checkSat]
      (outcome (Connection.launch true) p).2
    let start := { p with transcript := p.firstTranscript true }
    let commands := ["(set-option :timeout 10)", "(declare-fun |x y| () Bool)", "(check-sat)",
      "(get-info :reason-unknown)"]
    ∃ file items, file ∈ run.2.folder.files ∧ Sexp.parseMany file = .ok items ∧
      Transcript.commandTexts items = commands ∧
      (((start.quietPassages (p.exchanges run.1)).flatMap Passage.written).filter
        (· ≠ Reply.echoRequest)) = commands.map String.toList := by
  intro p run start commands
  have hrecounts := recounts_converse (p := p) (by decide)
    [.send (Command.declareFun "x y" "Bool"), .comment "phi_1", .checkSat]
  let soFar : List Exchange := [.told (Command.setOption "timeout" "10"),
    .told (Command.declareFun "x y" "Bool"), .noted "phi_1", .told Command.checkSat,
    .handed (.ok "unknown"), .told (Command.getInfo ":reason-unknown"),
    .handed (.ok "(:reason-unknown incomplete)")]
  have hlog : p.exchanges run.1 = soFar ++ [.saved true] := by decide +kernel
  have hpassages := start.quietPassages_snoc soFar (.saved true)
  have hcommands : ∀ command ∈ Exchange.commands (p.exchanges run.1), command.Replayable := by
    decide +kernel
  have hcomments : ∀ text, Exchange.noted text ∈ p.exchanges run.1 → Sexp.OneLine text := by
    intro text htext
    rw [hlog] at htext
    obtain rfl : text = "phi_1" := by simpa [soFar] using htext
    decide
  obtain ⟨-, hreplays⟩ := transcript_replays hrecounts (by decide) hcommands hcomments
  rw [← hlog] at hpassages
  generalize hlast : soFar.foldl Connection.behind start = last at hpassages
  obtain ⟨t, items, -, hfile, hitems, htexts, hwritten⟩ := hreplays _ _ _ hpassages rfl
  rw [Connection.map_exchange_quietPassages] at htexts hwritten
  have hfolder : run.2.folder = (last.behind (.saved true)).folder := by
    rw [← hlast]
    decide +kernel
  have hfails : ∀ q ∈ start.quietPassages soFar, q.fails = false := by decide +kernel
  have hprinted : (Exchange.commands soFar).map Sexp.render = commands := by decide +kernel
  have hchars : (Exchange.commands soFar).map Sexp.chars = commands.map String.toList := by
    decide +kernel
  refine ⟨t.fileText, items, hfolder ▸ hfile, hitems, htexts.trans hprinted, ?_⟩
  rw [hpassages, List.flatMap_append, List.flatMap_singleton, Passage.written_saved,
    List.append_nil]
  exact (hwritten hfails).trans hchars

end

end Interpolants
