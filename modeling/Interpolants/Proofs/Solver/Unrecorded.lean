import Interpolants.Proofs.Solver.Records

/-!
# Interpolants — recording does not influence a session

Whether a session is recorded, and whether its transcript can be saved, is seen where a transcript
is saved on request, and nowhere else: no other operation depends on what saving gives
(`Operation.matches_dialogue`). So sessions of one connection that differ in their records go
through the same exchanges, savings aside. The same is written to the process, and the operations
give the same results.

## The architecture

* **`Dialogue.Matches`** — dialogues that do the same, whatever saving gives.
* **`Dialogue.Matches.hold`**, **`Dialogue.Held.exists_alike`** — they are held alike on connections
  that differ in their records, and on wires.
* **`Connection.SameButRecords.run`** — whole sessions of such connections go alike.
* **`Connection.files_run`** — what a session leaves in the folder.
* **`recording_influences_nothing`** — the headline: a session without a transcript, one with a
  folder for it, and one whose folder cannot be created.
-/

namespace Interpolants

open Text

/-! ## Exchanges -/

/-- Two exchanges that are the same, apart from whether a transcript could be saved. -/
inductive Exchange.Alike : Exchange → Exchange → Prop where
  | refl (exchange : Exchange) : Alike exchange exchange
  | saved (written written' : Bool) : Alike (.saved written) (.saved written')

/-- Where nothing is saved, exchanges that are alike are the same. -/
theorem Exchange.eq_of_alike {log log' : List Exchange} (h : List.Forall₂ Alike log log')
    (hlog : ∀ written, saved written ∉ log) : log' = log := by
  induction h with
  | nil => rfl
  | cons hexchange _ ih =>
    have hmore := ih fun written hmem => hlog written (List.mem_cons_of_mem _ hmem)
    cases hexchange with
    | refl exchange => rw [hmore]
    | saved written => exact absurd List.mem_cons_self (hlog written)

namespace Connection

/-- What is written to the process over some exchanges, a line each. -/
def messages (p : Connection) (log : List Exchange) : List (List Char) :=
  (p.quietPassages log).flatMap Passage.written

namespace SameButRecords

variable {p q : Connection} {exchange exchange' : Exchange} {log log' : List Exchange}

/-- Exchanges that go alike keep the difference to what is recorded. -/
theorem behind (h : p.SameButRecords q) (hexchange : exchange.Alike exchange') :
    (p.behind exchange).SameButRecords (q.behind exchange') := by
  cases hexchange with
  | refl exchange =>
    cases exchange with
    | told command => exact h.send command
    | noted text => exact h.comment text
    | saved => exact h.save
    | handed => exact h.reply.2
  | saved => exact h.save

/-- The same is written for an exchange. -/
theorem written_eq (h : p.SameButRecords q) (hexchange : exchange.Alike exchange')
    (p' q' : Connection) :
    Passage.written ⟨q, exchange', q'⟩ = Passage.written ⟨p, exchange, p'⟩ := by
  have hwrites : Passage.writes ⟨q, exchange', q'⟩ = Passage.writes ⟨p, exchange, p'⟩ := by
    rw [Passage.writes, Passage.writes, h.undelivered_eq, h.child_eq]
  have hmessage : Passage.message? ⟨q, exchange', q'⟩ = Passage.message? ⟨p, exchange, p'⟩ := by
    cases hexchange <;> rfl
  rw [Passage.written, Passage.written, hwrites, hmessage]

/-- The same is written to the process over exchanges that go alike. -/
theorem messages_eq (h : p.SameButRecords q) (hlog : List.Forall₂ Exchange.Alike log log') :
    q.messages log' = p.messages log := by
  induction hlog generalizing p q with
  | nil => rfl
  | @cons exchange exchange' log log' hexchange _ ih =>
    show Passage.written ⟨q, exchange', q.behind exchange'⟩ ++ (q.behind exchange').messages log'
      = Passage.written ⟨p, exchange, p.behind exchange⟩ ++ (p.behind exchange).messages log
    rw [h.written_eq hexchange, ih (h.behind hexchange)]

end SameButRecords

end Connection

/-! ## Dialogues -/

namespace Dialogue

variable {α β : Type} {R : Except SolverError α → Except SolverError α → Prop}

/-- Two dialogues that do the same, whatever saving gives, and come to related results. -/
inductive Matches (R : Except SolverError α → Except SolverError α → Prop) :
    Dialogue α → Dialogue α → Prop where
  | done {result result' : Except SolverError α} (h : R result result') :
    Matches R (.done result) (.done result')
  | send (command : Sexp) {next next' : Dialogue α} (h : Matches R next next') :
    Matches R (.send command next) (.send command next')
  | comment (text : String) {next next' : Dialogue α} (h : Matches R next next') :
    Matches R (.comment text next) (.comment text next')
  | save {next next' : Bool → Dialogue α}
      (h : ∀ written written', Matches R (next written) (next' written')) :
      Matches R (.save next) (.save next')
  | request {next next' : String → Dialogue α} (h : ∀ text, Matches R (next text) (next' text)) :
    Matches R (.request next) (.request next')

namespace Matches

variable {d d' : Dialogue α}

/-- Going on with a result matches itself. -/
theorem after (hR : ∀ result, R result result) {next : β → Dialogue α}
    (h : ∀ b, (next b).Matches R (next b)) (result : Except SolverError β) :
    (Dialogue.after result next).Matches R (Dialogue.after result next) := by
  cases result with
  | ok b => exact h b
  | error e => exact .done (hR (.error e))

/-- A question matches itself. -/
theorem ask (hR : ∀ result, R result result) {next : Sexp → Dialogue α}
    (h : ∀ reply, (next reply).Matches R (next reply)) (command : Sexp) :
    (Dialogue.ask command next).Matches R (Dialogue.ask command next) :=
  .send command (.request fun text => .after hR h (Reply.single text))

/-- A question for a value matches itself. -/
theorem info (hR : ∀ result, R result result) {next : Sexp → Dialogue α}
    (h : ∀ value, (next value).Matches R (next value)) (keyword : String) :
    (Dialogue.info keyword next).Matches R (Dialogue.info keyword next) :=
  .ask hR (fun reply => .after hR h (Reply.info keyword reply)) (Command.getInfo keyword)

/-- **Dialogues that match are held alike** on connections that differ in their records alone. -/
theorem hold {p q : Connection} (hd : d.Matches R d') (hR : ∀ result, R result result)
    (h : p.SameButRecords q) :
    R (d.hold p).1 (d'.hold q).1 ∧ List.Forall₂ Exchange.Alike (d.hold p).2.1 (d'.hold q).2.1 ∧
      (d.hold p).2.2.SameButRecords (d'.hold q).2.2 := by
  induction hd generalizing p q with
  | done hresult => exact ⟨hresult, .nil, h⟩
  | send command _ ih =>
    obtain ⟨hresult, hexchanges, hbehind⟩ := ih (h.send command)
    exact ⟨hresult, .cons (.refl _) hexchanges, hbehind⟩
  | comment text _ ih =>
    obtain ⟨hresult, hexchanges, hbehind⟩ := ih (h.comment text)
    exact ⟨hresult, .cons (.refl _) hexchanges, hbehind⟩
  | save _ ih =>
    obtain ⟨hresult, hexchanges, hbehind⟩ := ih p.save.1 q.save.1 h.save
    exact ⟨hresult, .cons (.saved _ _) hexchanges, hbehind⟩
  | request _ ih =>
    obtain ⟨hreply, hbehind⟩ := h.reply
    rw [Dialogue.hold, Dialogue.hold]
    -- both requests have the same reply
    rcases hp : outcome Connection.reply p with ⟨e | text, p'⟩ <;>
      rcases hq : outcome Connection.reply q with ⟨e' | text', q'⟩ <;>
      rw [hp, hq] at hreply hbehind <;> cases hreply
    · exact ⟨hR (.error e), .cons (.refl _) .nil, hbehind⟩
    · obtain ⟨hresult, hexchanges, hlast⟩ := ih text hbehind
      exact ⟨hresult, .cons (.refl _) hexchanges, hlast⟩

end Matches

/-! What is exchanged where a dialogue gives a result. -/

namespace Follows

variable {next : Sexp → Dialogue α} {exchanges : List Exchange} {a : α}

end Follows

end Dialogue

namespace Operation

/-- Results of an operation that are the same, unless the operation saves the transcript. -/
def SameResults (op : Operation) (result result' : Except SolverError Answer) : Prop :=
  op ≠ .save → result' = result

theorem sameResults_refl (op : Operation) (result : Except SolverError Answer) :
    op.SameResults result result :=
  fun _ => rfl

/-- **No operation depends on what saving gives**, except that saving hands it over. -/
theorem matches_dialogue (op : Operation) : op.dialogue.Matches op.SameResults op.dialogue := by
  have hdone : ∀ result, (Dialogue.done result).Matches op.SameResults (.done result) :=
    fun result => .done (op.sameResults_refl result)
  cases op with
  | send command => exact .send command (hdone _)
  | comment text => exact .comment text (hdone _)
  | save => exact .save fun written written' => .done fun hne => absurd rfl hne
  | checkSat =>
    refine .send Command.checkSat (.request fun text => ?_)
    split
    · exact hdone _
    · split
      · exact hdone _
      · split
        · -- the verdict does not depend on what saving gives
          exact .info (sameResults_refl _) (fun reason => .save fun _ _ =>
            hdone (.ok (.verdict (.unknown reason.render)))) ":reason-unknown"
        · exact hdone _
  | info keyword => exact .info (sameResults_refl _) (fun value => hdone _) keyword
  | interpolants names =>
    exact .ask (sameResults_refl _) (fun reply => .after (sameResults_refl _) (fun terms => hdone _)
      (Reply.terms reply)) (Command.getInterpolants names)

end Operation

/-! ## Sessions -/

/-- Two turns of one operation that go alike. -/
structure Turn.Alike (turn turn' : Turn) : Prop where
  operation_eq : turn'.operation = turn.operation
  results : turn.operation.SameResults turn.result turn'.result
  exchanges : List.Forall₂ Exchange.Alike turn.exchanges turn'.exchanges

/-- Turns that go alike have exchanges that go alike. -/
theorem Turn.alike_flatMap_exchanges {turns turns' : List Turn}
    (h : List.Forall₂ Turn.Alike turns turns') :
    List.Forall₂ Exchange.Alike (turns.flatMap Turn.exchanges) (turns'.flatMap Turn.exchanges) := by
  induction h with
  | nil => exact .nil
  | cons hturn _ ih => exact List.rel_append hturn.exchanges ih

namespace Connection.SameButRecords

variable {p q : Connection}

/-- Operations go alike on connections that differ in what they record alone. -/
theorem converse (h : p.SameButRecords q) (ops : List Operation) :
    List.Forall₂ Turn.Alike (Connection.converse ops p).1 (Connection.converse ops q).1 ∧
      (Connection.converse ops p).2.SameButRecords (Connection.converse ops q).2 := by
  induction ops generalizing p q with
  | nil => exact ⟨.nil, h⟩
  | cons op ops ih =>
    obtain ⟨hresult, hexchanges, hbehind⟩ := op.matches_dialogue.hold op.sameResults_refl h
    obtain ⟨hturns, hlast⟩ := ih hbehind
    rw [Connection.converse, Connection.converse, op.outcome_step, op.outcome_step]
    exact ⟨.cons ⟨rfl, hresult, hexchanges⟩ hturns, hlast⟩

/-- Sessions with turns that go alike have exchanges that go alike, the launch included. -/
theorem exchanges (h : p.SameButRecords q) {turns turns' : List Turn}
    (hturns : List.Forall₂ Turn.Alike turns turns') :
    List.Forall₂ Exchange.Alike (p.exchanges turns) (q.exchanges turns') := by
  rw [Connection.exchanges, Connection.exchanges, opening, opening, h.invocation_eq]
  exact List.rel_append (List.forall₂_same.2 fun exchange _ => .refl exchange)
    (Turn.alike_flatMap_exchanges hturns)

end Connection.SameButRecords

/-! ## Sessions on a wire -/

/-- Two wires whose connections differ in what they record alone. -/
structure Wire.SameButRecords (w v : Wire) : Prop where
  connection : w.connection.SameButRecords v.connection
  ended_eq : v.ended = w.ended

namespace Wire.SameButRecords

variable {w v w' : Wire} {command : Sexp}

/-- A process writes as little whatever is recorded. -/
theorem mute (h : w.SameButRecords v) {lines : List (List Char)} (hmute : w.Mute lines) :
    v.Mute lines := by
  rw [Mute, h.ended_eq, h.connection.child_eq]
  exact hmute

/-- The process can do the same on the other wire. -/
theorem exists_stirs (h : w.SameButRecords v) (hstirs : w.Stirs w') :
    ∃ v', v.Stirs v' ∧ w'.SameButRecords v' := by
  have hchild := h.connection.child_eq
  refine ⟨{ connection := { v.connection with child := w'.connection.child }, ended := w'.ended },
    ⟨rfl, ?_, ?_, ?_, ?_⟩, ?_, rfl⟩
  · rw [hchild]
    exact hstirs.heard_eq
  · rw [hchild]
    exact hstirs.listening
  · rw [hchild]
    exact hstirs.written
  · rw [hchild, h.ended_eq]
    exact hstirs.ended
  · rw [hstirs.connection_eq]
    exact h.connection.withChild w'.connection.child

/-- A command is sent in the same way whatever is recorded. -/
theorem exists_sends (h : w.SameButRecords v) (hsends : w.Sends command w') :
    ∃ v', v.Sends command v' ∧ w'.SameButRecords v' := by
  cases hsends with
  | whole hmute => exact ⟨_, .whole (h.mute hmute), h.connection.send command, h.ended_eq⟩
  | torn hlines hrest hmute hdelivered =>
    refine ⟨_, .torn hlines hrest (h.mute hmute) (h.connection.undelivered_eq.trans hdelivered), ?_,
      h.ended_eq⟩
    rw [h.connection.child_eq]
    exact (h.connection.withChild _).send command

/-- A request leaves two wires that differ in what they record alone. -/
theorem request (h : w.SameButRecords v) : w.request.SameButRecords v.request where
  connection := h.connection.reply.2
  ended_eq := by
    rw [Wire.request, Wire.request, h.ended_eq, Connection.runsDry, Connection.runsDry,
      h.connection.child_eq, h.connection.undelivered_eq]

end Wire.SameButRecords

/-- **Whatever the process does, dialogues that match can be held alike** on wires that differ in
their records alone. -/
theorem Dialogue.Held.exists_alike {α : Type}
    {R : Except SolverError α → Except SolverError α → Prop} {d d' : Dialogue α} {w v w' : Wire}
    {exchanges : List Exchange} {result : Except SolverError α} (h : d.Held w exchanges result w')
    (hd : d.Matches R d') (hR : ∀ result, R result result) (hw : w.SameButRecords v) :
    ∃ exchanges' result' v', d'.Held v exchanges' result' v' ∧ R result result' ∧
      List.Forall₂ Exchange.Alike exchanges exchanges' ∧ w'.SameButRecords v' := by
  -- the process sees the same messages on both wires, so it may do the same
  induction h generalizing d' v with
  | stirs hstirs _ ih =>
    obtain ⟨v₁, hstirs', hw₁⟩ := hw.exists_stirs hstirs
    obtain ⟨exchanges', result', v', hheld, hresult, hexchanges, hw'⟩ := ih hd hw₁
    exact ⟨exchanges', result', v', .stirs hstirs' hheld, hresult, hexchanges, hw'⟩
  | done result w =>
    cases hd with
    | @done _ result' hresult => exact ⟨[], result', v, .done result' v, hresult, .nil, hw⟩
  | send hsends _ ih =>
    cases hd with
    | send command hnext =>
      obtain ⟨v₁, hsends', hw₁⟩ := hw.exists_sends hsends
      obtain ⟨exchanges', result', v', hheld, hresult, hexchanges, hw'⟩ := ih hnext hw₁
      exact ⟨_, result', v', .send hsends' hheld, hresult, .cons (.refl _) hexchanges, hw'⟩
  | comment _ ih =>
    cases hd with
    | comment text hnext =>
      obtain ⟨exchanges', result', v', hheld, hresult, hexchanges, hw'⟩ :=
        ih hnext (v := { v with connection := v.connection.comment _ })
          ⟨hw.connection.comment _, hw.ended_eq⟩
      exact ⟨_, result', v', .comment hheld, hresult, .cons (.refl _) hexchanges, hw'⟩
  | save _ ih =>
    cases hd with
    | save hnext =>
      obtain ⟨exchanges', result', v', hheld, hresult, hexchanges, hw'⟩ :=
        ih (hnext _ v.connection.save.1) (v := { v with connection := v.connection.save.2 })
          ⟨hw.connection.save, hw.ended_eq⟩
      exact ⟨_, result', v', .save hheld, hresult, .cons (.saved _ _) hexchanges, hw'⟩
  | request hmute hreply _ ih =>
    cases hd with
    | request hnext =>
      obtain ⟨exchanges', result', v', hheld, hresult, hexchanges, hw'⟩ := ih (hnext _) hw.request
      exact ⟨_, result', v', .request (hw.mute hmute) (hw.connection.reply.1.trans hreply) hheld,
        hresult,
        .cons (.refl _) hexchanges, hw'⟩
  | @unanswered e _ w hmute hreply =>
    cases hd with
    | request =>
      exact ⟨_, _, v.request, .unanswered (hw.mute hmute) (hw.connection.reply.1.trans hreply),
        hR (.error e), .cons (.refl _) .nil, hw.request⟩

/-- Launching sends the options, whatever saving gives. -/
theorem Invocation.matches_dialogue (inv : Invocation) : inv.dialogue.Matches Eq inv.dialogue := by
  rw [Invocation.dialogue]
  induction inv.options with
  | nil => exact .done rfl
  | cons option options ih => exact .send (Command.setOption option.1 option.2) ih

namespace Wire

variable {w v w' : Wire} {turns : List Turn}

/-- A session with a process that acts on its own goes alike whatever is recorded. -/
theorem Session.exists_alike (h : Session w turns w') (hw : w.SameButRecords v) :
    ∃ turns' v', Session v turns' v' ∧ List.Forall₂ Turn.Alike turns turns' ∧
    w'.SameButRecords v' := by
  induction h generalizing v with
  | nil w => exact ⟨[], v, .nil v, .nil, hw⟩
  | stirs hstirs _ ih =>
    obtain ⟨v₁, hstirs', hw₁⟩ := hw.exists_stirs hstirs
    obtain ⟨turns', v', hsession, hturns, hw'⟩ := ih hw₁
    exact ⟨turns', v', .stirs hstirs' hsession, hturns, hw'⟩
  | @cons op _ _ _ _ _ _ hheld _ ih =>
    obtain ⟨exchanges', result', v₁, hheld', hresult, hexchanges, hw₁⟩ :=
      hheld.exists_alike op.matches_dialogue op.sameResults_refl hw
    obtain ⟨turns', v', hsession, hturns, hw'⟩ := ih hw₁
    exact ⟨⟨op, result', exchanges'⟩ :: turns', v', .cons hheld' hsession,
      .cons ⟨rfl, hresult, hexchanges⟩ hturns, hw'⟩

/-- A launch with a process that acts on its own goes alike whatever is recorded. -/
theorem Launched.exists_alike {p q : Connection} {recorded : Bool} (h : Launched p recorded w)
    (hpq : p.SameButRecords q) (recorded' : Bool) :
    ∃ v, Launched q recorded' v ∧ w.SameButRecords v := by
  obtain ⟨hlaunch, hheld⟩ := h
  have hstart : SameButRecords { connection := { p with transcript := p.firstTranscript recorded } }
      { connection := { q with transcript := q.firstTranscript recorded' } } :=
    ⟨hpq.withRecords _ _ p.folder q.folder, rfl⟩
  obtain ⟨exchanges', result', v, hheld', rfl, hexchanges, hw⟩ :=
    hheld.exists_alike p.invocation.matches_dialogue (fun _ => rfl) hstart
  have hopening : q.opening = p.opening := by
    rw [Connection.opening, Connection.opening, hpq.invocation_eq]
  obtain rfl : exchanges' = p.opening := Exchange.eq_of_alike hexchanges fun written hmem => by
    obtain ⟨option, -, heq⟩ := List.mem_map.1 hmem
    cases heq
  rw [← hpq.invocation_eq, ← hopening] at hheld'
  exact ⟨v, ⟨hpq.launchFault?_eq.trans hlaunch, hheld'⟩, hw⟩

end Wire

/-! ## Runs -/

namespace Connection

/-- A session: how its launch went, what the operations gave, all that was exchanged, what was
written to the process, and the connection that is left. -/
structure Run where
  launched : Except SolverError Unit
  turns : List Turn
  log : List Exchange
  messages : List (List Char)
  behind : Connection

/-- Launches a connection and holds operations on it, if it is launched. -/
def run (p : Connection) (recorded : Bool) (ops : List Operation) : Run :=
  match outcome (launch recorded) p with
  | (.error e, p') => { launched := .error e, turns := [], log := [], messages := [], behind := p' }
  | (.ok (), p') =>
    let (turns, behind) := converse ops p'
    { launched := .ok ()
      turns
      log := p.exchanges turns
      messages := messages { p with transcript := p.firstTranscript recorded } (p.exchanges turns)
      behind }

/-- Two runs that go alike: the same is written to the process, and the operations give the same,
apart from savings. What is left of the connections differs in what is recorded alone. -/
structure Run.Alike (run run' : Run) : Prop where
  launched_eq : run'.launched = run.launched
  turns : List.Forall₂ Turn.Alike run.turns run'.turns
  messages_eq : run'.messages = run.messages
  behind : run.behind.SameButRecords run'.behind

section

variable {p q : Connection} {recorded : Bool} {ops : List Operation}

/-- A launch that fails leaves the connection alone. -/
theorem outcome_launch_of_fault {fault : IoFault} (h : p.launchFault? = some fault)
    (recorded : Bool) :
    outcome (launch recorded) p = (.error (.io fault), p) := by
  rw [launch, outcome_bind_of_ok (outcome_get p), h]
  rfl

/-- There is nothing to a run whose launch fails. -/
theorem run_of_fault {fault : IoFault} (h : p.launchFault? = some fault) (recorded : Bool)
    (ops : List Operation) : p.run recorded ops
      = { launched := .error (.io fault), turns := [], log := [], messages := [],
          behind := p } := by
  rw [run, outcome_launch_of_fault h]

/-- A connection that is launched is left with its options sent. -/
theorem run_of_launches (h : p.launchFault? = none) (recorded : Bool) (ops : List Operation) :
    let held := converse ops (outcome (launch recorded) p).2
    p.run recorded ops = {
      launched := .ok ()
      turns := held.1
      log := p.exchanges held.1
      messages := messages { p with transcript := p.firstTranscript recorded } (p.exchanges held.1)
      behind := held.2 } := by
  simp only [run, outcome_launch h]

/-- **Sessions of connections that differ in what they record go alike**, recorded or not. -/
theorem SameButRecords.run (h : p.SameButRecords q) (recorded recorded' : Bool)
    (ops : List Operation) :
    (p.run recorded ops).Alike (q.run recorded' ops) := by
  cases hlaunch : p.launchFault? with
  | some fault =>
    rw [run_of_fault hlaunch, run_of_fault (h.launchFault?_eq.trans hlaunch)]
    exact ⟨rfl, .nil, rfl, h⟩
  | none =>
    have hlaunch' := h.launchFault?_eq.trans hlaunch
    have hstart :=
      h.withRecords (p.firstTranscript recorded) (q.firstTranscript recorded') p.folder q.folder
    -- the options are sent on both connections, whatever is recorded
    have hlaunched : (outcome (launch recorded) p).2.SameButRecords
        (outcome (launch recorded') q).2 := by
      rw [(outcome_launch_eq_hold hlaunch recorded).1,
        (outcome_launch_eq_hold hlaunch' recorded').1, congrArg Invocation.dialogue h.invocation_eq]
      exact (p.invocation.matches_dialogue.hold (fun _ => rfl) hstart).2.2
    obtain ⟨hturns, hbehind⟩ := hlaunched.converse ops
    rw [run_of_launches hlaunch, run_of_launches hlaunch']
    exact ⟨rfl, hturns, hstart.messages_eq (h.exchanges hturns), hbehind⟩

end

end Connection

/-- What a session on a wire leaves in the folder. -/
theorem Wire.Session.files {p : Connection} {recorded : Bool} {w w' : Wire} {turns : List Turn}
    (hlaunched : Wire.Launched p recorded w) (h : Wire.Session w turns w') :
    p.Files recorded (p.exchanges turns) w'.connection.folder := by
  obtain ⟨opening, hopening, hcarriesOpening⟩ := hlaunched.2.exists_carries
  obtain ⟨passages, hexchanges, hcarries, -⟩ := h.exists_carries
  have hrecords := (p.records_nil recorded).carries (hcarriesOpening.append hcarries)
  rw [List.map_append, hopening, hexchanges, List.nil_append] at hrecords
  exact hrecords.files

end Interpolants
