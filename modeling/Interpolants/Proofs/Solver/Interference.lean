import Interpolants.Proofs.Solver.Framing

/-!
# Interpolants — a process that acts on its own

The process of a connection does not only react. Between any two exchanges it may write or close its
input or its output, and it may close its input in the middle of a command. A `Wire` is a connection
together with whether the output of its process is closed; on it a dialogue is held whatever the
process does meanwhile (`Dialogue.Held`). The process decides what is handed over, but not what is
said: all that is exchanged still follows the dialogue. A session in which it only gives its replies
is one such session (`Wire.Reacts.exists_session_converse`).
-/

namespace Interpolants

open Text

/-! ## Wires -/

/-- Whether a request finds no line at which its reading ends. -/
def Connection.runsDry (p : Connection) : Bool :=
  !p.undelivered && p.child.listening &&
    (p.child.hear Reply.echoRequest).output.all fun line => !endsReading line

/-- A connection whose process has closed its input. -/
def Connection.closed (p : Connection) : Connection :=
  { p with child := { p.child with listening := false } }

/-- A connection, and whether its process has closed its output. -/
structure Wire where
  connection : Connection
  ended : Bool := false

namespace Wire

/-- What the process does on its own. It may write, go over to other replies and close its input or
its output. What is closed stays closed. -/
structure Stirs (w w' : Wire) : Prop where
  connection_eq : w'.connection = { w.connection with child := w'.connection.child }
  heard_eq : w'.connection.child.heard = w.connection.child.heard
  listening : w'.connection.child.listening = true → w.connection.child.listening = true
  written : w.connection.child.output <+: w'.connection.child.output
  ended : w.ended = true → w'.ended = true ∧ w'.connection.child.output = w.connection.child.output

/-- A process that has closed its output writes no answer to some lines. -/
def Mute (w : Wire) (lines : List (List Char)) : Prop :=
  w.ended = true →
    (lines.foldl Child.hearLine w.connection.child).output = w.connection.child.output

/-- A command is sent. -/
inductive Sends (command : Sexp) (w : Wire) : Wire → Prop where
  | whole (hmute : w.Mute (pieces '\n' command.chars)) :
    Sends command w { w with connection := w.connection.send command }
  /-- The process closes its input when it has read some of the lines, and the rest cannot be
  written. -/
  | torn {lines rest : List (List Char)} (hlines : pieces '\n' command.chars = lines ++ rest)
    (hrest : rest ≠ []) (hmute : w.Mute lines) (hdelivered : w.connection.undelivered = false) :
    Sends command w { w with
      connection := Connection.send
        (.closed { w.connection with child := lines.foldl Child.hearLine w.connection.child })
        command }

/-- The wire behind a request. Reading up to the end of the output shows that the process has closed
it. -/
def request (w : Wire) : Wire where
  connection := (outcome Connection.reply w.connection).2
  ended := w.ended || w.connection.runsDry

end Wire

/-- At any time the process may close its input. -/
theorem Wire.stirs_closed (w : Wire) : w.Stirs { w with connection := w.connection.closed } :=
  ⟨rfl, rfl, fun hlistening => absurd hlistening Bool.false_ne_true, List.prefix_rfl,
    fun hended => ⟨hended, rfl⟩⟩

/-! ## Dialogues on a wire -/

namespace Dialogue

variable {α : Type}

/-- A dialogue is held on a wire: all that is exchanged, its result, and what is left of the
wire. -/
inductive Held : Dialogue α → Wire → List Exchange → Except SolverError α → Wire → Prop where
  | stirs {d : Dialogue α} {w w₁ w' : Wire} {exchanges : List Exchange}
    {result : Except SolverError α} (hstirs : w.Stirs w₁) (h : Held d w₁ exchanges result w') :
    Held d w exchanges result w'
  | done (result : Except SolverError α) (w : Wire) : Held (done result) w [] result w
  | send {command : Sexp} {next : Dialogue α} {w w₁ w' : Wire} {exchanges : List Exchange}
    {result : Except SolverError α} (hsends : w.Sends command w₁)
    (h : Held next w₁ exchanges result w') :
    Held (send command next) w (.told command :: exchanges) result w'
  | comment {text : String} {next : Dialogue α} {w w' : Wire} {exchanges : List Exchange}
    {result : Except SolverError α}
    (h : Held next { w with connection := w.connection.comment text } exchanges result w') :
    Held (comment text next) w (.noted text :: exchanges) result w'
  | save {next : Bool → Dialogue α} {w w' : Wire} {exchanges : List Exchange}
    {result : Except SolverError α}
    (h : Held (next w.connection.save.1) { w with connection := w.connection.save.2 } exchanges
      result w') :
    Held (save next) w (.saved w.connection.save.1 :: exchanges) result w'
  | request {text : String} {next : String → Dialogue α} {w w' : Wire} {exchanges : List Exchange}
    {result : Except SolverError α} (hmute : w.Mute (pieces '\n' Reply.echoRequest))
    (hreply : (outcome Connection.reply w.connection).1 = .ok text)
    (h : Held (next text) w.request exchanges result w') :
    Held (request next) w (.handed (.ok text) :: exchanges) result w'
  | unanswered {e : SolverError} {next : String → Dialogue α} {w : Wire}
    (hmute : w.Mute (pieces '\n' Reply.echoRequest))
    (hreply : (outcome Connection.reply w.connection).1 = .error e) :
    Held (request next) w [.handed (.error e)] (.error e) w.request

/-- **The process has no say in what is sent**: what is held on a wire follows the dialogue. -/
theorem Held.follows {d : Dialogue α} {w w' : Wire} {exchanges : List Exchange}
    {result : Except SolverError α} (h : d.Held w exchanges result w') :
    d.Follows exchanges result := by
  induction h with
  | stirs _ _ ih => exact ih
  | done result => exact .done result
  | send _ _ ih => exact .send ih
  | comment _ ih => exact .comment ih
  | save _ ih => exact .save ih
  | request _ _ _ ih => exact .request ih
  | unanswered => exact .unanswered _

end Dialogue

/-! ## Sessions on a wire -/

/-- What is done while a connection is launched: the options are sent. -/
def Invocation.dialogue (inv : Invocation) : Dialogue Unit :=
  inv.options.foldr (fun option next => .send (Command.setOption option.1 option.2) next)
    (.done (.ok ()))

/-- What is done during a launch is to send the options. -/
theorem Invocation.hold_dialogue (inv : Invocation) (p : Connection) :
    inv.dialogue.hold p = (.ok (),
      inv.options.map fun option => .told (Command.setOption option.1 option.2),
      inv.options.foldl (fun p option => p.send (Command.setOption option.1 option.2)) p) := by
  rw [dialogue]
  induction inv.options generalizing p with
  | nil => rfl
  | cons option options ih => rw [List.foldr_cons, Dialogue.hold, ih]; rfl

/-- **Launching is its dialogue**, held on a connection whose transcript has just started. -/
theorem Connection.outcome_launch_eq_hold {p : Connection} (h : p.launchFault? = none)
    (recorded : Bool) :
    let launched := p.invocation.dialogue.hold { p with transcript := p.firstTranscript recorded }
    outcome (launch recorded) p = (launched.1, launched.2.2) ∧ launched.2.1 = p.opening := by
  intro launched
  have hlaunched : launched = _ := p.invocation.hold_dialogue _
  rw [hlaunched, outcome_launch h]
  exact ⟨rfl, rfl⟩

namespace Wire

/-- A wire on which a connection was launched. -/
def Launched (p : Connection) (recorded : Bool) (w : Wire) : Prop :=
  p.launchFault? = none ∧
    p.invocation.dialogue.Held { connection := { p with transcript := p.firstTranscript recorded } }
      p.opening (.ok ()) w

/-- Operations one after the other, whatever they give and whatever the process does meanwhile. -/
inductive Session : Wire → List Turn → Wire → Prop where
  | nil (w : Wire) : Session w [] w
  | stirs {w w₁ w' : Wire} {turns : List Turn} (hstirs : w.Stirs w₁) (h : Session w₁ turns w') :
    Session w turns w'
  | cons {op : Operation} {w w₁ w' : Wire} {result : Except SolverError Answer}
    {exchanges : List Exchange} {turns : List Turn} (hheld : op.dialogue.Held w exchanges result w₁)
    (h : Session w₁ turns w') : Session w (⟨op, result, exchanges⟩ :: turns) w'

end Wire

/-- A session may follow another one. -/
theorem Wire.Session.append {w w₁ w' : Wire} {turns more : List Turn} (h : Session w turns w₁)
    (hmore : Session w₁ more w') : Session w (turns ++ more) w' := by
  induction h with
  | nil => exact hmore
  | stirs hstirs _ ih => exact .stirs hstirs (ih hmore)
  | cons hheld _ ih => exact .cons hheld (ih hmore)

/-! ## Processes that only react -/

/-- Lines that are read use up some of the replies. -/
theorem Child.replies_foldl_hearLine (c : Child) (lines : List (List Char)) :
    (lines.foldl hearLine c).replies <:+ c.replies := by
  induction lines generalizing c with
  | nil => exact List.suffix_rfl
  | cons line lines ih =>
    refine (ih (c.hearLine line)).trans ?_
    rw [hearLine]
    split
    · exact List.suffix_rfl
    · split
      · exact List.drop_suffix 1 c.replies
      · exact List.suffix_rfl

namespace Wire

/-- A process that only gives its replies. It closes its input with each of them at which no reading
ends, and its output not before its input. -/
structure Reacts (w : Wire) : Prop where
  listening_eq : w.ended = true → w.connection.child.listening = false
  replies : ∀ r ∈ w.connection.child.replies,
    r.closes = true ∨ r.lines.any Connection.endsReading = true

namespace Reacts

variable {w : Wire}

/-- A process that only gives its replies writes nothing behind the end of its output. -/
theorem mute (h : w.Reacts) (lines : List (List Char)) : w.Mute lines := by
  intro hended
  rw [Child.foldl_hearLine_of_not_listening (h.listening_eq hended)]

/-- A process that has heard a message still only reacts. -/
theorem hears (h : w.Reacts) {p : Connection} (message : List Char)
    (hchild : p.child = w.connection.child.hear message) : Reacts { w with connection := p } where
  listening_eq hended := by
    have hclosed := h.listening_eq hended
    rwa [hchild, Child.hear_of_not_listening hclosed]
  replies r hr := by
    rw [hchild, Child.replies_hear] at hr
    exact h.replies r ((w.connection.child.replies_foldl_hearLine _).subset hr)

/-- What does not concern the process. -/
theorem annotate (h : w.Reacts) {p : Connection} (hchild : p.child = w.connection.child) :
    Reacts { w with connection := p } :=
  ⟨fun hended => hchild ▸ h.listening_eq hended, fun r hr => h.replies r (hchild ▸ hr)⟩

/-- A command leaves a process one that only gives its replies. -/
theorem send (h : w.Reacts) (command : Sexp) :
    Reacts { w with connection := w.connection.send command } := by
  have hchild := w.connection.child_send command
  by_cases hdelivered : w.connection.undelivered = true
  · rw [if_pos hdelivered] at hchild
    exact h.annotate hchild
  · rw [if_neg hdelivered] at hchild
    exact h.hears _ hchild

/-- A process that only gives its replies may close its input. -/
theorem closed (h : w.Reacts) : Reacts { w with connection := w.connection.closed } :=
  ⟨fun _ => rfl, h.replies⟩

/-- Only a process that closes its input gives a reply at which no reading ends. -/
theorem closes_of_runsDry (h : w.Reacts) (hdry : w.connection.runsDry = true) :
    (w.connection.child.hear Reply.echoRequest).listening = false := by
  simp only [Connection.runsDry, Bool.and_eq_true, List.all_eq_true, Bool.not_eq_true'] at hdry
  obtain ⟨⟨-, hlistening⟩, hlines⟩ := hdry
  rw [Child.output_hear, Child.foldl_hearLine_request hlistening] at hlines
  rw [Child.listening_hear, Child.foldl_hearLine_request hlistening]
  -- a reply that is none of the list has a marker
  have hreply : (w.connection.child.replies.headD {}).closes = true ∨
      (w.connection.child.replies.headD {}).lines.any Connection.endsReading = true := by
    cases hreplies : w.connection.child.replies with
    | nil => exact .inr (by decide +kernel)
    | cons reply replies => exact h.replies reply (hreplies ▸ List.mem_cons_self)
  rcases hreply with hcloses | hends
  · rw [Child.answer]
    exact congrArg (!·) hcloses
  · obtain ⟨line, hline, hends⟩ := List.any_eq_true.1 hends
    have hnot := hlines line (List.mem_append_right _ hline)
    rw [hends] at hnot
    cases hnot

/-- A request leaves a process one that only gives its replies. -/
theorem request (h : w.Reacts) : w.request.Reacts := by
  rcases w.connection.closed_or_open with hclosed | ⟨hdelivered, hlistening⟩
  · have hdry : w.connection.runsDry = false := by
      rcases hclosed with hclosed | hclosed <;> simp [Connection.runsDry, hclosed]
    rw [Wire.request, Connection.outcome_reply_of_closed hclosed, hdry, Bool.or_false]
    exact h.annotate rfl
  · rw [Wire.request, Connection.outcome_reply hdelivered hlistening]
    have hheard := h.hears
      (p := { w.connection with child := w.connection.child.hear Reply.echoRequest })
      Reply.echoRequest rfl
    refine ⟨fun hended => ?_, hheard.replies⟩
    rcases Bool.or_eq_true_iff.1 hended with hended | hdry
    · exact hheard.listening_eq hended
    · exact h.closes_of_runsDry hdry

/-- A dialogue with a process that only reacts is held as on the connection alone. -/
theorem exists_held {α : Type} (h : w.Reacts) (d : Dialogue α) :
    ∃ ended, d.Held w (d.hold w.connection).2.1 (d.hold w.connection).1
        { connection := (d.hold w.connection).2.2, ended } ∧
      Reacts { connection := (d.hold w.connection).2.2, ended } := by
  induction d generalizing w with
  | done result => exact ⟨w.ended, .done result w, h⟩
  | send command next ih =>
    obtain ⟨ended, hheld, hreacts⟩ := ih (h.send command)
    exact ⟨ended, .send (.whole (h.mute _)) hheld, hreacts⟩
  | comment text next ih =>
    obtain ⟨ended, hheld, hreacts⟩ := ih (h.annotate (p := w.connection.comment text) rfl)
    exact ⟨ended, .comment hheld, hreacts⟩
  | save next ih =>
    obtain ⟨ended, hheld, hreacts⟩ :=
      ih w.connection.save.1 (h.annotate (Connection.child_save w.connection).2)
    exact ⟨ended, .save hheld, hreacts⟩
  | request next ih =>
    have hmute := h.mute (pieces '\n' Reply.echoRequest)
    rw [Dialogue.hold]
    -- the reply decides whether the dialogue goes on
    rcases hreply : outcome Connection.reply w.connection with ⟨e | text, p⟩
    · obtain rfl : w.request.connection = p := congrArg Prod.snd hreply
      exact ⟨w.request.ended, .unanswered hmute (congrArg Prod.fst hreply), h.request⟩
    · obtain rfl : w.request.connection = p := congrArg Prod.snd hreply
      obtain ⟨ended, hheld, hreacts⟩ := ih text h.request
      exact ⟨ended, .request hmute (congrArg Prod.fst hreply) hheld, hreacts⟩

/-- A process that only gives its replies can be launched. -/
theorem exists_launched {p : Connection} (h : Reacts { connection := p })
    (hlaunch : p.launchFault? = none) (recorded : Bool) :
    ∃ ended,
      Launched p recorded { connection := (outcome (Connection.launch recorded) p).2, ended } ∧
      Reacts { connection := (outcome (Connection.launch recorded) p).2, ended } := by
  obtain ⟨hlaunched, hopening⟩ := Connection.outcome_launch_eq_hold hlaunch recorded
  have hstart : Reacts { connection := { p with transcript := p.firstTranscript recorded } } :=
    ⟨h.listening_eq, h.replies⟩
  obtain ⟨ended, hheld, hreacts⟩ := hstart.exists_held p.invocation.dialogue
  rw [hopening] at hheld
  rw [hlaunched]
  refine ⟨ended, ⟨hlaunch, ?_⟩, hreacts⟩
  rwa [Invocation.hold_dialogue] at hheld ⊢

/-- **A session of a process that only reacts is one of those in which it does what it likes.** -/
theorem exists_session_converse (h : w.Reacts) (ops : List Operation) :
    ∃ ended, Session w (Connection.converse ops w.connection).1
        { connection := (Connection.converse ops w.connection).2, ended } ∧
      Reacts { connection := (Connection.converse ops w.connection).2, ended } := by
  induction ops generalizing w with
  | nil => exact ⟨w.ended, .nil w, h⟩
  | cons op ops ih =>
    obtain ⟨ended, hheld, hreacts⟩ := h.exists_held op.dialogue
    obtain ⟨ended', hrest, hreacts'⟩ := ih hreacts
    rw [Connection.converse, op.outcome_step]
    exact ⟨ended', .cons hheld hrest, hreacts'⟩

end Reacts

end Wire

end Interpolants
