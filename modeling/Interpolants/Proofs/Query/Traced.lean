import Interpolants.Proofs.Outcome
import Interpolants.Query
import Mathlib.Control.Monad.Basic

/-!
# Interpolants — what happens in a session

A query sees of its session only the replies. To say what a query does to any session, whatever the
session makes of it, the session is run with a trace: `Traced` does what the session does and keeps
a list of all that happened, in order. `Does` relates a query on a session to the same query on the
traced one; it is established step by step, and says both that the trace changes nothing and what
the trace is.
-/

namespace Interpolants

/-- A step of the session is that step of the query, up to the kind of its errors. -/
theorem outcome_ofStep {σ α : Type} (step : Step σ α) (s : σ) :
    outcome (Query.ofStep step) s
      = ((step.runOn s).1.mapError QueryError.solver, (step.runOn s).2) := by
  show StateT.run (ExceptT.run (ExceptT.adapt QueryError.solver step)) s = _
  rw [ExceptT.run_adapt]
  rfl

/-- What happens in a session: it is launched, told something or asked something. -/
inductive Event where
  | launched (folder : Option String) (reply : Except SolverError Unit)
  | sent (command : Sexp)
  | noted (text : String)
  | checked (reply : Except SolverError SatAnswer)
  | interpolated (names : List String) (reply : Except SolverError (List String))
deriving DecidableEq

/-- The command that is part of an event. -/
def Event.command? : Event → Option Sexp
  | .sent command => some command
  | .checked _ => some Command.checkSat
  | .interpolated names _ => some (Command.getInterpolants names)
  | .launched _ _ | .noted _ => none

/-- The commands that a session was sent, questions included. -/
def commandsOf (events : List Event) : List Sexp :=
  events.filterMap Event.command?

theorem commandsOf_append (events more : List Event) :
    commandsOf (events ++ more) = commandsOf events ++ commandsOf more :=
  List.filterMap_append

@[simp] theorem commandsOf_sent (commands : List Sexp) :
    commandsOf (commands.map .sent) = commands := by
  rw [commandsOf, List.filterMap_map]
  exact List.filterMap_some

/-- A session, and what happened in it so far. -/
structure Traced (σ : Type) where
  session : σ
  trace : List Event

namespace Traced

variable {σ α β : Type}

/-- A step of a session that is noted together with its reply. -/
def step (event : Except SolverError α → Event) (step : Step σ α) : Step (Traced σ) α :=
  ExceptT.mk fun t =>
    let (reply, session) := step.runOn t.session
    (reply, ⟨session, t.trace ++ [event reply]⟩)

instance [Session σ] : Session (Traced σ) where
  launch folder := step (.launched folder) (Session.launch folder)
  send t command := ⟨Session.send t.session command, t.trace ++ [.sent command]⟩
  comment t text := ⟨Session.comment t.session text, t.trace ++ [.noted text]⟩
  checkSat := step .checked Session.checkSat
  interpolants names := step (.interpolated names) (Session.interpolants names)

/-- A query on a traced session has the result that the query has on the session and leaves that
session behind. The events that it adds to the trace are as specified. -/
def Does (traced : Query (Traced σ) α) (query : Query σ α)
    (spec : List Event → Except QueryError α → Prop) : Prop :=
  ∀ t : Traced σ, ∃ events,
    outcome traced t
        = ((outcome query t.session).1, ⟨(outcome query t.session).2, t.trace ++ events⟩) ∧
      spec events (outcome query t.session).1

namespace Does

variable {traced : Query (Traced σ) α} {query : Query σ α}
  {spec spec' : List Event → Except QueryError α → Prop}

/-- What is specified for the events and the result may be weakened. -/
theorem mono (h : Does traced query spec) (hspec : ∀ events result, spec events result →
    spec' events result) : Does traced query spec' := by
  intro t
  obtain ⟨events, heq, hevents⟩ := h t
  exact ⟨events, heq, hspec _ _ hevents⟩

/-- A query that only returns a value has no events. -/
theorem pure (a : α) :
    Does (σ := σ) (Pure.pure a) (Pure.pure a) fun events result => events = [] ∧ result = .ok a :=
  fun t => ⟨[], by simp, rfl, rfl⟩

theorem throw (e : QueryError) :
    Does (σ := σ) (α := α) (MonadExcept.throw e) (MonadExcept.throw e) fun events result =>
      events = [] ∧ result = .error e :=
  fun t => ⟨[], by simp, rfl, rfl⟩

/-- The second query runs only if the first gives a result, and its events come behind. -/
theorem bind {next : α → Query (Traced σ) β} {next' : α → Query σ β}
    {specs : α → List Event → Except QueryError β → Prop} (h : Does traced query spec)
    (hnext : ∀ a events, spec events (.ok a) → Does (next a) (next' a) (specs a)) :
    Does (traced >>= next) (query >>= next') fun events result =>
      (∃ e, spec events (.error e) ∧ result = .error e) ∨
        ∃ a first second, spec first (.ok a) ∧ specs a second result ∧
        events = first ++ second := by
  intro t
  obtain ⟨first, hfirst, hspec⟩ := h t
  rw [outcome_bind, outcome_bind, hfirst]
  rcases houtcome : outcome query t.session with ⟨e | a, session⟩
  · rw [houtcome] at hspec
    exact ⟨first, rfl, .inl ⟨e, hspec, rfl⟩⟩
  · rw [houtcome] at hspec
    obtain ⟨second, hsecond, hspecs⟩ := hnext a first hspec ⟨session, t.trace ++ first⟩
    refine ⟨first ++ second, ?_, .inr ⟨a, first, second, hspec, hspecs, rfl⟩⟩
    rw [← List.append_assoc]
    exact hsecond

/-- Behind a query that always gives the same result. -/
theorem andThen {next : α → Query (Traced σ) β} {next' : α → Query σ β}
    {after : List Event → Except QueryError β → Prop} {told : List Event} {a : α}
    (h : Does traced query fun events result => events = told ∧ result = .ok a)
    (hnext : Does (next a) (next' a) after) :
    Does (traced >>= next) (query >>= next') fun events result =>
      ∃ more, after more result ∧ events = told ++ more := by
  intro t
  obtain ⟨first, hfirst, rfl, hresult⟩ := h t
  rw [outcome_bind, outcome_bind, hfirst, hresult]
  rcases houtcome : outcome query t.session with ⟨result, session⟩
  rw [houtcome] at hresult
  cases hresult
  obtain ⟨second, hsecond, hafter⟩ := hnext ⟨session, t.trace ++ first⟩
  refine ⟨first ++ second, ?_, second, hafter, rfl⟩
  rw [← List.append_assoc]
  exact hsecond

/-- Nothing runs behind a query that always fails. -/
theorem orFail {next : α → Query (Traced σ) β} {next' : α → Query σ β} {told : List Event}
    {e : QueryError}
    (h : Does traced query fun events result => events = told ∧ result = .error e) :
    Does (traced >>= next) (query >>= next') fun events result =>
      events = told ∧ result = .error e := by
  intro t
  obtain ⟨events, hevents, rfl, hresult⟩ := h t
  rw [outcome_bind, outcome_bind, hevents, hresult]
  rcases houtcome : outcome query t.session with ⟨result, session⟩
  rw [houtcome] at hresult
  cases hresult
  exact ⟨events, rfl, rfl, rfl⟩

/-- Telling the session something has an event and always succeeds. -/
theorem tell {act : Traced σ → Traced σ} {act' : σ → σ} {told : List Event}
    (h : ∀ t, act t = ⟨act' t.session, t.trace ++ told⟩) :
    Does (modify act) (modify act') fun events result => events = told ∧ result = .ok () :=
  fun t => ⟨told, congrArg (Prod.mk _) (h t), rfl, rfl⟩

/-- Asking the session something. What comes behind depends on the reply. -/
theorem ask {next : α → Query (Traced σ) β} {next' : α → Query σ β}
    {specs : α → List Event → Except QueryError β → Prop}
    (event : Except SolverError α → Event) (asked : Step σ α)
    (hnext : ∀ a, Does (next a) (next' a) (specs a)) :
    Does (Query.ofStep (step event asked) >>= next) (Query.ofStep asked >>= next')
      fun events result =>
        (∃ e, events = [event (.error e)] ∧ result = .error (.solver e)) ∨
          ∃ a more, specs a more result ∧ events = event (.ok a) :: more := by
  intro t
  have hasked : outcome (Query.ofStep (step event asked)) t
      = ((asked.runOn t.session).1.mapError .solver,
          ⟨(asked.runOn t.session).2, t.trace ++ [event (asked.runOn t.session).1]⟩) :=
    outcome_ofStep ..
  rw [outcome_bind, outcome_bind, hasked, outcome_ofStep]
  -- an error ends the query, and an answer is noted before the rest
  rcases asked.runOn t.session with ⟨e | a, session⟩
  · exact ⟨_, rfl, .inl ⟨e, rfl, rfl⟩⟩
  · obtain ⟨more, hmore, hspecs⟩ := hnext a ⟨session, t.trace ++ [event (.ok a)]⟩
    refine ⟨event (.ok a) :: more, ?_, .inr ⟨a, more, hspecs, rfl⟩⟩
    rw [List.append_cons t.trace _ more]
    exact hmore

/-- A result that is taken further adds no events. -/
theorem map (h : Does traced query spec) (g : α → β) :
    Does (do return g (← traced)) (do return g (← query)) fun events result =>
      ∃ r, spec events r ∧ result = r.map g := by
  intro t
  obtain ⟨events, hevents, hspec⟩ := h t
  rw [outcome_bind, outcome_bind, hevents]
  rcases houtcome : outcome query t.session with ⟨result, session⟩
  rw [houtcome] at hspec
  cases result with
  | error e => exact ⟨events, rfl, .error e, hspec, rfl⟩
  | ok a => exact ⟨events, rfl, .ok a, hspec, rfl⟩

end Does

section

variable [Session σ]

/-- Commands that are sent one after the other are noted in their order. -/
theorem foldl_send (commands : List Sexp) (t : Traced σ) :
    commands.foldl Session.send t
      = ⟨commands.foldl Session.send t.session, t.trace ++ commands.map .sent⟩ := by
  induction commands generalizing t with
  | nil => simp
  | cons command commands ih =>
    rw [List.foldl_cons, ih, List.foldl_cons, List.map_cons, List.append_cons]
    rfl

/-- Sending commands is sending them in their order. -/
theorem does_sendAll (commands : List Sexp) :
    Does (σ := σ) (Query.sendAll commands) (Query.sendAll commands) fun events result =>
      events = commands.map .sent ∧ result = .ok () :=
  Does.tell (foldl_send commands)

theorem does_comment (text : String) :
    Does (σ := σ) (modify (Session.comment · text)) (modify (Session.comment · text))
      fun events result => events = [.noted text] ∧ result = .ok () :=
  Does.tell fun _ => rfl

end

end Traced

end Interpolants
