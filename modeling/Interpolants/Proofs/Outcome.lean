/-!
# Interpolants — runs of steps

Encoding, decoding and queries are made of steps that may fail and leave a state either way. What a
step does to a state is its `outcome`; the lemmas here take the outcome of a composed step apart, so
that no later proof opens the monads the steps are written in.
-/

namespace Interpolants

section

variable {ε σ α β : Type}

/-! ## Results without a state -/

/-- A sequence of two computations has a result if both have one. -/
theorem except_bind_eq_ok_iff {result : Except ε α} {next : α → Except ε β} {b : β} :
    (result >>= next) = .ok b ↔ ∃ a, result = .ok a ∧ next a = .ok b := by
  cases result with
  | error e =>
    constructor
    · intro h
      cases h
    · rintro ⟨a, ha, -⟩
      cases ha
  | ok a =>
    constructor
    · intro h
      exact ⟨a, rfl, h⟩
    · rintro ⟨a', ha, h⟩
      cases ha
      exact h

theorem toOption_bind (result : Except ε α) (next : α → Except ε β) :
    (result >>= next).toOption = result.toOption.bind fun a => (next a).toOption := by
  cases result <;> rfl

/-- The result that is left when errors are forgotten. -/
theorem toOption_eq_some_iff {result : Except ε α} {a : α} :
    result.toOption = some a ↔ result = .ok a := by
  cases result <;> simp [Except.toOption]

/-! ## Lists of results -/

/-- All results are values, and these are the list that they give. -/
theorem mapM_id_eq_ok_iff {results : List (Except ε α)} {as : List α} :
    results.mapM id = .ok as ↔ results = as.map .ok := by
  constructor
  · intro h
    induction results generalizing as with
    | nil =>
      cases h
      rfl
    | cons result results ih =>
      rw [List.mapM_cons] at h
      obtain ⟨a, ha, h⟩ := except_bind_eq_ok_iff.1 h
      obtain ⟨rest, hrest, h⟩ := except_bind_eq_ok_iff.1 h
      cases h
      rw [List.map_cons, ← ih hrest]
      exact congrArg (· :: _) ha
  · rintro rfl
    induction as with
    | nil => rfl
    | cons a as ih =>
      rw [List.map_cons, List.mapM_cons, ih]
      rfl

/-- The result of a step on a state, and the state it leaves. -/
def outcome (step : ExceptT ε (StateM σ) α) (s : σ) : Except ε α × σ :=
  StateT.run (ExceptT.run step) s

/-- A step that gives no result on a state. -/
def Fails (step : ExceptT ε (StateM σ) α) (s : σ) : Prop :=
  ∃ e s', outcome step s = (.error e, s')

@[simp] theorem outcome_pure (a : α) (s : σ) :
    outcome (pure a : ExceptT ε (StateM σ) α) s = (.ok a, s) := rfl

@[simp] theorem outcome_throw (e : ε) (s : σ) :
    outcome (throw e : ExceptT ε (StateM σ) α) s = (.error e, s) := rfl

@[simp] theorem outcome_get (s : σ) :
    outcome (get : ExceptT ε (StateM σ) σ) s = (.ok s, s) := rfl

@[simp] theorem outcome_set (s s' : σ) :
    outcome (set s' : ExceptT ε (StateM σ) PUnit) s = (.ok ⟨⟩, s') := rfl

/-! ## Composed steps

The second step runs on the state that the first leaves, and only if the first gives a result. -/

/-- A step goes on with the result and the state of the one before, or ends with its error. -/
theorem outcome_bind (step : ExceptT ε (StateM σ) α) (next : α → ExceptT ε (StateM σ) β) (s : σ) :
    outcome (step >>= next) s =
      match outcome step s with
      | (.ok a, s') => outcome (next a) s'
      | (.error e, s') => (.error e, s') := by
  show StateT.run (ExceptT.run (step >>= next)) s = _
  simp only [ExceptT.run_bind, StateT.run_bind, outcome]
  cases h : StateT.run (ExceptT.run step) s with
  | mk result s' => cases result <;> rfl

/-- Behind a step with a result the next one is taken. -/
theorem outcome_bind_of_ok {step : ExceptT ε (StateM σ) α} {s s' : σ} {a : α}
    (h : outcome step s = (.ok a, s')) (next : α → ExceptT ε (StateM σ) β) :
    outcome (step >>= next) s = outcome (next a) s' := by
  rw [outcome_bind, h]

/-- Behind a step with an error there is no next one. -/
theorem outcome_bind_of_error {step : ExceptT ε (StateM σ) α} {s s' : σ} {e : ε}
    (h : outcome step s = (.error e, s')) (next : α → ExceptT ε (StateM σ) β) :
    outcome (step >>= next) s = (.error e, s') := by
  rw [outcome_bind, h]

/-- A sequence of two steps has a result if both have one. -/
theorem outcome_bind_eq_ok_iff {step : ExceptT ε (StateM σ) α}
    {next : α → ExceptT ε (StateM σ) β} {s s'' : σ} {b : β} :
    outcome (step >>= next) s = (.ok b, s'') ↔
      ∃ a s', outcome step s = (.ok a, s') ∧ outcome (next a) s' = (.ok b, s'') := by
  rw [outcome_bind]
  rcases h : outcome step s with ⟨_ | a, s'⟩
  · simp
  · constructor
    · intro hb
      exact ⟨a, s', rfl, hb⟩
    · rintro ⟨a', t, heq, hb⟩
      cases heq
      exact hb

/-- Steps that go on in the same way from all results that the first step gives are the same. -/
theorem bind_congr_of_outcome {step : ExceptT ε (StateM σ) α}
    {next next' : α → ExceptT ε (StateM σ) β}
    (h : ∀ s a s', outcome step s = (.ok a, s') → next a = next' a) :
    step >>= next = step >>= next' := by
  refine funext fun s => ?_
  show outcome (step >>= next) s = outcome (step >>= next') s
  rcases hs : outcome step s with ⟨e | a, s'⟩
  · rw [outcome_bind_of_error hs, outcome_bind_of_error hs]
  · rw [outcome_bind_of_ok hs, outcome_bind_of_ok hs, h s a s' hs]

/-- A sequence fails if its second step does. -/
theorem Fails.of_bind_ok {step : ExceptT ε (StateM σ) α} {s s' : σ} {a : α}
    {next : α → ExceptT ε (StateM σ) β} (h : outcome step s = (.ok a, s'))
    (hnext : Fails (next a) s') : Fails (step >>= next) s := by
  obtain ⟨e, s'', he⟩ := hnext
  exact ⟨e, s'', by rw [outcome_bind_of_ok h, he]⟩

/-- A step whose every result is refused by the next one fails. -/
theorem Fails.of_bind {step : ExceptT ε (StateM σ) α} {s : σ}
    {next : α → ExceptT ε (StateM σ) β} (h : ∀ a s', Fails (next a) s') :
    Fails (step >>= next) s := by
  rcases hs : outcome step s with ⟨e | a, s'⟩
  · exact ⟨e, s', outcome_bind_of_error hs next⟩
  · exact Fails.of_bind_ok hs (h a s')

/-- What a step that gives a result leaves behind: the result and the state. Of a step that fails,
nothing. -/
def settled (step : ExceptT ε (StateM σ) α) (s : σ) : Option (α × σ) :=
  match outcome step s with
  | (.ok a, s') => some (a, s')
  | (.error _, _) => none

theorem settled_pure (a : α) (s : σ) :
    settled (pure a : ExceptT ε (StateM σ) α) s = some (a, s) := rfl

/-- A step that fails is not settled. -/
theorem settled_of_fails {step : ExceptT ε (StateM σ) α} {s : σ} (h : Fails step s) :
    settled step s = none := by
  obtain ⟨e, s', he⟩ := h
  rw [settled, he]

/-- A sequence is settled by settling its steps one after the other. -/
theorem settled_bind (step : ExceptT ε (StateM σ) α) (next : α → ExceptT ε (StateM σ) β) (s : σ) :
    settled (step >>= next) s = (settled step s).bind fun left => settled (next left.1) left.2 := by
  rw [settled, outcome_bind, settled]
  rcases outcome step s with ⟨_ | a, s'⟩ <;> rfl

/-- The result of a step is the first part of what it is settled to. -/
theorem toOption_outcome (step : ExceptT ε (StateM σ) α) (s : σ) :
    (outcome step s).1.toOption = (settled step s).map Prod.fst := by
  rw [settled]
  rcases outcome step s with ⟨_ | a, s'⟩ <;> rfl

end

end Interpolants
