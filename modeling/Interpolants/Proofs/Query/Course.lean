import Interpolants.Proofs.Encoding.Encounters
import Interpolants.Proofs.Query.Traced

/-!
# Interpolants — the course of a query

All that can happen in the session of a query, event by event, with the answer that the query gives
in the end. Formulas are asserted one after the other, each behind the declarations that it needs,
until one is refused. Only if none is, the session is asked whether they contradict each other, and
only if it says so it is asked for interpolants.
-/

namespace Interpolants

/-! ## Accepted and refused formulas -/

/-- A session that has reached some variables accepts a formula: it has a term, and the session then
has reached the variables of the formula too. -/
def Accepts (vs : List Variable) (f : Expr) (t : Sexp) : Prop :=
  Encoder.run ⟨.reaching vs, []⟩ f.encodeAssertion
    = (.ok t, ⟨.reaching (vs ++ f.vars), commandsFor vs f.vars⟩)

/-- A session that has reached some variables refuses a formula. It has then reached some of the
formula's variables, from the first on. -/
def Refuses (vs : List Variable) (f : Expr) (e : EncodeError) (part : List Variable) : Prop :=
  part <+: f.vars ∧
    Encoder.run ⟨.reaching vs, []⟩ f.encodeAssertion
      = (.error e, ⟨.reaching (vs ++ part), commandsFor vs part⟩)

/-- An accepted formula has the term that is asserted for it. -/
theorem Accepts.hasTerm {vs : List Variable} {f : Expr} {t : Sexp} (h : Accepts vs f t) :
    f.HasTerm t := by
  have hstep : outcome (EncoderCall.encodeAssertion f).step ⟨.reaching vs, []⟩ = _ := h
  exact (EncoderCall.hasTerm_of_step hstep).1

/-- **A formula is accepted or refused.** -/
theorem accepts_or_refuses (vs : List Variable) (f : Expr) :
    (∃ t, Accepts vs f t) ∨ ∃ e part, Refuses vs f e part := by
  obtain ⟨result, hrun, hok⟩ := (EncoderCall.encodeAssertion f).outcome_step vs []
  rw [List.nil_append] at hrun
  cases result with
  | ok t =>
    rw [(hok t rfl).2] at hrun
    exact .inl ⟨t, hrun⟩
  | error e => exact .inr ⟨e, _, (EncoderCall.encodeAssertion f).reach_initial vs, hrun⟩

/-- A session that has reached some variables accepts formulas one after the other, each with a
term. -/
def AcceptsAll : List Variable → List (Expr × Sexp) → Prop
  | _, [] => True
  | vs, (f, t) :: more => Accepts vs f t ∧ AcceptsAll (vs ++ f.vars) more

/-- The variables of some formulas from left to right, with repetitions. -/
def varsOf (formulas : List Expr) : List Variable :=
  formulas.flatMap Expr.vars

/-! ## Events -/

/-- What happens for a formula that is accepted: what is new among its variables is declared and
bounded, then the formula is noted and its term is asserted under the label of its index. -/
def assertion (vs : List Variable) (index : Nat) (f : Expr) (t : Sexp) : List Event :=
  (commandsFor vs f.vars).map .sent ++
    [.noted (Query.label index ++ ": " ++ f.render),
      .sent (Command.assertNamed t (Query.label index))]

/-- What happens for formulas that are accepted, whose indices start from one. -/
def assertions : List Variable → Nat → List (Expr × Sexp) → List Event
  | _, _, [] => []
  | vs, index, (f, t) :: more =>
    assertion vs index f t ++ assertions (vs ++ f.vars) (index + 1) more

/-- What a launched session is told first. -/
def opening (settings : QuerySettings) : List Event :=
  [.launched settings.folder (.ok ()), .sent (Command.setOption "produce-interpolants" "true"),
    .sent (Command.setLogic settings.logic)]

/-- The labels of some formulas in their order. -/
def labels (formulas : List Expr) : List String :=
  (List.range formulas.length).map Query.label

/-- The formulas that texts are decoded to in one session over the declared variables, or the error
of the first text that has none. -/
def decodeAll (declared : Registry) (texts : List String) : Except DecodeError (List Expr) :=
  (decodeEach declared texts).mapM id

/-- All that happens in the session of a query, and the answer. -/
inductive Course (settings : QuerySettings) (formulas : List Expr) :
    List Event → Except QueryError (Option (List Expr)) → Prop where
  /-- The session cannot be launched. -/
  | unlaunched (e : SolverError) :
    Course settings formulas [.launched settings.folder (.error e)] (.error (.solver e))
  /-- A formula is refused, the first one for which this is so. -/
  | refused (accepted : List (Expr × Sexp)) (f : Expr) (rest : List Expr) (e : EncodeError)
    (part : List Variable) (hformulas : formulas = accepted.map Prod.fst ++ f :: rest)
    (haccepted : AcceptsAll [] accepted)
    (hrefused : Refuses (varsOf (accepted.map Prod.fst)) f e part) :
    Course settings formulas
      (opening settings ++ assertions [] 0 accepted ++
        (commandsFor (varsOf (accepted.map Prod.fst)) part).map .sent)
      (.error (.encode e))
  /-- The session fails to check the formulas. -/
  | unchecked (accepted : List (Expr × Sexp)) (e : SolverError)
    (hformulas : formulas = accepted.map Prod.fst) (haccepted : AcceptsAll [] accepted) :
    Course settings formulas
      (opening settings ++ assertions [] 0 accepted ++ [.checked (.error e)]) (.error (.solver e))
  /-- The formulas do not contradict each other, or the solver gives up. -/
  | undisputed (accepted : List (Expr × Sexp)) (answer : SatAnswer)
    (hformulas : formulas = accepted.map Prod.fst) (haccepted : AcceptsAll [] accepted)
    (hanswer : answer ≠ .unsat) :
    Course settings formulas
      (opening settings ++ assertions [] 0 accepted ++ [.checked (.ok answer)]) (.ok none)
  /-- The session fails to give interpolants. -/
  | unanswered (accepted : List (Expr × Sexp)) (e : SolverError)
    (hformulas : formulas = accepted.map Prod.fst) (haccepted : AcceptsAll [] accepted) :
    Course settings formulas
      (opening settings ++ assertions [] 0 accepted ++
        [.checked (.ok .unsat), .interpolated (labels formulas) (.error e)])
      (.error (.solver e))
  /-- The session gives interpolants, which are decoded. -/
  | answered (accepted : List (Expr × Sexp)) (texts : List String)
    (hformulas : formulas = accepted.map Prod.fst) (haccepted : AcceptsAll [] accepted) :
    Course settings formulas
      (opening settings ++ assertions [] 0 accepted ++
        [.checked (.ok .unsat), .interpolated (labels formulas) (.ok texts)])
      (((decodeAll (.reaching (varsOf formulas)) texts).mapError .decode).map some)

/-! ## What a query does, step by step -/

/-- What happens while formulas are asserted, and the variables that are declared then. -/
inductive Asserting (vs : List Variable) (index : Nat) (formulas : List Expr) :
    List Event → Except QueryError Registry → Prop where
  | accepted (accepted : List (Expr × Sexp)) (hformulas : formulas = accepted.map Prod.fst)
    (haccepted : AcceptsAll vs accepted) :
    Asserting vs index formulas (assertions vs index accepted)
      (.ok (.reaching (vs ++ varsOf formulas)))
  | refused (accepted : List (Expr × Sexp)) (f : Expr) (rest : List Expr) (e : EncodeError)
    (part : List Variable) (hformulas : formulas = accepted.map Prod.fst ++ f :: rest)
    (haccepted : AcceptsAll vs accepted)
    (hrefused : Refuses (vs ++ varsOf (accepted.map Prod.fst)) f e part) :
    Asserting vs index formulas
      (assertions vs index accepted ++
        (commandsFor (vs ++ varsOf (accepted.map Prod.fst)) part).map .sent)
      (.error (.encode e))

/-- What happens for an accepted formula happens before what happens for the others. -/
theorem Asserting.cons {vs : List Variable} {index : Nat} {f : Expr} {t : Sexp}
    {formulas : List Expr} {events : List Event} {result : Except QueryError Registry}
    (hf : Accepts vs f t) (h : Asserting (vs ++ f.vars) (index + 1) formulas events result) :
    Asserting vs index (f :: formulas) (assertion vs index f t ++ events) result := by
  cases h with
  | accepted accepted hformulas haccepted =>
    have hvars : vs ++ f.vars ++ varsOf formulas = vs ++ varsOf (f :: formulas) := by
      simp [varsOf]
    rw [hvars]
    exact .accepted ((f, t) :: accepted) (by rw [hformulas, List.map_cons]) ⟨hf, haccepted⟩
  | refused accepted g rest e part hformulas haccepted hrefused =>
    have hvars : vs ++ f.vars ++ varsOf (accepted.map Prod.fst)
        = vs ++ varsOf (((f, t) :: accepted).map Prod.fst) := by
      simp [varsOf]
    rw [hvars] at hrefused
    rw [hvars, ← List.append_assoc]
    exact .refused ((f, t) :: accepted) g rest e part (by rw [hformulas]; rfl) ⟨hf, haccepted⟩
      hrefused

namespace Traced

variable {σ : Type}

/-- Decoding the texts of a reply leaves the session alone. -/
theorem outcome_decodeAll (declared : Registry) (texts : List String) (s : σ) :
    outcome (Query.decodeAll declared texts) s
      = ((decodeAll declared texts).mapError .decode, s) := by
  unfold Query.decodeAll decodeAll
  induction decodeEach declared texts with
  | nil => rfl
  | cons result results ih =>
    rw [List.mapM_cons, List.mapM_cons]
    cases result with
    | error e => rfl
    | ok e =>
      rw [outcome_bind_of_ok (outcome_pure e s), outcome_bind, ih]
      cases results.mapM id <;> rfl

/-- Nothing happens in the session while texts are decoded. -/
theorem does_decodeAll (declared : Registry) (texts : List String) :
    Does (σ := σ) (Query.decodeAll declared texts) (Query.decodeAll declared texts)
      fun events result => events = [] ∧ result = (decodeAll declared texts).mapError .decode :=
  fun t => ⟨[], by simp [outcome_decodeAll], rfl, by rw [outcome_decodeAll]⟩

variable [Session σ]

section

variable {vs : List Variable} {f : Expr}

/-- What happens for a formula that is accepted. -/
theorem does_assertFormula_of_accepts {t : Sexp} (h : Accepts vs f t) (index : Nat) :
    Does (σ := σ) (Query.assertFormula (.reaching vs) index f)
      (Query.assertFormula (.reaching vs) index f) fun events result =>
      events = assertion vs index f t ∧ result = .ok (.reaching (vs ++ f.vars)) := by
  unfold Query.assertFormula
  rw [show Encoder.run ⟨.reaching vs, []⟩ f.encodeAssertion = _ from h]
  have hgive := Does.pure (σ := σ) (Registry.reaching (vs ++ f.vars))
  refine ((does_sendAll _).andThen ((does_comment _).andThen
    ((does_sendAll _).andThen hgive))).mono ?_
  rintro events result ⟨_, ⟨_, ⟨_, ⟨rfl, rfl⟩, rfl⟩, rfl⟩, rfl⟩
  exact ⟨rfl, rfl⟩

/-- What happens for a formula that is refused. -/
theorem does_assertFormula_of_refuses {e : EncodeError} {part : List Variable}
    (h : Refuses vs f e part) (index : Nat) :
    Does (σ := σ) (Query.assertFormula (.reaching vs) index f)
      (Query.assertFormula (.reaching vs) index f) fun events result =>
      events = (commandsFor vs part).map .sent ∧ result = .error (.encode e) := by
  unfold Query.assertFormula
  rw [h.2]
  refine ((does_sendAll _).andThen (Does.throw _)).mono ?_
  rintro events result ⟨_, ⟨rfl, rfl⟩, rfl⟩
  exact ⟨List.append_nil _, rfl⟩

end

/-- **Formulas are asserted one after the other**, up to the first that is refused. -/
theorem does_assertAll (vs : List Variable) (index : Nat) (formulas : List Expr) :
    Does (σ := σ) (Query.assertAll (.reaching vs) index formulas)
      (Query.assertAll (.reaching vs) index formulas) (Asserting vs index formulas) := by
  induction formulas generalizing vs index with
  | nil =>
    refine (Does.pure _).mono ?_
    rintro events result ⟨rfl, rfl⟩
    have hnone : Asserting vs index [] [] (.ok (.reaching (vs ++ varsOf []))) :=
      .accepted [] rfl trivial
    rwa [varsOf, List.flatMap_nil, List.append_nil] at hnone
  | cons f formulas ih =>
    -- the first formula is accepted and the others follow, or all ends with it
    rcases accepts_or_refuses vs f with ⟨t, h⟩ | ⟨e, part, h⟩
    · refine ((does_assertFormula_of_accepts h index).andThen (ih (vs ++ f.vars) (index + 1))).mono
        ?_
      rintro events result ⟨more, hmore, rfl⟩
      exact .cons h hmore
    · refine (does_assertFormula_of_refuses h index).orFail.mono ?_
      rintro events result ⟨rfl, rfl⟩
      have hnone : vs ++ varsOf [] = vs := List.append_nil vs
      have hrefused : Asserting vs index (f :: formulas)
          ((commandsFor (vs ++ varsOf []) part).map .sent) (.error (.encode e)) :=
        .refused [] f formulas e part rfl trivial (by rwa [List.map_nil, hnone])
      rwa [hnone] at hrefused

/-- What happens after a check, and the answer to the query. -/
theorem does_afterCheck (formulas : List Expr) (declared : Registry) (answer : SatAnswer) :
    Does (σ := σ)
      (match answer with
        | .sat | .unknown _ => return none
        | .unsat => do
          let texts ← Query.ofStep (Session.interpolants (labels formulas))
          return some (← Query.decodeAll declared texts))
      (match answer with
        | .sat | .unknown _ => return none
        | .unsat => do
          let texts ← Query.ofStep (Session.interpolants (labels formulas))
          return some (← Query.decodeAll declared texts))
      fun events result =>
        (answer ≠ .unsat ∧ events = [] ∧ result = .ok none) ∨
        (answer = .unsat ∧ ∃ e, events = [.interpolated (labels formulas) (.error e)] ∧
          result = .error (.solver e)) ∨
        answer = .unsat ∧ ∃ texts, events = [.interpolated (labels formulas) (.ok texts)] ∧
          result = ((decodeAll declared texts).mapError .decode).map some := by
  have hnone := Does.pure (σ := σ) (none : Option (List Expr))
  cases answer with
  | sat => exact hnone.mono fun _ _ h => .inl ⟨nofun, h⟩
  | unknown reason => exact hnone.mono fun _ _ h => .inl ⟨nofun, h⟩
  | unsat =>
    refine (Does.ask _ _ fun texts => (does_decodeAll declared texts).map some).mono ?_
    rintro events result (h | ⟨texts, more, ⟨_, ⟨rfl, rfl⟩, rfl⟩, rfl⟩)
    · exact .inr (.inl ⟨rfl, h⟩)
    · exact .inr (.inr ⟨rfl, texts, rfl, rfl⟩)

/-- **Every query takes one of its courses**, in any session and whatever the replies. -/
theorem does_query (settings : QuerySettings) (formulas : List Expr) :
    Does (σ := σ) (Query.interpolants settings formulas) (Query.interpolants settings formulas)
      (Course settings formulas) := by
  refine (Does.ask _ _ fun _ => (does_sendAll _).andThen ((does_assertAll [] 0 formulas).bind
    fun declared _ _ => Does.ask _ _ fun answer => does_afterCheck formulas declared answer)).mono
    ?_
  rintro events result (⟨e, rfl, rfl⟩ | ⟨_, _, ⟨more, hmore, rfl⟩, rfl⟩)
  · exact .unlaunched e
  · -- the formulas are refused, or the check comes after them
    rcases hmore with ⟨e, hasserting, rfl⟩ | ⟨declared, first, second, hasserting, hcheck, rfl⟩
    · cases hasserting with
      | refused accepted f rest e part hformulas haccepted hrefused =>
        exact .refused accepted f rest e part hformulas haccepted hrefused
    · cases hasserting with
      | accepted accepted hformulas haccepted =>
        rcases hcheck with
          ⟨e, rfl, rfl⟩ | ⟨answer, _, ⟨hanswer, rfl, rfl⟩ | ⟨rfl, e, rfl, rfl⟩ |
          ⟨rfl, texts, rfl, rfl⟩, rfl⟩
        · exact .unchecked accepted e hformulas haccepted
        · exact .undisputed accepted answer hformulas haccepted hanswer
        · exact .unanswered accepted e hformulas haccepted
        · exact .answered accepted texts hformulas haccepted

end Traced

/-- What happens in the session of a query. -/
def Query.trace {σ : Type} [Session σ] (settings : QuerySettings) (formulas : List Expr) (s : σ) :
    List Event :=
  (Query.run (Query.interpolants settings formulas) (⟨s, []⟩ : Traced σ)).2.trace

/-- What happens in the session of a query is one of its courses, which ends in its answer. -/
theorem Query.course_trace {σ : Type} [Session σ] (settings : QuerySettings) (formulas : List Expr)
    (s : σ) : Course settings formulas (Query.trace settings formulas s)
      (Query.run (Query.interpolants settings formulas) s).1 := by
  obtain ⟨events, houtcome, hcourse⟩ := Traced.does_query settings formulas (⟨s, []⟩ : Traced σ)
  have htrace : Query.trace settings formulas s = events := congrArg (·.2.trace) houtcome
  rw [htrace]
  exact hcourse

end Interpolants
