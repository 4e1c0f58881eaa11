import Interpolants.Proofs.Query.Course
import Interpolants.Proofs.Script.Command

/-!
# Interpolants — what an answered query has asserted

The session of a query that gives interpolants was told of each formula: its term under its label,
and before that the commands about its variables. Nothing else in the session declares or asserts
anything.
-/

namespace Interpolants

/-- No two formulas have one label. -/
theorem label_injective {i j : Nat} (h : Query.label i = Query.label j) : i = j := by
  have hrepr : (i + 1).repr = (j + 1).repr := (String.append_right_inj "phi_").1 h
  have hdigits : Decimal.digits (i + 1) = Decimal.digits (j + 1) := by
    rw [Decimal.digits, Decimal.digits, ← Nat.toList_repr, ← Nat.toList_repr, hrepr]
  have hvalue := congrArg Decimal.value hdigits
  rw [Decimal.value_digits, Decimal.value_digits] at hvalue
  omega

section

variable {accepted : List (Expr × Sexp)}

/-- A formula that is accepted has the term it is paired with. -/
theorem AcceptsAll.hasTerm {vs : List Variable} (h : AcceptsAll vs accepted) {f : Expr} {t : Sexp}
    (hmem : (f, t) ∈ accepted) : f.HasTerm t := by
  induction accepted generalizing vs with
  | nil => cases hmem
  | cons pair accepted ih =>
    rcases List.mem_cons.1 hmem with rfl | hmem
    · exact h.1.hasTerm
    · exact ih h.2 hmem

section

variable (vs : List Variable) (index : Nat) (pair : Expr × Sexp)

/-- The commands for the first of some accepted formulas come before those for the others. -/
theorem commandsOf_assertions_cons :
    commandsOf (assertions vs index (pair :: accepted))
      = commandsFor vs pair.1.vars ++ Command.assertNamed pair.2 (Query.label index)
          :: commandsOf (assertions (vs ++ pair.1.vars) (index + 1) accepted) := by
  rw [assertions, commandsOf_append, assertion, commandsOf_append, commandsOf_sent,
    List.append_assoc]
  rfl

/-- The variables of the first formula are reached before those of the others. -/
theorem commandsFor_varsOf_cons :
    commandsFor vs (varsOf ((pair :: accepted).map Prod.fst))
      = commandsFor vs pair.1.vars ++ commandsFor (vs ++ pair.1.vars)
        (varsOf (accepted.map Prod.fst)) :=
  commandsFor_append ..

end

/-- Only the commands about variables declare anything. -/
theorem declared?_assertions (vs : List Variable) (index : Nat) (accepted : List (Expr × Sexp)) :
    (commandsOf (assertions vs index accepted)).filterMap Command.declared?
      = (commandsFor vs (varsOf (accepted.map Prod.fst))).filterMap Command.declared? := by
  induction accepted generalizing vs index with
  | nil => rfl
  | cons pair accepted ih =>
    rw [commandsOf_assertions_cons, commandsFor_varsOf_cons, List.filterMap_append,
      List.filterMap_append, List.filterMap_cons_none (Command.declared?_assertNamed ..), ih]

/-- What is sent for formulas is about their variables or asserts a term under its label. -/
theorem mem_commandsOf_assertions {vs : List Variable} {index : Nat} {c : Sexp}
    (h : c ∈ commandsOf (assertions vs index accepted)) :
    c ∈ commandsFor vs (varsOf (accepted.map Prod.fst)) ∨
      ∃ i f t, accepted[i]? = some (f, t) ∧
      c = Command.assertNamed t (Query.label (index + i)) := by
  induction accepted generalizing vs index with
  | nil => cases h
  | cons pair accepted ih =>
    rw [commandsOf_assertions_cons, List.mem_append, List.mem_cons] at h
    rw [commandsFor_varsOf_cons, List.mem_append]
    rcases h with h | rfl | h
    · exact .inl (.inl h)
    · exact .inr ⟨0, pair.1, pair.2, rfl, rfl⟩
    · rcases ih h with h | ⟨i, f, t, hi, rfl⟩
      · exact .inl (.inr h)
      · exact .inr ⟨i + 1, f, t, hi, by rw [Nat.add_right_comm, Nat.add_assoc]⟩

/-- While formulas are asserted the session is only told things. -/
theorem told_of_mem_assertions {vs : List Variable} {index : Nat} {event : Event}
    (h : event ∈ assertions vs index accepted) :
    (∃ c, event = .sent c) ∨ ∃ text, event = .noted text := by
  induction accepted generalizing vs index with
  | nil => cases h
  | cons pair accepted ih =>
    rw [assertions, List.mem_append] at h
    rcases h with h | h
    · simp only [assertion, List.mem_append, List.mem_map, List.mem_cons, List.not_mem_nil,
        or_false] at h
      grind
    · exact ih h

/-- Asserting asks no question. -/
theorem not_checked_of_mem_assertions {vs : List Variable} {index : Nat}
    {reply : Except SolverError SatAnswer} :
    Event.checked reply ∉ assertions vs index accepted := by
  intro h
  rcases told_of_mem_assertions h with ⟨c, hc⟩ | ⟨text, htext⟩
  · cases hc
  · cases htext

/-- Asserting asks for no interpolants. -/
theorem not_interpolated_of_mem_assertions {vs : List Variable} {index : Nat} {names : List String}
    {reply : Except SolverError (List String)} :
    Event.interpolated names reply ∉ assertions vs index accepted := by
  intro h
  rcases told_of_mem_assertions h with ⟨c, hc⟩ | ⟨text, htext⟩
  · cases hc
  · cases htext

end

/-- Commands tell a session of accepted formulas, and nothing else is declared or asserted by
them. -/
structure Asserted (formulas : List Expr) (accepted : List (Expr × Sexp)) (commands : List Sexp) :
    Prop where
  formulas_eq : formulas = accepted.map Prod.fst
  accepts : AcceptsAll [] accepted
  declared : commands.filterMap Command.declared?
    = (commandsFor [] (varsOf formulas)).filterMap Command.declared?
  mem : ∀ c ∈ commands, c ∈ commandsFor [] (varsOf formulas) ∨
    (∃ i f t, accepted[i]? = some (f, t) ∧ c = Command.assertNamed t (Query.label i)) ∨
    (Command.unnamed? c = none ∧ Command.named? c = none)

/-- A query that gives interpolants has asserted all its formulas and decoded the session's
reply. -/
theorem Course.exists_asserted {settings : QuerySettings} {formulas es : List Expr}
    {events : List Event} {texts : List String}
    (h : Course settings formulas events (.ok (some es)))
    (hreply : Event.interpolated (labels formulas) (.ok texts) ∈ events) :
    ∃ accepted, Asserted formulas accepted (commandsOf events) ∧
      decodeAll (.reaching (varsOf formulas)) texts = .ok es := by
  generalize hanswer : Except.ok (some es) = answer at h
  cases h with
  | unlaunched | refused | unchecked | undisputed | unanswered => cases hanswer
  | answered accepted texts' hformulas haccepted =>
    have htexts : texts = texts' := by
      simpa [opening, not_interpolated_of_mem_assertions] using hreply
    have hcommands : commandsOf (opening settings ++ assertions [] 0 accepted ++
          [.checked (.ok .unsat), .interpolated (labels formulas) (.ok texts')])
        = [Command.setOption "produce-interpolants" "true", Command.setLogic settings.logic] ++
          commandsOf (assertions [] 0 accepted) ++
            [Command.checkSat, Command.getInterpolants (labels formulas)] := by
      rw [commandsOf_append, commandsOf_append]
      rfl
    refine ⟨accepted, ⟨hformulas, haccepted, ?_, fun c hc => ?_⟩, ?_⟩
    · rw [hcommands, List.filterMap_append, List.filterMap_append, declared?_assertions,
        ← hformulas]
      exact List.append_nil _
    · rw [hcommands, List.mem_append, List.mem_append] at hc
      rcases hc with (hc | hc) | hc
      · simp only [List.mem_cons, List.not_mem_nil, or_false] at hc
        rcases hc with rfl | rfl <;> exact .inr (.inr ⟨rfl, rfl⟩)
      · rcases mem_commandsOf_assertions hc with hc | ⟨i, f, t, hi, rfl⟩
        · exact .inl (hformulas ▸ hc)
        · exact .inr (.inl ⟨i, f, t, hi, by rw [Nat.zero_add]⟩)
      · simp only [List.mem_cons, List.not_mem_nil, or_false] at hc
        rcases hc with rfl | rfl <;> exact .inr (.inr ⟨rfl, rfl⟩)
    -- the texts in the reply are the ones that were decoded
    · rw [htexts]
      cases hdecode : decodeAll (.reaching (varsOf formulas)) texts' with
      | error e =>
        rw [hdecode] at hanswer
        cases hanswer
      | ok es' =>
        rw [hdecode] at hanswer
        cases hanswer
        rfl

end Interpolants
