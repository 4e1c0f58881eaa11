import Interpolants.Proofs.Query.Answer
import Interpolants.Solver.Recording

/-!
# Interpolants — the symbols of a query

A query puts two kinds of symbols into its session: the names of variables, which come from the
formulas, and the labels `phi_1`, `phi_2`, … of its assertions, which come from their positions. A
session keeps both in one place. Neither kind has a symbol twice, but nothing keeps them apart: they
are distinct exactly if no variable has the name of a label.
-/

namespace Interpolants

namespace Command

/-- The names that commands give to what they assert, in order. -/
def labels (commands : List Sexp) : List String :=
  commands.filterMap fun command => (named? command).map Prod.snd

theorem labels_append (commands more : List Sexp) :
    labels (commands ++ more) = labels commands ++ labels more :=
  List.filterMap_append

/-- Commands that name nothing put no labels into a session. -/
theorem labels_eq_nil {commands : List Sexp} (h : ∀ c ∈ commands, named? c = none) :
    labels commands = [] :=
  List.filterMap_eq_nil_iff.2 fun c hc => by rw [h c hc]; rfl

/-- The symbols that commands put into a session. -/
def symbols (commands : List Sexp) : List String :=
  declaredNames commands ++ labels commands

end Command

/-- Declarations and bounds put no labels into a session. -/
theorem labels_commandsFor (vs ws : List Variable) : Command.labels (commandsFor vs ws) = [] := by
  refine Command.labels_eq_nil fun c hc => ?_
  obtain ⟨x, -, hc⟩ := List.mem_flatMap.1 hc
  exact named?_of_mem_commands hc

/-- Formulas are asserted under the labels of their positions. -/
theorem labels_assertions (vs : List Variable) (index : Nat) (accepted : List (Expr × Sexp)) :
    Command.labels (commandsOf (assertions vs index accepted))
      = (List.range' index accepted.length).map Query.label := by
  induction accepted generalizing vs index with
  | nil => rfl
  | cons pair accepted ih =>
    rw [commandsOf_assertions_cons, Command.labels_append, labels_commandsFor, List.nil_append]
    exact congrArg (Query.label index :: ·) (ih _ _)

/-- The labels of formulas are distinct. -/
theorem nodup_labels (formulas : List Expr) : (labels formulas).Nodup := by
  refine List.pairwise_map.2 (List.nodup_range.imp fun hne hlabel => hne ?_)
  exact label_injective hlabel

section

variable {settings : QuerySettings} {formulas : List Expr} {events : List Event}
  {answer : Except QueryError (Option (List Expr))}

/-- A session is asked about formulas once all of them have been asserted. -/
theorem Course.exists_accepted_of_checked (h : Course settings formulas events answer)
    {reply : Except SolverError SatAnswer} (hreply : .checked reply ∈ events) :
    ∃ accepted asked, formulas = accepted.map Prod.fst ∧ AcceptsAll [] accepted ∧
      events = opening settings ++ assertions [] 0 accepted ++ asked ∧
      Command.symbols (commandsOf asked) = [] := by
  cases h with
  | unlaunched => simp at hreply
  | refused => simp [opening, not_checked_of_mem_assertions] at hreply
  | unchecked accepted e hformulas haccepted =>
    exact ⟨accepted, [.checked (.error e)], hformulas, haccepted, rfl, rfl⟩
  | undisputed accepted answer hformulas haccepted =>
    exact ⟨accepted, [.checked (.ok answer)], hformulas, haccepted, rfl, rfl⟩
  | unanswered accepted e hformulas haccepted =>
    exact ⟨accepted, [.checked (.ok .unsat), .interpolated (labels formulas) (.error e)], hformulas,
      haccepted, rfl, rfl⟩
  | answered accepted texts hformulas haccepted =>
    exact ⟨accepted, [.checked (.ok .unsat), .interpolated (labels formulas) (.ok texts)],
      hformulas,
      haccepted, rfl, rfl⟩

end

/-- A session that was asked about formulas was told their free variables and their labels. -/
theorem Course.symbols_of_checked {settings : QuerySettings} {formulas : List Expr}
    {events : List Event} {answer : Except QueryError (Option (List Expr))}
    (h : Course settings formulas events answer) {reply : Except SolverError SatAnswer}
    (hreply : .checked reply ∈ events) :
    Command.labels (commandsOf events) = labels formulas ∧
      ∀ name, name ∈ Command.declaredNames (commandsOf events) ↔
        ∃ f ∈ formulas, name ∈ f.freeVariables := by
  obtain ⟨accepted, asked, rfl, haccepted, rfl, hasked⟩ := h.exists_accepted_of_checked hreply
  obtain ⟨hdeclares, hlabels⟩ := List.append_eq_nil_iff.1 hasked
  have hcoherent : Coherent (varsOf (accepted.map Prod.fst)) := haccepted.coherent coherent_nil
  have hknows := haccepted.knows coherent_nil (knows_opening settings) 0
  rw [List.nil_append, ← commandsOf_append] at hknows
  refine ⟨?_, fun name => ?_⟩
  · rw [commandsOf_append, Command.labels_append, hlabels, List.append_nil, commandsOf_append,
      Command.labels_append, labels_assertions, labels, List.length_map, List.range_eq_range']
    rfl
  · rw [commandsOf_append, Command.declaredNames_append, hdeclares, List.append_nil,
      hknows.declared, ← haccepted.unites.names name]
    simp only [hcoherent.find?_eq_some_iff]

/-- **The symbols of a query are distinct** exactly if none of its variables has the name of one of
its labels. In any session that is asked about the formulas, and whatever it replies: what is
declared are their free variables, each once; what names an assertion are the labels of their
positions, each once; and a variable is not kept from being declared under the name that an
assertion is given. -/
theorem symbols_nodup_iff {σ : Type} [Session σ] (settings : QuerySettings) (formulas : List Expr)
    (s : σ) (reply : Except SolverError SatAnswer)
    (h : .checked reply ∈ Query.trace settings formulas s) :
    let commands := commandsOf (Query.trace settings formulas s)
    ((Command.declaredNames commands).Nodup ∧
      ∀ name, name ∈ Command.declaredNames commands ↔ ∃ f ∈ formulas, name ∈ f.freeVariables) ∧
    ((Command.labels commands).Nodup ∧ Command.labels commands = labels formulas) ∧
    ((Command.symbols commands).Nodup ↔
      ∀ f ∈ formulas, ∀ name ∈ f.freeVariables, name ∉ labels formulas) := by
  intro commands
  have hcourse := Query.course_trace settings formulas s
  obtain ⟨hlabels, hdeclared⟩ := hcourse.symbols_of_checked h
  have honce : (Command.declaredNames commands).Nodup := hcourse.declaredFirst.1
  have hlabelled : (Command.labels commands).Nodup := hlabels ▸ nodup_labels formulas
  refine ⟨⟨honce, hdeclared⟩, ⟨hlabelled, hlabels⟩, ?_⟩
  -- each of the two lists has no repetition, so only a symbol of both can repeat
  rw [Command.symbols, List.nodup_append]
  constructor
  · rintro ⟨-, -, hapart⟩ f hf name hname hlabel
    exact hapart name ((hdeclared name).2 ⟨f, hf, hname⟩) name (hlabels ▸ hlabel) rfl
  · refine fun hapart => ⟨honce, hlabelled, ?_⟩
    rintro name hname _ hlabel rfl
    obtain ⟨f, hf, hfree⟩ := (hdeclared name).1 hname
    exact hapart f hf name hfree (hlabels ▸ hlabel)

/-- One formula over a variable with the name of a second label. -/
theorem symbols_nodup_second_label :
    let trace := Query.trace {} [.var ⟨"phi_2", .bool⟩] (⟨.sat, [], none, []⟩ : Recording)
    .checked (.ok .sat) ∈ trace ∧ (Command.symbols (commandsOf trace)).Nodup := by
  intro trace
  have hchecked : .checked (.ok .sat) ∈ trace := by decide
  obtain ⟨-, -, hnodup⟩ := symbols_nodup_iff {} [.var ⟨"phi_2", .bool⟩]
    (⟨.sat, [], none, []⟩ : Recording) (.ok .sat) hchecked
  exact ⟨hchecked, hnodup.2 (by decide +kernel)⟩

/-- One boolean variable with the name of the first label: it is asserted under its own name. -/
theorem symbols_collide :
    let formula : Expr := .var ⟨"phi_1", .bool⟩
    let trace := Query.trace {} [formula] (⟨.sat, [], none, []⟩ : Recording)
    formula.ty = .bool ∧ .checked (.ok .sat) ∈ trace ∧
      Command.symbols (commandsOf trace) = ["phi_1", "phi_1"] ∧
      ¬(Command.symbols (commandsOf trace)).Nodup := by
  intro formula trace
  have hchecked : .checked (.ok .sat) ∈ trace := by decide
  have hsymbols : Command.symbols (commandsOf trace) = ["phi_1", "phi_1"] := by rfl
  exact ⟨rfl, hchecked, hsymbols, by rw [hsymbols]; decide⟩

end Interpolants
