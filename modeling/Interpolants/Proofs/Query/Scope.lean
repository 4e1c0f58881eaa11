import Interpolants.Proofs.Encoding.Session
import Interpolants.Proofs.Query.Course

/-!
# Interpolants — declared before use

In the session of a query a symbol is declared before anything is asserted about it, and only once.
The invariant is `Knows`: the symbols that are declared are the names of the variables reached so
far. Declaring a new variable, asserting its bounds and asserting a formula all keep it.
-/

namespace Interpolants

/-! ## The symbols of a term -/

namespace Sexp

mutual

/-- The symbols in a term that are neither literals nor operators. -/
def names : Sexp → List String
  | .atom (.symbol s) => if s = "true" ∨ s = "false" then [] else [s]
  | .list (_ :: args) => namesAll args
  | _ => []

/-- The symbols in some terms. -/
def namesAll : List Sexp → List String
  | [] => []
  | t :: ts => names t ++ namesAll ts

end

@[simp] theorem names_app (head : String) (args : List Sexp) :
    (app head args).names = namesAll args := by
  rw [app, names]

@[simp] theorem names_numeral (n : UInt64) : (numeral n).names = [] := by
  rw [numeral, names] <;> simp

/-- A symbol is a name unless it is a literal. -/
theorem names_symbol (s : String) :
    (symbol s).names = if s = "true" ∨ s = "false" then [] else [s] := by
  rw [symbol, names]

@[simp] theorem namesAll_nil : namesAll [] = [] := by
  rw [namesAll]

@[simp] theorem namesAll_cons (t : Sexp) (ts : List Sexp) :
    namesAll (t :: ts) = t.names ++ namesAll ts := by
  rw [namesAll]

end Sexp

@[simp] theorem names_intTerm (i : Int64) : (intTerm i).names = [] := by
  unfold intTerm
  split <;> simp

theorem Comparison.names_term (op : Comparison) (l r : Sexp) :
    (op.term l r).names = l.names ++ r.names := by
  cases op <;> simp [Comparison.term]

/-- The symbols in the term of a formula are the names of its variables. -/
theorem Expr.HasTerm.names_eq {f : Expr} {t : Sexp} (h : f.HasTerm t) :
    t.names = (f.vars.map Variable.name).filter fun name => name ≠ "true" ∧ name ≠ "false" := by
  induction h with
  | var x =>
    rw [Sexp.names_symbol, Expr.vars]
    by_cases hliteral : x.name = "true" ∨ x.name = "false"
    · rcases hliteral with h | h <;> simp [h]
    · simp_all
  | literal b => cases b <;> simp [Sexp.names_symbol, Expr.literal, Expr.vars]
  | integer i => simp [Expr.integer, Expr.vars]
  | negation _ ih | minus _ ih => simpa [Expr.negation, Expr.minus, Expr.vars] using ih
  | compare op _ _ ihl ihr => simp [Comparison.names_term, ihl, ihr, Expr.compare, Expr.vars]
  | arith op _ _ ihl ihr => simp [ihl, ihr, Expr.arith, Expr.vars]
  | logic _ _ _ ihl ihr => simp [ihl, ihr, Expr.logic, Expr.vars]

/-! ## Commands in order -/

namespace Command

/-- The term that a command asserts, with a name or without. -/
def asserted? (command : Sexp) : Option Sexp :=
  ((named? command).map Prod.fst).or (unnamed? command)

/-- The symbols that a command asserts something about. -/
def names (command : Sexp) : List String :=
  (asserted? command).toList.flatMap Sexp.names

/-- What is asserted has the names that its command is about. -/
theorem names_of_asserted {command t : Sexp} (h : asserted? command = some t) :
    names command = t.names := by
  rw [names, h, Option.toList_some, List.flatMap_singleton]

/-- The symbols that commands declare, in order. -/
def declaredNames (commands : List Sexp) : List String :=
  commands.filterMap fun command => (declared? command).map Prod.fst

theorem declaredNames_append (commands more : List Sexp) :
    declaredNames (commands ++ more) = declaredNames commands ++ declaredNames more :=
  List.filterMap_append

end Command

/-- Each symbol is declared before anything is asserted about it, and none is declared twice. -/
def DeclaredFirst (commands : List Sexp) : Prop :=
  (Command.declaredNames commands).Nodup ∧
    ∀ before command after, commands = before ++ command :: after →
      ∀ name ∈ Command.names command, name ∈ Command.declaredNames before

theorem declaredFirst_nil : DeclaredFirst [] :=
  ⟨List.nodup_nil, fun before _ _ h => absurd h (by simp)⟩

/-- One more command keeps the order if it declares what is new and is about what is declared. -/
theorem DeclaredFirst.snoc {commands : List Sexp} {command : Sexp} (h : DeclaredFirst commands)
    (hnew : ∀ name ∈ Command.declaredNames [command], name ∉ Command.declaredNames commands)
    (hnames : ∀ name ∈ Command.names command, name ∈ Command.declaredNames commands) :
    DeclaredFirst (commands ++ [command]) := by
  refine ⟨?_, fun before command' after heq name hname => ?_⟩
  · rw [Command.declaredNames_append, List.nodup_append]
    refine ⟨h.1, ?_, fun a ha b hb => ?_⟩
    · unfold Command.declaredNames
      rw [List.filterMap_cons]
      split <;> simp
    · rintro rfl
      exact hnew a hb ha
  · rcases List.eq_nil_or_concat after with rfl | ⟨after, last, rfl⟩
    · obtain ⟨rfl, hcommand⟩ := List.append_inj' heq rfl
      cases hcommand
      exact hnames name hname
    · rw [List.concat_eq_append, ← List.cons_append, ← List.append_assoc] at heq
      obtain ⟨rfl, -⟩ := List.append_inj' heq rfl
      exact h.2 before command' after rfl name hname

/-- The bound of a variable declares nothing, and is about the variable only. -/
theorem names_of_mem_boundAssertions {v : Variable} {c : Sexp} (h : c ∈ v.boundAssertions) :
    Command.declared? c = none ∧ ∀ name ∈ Command.names c, name = v.name := by
  have hnames : ∀ i, ∀ name ∈ Sexp.namesAll [.symbol v.name, intTerm i], name = v.name := by
    intro i name hname
    rw [Sexp.namesAll_cons, Sexp.names_symbol] at hname
    split at hname
    · simp at hname
    · simpa using hname
  obtain ⟨i, rfl | rfl⟩ := Variable.exists_of_mem_boundAssertions h
  · rw [Command.names_of_asserted (t := .app ">=" [.symbol v.name, intTerm i]) rfl, Sexp.names_app]
    exact ⟨rfl, hnames i⟩
  · rw [Command.names_of_asserted (t := .app "<=" [.symbol v.name, intTerm i]) rfl, Sexp.names_app]
    exact ⟨rfl, hnames i⟩

/-! ## What a session knows -/

/-- A session that was sent some commands knows some variables: their names are declared. -/
structure Knows (vs : List Variable) (commands : List Sexp) : Prop where
  order : DeclaredFirst commands
  declared : ∀ name, name ∈ Command.declaredNames commands ↔ ∃ x ∈ vs, x.name = name

namespace Knows

variable {vs : List Variable} {commands : List Sexp}

/-- A command that declares nothing can be about known variables. -/
theorem tell (h : Knows vs commands) {c : Sexp} (hnone : Command.declared? c = none)
    (hnames : ∀ name ∈ Command.names c, ∃ x ∈ vs, x.name = name) :
    Knows vs (commands ++ [c]) := by
  have hdeclares : Command.declaredNames [c] = [] := by
    simp [Command.declaredNames, hnone]
  refine ⟨h.order.snoc ?_ fun name hname => (h.declared name).2 (hnames name hname), ?_⟩
  · rw [hdeclares]
    nofun
  · rw [Command.declaredNames_append, hdeclares, List.append_nil]
    exact h.declared

/-- A variable is declared under a name that is not known. -/
theorem declare (h : Knows vs commands) {v : Variable} (hnew : ∀ x ∈ vs, x.name ≠ v.name)
    (sort : String) : Knows (vs ++ [v]) (commands ++ [Command.declareFun v.name sort]) := by
  have hdeclares : Command.declaredNames [Command.declareFun v.name sort] = [v.name] := rfl
  refine ⟨h.order.snoc ?_ nofun, fun name => ?_⟩
  · intro name hname hknown
    obtain ⟨x, hx, rfl⟩ := (h.declared name).1 hknown
    rw [hdeclares, List.mem_singleton] at hname
    exact hnew x hx hname
  · rw [Command.declaredNames_append, List.mem_append, h.declared, hdeclares, List.mem_singleton]
    constructor
    · rintro (⟨x, hx, rfl⟩ | rfl)
      · exact ⟨x, List.mem_append_left _ hx, rfl⟩
      · exact ⟨v, by simp, rfl⟩
    · rintro ⟨x, hx, rfl⟩
      rcases List.mem_append.1 hx with hx | hx
      · exact .inl ⟨x, hx, rfl⟩
      · exact .inr (by rw [List.mem_singleton.1 hx])

/-- Bounds of known variables may be sent. -/
theorem bound (h : Knows vs commands) {v : Variable} (hv : v ∈ vs) {bounds : List Sexp}
    (hbounds : ∀ c ∈ bounds, c ∈ v.boundAssertions) : Knows vs (commands ++ bounds) := by
  induction bounds generalizing commands with
  | nil => rwa [List.append_nil]
  | cons c bounds ih =>
    obtain ⟨hnone, hnames⟩ := names_of_mem_boundAssertions (hbounds c List.mem_cons_self)
    rw [List.append_cons]
    refine ih (h.tell hnone fun name hname => ⟨v, hv, (hnames name hname).symm⟩) fun c' hc' => ?_
    exact hbounds c' (List.mem_cons_of_mem _ hc')

/-- What a session is told when it reaches a variable makes the variable known. -/
theorem reach (h : Knows vs commands) {v : Variable} (hcoherent : Coherent (vs ++ [v])) :
    Knows (vs ++ [v]) (commands ++ commandsFor vs [v]) := by
  by_cases hv : v ∈ vs
  · have hsilent : commandsFor vs [v] = [] := by simp [commandsFor, List.removeAll, hv]
    rw [hsilent, List.append_nil]
    refine ⟨h.order, fun name => (h.declared name).trans ?_⟩
    simp only [List.mem_append, List.mem_singleton]
    grind
  · obtain ⟨sort, hsort⟩ := hcoherent.sorts v (by simp)
    have hcommands : commandsFor vs [v] = Command.declareFun v.name sort :: v.boundAssertions := by
      rw [← Variable.commands_eq hsort]
      simp [commandsFor, List.removeAll, hv, List.eraseDups_cons]
    have hnew : ∀ x ∈ vs, x.name ≠ v.name := by
      intro x hx hname
      rw [hcoherent.unique x (List.mem_append_left _ hx) v (by simp) hname] at hx
      exact hv hx
    rw [hcommands, List.append_cons commands]
    exact (h.declare hnew sort).bound (List.mem_append_right vs (List.mem_singleton_self v))
      fun c hc => hc

/-- A session that reaches more variables knows them too. -/
theorem reachAll (h : Knows vs commands) (ws : List Variable) (hcoherent : Coherent (vs ++ ws)) :
    Knows (vs ++ ws) (commands ++ commandsFor vs ws) := by
  induction ws using List.reverseRecOn with
  | nil => simpa using h
  | append_singleton ws w ih =>
    rw [← List.append_assoc] at hcoherent ⊢
    rw [commandsFor_append, ← List.append_assoc]
    exact (ih hcoherent.left).reach hcoherent

/-- Everything that is asserted for an accepted formula is about known variables. -/
theorem assertion (h : Knows vs commands) {f : Expr} {t : Sexp} (haccepts : Accepts vs f t)
    (hcoherent : Coherent (vs ++ f.vars)) (index : Nat) :
    Knows (vs ++ f.vars) (commands ++ commandsOf (Interpolants.assertion vs index f t)) := by
  have hcommands : commandsOf (Interpolants.assertion vs index f t)
      = commandsFor vs f.vars ++ [Command.assertNamed t (Query.label index)] := by
    rw [Interpolants.assertion, commandsOf_append, commandsOf_sent]
    rfl
  rw [hcommands, ← List.append_assoc]
  refine (h.reachAll f.vars hcoherent).tell rfl fun name hname => ?_
  rw [Command.names_of_asserted rfl, haccepts.hasTerm.names_eq] at hname
  obtain ⟨x, hx, rfl⟩ := List.mem_map.1 (List.mem_filter.1 hname).1
  exact ⟨x, List.mem_append_right _ hx, rfl⟩

end Knows

/-! ## Whole queries -/

/-- What a session can reach depends on its registry only. -/
theorem coherent_of_run {vs part : List Variable} {f : Expr} {result : Except EncodeError Sexp}
    {sent : List Sexp} (hvs : Coherent vs)
    (h : Encoder.run ⟨.reaching vs, []⟩ f.encodeAssertion
      = (result, ⟨.reaching (vs ++ part), sent⟩)) :
    Coherent (vs ++ part) := by
  obtain ⟨_, hstep, -⟩ := (EncoderCall.encodeAssertion f).outcome_step vs []
  have hregistry := congrArg (fun run => run.2.declared.entries) (h.symm.trans hstep)
  have hreach := hvs.reach (EncoderCall.encodeAssertion f).encounters
  have hmem : ∀ x, x ∈ vs ++ part ↔
      x ∈ vs ++ reach vs (EncoderCall.encodeAssertion f).encounters := by
    intro x
    rw [← List.mem_eraseDups, ← List.mem_eraseDups (l := vs ++ reach _ _)]
    exact iff_of_eq (congrArg (x ∈ ·) hregistry)
  exact ⟨fun x hx => hreach.sorts x ((hmem x).1 hx),
    fun x hx y hy => hreach.unique x ((hmem x).1 hx) y ((hmem y).1 hy)⟩

/-- The variables of accepted formulas are of one type under each name. -/
theorem AcceptsAll.coherent {vs : List Variable} {accepted : List (Expr × Sexp)}
    (h : AcceptsAll vs accepted) (hvs : Coherent vs) :
    Coherent (vs ++ varsOf (accepted.map Prod.fst)) := by
  induction accepted generalizing vs with
  | nil => simpa [varsOf] using hvs
  | cons pair accepted ih =>
    have hrest := ih h.2 (coherent_of_run hvs h.1)
    rwa [List.append_assoc] at hrest

/-- Everything that is asserted for accepted formulas is about known variables. -/
theorem AcceptsAll.knows {vs : List Variable} {accepted : List (Expr × Sexp)}
    (h : AcceptsAll vs accepted) (hvs : Coherent vs) {commands : List Sexp}
    (hknows : Knows vs commands) (index : Nat) :
    Knows (vs ++ varsOf (accepted.map Prod.fst))
      (commands ++ commandsOf (assertions vs index accepted)) := by
  induction accepted generalizing vs commands index with
  | nil => simpa [varsOf, assertions, commandsOf] using hknows
  | cons pair accepted ih =>
    have hf := coherent_of_run hvs h.1
    have hrest := ih h.2 hf (hknows.assertion h.1 hf index) (index + 1)
    rwa [List.append_assoc, List.append_assoc, ← commandsOf_append] at hrest

/-- What a session is told first is about no variables. -/
theorem knows_opening (settings : QuerySettings) : Knows [] (commandsOf (opening settings)) := by
  have hnil : Knows [] [] := ⟨declaredFirst_nil, by simp [Command.declaredNames]⟩
  exact (hnil.tell (c := Command.setOption "produce-interpolants" "true") rfl nofun).tell
    (c := Command.setLogic settings.logic) rfl nofun

/-- **In the session of a query symbols are declared before use**, wherever it ends. -/
theorem Course.declaredFirst {settings : QuerySettings} {formulas : List Expr} {events : List Event}
    {answer : Except QueryError (Option (List Expr))} (h : Course settings formulas events answer) :
    DeclaredFirst (commandsOf events) := by
  have hasserted : ∀ accepted, AcceptsAll [] accepted →
      Knows (varsOf (accepted.map Prod.fst))
        (commandsOf (opening settings ++ assertions [] 0 accepted)) := by
    intro accepted haccepted
    have hknows := haccepted.knows coherent_nil (knows_opening settings) 0
    rwa [← commandsOf_append, List.nil_append] at hknows
  -- a question declares nothing and asserts nothing
  have hquestion : ∀ {vs : List Variable} {commands : List Sexp}, Knows vs commands →
      Knows vs (commands ++ [Command.checkSat]) ∧
        Knows vs (commands ++ [Command.checkSat, Command.getInterpolants (labels formulas)]) := by
    intro vs commands hknows
    have hcheck := hknows.tell (c := Command.checkSat) rfl nofun
    refine ⟨hcheck, ?_⟩
    rw [List.append_cons]
    exact hcheck.tell rfl nofun
  cases h with
  | unlaunched e => exact declaredFirst_nil
  | refused accepted f rest e part hformulas haccepted hrefused =>
    have hcoherent : Coherent (varsOf (accepted.map Prod.fst)) := haccepted.coherent coherent_nil
    have hpart := coherent_of_run hcoherent hrefused.2
    rw [commandsOf_append, commandsOf_sent]
    exact ((hasserted accepted haccepted).reachAll part hpart).order
  | unchecked accepted e hformulas haccepted | undisputed accepted answer hformulas haccepted =>
    rw [commandsOf_append]
    exact (hquestion (hasserted accepted haccepted)).1.order
  | unanswered accepted e hformulas haccepted | answered accepted texts hformulas haccepted =>
    rw [commandsOf_append]
    exact (hquestion (hasserted accepted haccepted)).2.order

/-- **The trace of a query.** In any session and whatever its replies, keeping a trace changes
neither the answer nor what becomes of the session, the trace is one of the courses of the query
with that answer, and in it each symbol is declared once and before anything is asserted about
it. -/
theorem interpolants_course {σ : Type} [Session σ] (settings : QuerySettings) (formulas : List Expr)
    (s : σ) :
    let traced := Query.run (Query.interpolants settings formulas) (⟨s, []⟩ : Traced σ)
    let query := Query.run (Query.interpolants settings formulas) s
    traced.1 = query.1 ∧ traced.2.session = query.2 ∧
      Course settings formulas traced.2.trace query.1 ∧
      DeclaredFirst (commandsOf traced.2.trace) := by
  intro traced query
  obtain ⟨events, houtcome, hcourse⟩ := Traced.does_query settings formulas (⟨s, []⟩ : Traced σ)
  have htraced : traced = (query.1, ⟨query.2, events⟩) := houtcome
  rw [htraced]
  exact ⟨rfl, rfl, hcourse, hcourse.declaredFirst⟩

end Interpolants
