import Interpolants.Proofs.Decoding.Batch
import Interpolants.Proofs.Query.Asserted
import Interpolants.Proofs.Query.Assignments
import Interpolants.Proofs.Query.Scope
import Interpolants.Proofs.Smt.Theory
import Interpolants.Solver.Recording

/-!
# Interpolants — interpolants are sound

If the terms that a solver gives separate what was asserted in the session, then the formulas that a
query makes of them separate the formulas of the query. What is assumed of the solver is about terms
and exact integers, in a theory of its own; what follows is about formulas and words.
-/

namespace Interpolants

/-- All terms asserted under the labels of some indices are true. -/
def Hold (V : Interpretation Smt.Value) (ρ : Env Smt.Value) (commands : List Sexp)
    (p : Nat → Prop) : Prop :=
  ∀ c ∈ commands, ∀ t index, Command.named? c = some (t, Query.label index) → p index →
    t.interpret V ρ = some (.bool true)

/-- Terms separate what commands assert: for every assignment of the declared symbols that satisfies
the assertions without a name, a term is true if the assertions up to its index are, and not
together with those behind. -/
def Separate (V : Interpretation Smt.Value) (commands terms : List Sexp) : Prop :=
  ∀ ρ, Assigns ρ commands → (∀ c ∈ commands, Command.Satisfied V ρ c) → ∀ i t, terms[i]? = some t →
    (Hold V ρ commands (· ≤ i) → t.interpret V ρ = some (.bool true)) ∧
      ¬ (t.interpret V ρ = some (.bool true) ∧ Hold V ρ commands (i < ·))

section

variable {vs : List Variable} {v : Valuation} {zero : Smt.ByZero} {S : Interpretation Smt.Srt}
  {V : Interpretation Smt.Value}

/-! ## Terms of formulas and formulas of terms -/

/-- The term of a true formula is true under the assignment. -/
theorem Expr.HasTerm.interpret_of_true (hV : Smt.Theory zero S V) (hv : v.Within vs) {f : Expr}
    {t : Sexp} (hterm : f.HasTerm t) (hvars : ∀ x ∈ f.vars, x ∈ vs)
    (hnames : ∀ x ∈ f.vars, x.name ≠ "true" ∧ x.name ≠ "false") (hf : f.eval v = .ok (.bool true)) :
    t.interpret V (v.restrict vs).smt = some (.bool true) := by
  have hrestrict : f.eval (v.restrict vs) = .ok (.bool true) := by
    rw [← hf]
    exact Expr.eval_congr fun x hx => Valuation.restrict_of_mem (hvars x hx)
  obtain ⟨b, hb, ht⟩ : ∃ b, (Value.bool true).smt? = some b ∧
      t.smtValue zero (v.restrict vs) = some b :=
    smtValue_of_hasTerm hv.scalar hterm hnames hrestrict
  cases hb
  exact hV.interpret_values ht

/-- A well-sorted boolean term that stands for a formula has a truth value under the assignment,
which is also the value of the formula. -/
theorem exists_interpret_of_formula (hV : Smt.Theory zero S V) (hvs : Coherent vs)
    (hv : v.Within vs) {t : Sexp} {e : Expr} (hformula : t.formula? (.reaching vs) [] = some e)
    (hsort : t.interpret S (Registry.reaching vs).srts = some .bool) :
    ∃ p, t.interpret V (v.restrict vs).smt = some (.bool p) ∧ e.ty = .bool ∧
      ∀ a, e.eval v = .ok a → a = .bool p := by
  have hsorted := hv.sorted hvs
  have hnames : RelatedNames (Denotes v) (Registry.reaching vs).srts
      ((Registry.reaching vs).environment.extend []) (v.restrict vs).smt := by
    intro name τ hτ
    obtain ⟨e, a, he, ha, hdenotes⟩ := hsorted.relatedNames name τ hτ
    obtain ⟨x, hx, -⟩ := Option.bind_eq_some_iff.1 hτ
    obtain ⟨hmem, rfl⟩ := hvs.find?_eq_some_iff.1 hx
    refine ⟨e, a, he, ?_, hdenotes⟩
    rw [Valuation.smt, Valuation.restrict_of_mem hmem]
    exact ha
  have hsort' := hV.interpret_sorts hsort hformula
  -- sort, formula and value of the term are related by induction on it
  obtain ⟨e', a, he', ha, hdenotes⟩ :=
    Sexp.exists_related_of_interpret (related_denotes zero v) hnames t hsort'
  obtain rfl : e = e' := Option.some.inj (hformula.symm.trans he')
  obtain ⟨p, rfl⟩ := hdenotes.exists_bool
  refine ⟨p, hV.interpret_values ha, Ty.isBool_iff.1 (hdenotes.ty.2 rfl), fun a ha => ?_⟩
  have hvalue := hdenotes.value a ha
  cases a <;> cases hvalue
  rfl

end

section

variable {formulas : List Expr} {accepted : List (Expr × Sexp)} {commands : List Sexp}
    {v : Valuation}
  {zero : Smt.ByZero} {S : Interpretation Smt.Srt} {V : Interpretation Smt.Value}

theorem mem_varsOf {f : Expr} (hf : f ∈ formulas) {x : Variable} (hx : x ∈ f.vars) :
    x ∈ varsOf formulas :=
  List.mem_flatMap.2 ⟨f, hf, hx⟩

namespace Asserted

/-- The variables of asserted formulas are of one type under each name. -/
theorem coherent (h : Asserted formulas accepted commands) : Coherent (varsOf formulas) := by
  rw [h.formulas_eq]
  exact h.accepts.coherent coherent_nil

/-- What was asserted without a name is true under the assignment. -/
theorem satisfied (h : Asserted formulas accepted commands) (hV : Smt.Theory zero S V)
    (hv : v.Within (varsOf formulas))
    (hnames : ∀ f ∈ formulas, ∀ x ∈ f.vars, x.name ≠ "true" ∧ x.name ≠ "false") :
    ∀ c ∈ commands, Command.Satisfied V (v.restrict (varsOf formulas)).smt c := by
  have hnames : ∀ x ∈ varsOf formulas, x.name ≠ "true" ∧ x.name ≠ "false" := by
    intro x hx
    obtain ⟨f, hf, hx⟩ := List.mem_flatMap.1 hx
    exact hnames f hf x hx
  intro c hc
  rcases h.mem c hc with hc | ⟨i, f, t, -, rfl⟩ | ⟨hnone, -⟩
  · exact hv.satisfied h.coherent hV.computes hnames c hc
  · nofun
  · intro t ht
    rw [hnone] at ht
    cases ht

/-- What was asserted under a label is true if the formula of that index is. -/
theorem hold (h : Asserted formulas accepted commands) (hV : Smt.Theory zero S V)
    (hv : v.Within (varsOf formulas))
    (hnames : ∀ f ∈ formulas, ∀ x ∈ f.vars, x.name ≠ "true" ∧ x.name ≠ "false") {p : Nat → Prop}
    (hp : ∀ i f, formulas[i]? = some f → p i → f.eval v = .ok (.bool true)) :
    Hold V (v.restrict (varsOf formulas)).smt commands p := by
  intro c hc t index hnamed hindex
  rcases h.mem c hc with hc | ⟨i, f, t', hi, rfl⟩ | ⟨-, hnone⟩
  · -- the commands about variables assert nothing under a name
    rw [commandsFor_of_nil] at hc
    obtain ⟨x, -, hc⟩ := List.mem_flatMap.1 hc
    rw [named?_of_mem_commands hc] at hnamed
    cases hnamed
  · rw [Command.named?_assertNamed, Option.some.injEq, Prod.mk.injEq] at hnamed
    obtain ⟨rfl, hlabel⟩ := hnamed
    -- the label gives the index back, and so the formula
    obtain rfl := label_injective hlabel
    have hf : formulas[i]? = some f := by
      rw [h.formulas_eq, List.getElem?_map, hi]
      rfl
    have hmem := List.mem_of_getElem? hf
    have hterm := h.accepts.hasTerm (List.mem_of_getElem? hi)
    exact hterm.interpret_of_true hV hv (fun x hx => mem_varsOf hmem hx) (hnames f hmem)
      (hp i f hf hindex)
  · rw [hnone] at hnamed
    cases hnamed

end Asserted

end

/-! ## Whole queries -/

/-- **Interpolants are sound.** For values within the variables' bounds, an interpolant that has a
value is true if the formulas up to its index are, and it is not true together with those behind. -/
theorem interpolants_sound {σ : Type} [Session σ] (settings : QuerySettings) (formulas : List Expr)
    (s : σ) {zero : Smt.ByZero} {S : Interpretation Smt.Srt} {V : Interpretation Smt.Value}
    (hV : Smt.Theory zero S V)
    (hnames : ∀ f ∈ formulas, ∀ x ∈ f.vars, x.name ≠ "true" ∧ x.name ≠ "false") {es : List Expr}
    (hquery : (Query.run (Query.interpolants settings formulas) s).1 = .ok (some es))
    {terms : List Sexp}
    (hreply : .interpolated (labels formulas) (.ok (terms.map Sexp.render))
      ∈ Query.trace settings formulas s)
    (hspelled : ∀ t ∈ terms, t.Spelled Decode.Plain)
    (hsorts : ∀ t ∈ terms, t.interpret S
      (Command.sorts (commandsOf (Query.trace settings formulas s))) = some .bool)
    (hseparate : Separate V (commandsOf (Query.trace settings formulas s)) terms)
    {v : Valuation} (hv : v.Within (varsOf formulas)) :
    es.length = terms.length ∧ ∀ i e, es[i]? = some e → e.ty = .bool ∧
      ((∀ f ∈ formulas.take (i + 1), f.eval v = .ok (.bool true)) →
        ∀ a, e.eval v = .ok a → a = .bool true) ∧
      ¬ (e.eval v = .ok (.bool true) ∧ ∀ f ∈ formulas.drop (i + 1),
        f.eval v = .ok (.bool true)) := by
  obtain ⟨events, houtcome, hcourse⟩ := Traced.does_query settings formulas (⟨s, []⟩ : Traced σ)
  have htrace : Query.trace settings formulas s = events := congrArg (·.2.trace) houtcome
  have hanswer : (outcome (Query.interpolants settings formulas) s).1 = .ok (some es) := hquery
  rw [htrace] at hreply hsorts hseparate
  rw [hanswer] at hcourse
  obtain ⟨accepted, hasserted, hdecode⟩ := hcourse.exists_asserted hreply
  have hdeclared := hasserted.coherent.sorts_commands hasserted.declared
  rw [hdeclared] at hsorts
  have hformulas := formulas_of_decodeEach hspelled hdecode
  -- the valuation as an assignment, which the solver has to respect
  have hsolver :=
    hseparate _ (hv.assigns hasserted.coherent hdeclared) (hasserted.satisfied hV hv hnames)
  refine ⟨by simpa using (congrArg List.length hformulas).symm, fun i e he => ?_⟩
  obtain ⟨t, ht, hformula⟩ : ∃ t, terms[i]? = some t ∧
      t.formula? (.reaching (varsOf formulas)) [] = some e := by
    have hi := congrArg (·[i]?) hformulas
    simpa [he] using hi
  obtain ⟨p, hvalue, hty, heval⟩ :=
    exists_interpret_of_formula hV hasserted.coherent hv hformula
      (hsorts t (List.mem_of_getElem? ht))
  obtain ⟨hfollows, hcontradicts⟩ := hsolver i t ht
  -- both parts are what the solver's reply says of the assertions up to the index, and of those
  -- behind
  refine ⟨hty, fun hbefore a ha => ?_, fun ⟨htrue, hbehind⟩ => ?_⟩
  · have hhold := hasserted.hold hV hv hnames (p := (· ≤ i)) fun j f hj hle =>
      hbefore f (List.mem_of_getElem? (i := j) (by rw [List.getElem?_take, if_pos (by omega), hj]))
    rw [hfollows hhold, Option.some.injEq, Smt.Value.bool.injEq] at hvalue
    rw [heval a ha, hvalue]
  · have hhold := hasserted.hold hV hv hnames (p := (i < ·)) fun j f hj hlt =>
      hbehind f (List.mem_of_getElem? (i := j - (i + 1)) (by
        rw [List.getElem?_drop, Nat.add_sub_cancel' hlt, hj]))
    have htrue := heval _ htrue
    cases htrue
    exact hcontradicts ⟨hvalue, hhold⟩

/-- An interpolant behind a let block that follows from a bound of a variable. -/
theorem interpolants_sound_bounded :
    let x : Variable := ⟨"x", .int ⟨none, some 5⟩⟩
    let y : Variable := ⟨"y", .integer⟩
    let formulas := [Expr.compare .eq (.var x) (.var y), .compare .gt (.var y) (.integer 9)]
    let t := Sexp.app "let" [.list [.list [.symbol "a", .symbol "y"]],
      .app "<=" [.symbol "a", .numeral 5]]
    let s : Recording := ⟨.unsat, [t.render], none, []⟩
    let v := (Valuation.empty.set "x" (.int 4)).set "y" (.int 4)
    let es := [Expr.compare .le (.var y) (.integer 5)]
    (Query.run (Query.interpolants {} formulas) s).1 = .ok (some es) ∧
      Separate (Smt.values ⟨fun _ => 0, fun _ => 0⟩) (commandsOf (Query.trace {} formulas s)) [t] ∧
      es.length = 1 ∧ ∀ i e, es[i]? = some e → e.ty = .bool ∧
        ((∀ f ∈ formulas.take (i + 1), f.eval v = .ok (.bool true)) →
          ∀ a, e.eval v = .ok a → a = .bool true) ∧
        ¬ (e.eval v = .ok (.bool true) ∧
          ∀ f ∈ formulas.drop (i + 1), f.eval v = .ok (.bool true)) := by
  intro x y formulas t s v es
  have hquery : (Query.run (Query.interpolants {} formulas) s).1 = .ok (some es) :=
    toOption_eq_some_iff.1 (by decide +kernel)
  have hreply : .interpolated (labels formulas) (.ok ([t].map Sexp.render))
      ∈ Query.trace {} formulas s := by
    decide +kernel
  have hcommands : commandsOf (Query.trace {} formulas s) = [
      Command.setOption "produce-interpolants" "true", Command.setLogic "QF_LIA",
      Command.declareFun "x" "Int", Command.assertTerm (.app "<=" [.symbol "x", .numeral 5]),
      Command.declareFun "y" "Int",
      Command.assertNamed (.app "=" [.symbol "x", .symbol "y"]) (Query.label 0),
      Command.assertNamed (.app ">" [.symbol "y", .numeral 9]) (Query.label 1),
      Command.checkSat, Command.getInterpolants ["phi_1", "phi_2"]] := by
    decide +kernel
  have hspelled : t.Spelled Printable := by decide +kernel
  have hseparate : Separate (Smt.values ⟨fun _ => 0, fun _ => 0⟩)
      (commandsOf (Query.trace {} formulas s)) [t] := by
    intro ρ hρ hsatisfied i t' ht'
    rw [hcommands] at hρ hsatisfied
    obtain ⟨rfl, rfl⟩ : i = 0 ∧ t' = t := by
      cases i with
      | zero => exact ⟨rfl, (Option.some.inj ht').symm⟩
      | succ i => simp at ht'
    obtain ⟨m, hm⟩ := hρ.exists_int "x" (by decide +kernel)
    obtain ⟨n, hn⟩ := hρ.exists_int "y" (by decide +kernel)
    have hterm : t.interpret (Smt.values ⟨fun _ => 0, fun _ => 0⟩) ρ
        = some (.bool (decide (n ≤ 5))) := by
      simp [t, Sexp.app, Sexp.symbol, Sexp.numeral, Sexp.interpret, Sexp.interpretAll,
        Sexp.interpretEntries, Sexp.magnitude?, Env.extend, Atom.name, Smt.values, Smt.apply, hn]
    have hbound := hsatisfied _ (List.mem_of_getElem? (i := 3) rfl) _ rfl
    rw [hcommands, hterm]
    constructor
    · intro hbefore
      have hequal := hbefore _ (List.mem_of_getElem? (i := 5) rfl) _ 0 rfl (Nat.le_refl 0)
      simp [Sexp.app, Sexp.symbol, Sexp.numeral, Sexp.interpret, Sexp.interpretAll, Sexp.magnitude?,
        Smt.values, Smt.apply, Smt.chained, hm, hn] at hequal hbound
      simpa [← hequal] using hbound
    · rintro ⟨htrue, hbehind⟩
      have hgreater := hbehind _ (List.mem_of_getElem? (i := 6) rfl) _ 1 rfl Nat.one_pos
      simp [Sexp.app, Sexp.symbol, Sexp.numeral, Sexp.interpret, Sexp.interpretAll, Sexp.magnitude?,
        Smt.values, Smt.apply, hn] at hgreater htrue
      omega
  -- the values are within the bounds: `x` is at most five
  have hwithin : v.Within (varsOf formulas) := by
    intro z hz
    have hz : z = x ∨ z = y := by
      simpa [formulas, varsOf, Expr.vars, Expr.compare, Expr.integer] using hz
    rcases hz with rfl | rfl <;> exact ⟨.int 4, rfl, rfl⟩
  have hsorts : ∀ t' ∈ [t], t'.interpret Smt.sorts
      (Command.sorts (commandsOf (Query.trace {} formulas s))) = some .bool := by
    rw [hcommands]
    decide +kernel
  have hplain : ∀ t' ∈ [t], t'.Spelled Decode.Plain := by
    simpa using hspelled.mono fun _ hs => hs.plain
  exact ⟨hquery, hseparate, interpolants_sound {} formulas s (Smt.theory_values _)
    (by decide) hquery
    hreply hplain hsorts hseparate hwithin⟩

end Interpolants
