import Interpolants.Proofs.Encoding.Acceptance
import Interpolants.Proofs.Encoding.Sorting
import Interpolants.Proofs.Query.Asserted
import Interpolants.Proofs.Query.Assignments
import Interpolants.Proofs.Query.Scope
import Interpolants.Solver.Recording

/-!
# Interpolants — everything sent is well-sorted

A session that is told well-typed formulas never has to refuse a term for its sorts: what is
asserted, the bounds of variables included, is a boolean term over symbols that were declared before
it. Assertions of bounds are terms of boolean formulas too, so for all that is asserted one
invariant is enough (`AssertsOver`), and the rest is that symbols are declared before use.

Commands are taken as the s-expressions that they are, whatever the names of their symbols look like
in print.
-/

namespace Interpolants

/-- Each term that is asserted is boolean over the symbols that are declared before. -/
def WellSorted (commands : List Sexp) : Prop :=
  ∀ before c behind, commands = before ++ c :: behind → ∀ t, Command.asserted? c = some t →
    t.sortIn (Command.sorts before) = some .bool

/-- A command asserts nothing but terms of boolean formulas over some variables. -/
def AssertsOver (vs : List Variable) (c : Sexp) : Prop :=
  ∀ t, Command.asserted? c = some t → ∃ f : Expr, f.HasTerm t ∧ f.HasSort .bool ∧ f.vars ⊆ vs

/-- The sort of a declared symbol stays what it is. -/
theorem Command.sorts_append_of_mem {before : List Sexp} {name : String}
    (h : name ∈ declaredNames before) (behind : List Sexp) :
    sorts (before ++ behind) name = sorts before name := by
  rw [sorts, sorts, List.filterMap_append, List.lookup_append]
  cases hlookup : (before.filterMap declared?).lookup name with
  | some sort => rfl
  | none =>
    obtain ⟨c, hc, hname⟩ := List.mem_filterMap.1 h
    obtain ⟨⟨_, sort⟩, hdeclared, rfl⟩ := Option.map_eq_some_iff.1 hname
    have hother := List.lookup_eq_none_iff.1 hlookup _ (List.mem_filterMap.2 ⟨c, hc, hdeclared⟩)
    simp at hother

/-! ## What commands assert -/

section

variable {vs ws : List Variable}

theorem AssertsOver.mono {c : Sexp} (h : AssertsOver vs c) (hsub : vs ⊆ ws) : AssertsOver ws c := by
  intro t ht
  obtain ⟨f, hterm, hsort, hvars⟩ := h t ht
  exact ⟨f, hterm, hsort, List.Subset.trans hvars hsub⟩

theorem assertsOver_of_none {c : Sexp} (h : Command.asserted? c = none) : AssertsOver vs c := by
  intro t ht
  rw [h] at ht
  cases ht

/-- The assertion of a bound is that of a comparison. -/
theorem assertsOver_of_mem_boundAssertions {x : Variable} {c : Sexp} (h : c ∈ x.boundAssertions) :
    AssertsOver [x] c := by
  have hcompare : ∀ (op : Comparison) (i : Int64), op.equates = false → x.ty.srt? = some .int →
      AssertsOver [x] (Command.assertTerm (op.term (.symbol x.name) (intTerm i))) := by
    intro op i hop hty t ht
    obtain rfl : op.term (.symbol x.name) (intTerm i) = t := by
      cases op <;> exact Option.some.inj ht
    exact ⟨.compare op (.var x) (.integer i), .compare op (.var x) (.integer i),
      .order hop (.var hty) (.integer i), fun y hy => hy⟩
  unfold Variable.boundAssertions at h
  split at h
  · next bounds hty =>
    have hint : x.ty.srt? = some .int := by rw [hty]; rfl
    rcases List.mem_append.1 h with h | h
    · obtain ⟨lo, -, rfl⟩ := List.mem_map.1 h
      exact hcompare .ge lo rfl hint
    · obtain ⟨hi, -, rfl⟩ := List.mem_map.1 h
      exact hcompare .le hi rfl hint
  · cases h

/-- The commands for variables assert boolean formulas over them. -/
theorem assertsOver_of_mem_commandsFor {c : Sexp} (h : c ∈ commandsFor vs ws) :
    AssertsOver ws c := by
  obtain ⟨x, hx, hc⟩ := List.mem_flatMap.1 h
  have hmem : x ∈ ws := (List.mem_filter.1 (List.mem_eraseDups.1 hx)).1
  obtain ⟨sort, -, hc⟩ := List.mem_flatMap.1 hc
  rcases List.mem_cons.1 hc with rfl | hc
  · exact assertsOver_of_none rfl
  · exact (assertsOver_of_mem_boundAssertions hc).mono
      (List.cons_subset.2 ⟨hmem, List.nil_subset _⟩)

/-- What is sent for accepted formulas asserts only them and bounds. -/
theorem assertsOver_of_mem_assertions {accepted : List (Expr × Sexp)} {index : Nat}
    (haccepted : AcceptsAll vs accepted) (hsorts : ∀ f ∈ accepted.map Prod.fst, f.HasSort .bool)
    {c : Sexp} (h : c ∈ commandsOf (assertions vs index accepted)) :
    AssertsOver (varsOf (accepted.map Prod.fst)) c := by
  rcases mem_commandsOf_assertions h with h | ⟨i, f, t, hi, rfl⟩
  · exact assertsOver_of_mem_commandsFor h
  · intro t' ht'
    cases ht'
    have hpair := List.mem_of_getElem? hi
    have hmem : f ∈ accepted.map Prod.fst := List.mem_map_of_mem hpair
    exact ⟨f, haccepted.hasTerm hpair, hsorts f hmem, fun x hx => List.mem_flatMap.2 ⟨f, hmem, hx⟩⟩

/-! ## What a session was told -/

/-- Commands that declare some variables, and assert nothing but boolean formulas over them. -/
structure Tells (vs : List Variable) (commands : List Sexp) : Prop where
  coherent : Coherent vs
  declared : commands.filterMap Command.declared? = (commandsFor [] vs).filterMap Command.declared?
  asserts : ∀ c ∈ commands, AssertsOver vs c

namespace Tells

variable {commands : List Sexp}

/-- Commands may assert one more boolean formula. -/
theorem tell (h : Tells vs commands) {c : Sexp} (hnone : Command.declared? c = none)
    (hc : AssertsOver vs c) : Tells vs (commands ++ [c]) := by
  refine ⟨h.coherent, ?_, List.forall_mem_append.2 ⟨h.asserts, List.forall_mem_singleton.2 hc⟩⟩
  rw [List.filterMap_append, h.declared]
  simp [hnone]

/-- Commands may declare and bound more variables. -/
theorem reach (h : Tells vs commands) (hcoherent : Coherent (vs ++ ws)) :
    Tells (vs ++ ws) (commands ++ commandsFor vs ws) := by
  refine ⟨hcoherent, ?_, List.forall_mem_append.2 ⟨fun c hc => ?_, fun c hc => ?_⟩⟩
  · rw [List.filterMap_append, h.declared, commandsFor_append, List.filterMap_append,
      List.nil_append]
  · exact (h.asserts c hc).mono (List.subset_append_left vs ws)
  · exact (assertsOver_of_mem_commandsFor hc).mono (List.subset_append_right vs ws)

/-- A declared variable has the sort of its type. -/
theorem sorts_of_mem (h : Tells vs commands) {x : Variable} (hx : x ∈ vs) :
    Command.sorts commands x.name = x.ty.srt? := by
  rw [h.coherent.sorts_commands h.declared, Registry.srts,
    h.coherent.find?_eq_some_iff.2 ⟨hx, rfl⟩, Option.bind_some]

/-- **What a session was told is well-sorted** if symbols were declared before use. -/
theorem wellSorted (h : Tells vs commands) (horder : DeclaredFirst commands)
    (hnames : ∀ x ∈ vs, x.name ≠ "true" ∧ x.name ≠ "false") : WellSorted commands := by
  rintro before c behind rfl t ht
  obtain ⟨f, hterm, hsort, hvars⟩ := h.asserts c (by simp) t ht
  refine hterm.sortIn hsort fun x hx => ?_
  have hlegal := hnames x (hvars hx)
  -- the name of the variable is in the term, so it is declared at this point
  have hbefore : x.name ∈ Command.declaredNames before := by
    refine horder.2 before c behind rfl x.name ?_
    rw [Command.names_of_asserted ht, hterm.names_eq]
    exact List.mem_filter.2 ⟨List.mem_map_of_mem hx, by simpa using hlegal⟩
  refine ⟨hlegal, ?_⟩
  rw [← Command.sorts_append_of_mem hbefore, h.sorts_of_mem (hvars hx)]

end Tells

theorem tells_nil : Tells [] [] :=
  ⟨coherent_nil, rfl, nofun⟩

/-- A session is told of boolean formulas over the variables that it declares. -/
theorem AcceptsAll.tells {accepted : List (Expr × Sexp)} (h : AcceptsAll [] accepted)
    (hsorts : ∀ f ∈ accepted.map Prod.fst, f.HasSort .bool) (settings : QuerySettings) :
    Tells (varsOf (accepted.map Prod.fst))
      (commandsOf (opening settings ++ assertions [] 0 accepted)) := by
  have hopening : commandsOf (opening settings)
      = [Command.setOption "produce-interpolants" "true", Command.setLogic settings.logic] := rfl
  rw [commandsOf_append, hopening]
  refine ⟨h.coherent coherent_nil, ?_, List.forall_mem_append.2 ⟨?_, fun c hc => ?_⟩⟩
  · rw [List.filterMap_append, declared?_assertions]
    rfl
  · exact List.forall_mem_cons.2 ⟨assertsOver_of_none rfl,
      List.forall_mem_singleton.2 (assertsOver_of_none rfl)⟩
  · exact assertsOver_of_mem_assertions h hsorts hc

end

/-- Whatever course a query takes, its session is told of variables of the formulas. -/
theorem Course.exists_tells {settings : QuerySettings} {formulas : List Expr} {events : List Event}
    {answer : Except QueryError (Option (List Expr))} (h : Course settings formulas events answer)
    (hsorts : ∀ f ∈ formulas, f.HasSort .bool) :
    ∃ vs, vs ⊆ varsOf formulas ∧ Tells vs (commandsOf events) := by
  have hasserted : ∀ accepted, accepted.map Prod.fst ⊆ formulas → AcceptsAll [] accepted →
      Tells (varsOf (accepted.map Prod.fst))
        (commandsOf (opening settings ++ assertions [] 0 accepted)) :=
    fun accepted hsub haccepted => haccepted.tells (fun f hf => hsorts f (hsub hf)) settings
  -- a question declares nothing and asserts nothing
  have hcheck : ∀ {vs commands}, Tells vs commands → Tells vs (commands ++ [Command.checkSat]) :=
    fun htells => htells.tell rfl (assertsOver_of_none rfl)
  have hinterpolants : ∀ {vs commands}, Tells vs commands →
      Tells vs (commands ++ [Command.checkSat, Command.getInterpolants (labels formulas)]) := by
    intro vs commands htells
    rw [List.append_cons]
    exact (hcheck htells).tell rfl (assertsOver_of_none rfl)
  cases h with
  | unlaunched e => exact ⟨[], List.nil_subset _, tells_nil⟩
  | refused accepted f rest e part hformulas haccepted hrefused =>
    have hcoherent : Coherent (varsOf (accepted.map Prod.fst)) := haccepted.coherent coherent_nil
    have hsub : accepted.map Prod.fst ⊆ formulas := hformulas ▸ List.subset_append_left _ _
    have hmem : f ∈ formulas := by simp [hformulas]
    rw [commandsOf_append, commandsOf_sent]
    refine ⟨_, List.append_subset.2 ⟨?_, fun x hx => ?_⟩,
      (hasserted accepted hsub haccepted).reach (coherent_of_run hcoherent hrefused.2)⟩
    · intro x hx
      obtain ⟨g, hg, hx⟩ := List.mem_flatMap.1 hx
      exact List.mem_flatMap.2 ⟨g, hsub hg, hx⟩
    · exact List.mem_flatMap.2 ⟨f, hmem, hrefused.1.subset hx⟩
  | unchecked accepted e hformulas haccepted | undisputed accepted answer hformulas haccepted =>
    subst hformulas
    rw [commandsOf_append]
    exact ⟨_, List.Subset.refl _, hcheck (hasserted accepted (List.Subset.refl _) haccepted)⟩
  | unanswered accepted e hformulas haccepted | answered accepted texts hformulas haccepted =>
    subst hformulas
    rw [commandsOf_append]
    exact ⟨_, List.Subset.refl _, hinterpolants (hasserted accepted (List.Subset.refl _) haccepted)⟩

/-! ## Sessions of an encoder -/

namespace EncoderCall

/-- The calls of an encoder declare the variables that they reach, and assert boolean formulas over
these. -/
theorem tells_after (calls : List EncoderCall) : Tells (reached calls) (after calls).sent := by
  rw [after_eq]
  exact tells_nil.reach (coherent_reached calls)

/-- In the commands of an encoder each symbol is declared before anything is asserted about it. -/
theorem declaredFirst_after (calls : List EncoderCall) : DeclaredFirst (after calls).sent := by
  have hnil : Knows [] [] := ⟨declaredFirst_nil, by simp [Command.declaredNames]⟩
  have hknows : Knows (reached calls) (commandsFor [] (reached calls)) :=
    hnil.reachAll (reached calls) (coherent_reached calls)
  rw [after_eq]
  exact hknows.order

/-- What the calls of an encoder have reached is a variable of one of the formulas. -/
theorem exists_call_of_mem_reached {calls : List EncoderCall} {x : Variable}
    (h : x ∈ reached calls) :
    ∃ call ∈ calls, x ∈ call.formula.vars := by
  induction calls using List.reverseRecOn with
  | nil => cases h
  | append_singleton calls call ih =>
    rw [reached_snoc] at h
    rcases List.mem_append.1 h with h | h
    · obtain ⟨earlier, hmem, hx⟩ := ih h
      exact ⟨earlier, List.mem_append_left _ hmem, hx⟩
    · exact ⟨call, by simp, (call.reach_initial _).subset h⟩

/-- One more call is taken behind the others. -/
theorem after_snoc (calls : List EncoderCall) (call : EncoderCall) :
    after (calls ++ [call]) = (outcome call.step (after calls)).2 := by
  rw [after, List.foldl_append]
  rfl

/-- What a call returns has the sort of its formula over all that is declared then. -/
theorem sortIn_of_step {calls : List EncoderCall} {call : EncoderCall} {t : Sexp} {enc : Encoder}
    (h : outcome call.step (after calls) = (.ok t, enc)) {s : Smt.Srt}
    (hsort : call.formula.HasSort s)
    (hnames : ∀ x ∈ call.formula.vars, x.name ≠ "true" ∧ x.name ≠ "false") :
    t.sortIn (Command.sorts enc.sent) = some s := by
  have henc : enc = after (calls ++ [call]) := by rw [after_snoc, h]
  obtain ⟨result, hstep, hok⟩ := call.outcome_step (reached calls) (commandsFor [] (reached calls))
  rw [after_eq, hstep] at h
  obtain ⟨hterm, hreach⟩ := hok t (Prod.mk.inj h).1
  refine hterm.sortIn hsort fun x hx => ⟨hnames x hx, ?_⟩
  rw [henc]
  refine (tells_after _).sorts_of_mem ?_
  rw [reached_snoc, hreach]
  exact List.mem_append_right _ hx

end EncoderCall

/-- Only boolean formulas are asserted. -/
theorem Expr.ty_eq_bool_of_encodeAssertion {e : Expr} {t : Sexp} {enc enc' : Encoder}
    (h : outcome e.encodeAssertion enc = (.ok t, enc')) : e.ty = .bool := by
  rw [Expr.encodeAssertion] at h
  split at h
  · next hbool =>
    cases hty : e.ty with
    | bool => rfl
    | int | bitvec =>
      rw [hty] at hbool
      cases hbool
  · cases h

/-- **Everything sent is well-sorted.** In the session of a query over well-typed boolean formulas,
and in that of an encoder after any calls, each asserted term, those of bounds included, is boolean
over the symbols that earlier commands declare. What an encoder returns for a well-typed formula is
a term of the formula's sort over all that was declared until then, so of sort Bool exactly if the
formula is boolean; and it does return one if its connectives have names and it agrees with the
session on the types of names. -/
theorem sent_wellSorted :
    (∀ (σ : Type) [Session σ] (settings : QuerySettings) (formulas : List Expr) (s : σ),
      (∀ f ∈ formulas, f.HasSort .bool ∧ ∀ x ∈ f.vars, x.name ≠ "true" ∧ x.name ≠ "false") →
        WellSorted (commandsOf (Query.trace settings formulas s))) ∧
    ∀ calls : List EncoderCall,
      (∀ call ∈ calls, ∀ x ∈ call.formula.vars, x.name ≠ "true" ∧ x.name ≠ "false") →
        WellSorted (EncoderCall.after calls).sent ∧
        ∀ (e : Expr) (s : Smt.Srt), e.HasSort s →
        (∀ x ∈ e.vars, x.name ≠ "true" ∧ x.name ≠ "false") →
          (∀ call : EncoderCall, call.formula = e → ∀ t enc,
            (EncoderCall.after calls).run call.step = (.ok t, enc) →
              t.sortIn (Command.sorts enc.sent) = some s ∧ (s = .bool ↔ e.ty = .bool) ∧
                (call = .encodeAssertion e → s = .bool)) ∧
          (e.Named → Coherent (EncoderCall.reached calls ++ e.vars) →
            (∃ t enc, (EncoderCall.after calls).run e.encode = (.ok t, enc)) ∧
            (s = .bool → e.encodeAssertion = e.encode)) := by
  refine ⟨fun σ _ settings formulas s hformulas => ?_,
    fun calls hcalls => ⟨?_, fun e s hsort hnames =>
    ⟨?_, fun hnamed hcoherent => ⟨?_, ?_⟩⟩⟩⟩
  -- each session sends commands that tell the term of a formula, and declares variables before that
  · have hcourse := Query.course_trace settings formulas s
    obtain ⟨vs, hvs, htells⟩ := hcourse.exists_tells fun f hf => (hformulas f hf).1
    refine htells.wellSorted hcourse.declaredFirst fun x hx => ?_
    obtain ⟨f, hf, hx⟩ := List.mem_flatMap.1 (hvs hx)
    exact (hformulas f hf).2 x hx
  · refine (EncoderCall.tells_after calls).wellSorted (EncoderCall.declaredFirst_after calls)
      fun x hx => ?_
    obtain ⟨call, hcall, hx⟩ := EncoderCall.exists_call_of_mem_reached hx
    exact hcalls call hcall x hx
  · rintro call rfl t enc hrun
    refine ⟨EncoderCall.sortIn_of_step hrun hsort hnames, hsort.eq_bool_iff, fun hcall => ?_⟩
    rw [hcall] at hrun
    exact hsort.eq_bool_iff.2 (Expr.ty_eq_bool_of_encodeAssertion hrun)
  · obtain ⟨t, hterm⟩ := hsort.exists_hasTerm hnamed
    rw [EncoderCall.after_eq]
    exact ⟨t, _, hterm.outcome_encode hcoherent _⟩
  · rintro rfl
    exact if_pos (by rw [hsort.eq_bool_iff.1 rfl]; rfl)

/-- A bounded variable, whose least value is the least word, beside a boolean one. -/
theorem sent_wellSorted_least :
    let x : Variable := ⟨"x", .int ⟨some Int64.minValue, none⟩⟩
    let b : Variable := ⟨"b", .bool⟩
    let f := Expr.compare .gt (.minus (.var x)) (.integer 3)
    let g := Expr.compare .ne (.var b) (.compare .eq (.var x) (.integer (-4)))
    let trace := Query.trace {} [f, g] (⟨.sat, [], none, []⟩ : Recording)
    let calls := [EncoderCall.encodeAssertion f]
    let e := Expr.arith .minus (.var x) (.integer 1)
    WellSorted (commandsOf trace) ∧
      commandsOf trace = [
        Command.setOption "produce-interpolants" "true", Command.setLogic "QF_LIA",
        Command.declareFun "x" "Int",
        Command.assertTerm (.app ">=" [.symbol "x", .app "-" [.numeral 9223372036854775808]]),
        Command.assertNamed (.app ">" [.app "-" [.symbol "x"], .numeral 3]) (Query.label 0),
        Command.declareFun "b" "Bool",
        Command.assertNamed (.app "not" [.app "=" [.symbol "b",
          .app "=" [.symbol "x", .app "-" [.numeral 4]]]]) (Query.label 1),
        Command.checkSat] ∧
      WellSorted (EncoderCall.after calls).sent ∧
      ∃ t enc, (EncoderCall.after calls).run e.encode = (.ok t, enc) ∧
        t.sortIn (Command.sorts enc.sent) = some .int := by
  intro x b f g trace calls e
  have hx : ∀ {bounds}, Expr.HasSort (.var ⟨"x", .int bounds⟩) .int := .var rfl
  have hf : f.HasSort .bool := .order rfl (.minus hx) (.integer 3)
  have hg : g.HasSort .bool := .equality rfl (.var rfl) (.equality rfl hx (.integer (-4)))
  have he : e.HasSort .int := .arith .minus hx (.integer 1)
  obtain ⟨hquery, hencoder⟩ := sent_wellSorted
  have hformulas : ∀ h ∈ [f, g], h.HasSort .bool ∧
      ∀ x ∈ h.vars, x.name ≠ "true" ∧ x.name ≠ "false" :=
    List.forall_mem_cons.2 ⟨⟨hf, by decide⟩, List.forall_mem_singleton.2 ⟨hg, by decide⟩⟩
  obtain ⟨hsent, hterms⟩ := hencoder calls (by decide)
  obtain ⟨hsort, hgives⟩ := hterms e .int he (by decide)
  have hnamed : e.Named := List.forall_mem_nil _
  have hcoherent : Coherent (EncoderCall.reached calls ++ e.vars) := by
    have hsome : ∀ y ∈ EncoderCall.reached calls ++ e.vars, y.ty.sort?.isSome = true := by decide
    exact ⟨fun y hy => Option.isSome_iff_exists.1 (hsome y hy), by decide⟩
  obtain ⟨⟨t, enc, hrun⟩, -⟩ := hgives hnamed hcoherent
  exact ⟨hquery Recording {} [f, g] _ hformulas, by decide +kernel, hsent, t, enc, hrun,
    (hsort (.encode e) rfl t enc hrun).1⟩

end Interpolants
