import Interpolants.Proofs.Encoding.Acceptance
import Mathlib.Data.List.Perm.Basic

/-!
# Interpolants — encoding in any order

Which occurrence of a variable declares it depends on what was encoded before, and a conflict of
types is found at the later occurrence. What a session accepts as a whole does not depend on the
order: formulas are accepted together exactly if each has a term and all their variables agree
(`Coherent`), which is a matter of which variables occur and not where.
-/

namespace Interpolants

/-! ## Variables in any order -/

section

variable {vs ws : List Variable}

/-- Whether variables are coherent depends on which they are, not on their order. -/
theorem Coherent.congr (h : ∀ x, x ∈ vs ↔ x ∈ ws) (hvs : Coherent vs) : Coherent ws where
  sorts x hx := hvs.sorts x ((h x).2 hx)
  unique x hx y hy := hvs.unique x ((h x).2 hx) y ((h y).2 hy)

theorem coherent_iff_of_perm (h : vs.Perm ws) : Coherent vs ↔ Coherent ws :=
  ⟨.congr fun _ => h.mem_iff, .congr fun _ => h.symm.mem_iff⟩

/-- The registry of a session is the same map whatever the order in which variables were reached. -/
theorem Coherent.find?_eq_of_perm (hvs : Coherent vs) (h : vs.Perm ws) (name : String) :
    (Registry.reaching vs).find? name = (Registry.reaching ws).find? name := by
  refine Option.ext fun x => ?_
  rw [hvs.find?_eq_some_iff, ((coherent_iff_of_perm h).1 hvs).find?_eq_some_iff, h.mem_iff]

/-- A session is told the same, up to the order. -/
theorem commandsFor_perm (h : vs.Perm ws) : (commandsFor [] vs).Perm (commandsFor [] ws) := by
  rw [commandsFor_of_nil, commandsFor_of_nil]
  refine List.Perm.flatMap_right _ ?_
  refine (List.perm_ext_iff_of_nodup (nodup_eraseDups vs) (nodup_eraseDups ws)).2 fun x => ?_
  rw [List.mem_eraseDups, List.mem_eraseDups, h.mem_iff]

end

/-! ## Formulas one after the other -/

section

variable {vs : List Variable} {sent : List Sexp} {enc : Encoder}

/-- **A formula is accepted** exactly if it has a term and its variables agree with those reached
before. -/
theorem outcome_encode_eq_ok_iff (hvs : Coherent vs) {e : Expr} {t : Sexp} :
    outcome e.encode ⟨.reaching vs, sent⟩ = (.ok t, enc) ↔
      e.HasTerm t ∧ Coherent (vs ++ e.vars) ∧
        enc = ⟨.reaching (vs ++ e.vars), sent ++ commandsFor vs e.vars⟩ := by
  constructor
  · intro h
    obtain ⟨result, hstep, hall⟩ := (EncoderCall.encode e).outcome_step vs sent
    have hrun : outcome e.encode ⟨.reaching vs, sent⟩ = _ := hstep
    have hreach := hvs.reach (EncoderCall.encode e).encounters
    rw [h] at hrun
    obtain ⟨rfl, rfl⟩ := Prod.mk.inj hrun
    obtain ⟨hterm, hvars⟩ := hall t rfl
    rw [hvars] at hreach ⊢
    exact ⟨hterm, hreach, rfl⟩
  · rintro ⟨hterm, hcoherent, rfl⟩
    exact hterm.outcome_encode hcoherent sent

/-- **Formulas are accepted together** exactly if each has a term and all their variables agree. -/
theorem outcome_mapM_encode_eq_ok_iff (hvs : Coherent vs) {es : List Expr} {ts : List Sexp} :
    outcome (es.mapM Expr.encode) ⟨.reaching vs, sent⟩ = (.ok ts, enc) ↔
      List.Forall₂ Expr.HasTerm es ts ∧ Coherent (vs ++ es.flatMap Expr.vars) ∧
        enc = ⟨.reaching (vs ++ es.flatMap Expr.vars),
          sent ++ commandsFor vs (es.flatMap Expr.vars)⟩ := by
  induction es generalizing vs sent ts enc with
  | nil =>
    rw [List.mapM_nil, outcome_pure, List.forall₂_nil_left_iff, List.flatMap_nil, List.append_nil,
      commandsFor_nil, List.append_nil, Prod.mk.injEq, Except.ok.injEq]
    constructor
    · rintro ⟨rfl, rfl⟩
      exact ⟨rfl, hvs, rfl⟩
    · rintro ⟨rfl, -, rfl⟩
      exact ⟨rfl, rfl⟩
  | cons e es ih =>
    rw [List.mapM_cons, List.flatMap_cons]
    constructor
    · intro h
      obtain ⟨t, enc₁, ht, h⟩ := outcome_bind_eq_ok_iff.1 h
      obtain ⟨ts, enc₂, hts, h⟩ := outcome_bind_eq_ok_iff.1 h
      cases h
      obtain ⟨hterm, hcoherent, rfl⟩ := (outcome_encode_eq_ok_iff hvs).1 ht
      obtain ⟨hterms, hcoherent', rfl⟩ := (ih hcoherent).1 hts
      rw [List.append_assoc] at hcoherent'
      rw [List.append_assoc, List.append_assoc, ← commandsFor_append]
      exact ⟨.cons hterm hterms, hcoherent', rfl⟩
    -- the variables agree with those behind them, so they agree among themselves
    · rintro ⟨hterms, hcoherent, rfl⟩
      cases hterms with
      | @cons _ t _ ts hterm hterms =>
        rw [← List.append_assoc] at hcoherent
        rw [commandsFor_append, ← List.append_assoc vs, ← List.append_assoc sent]
        have hhead : outcome e.encode ⟨.reaching vs, sent⟩ = (.ok t, _) :=
          (outcome_encode_eq_ok_iff hvs).2 ⟨hterm, hcoherent.left, rfl⟩
        have htail : outcome (es.mapM Expr.encode)
            ⟨.reaching (vs ++ e.vars), sent ++ commandsFor vs e.vars⟩ = (.ok ts, _) :=
          (ih hcoherent.left).2 ⟨hterms, hcoherent, rfl⟩
        rw [outcome_bind_of_ok hhead, outcome_bind_of_ok htail, outcome_pure]

/-- A list of formulas is encoded by a new session exactly if each has a term and their variables
are coherent. -/
theorem outcome_mapM_encode_empty {es : List Expr} {ts : List Sexp} :
    outcome (es.mapM Expr.encode) .empty = (.ok ts, enc) ↔
      List.Forall₂ Expr.HasTerm es ts ∧ Coherent (es.flatMap Expr.vars) ∧
        enc = ⟨.reaching (es.flatMap Expr.vars), commandsFor [] (es.flatMap Expr.vars)⟩ :=
  outcome_mapM_encode_eq_ok_iff coherent_nil

end

/-- Formulas that have terms have them by a function. -/
theorem Expr.exists_term : ∃ term : Expr → Sexp, ∀ e t, e.HasTerm t → term e = t := by
  classical
  refine ⟨fun e => if h : ∃ t, e.HasTerm t then h.choose else .list [], fun e t h => ?_⟩
  dsimp only
  rw [dif_pos ⟨t, h⟩]
  exact (Exists.choose_spec (⟨t, h⟩ : ∃ t, e.HasTerm t)).unique h

/-- Terms that are determined by their formulas are so one by one. -/
theorem Expr.eq_map_of_forall₂ {term : Expr → Sexp} (hterm : ∀ e t, e.HasTerm t → term e = t)
    {es : List Expr} {ts : List Sexp} (h : List.Forall₂ Expr.HasTerm es ts) : ts = es.map term := by
  induction h with
  | nil => rfl
  | cons h _ ih => rw [List.map_cons, hterm _ _ h, ih]

/-- What a session has accepted, it accepts again without a trace. -/
theorem encode_again {e : Expr} {enc enc' : Encoder} {t : Sexp}
    (h : outcome e.encode enc = (.ok t, enc')) :
    outcome e.encode enc' = (.ok t, enc') := by
  obtain ⟨t', hwalk⟩ := exists_encode_eq e
  have hagain : outcome e.encode enc' = (.ok t', enc') := by
    rw [hwalk, (encode_ok h).term.encounters_eq,
      outcome_bind_of_ok (outcome_meet_of_declared (encode_ok h).declared)]
    rfl
  rw [hagain, (encode_ok hagain).term.unique (encode_ok h).term]

/-- Formulas that are accepted are accepted in any order. -/
theorem accepted_of_perm {es es' : List Expr} (hperm : es.Perm es')
    (h : ∃ ts, (outcome (es.mapM Expr.encode) .empty).1 = .ok ts) :
    ∃ ts, (outcome (es'.mapM Expr.encode) .empty).1 = .ok ts := by
  obtain ⟨ts, hts⟩ := h
  obtain ⟨hterms, hcoherent, -⟩ := outcome_mapM_encode_empty.1 (Prod.ext hts rfl)
  have hvars : (es.flatMap Expr.vars).Perm (es'.flatMap Expr.vars) := hperm.flatMap_right _
  obtain ⟨ts', hterms', -⟩ := List.perm_comp_forall₂ hperm.symm hterms
  exact ⟨ts', congrArg Prod.fst (outcome_mapM_encode_empty.2
    ⟨hterms', (coherent_iff_of_perm hvars).1 hcoherent, rfl⟩)⟩

/-- **Terms do not depend on the session, and acceptance does not depend on the order.** A formula
has the same term in all sessions that accept it, and a second encoding gives it again without a
trace. Formulas that a new session accepts one after the other are accepted in any order, with the
same terms, the same declared variables and the same commands up to their order. -/
theorem encode_in_any_order :
    (∀ (e : Expr) (enc₁ enc₂ enc₁' enc₂' : Encoder) (t₁ t₂ : Sexp),
      outcome e.encode enc₁ = (.ok t₁, enc₁') → outcome e.encode enc₂ = (.ok t₂, enc₂') → t₁ = t₂) ∧
    (∀ (e : Expr) (enc enc' : Encoder) (t : Sexp),
      outcome e.encode enc = (.ok t, enc') → outcome e.encode enc' = (.ok t, enc')) ∧
    ∀ es es' : List Expr, es.Perm es' →
      ((∃ ts, (outcome (es.mapM Expr.encode) .empty).1 = .ok ts) ↔
        ∃ ts, (outcome (es'.mapM Expr.encode) .empty).1 = .ok ts) ∧
      ∀ ts ts' enc enc', outcome (es.mapM Expr.encode) .empty = (.ok ts, enc) →
        outcome (es'.mapM Expr.encode) .empty = (.ok ts', enc') →
        (∃ term : Expr → Sexp, ts = es.map term ∧ ts' = es'.map term) ∧
        (∀ name, enc.declared.find? name = enc'.declared.find? name) ∧ enc.sent.Perm enc'.sent := by
  refine ⟨fun e enc₁ enc₂ enc₁' enc₂' t₁ t₂ h₁ h₂ => (encode_ok h₁).term.unique (encode_ok h₂).term,
    fun e enc enc' t h => encode_again h, fun es es' hperm => ?_⟩
  refine ⟨⟨accepted_of_perm hperm, accepted_of_perm hperm.symm⟩, fun ts ts' enc enc' h h' => ?_⟩
  -- a term depends on its formula alone, so one function gives the terms of both runs
  obtain ⟨term, hterm⟩ := Expr.exists_term
  obtain ⟨hterms, hcoherent, rfl⟩ := outcome_mapM_encode_empty.1 h
  obtain ⟨hterms', -, rfl⟩ := outcome_mapM_encode_empty.1 h'
  have hvars : (es.flatMap Expr.vars).Perm (es'.flatMap Expr.vars) := hperm.flatMap_right _
  exact ⟨⟨term, Expr.eq_map_of_forall₂ hterm hterms, Expr.eq_map_of_forall₂ hterm hterms'⟩,
    hcoherent.find?_eq_of_perm hvars, commandsFor_perm hvars⟩

/-- Two formulas that share a variable: in the other order, the other one of the variables is
declared first. -/
theorem encode_in_any_order_shared :
    let x : Expr := .var ⟨"x", .integer⟩
    let y : Expr := .var ⟨"y", .integer⟩
    let es := [Expr.compare .le x y, Expr.compare .eq y x]
    let es' := [Expr.compare .eq y x, Expr.compare .le x y]
    es.Perm es' ∧ ∃ ts enc enc', outcome (es.mapM Expr.encode) .empty = (.ok ts, enc) ∧
      outcome (es'.mapM Expr.encode) .empty = (.ok ts.reverse, enc') ∧
      enc.sent = [Command.declareFun "x" "Int", Command.declareFun "y" "Int"] ∧
      enc.sent.Perm enc'.sent := by
  intro x y es es'
  have hperm : es.Perm es' := .swap ..
  obtain ⟨-, -, hall⟩ := encode_in_any_order
  obtain ⟨-, hsame⟩ := hall es es' hperm
  exact ⟨hperm, _, _, _, rfl, rfl, by decide +kernel, (hsame _ _ _ _ rfl rfl).2.2⟩

end Interpolants
