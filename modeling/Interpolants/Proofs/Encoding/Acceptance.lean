import Interpolants.Proofs.Encoding.Session

/-!
# Interpolants — what a session accepts

A formula that has a term is refused for its variables only: a session gives the term if the
variables that it has reached and those of the formula agree on the type of each name, and have
types with a sort.
-/

namespace Interpolants

variable {vs ws : List Variable}

/-- A session admits a variable that fits those it has reached. -/
theorem Coherent.admits {v : Variable} (h : Coherent (vs ++ [v])) : admits vs v = true := by
  have hv : v ∈ vs ++ [v] := by simp
  unfold Interpolants.admits
  cases hknown : vs.find? (·.name == v.name) with
  | some known =>
    have hname : known.name = v.name := by simpa using List.find?_some hknown
    have hmem : known ∈ vs := List.mem_of_find?_eq_some hknown
    exact beq_iff_eq.2 (h.unique known (List.mem_append_left _ hmem) v hv hname)
  | none =>
    obtain ⟨sort, hsort⟩ := h.sorts v hv
    exact Option.isSome_iff_exists.2 ⟨sort, hsort⟩

/-- Variables that agree with those reached are reached, all of them. -/
theorem Coherent.outcome_meet (h : Coherent (vs ++ ws)) (sent : List Sexp) :
    outcome (forM (ws.map .ok) meet) ⟨.reaching vs, sent⟩
      = (.ok (), ⟨.reaching (vs ++ ws), sent ++ commandsFor vs ws⟩) := by
  induction ws generalizing vs sent with
  | nil => simp
  | cons w ws ih =>
    rw [List.append_cons] at h
    rw [List.map_cons, List.forM_cons, meet,
      outcome_bind_of_ok (outcome_declare_of_admits h.left.admits sent), ih h, List.append_assoc,
      List.append_assoc, ← commandsFor_append]
    rfl

/-- A formula has one term. -/
theorem Expr.HasTerm.unique {e : Expr} {t t' : Sexp} (h : e.HasTerm t) (h' : e.HasTerm t') :
    t = t' := by
  induction h generalizing t' with
  | var | literal | integer =>
    cases h'
    rfl
  | negation _ ih =>
    cases h' with
    | negation h' => rw [ih h']
  | minus _ ih =>
    cases h' with
    | minus h' => rw [ih h']
  | compare _ _ _ ihl ihr =>
    cases h' with
    | compare _ hl' hr' => rw [ihl hl', ihr hr']
  | arith _ _ _ ihl ihr =>
    cases h' with
    | arith _ hl' hr' => rw [ihl hl', ihr hr']
  | logic hhead _ _ ihl ihr =>
    cases h' with
    | logic hhead' hl' hr' =>
      rw [hhead, Option.some.injEq] at hhead'
      rw [hhead', ihl hl', ihr hr']

/-- **A session gives the term of a formula** if it agrees with the formula on the variables. -/
theorem Expr.HasTerm.outcome_encode {e : Expr} {t : Sexp} (hterm : e.HasTerm t)
    (h : Coherent (vs ++ e.vars)) (sent : List Sexp) :
    outcome e.encode ⟨.reaching vs, sent⟩
      = (.ok t, ⟨.reaching (vs ++ e.vars), sent ++ commandsFor vs e.vars⟩) := by
  obtain ⟨t', hwalk⟩ := exists_encode_eq e
  have hrun : outcome e.encode ⟨.reaching vs, sent⟩
      = (.ok t', ⟨.reaching (vs ++ e.vars), sent ++ commandsFor vs e.vars⟩) := by
    rw [hwalk, hterm.encounters_eq, outcome_bind_of_ok (h.outcome_meet sent)]
    rfl
  rw [hrun, hterm.unique (encode_ok hrun).term]

end Interpolants
