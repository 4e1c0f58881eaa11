import Interpolants.Proofs.Sexp.Interpretation

/-!
# Interpolants — interpretations side by side

Three readings of the same terms are often compared: whether a term makes sense at all, what it is
translated to, and what it means. `Related` says this of the operators alone, and
`exists_related_of_interpret` extends it to all terms: what makes sense has a translation and a
meaning that belong together. Let blocks are handled here and nowhere else.
-/

namespace Interpolants

variable {α β γ : Type}

/-- Three interpretations whose literals, numerals and operators belong together wherever the first
gives them a sense. -/
structure Related (I : Interpretation α) (J : Interpretation β) (K : Interpretation γ)
    (R : α → β → γ → Prop) : Prop where
  literal : ∀ b, R (I.literal b) (J.literal b) (K.literal b)
  numeral : ∀ n a, I.numeral n = some a →
    ∃ b c, J.numeral n = some b ∧ K.numeral n = some c ∧ R a b c
  negative : ∀ n a, I.negative n = some a →
    ∃ b c, J.negative n = some b ∧ K.negative n = some c ∧ R a b c
  apply : ∀ head (rows : List (α × β × γ)) a, (∀ row ∈ rows, R row.1 row.2.1 row.2.2) →
    I.apply head (rows.map (·.1)) = some a →
    ∃ b c, J.apply head (rows.map (·.2.1)) = some b ∧ K.apply head (rows.map (·.2.2)) = some c ∧
      R a b c

/-- Three environments whose names belong together wherever the first gives them a sense. -/
def RelatedNames (R : α → β → γ → Prop) (env₁ : Env α) (env₂ : Env β)
    (env₃ : Env γ) : Prop :=
  ∀ name a, env₁ name = some a →
    ∃ b c, env₂ name = some b ∧ env₃ name = some c ∧ R a b c

section

variable {R : α → β → γ → Prop} {env₁ : Env α} {env₂ : Env β}
  {env₃ : Env γ}

/-- Names that are bound to what belongs together can be added. -/
theorem RelatedNames.extend (h : RelatedNames R env₁ env₂ env₃)
    {rows : List (String × α × β × γ)} (hrows : ∀ row ∈ rows, R row.2.1 row.2.2.1 row.2.2.2) :
    RelatedNames R (env₁.extend (rows.map fun row => (row.1, row.2.1)))
      (env₂.extend (rows.map fun row => (row.1, row.2.2.1)))
      (env₃.extend (rows.map fun row => (row.1, row.2.2.2))) := by
  intro name a ha
  induction rows with
  | nil => exact h name a ha
  | cons row rows ih =>
    simp only [Env.extend, List.map_cons, List.lookup_cons] at ha ⊢
    -- the entry in front counts, and the names behind it are extended already
    cases hname : name == row.1 with
    | true =>
      rw [hname] at ha
      cases ha
      exact ⟨_, _, rfl, rfl, hrows row (by simp)⟩
    | false =>
      rw [hname] at ha
      exact ih (fun row hrow => hrows row (by simp [hrow])) ha

end

namespace Sexp

variable {I : Interpretation α} {J : Interpretation β} {K : Interpretation γ}
  {R : α → β → γ → Prop}

mutual

/-- **What makes sense has a translation and a meaning that belong together.** -/
theorem exists_related_of_interpret (h : Related I J K R) {env₁ : Env α}
    {env₂ : Env β} {env₃ : Env γ} (henv : RelatedNames R env₁ env₂ env₃)
    (t : Sexp) {a : α} (ha : t.interpret I env₁ = some a) :
    ∃ b c, t.interpret J env₂ = some b ∧ t.interpret K env₃ = some c ∧ R a b c := by
  match t with
  | .atom (.numeral n) => exact h.numeral n a ha
  | .atom (.symbol s) =>
    by_cases htrue : s = "true"
    · subst htrue
      cases ha
      exact ⟨_, _, rfl, rfl, h.literal true⟩
    · by_cases hfalse : s = "false"
      · subst hfalse
        cases ha
        exact ⟨_, _, rfl, rfl, h.literal false⟩
      · rw [interpret, if_neg htrue, if_neg hfalse] at ha
        rw [interpret, interpret, if_neg htrue, if_neg hfalse, if_neg htrue, if_neg hfalse]
        exact henv s a ha
  | .list (.atom (.symbol head) :: args) =>
    by_cases hlet : head = "let"
    · subst hlet
      match args with
      | [.list entries, body] =>
        rw [← symbol, ← app, interpret_let] at ha
        -- the entries are related in the outer scope, and the body in the scope that they make
        obtain ⟨inner, hinner, ha⟩ := Option.bind_eq_some_iff.1 ha
        obtain ⟨rows, rfl, hJ, hK, hrows⟩ :=
          exists_rows_of_interpretEntries h henv entries [] nofun hinner
        obtain ⟨b, c, hb, hc, hR⟩ := exists_related_of_interpret h (henv.extend hrows) body ha
        refine ⟨b, c, ?_, ?_, hR⟩
        · exact (interpret_let entries body).trans (Option.bind_eq_some_iff.2 ⟨_, hJ, hb⟩)
        · exact (interpret_let entries body).trans (Option.bind_eq_some_iff.2 ⟨_, hK, hc⟩)
      | [] | [_] | [.atom _, _] | [.comment _, _] | _ :: _ :: _ :: _ =>
        rw [← symbol, ← app, interpret_let_eq_none (by rintro _ _ ⟨⟩)] at ha
        cases ha
    · rw [← symbol, ← app, interpret_app hlet] at ha ⊢
      rw [interpret_app hlet]
      -- a signed numeral is a leaf of its own, everything else an application to operands
      cases hmagnitude : magnitude? head args with
      | some n =>
        rw [hmagnitude] at ha
        exact h.negative n a ha
      | none =>
        rw [hmagnitude] at ha
        obtain ⟨as, has, ha⟩ := Option.bind_eq_some_iff.1 ha
        obtain ⟨rows, rfl, hJ, hK, hrows⟩ := exists_rows_of_interpretAll h henv args has
        simp only [hJ, hK]
        exact h.apply head rows a hrows ha

/-- Some terms that make sense have translations and meanings, row by row. -/
theorem exists_rows_of_interpretAll (h : Related I J K R) {env₁ : Env α}
    {env₂ : Env β} {env₃ : Env γ} (henv : RelatedNames R env₁ env₂ env₃)
    (ts : List Sexp) {as : List α} (has : interpretAll I env₁ ts = some as) :
    ∃ rows : List (α × β × γ), as = rows.map (·.1) ∧
      interpretAll J env₂ ts = some (rows.map (·.2.1)) ∧
      interpretAll K env₃ ts = some (rows.map (·.2.2)) ∧
      ∀ row ∈ rows, R row.1 row.2.1 row.2.2 := by
  match ts with
  | [] =>
    cases has
    exact ⟨[], rfl, rfl, rfl, nofun⟩
  | t :: ts =>
    rw [interpretAll] at has
    obtain ⟨a, ha, has⟩ := Option.bind_eq_some_iff.1 has
    obtain ⟨as, hts, has⟩ := Option.bind_eq_some_iff.1 has
    cases has
    obtain ⟨b, c, hb, hc, hrow⟩ := exists_related_of_interpret h henv t ha
    obtain ⟨rows, rfl, hJ, hK, hrows⟩ := exists_rows_of_interpretAll h henv ts hts
    refine ⟨(a, b, c) :: rows, rfl, ?_, ?_, List.forall_mem_cons.2 ⟨hrow, hrows⟩⟩
    · rw [interpretAll, hb, hJ]
      rfl
    · rw [interpretAll, hc, hK]
      rfl

/-- The names of a let block whose terms make sense are bound to what belongs together. -/
theorem exists_rows_of_interpretEntries (h : Related I J K R) {env₁ : Env α}
    {env₂ : Env β} {env₃ : Env γ} (henv : RelatedNames R env₁ env₂ env₃)
    (ts : List Sexp) (rows : List (String × α × β × γ))
    (hrows : ∀ row ∈ rows, R row.2.1 row.2.2.1 row.2.2.2) {inner : List (String × α)}
    (hinner : interpretEntries I env₁ (rows.map fun row => (row.1, row.2.1)) ts = some inner) :
    ∃ rows' : List (String × α × β × γ), inner = rows'.map (fun row => (row.1, row.2.1)) ∧
      interpretEntries J env₂ (rows.map fun row => (row.1, row.2.2.1)) ts
        = some (rows'.map fun row => (row.1, row.2.2.1)) ∧
      interpretEntries K env₃ (rows.map fun row => (row.1, row.2.2.2)) ts
        = some (rows'.map fun row => (row.1, row.2.2.2)) ∧
      ∀ row ∈ rows', R row.2.1 row.2.2.1 row.2.2.2 := by
  match ts with
  | [] =>
    cases hinner
    exact ⟨rows, rfl, rfl, rfl, hrows⟩
  | .list [.atom name, bound] :: ts =>
    rw [interpretEntries] at hinner
    obtain ⟨a, ha, hinner⟩ := Option.bind_eq_some_iff.1 hinner
    obtain ⟨b, c, hb, hc, hrow⟩ := exists_related_of_interpret h henv bound ha
    -- the entry is put before the others in all three readings
    obtain ⟨rows', rfl, hJ, hK, hrows'⟩ := exists_rows_of_interpretEntries h henv ts
      ((name.name, a, b, c) :: rows) (List.forall_mem_cons.2 ⟨hrow, hrows⟩) hinner
    refine ⟨rows', rfl, ?_, ?_, hrows'⟩
    · rw [interpretEntries, hb]
      exact hJ
    · rw [interpretEntries, hc]
      exact hK

end

end Sexp

end Interpolants
