import Interpolants.Proofs.Sexp.Interpretation

/-!
# Interpolants — interpretations that cover less

Two readings of terms may agree on whatever both of them and a third one cover: a language has more
terms than are translated, so that a term which makes sense in it and has a translation makes the
same sense in the part of it that is translated. `Narrows` says this of the parts of terms, and
`interpret_of_narrows` extends it to all terms.
-/

namespace Interpolants

variable {α β : Type}

/-- The reading `I'` gives the parts of terms what `I` does, where `J` gives them anything. -/
structure Narrows (I : Interpretation α) (J : Interpretation β) (I' : Interpretation α) : Prop where
  literal : ∀ b, I'.literal b = I.literal b
  numeral : ∀ n a b, I.numeral n = some a → J.numeral n = some b → I'.numeral n = some a
  negative : ∀ n a b, I.negative n = some a → J.negative n = some b → I'.negative n = some a
  apply : ∀ head as bs a b, as.length = bs.length → I.apply head as = some a →
    J.apply head bs = some b → I'.apply head as = some a

namespace Sexp

variable {I I' : Interpretation α} {J : Interpretation β}

mutual

/-- **A term that makes sense and has a translation makes the same sense in the narrower reading.**
The scopes of the two readings need not be related: every bound term is read by both. -/
theorem interpret_of_narrows (h : Narrows I J I') {env : Env α} {env' : Env β} (t : Sexp) {a : α}
    {b : β} (ha : t.interpret I env = some a) (hb : t.interpret J env' = some b) :
    t.interpret I' env = some a := by
  match t with
  | .atom (.numeral n) => exact h.numeral n a b ha hb
  | .atom (.symbol s) =>
    rw [interpret] at ha ⊢
    rwa [h.literal, h.literal]
  | .list (.atom (.symbol head) :: args) =>
    by_cases hlet : head = "let"
    · subst hlet
      match args with
      | [.list entries, body] =>
        rw [← symbol, ← app, interpret_let] at ha hb ⊢
        obtain ⟨inner, hinner, ha⟩ := Option.bind_eq_some_iff.1 ha
        obtain ⟨inner', hinner', hb⟩ := Option.bind_eq_some_iff.1 hb
        -- the entries are read as before, and so are the names that they bind
        rw [interpretEntries_of_narrows h entries hinner hinner', Option.bind_some]
        exact interpret_of_narrows h body ha hb
      | [] | [_] | [.atom _, _] | [.comment _, _] | _ :: _ :: _ :: _ =>
        rw [← symbol, ← app, interpret_let_eq_none (by rintro _ _ ⟨⟩)] at ha
        cases ha
    · rw [← symbol, ← app, interpret_app hlet] at ha hb ⊢
      cases hmagnitude : magnitude? head args with
      | some n =>
        rw [hmagnitude] at ha hb
        exact h.negative n a b ha hb
      | none =>
        rw [hmagnitude] at ha hb
        obtain ⟨as, has, ha⟩ := Option.bind_eq_some_iff.1 ha
        obtain ⟨bs, hbs, hb⟩ := Option.bind_eq_some_iff.1 hb
        obtain ⟨has', hlength⟩ := interpretAll_of_narrows h args has hbs
        -- both readings have as many arguments
        simp only [has', Option.bind_some]
        exact h.apply head as bs a b hlength ha hb

/-- Terms stand for the same in a narrower reading, where both readings give them a sense. -/
theorem interpretAll_of_narrows (h : Narrows I J I') {env : Env α} {env' : Env β} (ts : List Sexp)
    {as : List α} {bs : List β} (has : interpretAll I env ts = some as)
    (hbs : interpretAll J env' ts = some bs) :
    interpretAll I' env ts = some as ∧ as.length = bs.length := by
  match ts with
  | [] =>
    cases has
    cases hbs
    exact ⟨rfl, rfl⟩
  | t :: ts =>
    rw [interpretAll] at has hbs ⊢
    obtain ⟨a, ha, has⟩ := Option.bind_eq_some_iff.1 has
    obtain ⟨as, hts, has⟩ := Option.bind_eq_some_iff.1 has
    obtain ⟨b, hb, hbs⟩ := Option.bind_eq_some_iff.1 hbs
    obtain ⟨bs, hts', hbs⟩ := Option.bind_eq_some_iff.1 hbs
    cases has
    cases hbs
    obtain ⟨hrest, hlength⟩ := interpretAll_of_narrows h ts hts hts'
    rw [interpret_of_narrows h t ha hb, hrest]
    exact ⟨rfl, congrArg (· + 1) hlength⟩

/-- Bindings stand for the same in a narrower reading, where both readings give them a sense. -/
theorem interpretEntries_of_narrows (h : Narrows I J I') {env : Env α} {env' : Env β}
    (ts : List Sexp) {rows inner : List (String × α)} {rows' inner' : List (String × β)}
    (hinner : interpretEntries I env rows ts = some inner)
    (hinner' : interpretEntries J env' rows' ts = some inner') :
    interpretEntries I' env rows ts = some inner := by
  match ts with
  | [] => exact hinner
  | .list [.atom name, bound] :: ts =>
    rw [interpretEntries] at hinner hinner' ⊢
    obtain ⟨a, ha, hinner⟩ := Option.bind_eq_some_iff.1 hinner
    obtain ⟨b, hb, hinner'⟩ := Option.bind_eq_some_iff.1 hinner'
    rw [interpret_of_narrows h bound ha hb, Option.bind_some]
    exact interpretEntries_of_narrows h ts hinner hinner'

end

end Sexp

end Interpolants
