import Interpolants.Proofs.Decoding.Rounds
import Interpolants.Proofs.Decoding.Token

/-!
# Interpolants — the table of decoded let blocks

Each let block is entered in the table under a placeholder that counts the blocks before it. So the
table is `Numbered`, no key is used twice, and a step of decoding only ever puts new entries in
front: what a placeholder stood for before the step, it stands for after it.
-/

namespace Interpolants

namespace Decode

/-! ## Placeholders -/

/-- The names that let blocks are entered under. -/
def IsPlaceholder (name : String) : Prop :=
  ∃ n, name = String.ofList ("#let".toList ++ Decimal.digits n)

/-- What a block is replaced by is a placeholder. -/
theorem isPlaceholder_placeholder (blocks : Bindings) :
    IsPlaceholder (String.ofList (placeholder blocks)) :=
  ⟨blocks.length, rfl⟩

/-- Placeholders of different numbers differ. -/
theorem eq_of_placeholder {m n : Nat}
    (h : String.ofList ("#let".toList ++ Decimal.digits m)
      = String.ofList ("#let".toList ++ Decimal.digits n)) : m = n := by
  have hdigits : Decimal.digits m = Decimal.digits n :=
    List.append_cancel_left (String.ofList_injective h)
  rw [← Decimal.value_digits m, hdigits, Decimal.value_digits]

/-- What a round leaves in front ends with a placeholder, and no let block starts there. -/
theorem sealed_placeholder {front rest before here : List Char} (h : Sealed front)
    (hsplit : splitAtLet rest = some (before, here)) (blocks : Bindings) :
    Sealed (front ++ before ++ placeholder blocks) := by
  obtain rfl := append_of_splitAtLet hsplit
  have hopen : '(' ∉ placeholder blocks := List.count_eq_zero.1 (count_placeholder blocks)
  have hword : placeholder blocks = ['#'] ++ ("let".toList ++ Decimal.digits blocks.length) := rfl
  rw [hword, List.mem_append, not_or] at hopen
  rw [hword, List.append_assoc, ← List.append_assoc before]
  exact h.append ((sealed_of_splitAtLet hsplit).append (.of_not_mem hopen.2))

/-! ## Numbered tables -/

/-- Each key of the table is the placeholder for the number of entries before it. -/
def Numbered : Bindings → Prop
  | [] => True
  | (key, _) :: blocks => key = String.ofList (placeholder blocks) ∧ Numbered blocks

theorem numbered_nil : Numbered [] :=
  trivial

namespace Numbered

variable {blocks blocks' : Bindings} {name : String} {e : Expr}

/-- The entries of a numbered table are named by their numbers. -/
theorem exists_number (h : Numbered blocks) (hname : blocks.lookup name = some e) :
    ∃ n < blocks.length, name = String.ofList ("#let".toList ++ Decimal.digits n) := by
  induction blocks with
  | nil => cases hname
  | cons entry blocks ih =>
    obtain ⟨key, e'⟩ := entry
    obtain ⟨hkey, hblocks⟩ := h
    rw [List.lookup_cons] at hname
    split at hname
    · next heq =>
      refine ⟨blocks.length, by simp, ?_⟩
      rw [eq_of_beq heq, hkey]
      rfl
    · obtain ⟨n, hn, hname⟩ := ih hblocks hname
      exact ⟨n, by rw [List.length_cons]; omega, hname⟩

/-- A numbered table knows no other names. -/
theorem lookup_eq_none (h : Numbered blocks) (hname : ¬ IsPlaceholder name) :
    blocks.lookup name = none := by
  cases hlookup : blocks.lookup name with
  | none => rfl
  | some e =>
    obtain ⟨n, -, hn⟩ := h.exists_number hlookup
    exact absurd ⟨n, hn⟩ hname

/-- The next placeholder is not in the table yet. -/
theorem lookup_placeholder (h : Numbered blocks) :
    blocks.lookup (String.ofList (placeholder blocks)) = none := by
  cases hlookup : blocks.lookup (String.ofList (placeholder blocks)) with
  | none => rfl
  | some e =>
    obtain ⟨n, hn, heq⟩ := h.exists_number hlookup
    have := eq_of_placeholder heq
    omega

/-- **No entry is ever hidden.** What a name stands for in a table, it stands for in every numbered
table that has grown from it. -/
theorem lookup_of_suffix (h : Numbered blocks') (hgrown : blocks <:+ blocks')
    (hname : blocks.lookup name = some e) : blocks'.lookup name = some e := by
  induction blocks' with
  | nil =>
    rw [List.suffix_nil.1 hgrown] at hname
    exact hname
  | cons entry blocks' ih =>
    rcases List.suffix_cons_iff.1 hgrown with rfl | hbefore
    · exact hname
    · -- the entry in front has the next placeholder, which no older entry has
      obtain ⟨key, e'⟩ := entry
      obtain ⟨hkey, hblocks'⟩ := h
      have hlookup := ih hblocks' hbefore
      have hne : (name == key) = false := by
        rw [beq_eq_false_iff_ne]
        rintro rfl
        rw [hkey, lookup_placeholder hblocks'] at hlookup
        cases hlookup
      rw [List.lookup_cons, hne]
      exact hlookup

end Numbered

/-! ## Steps that keep the table

Every step of decoding keeps the table numbered and only adds to it, whether it gives a result or
not. -/

/-- A step that only adds entries to a numbered table. -/
def Grows {α : Type} (step : Decode α) : Prop :=
  ∀ blocks, Numbered blocks →
    Numbered (outcome step blocks).2 ∧ blocks <:+ (outcome step blocks).2

section

variable {α β : Type} {declared : Registry} {scope : Bindings}

/-- A step that grows the table keeps it numbered. -/
theorem Grows.numbered {step : Decode α} (h : Grows step) {blocks later : Bindings}
    (hblocks : Numbered blocks) {result : Except DecodeError α}
    (hrun : outcome step blocks = (result, later)) : Numbered later := by
  have hlater := (h blocks hblocks).1
  rwa [hrun] at hlater

theorem grows_pure (a : α) : Grows (pure a : Decode α) :=
  fun _ h => ⟨h, List.suffix_refl _⟩

theorem grows_throw (e : DecodeError) : Grows (throw e : Decode α) :=
  fun _ h => ⟨h, List.suffix_refl _⟩

/-- Steps that grow the table do so one after the other. -/
theorem grows_bind {step : Decode α} {next : α → Decode β} (hstep : Grows step)
    (hnext : ∀ a, Grows (next a)) : Grows (step >>= next) := by
  intro blocks h
  obtain ⟨hnumbered, hgrown⟩ := hstep blocks h
  rcases hs : outcome step blocks with ⟨e | a, blocks'⟩
  · rw [outcome_bind_of_error hs]
    rw [hs] at hnumbered hgrown
    exact ⟨hnumbered, hgrown⟩
  · rw [outcome_bind_of_ok hs]
    rw [hs] at hnumbered hgrown
    obtain ⟨hnumbered', hgrown'⟩ := hnext a blocks' hnumbered
    exact ⟨hnumbered', hgrown.trans hgrown'⟩

theorem outcome_enter (body : Expr) (blocks : Bindings) :
    outcome (enter body) blocks
      = (.ok (placeholder blocks), (String.ofList (placeholder blocks), body) :: blocks) := rfl

/-- A new entry gets the number of entries before it. -/
theorem grows_enter (body : Expr) : Grows (enter body) := by
  intro blocks h
  rw [outcome_enter]
  exact ⟨⟨rfl, h⟩, List.suffix_cons _ _⟩

/-- A text without let blocks is read with the table as it is. -/
theorem outcome_plain (text : List Char) (blocks : Bindings) :
    outcome (plain declared scope text) blocks
      = (wholeTerm ⟨scope, blocks, declared⟩ text, blocks) := by
  unfold plain
  rw [outcome_bind_of_ok (outcome_get blocks)]
  cases wholeTerm ⟨scope, blocks, declared⟩ text <;> rfl

theorem grows_plain (text : List Char) : Grows (plain declared scope text) := by
  intro blocks h
  rw [outcome_plain]
  exact ⟨h, List.suffix_refl _⟩

/-- The entries of a block grow the table if each part does. -/
theorem grows_bindAll {decode : List Char → Decode Expr} (hdecode : ∀ part, Grows (decode part))
    (inner : Bindings) (entries : List (String × List Char)) :
    Grows (bindAll decode inner entries) := by
  induction entries generalizing inner with
  | nil => exact grows_pure inner
  | cons entry entries ih => exact grows_bind (hdecode entry.2) fun e => ih _

/-- So does a whole block. -/
theorem grows_block {decode : Bindings → List Char → Decode Expr}
    (hdecode : ∀ inner part, Grows (decode inner part)) (scope : Bindings) (text : List Char) :
    Grows (block decode scope text) := by
  refine grows_bind (grows_bindAll (hdecode scope) scope _) fun inner => ?_
  cases (LetBlock.ofText text).body with
  | error e => exact grows_throw e
  | ok body => exact hdecode inner body

/-- So does resolving the let blocks of a text, round by round. -/
theorem grows_resolve (fuel : Nat) (scope : Bindings) (text : List Char) :
    Grows (resolve declared fuel scope text) := by
  -- the fuel bounds the rounds, and each of them is made of steps that keep the table
  induction fuel generalizing scope text with
  | zero => exact grows_pure text
  | succ fuel ih =>
    rw [resolve_succ, round]
    split
    · exact grows_pure text
    · split
      · exact grows_throw _
      · refine grows_bind (grows_block (fun inner part => ?_) _ _) fun body => ?_
        · exact grows_bind (ih inner part) fun text => grows_plain text
        · exact grows_bind (grows_enter body) fun key => ih scope _

/-- **Decoding only adds to the table.** -/
theorem grows_inScope (declared : Registry) (scope : Bindings) (text : List Char) :
    Grows (inScope declared scope text) :=
  grows_bind (grows_resolve _ scope text) fun text => grows_plain text

end

/-! ## Rounds -/

/-- How the let blocks of a text are resolved: round by round, each on the table that the one before
it left. -/
inductive Resolved (declared : Registry) (scope : Bindings) :
    List Char → Bindings → List Char → Bindings → Prop where
  | done {text : List Char} {blocks : Bindings} (hnone : splitAtLet text = none) :
      Resolved declared scope text blocks text blocks
  | round {text before here found after text' : List Char} {body : Expr}
      {blocks later blocks' : Bindings}
      (hsplit : splitAtLet text = some (before, here))
      (hfound : enclosed here = some (found, after))
      (hblock : outcome (block (inScope declared) scope found) blocks = (.ok body, later))
      (hrest : Resolved declared scope (before ++ (placeholder later ++ after))
        ((String.ofList (placeholder later), body) :: later) text' blocks') :
      Resolved declared scope text blocks text' blocks'

section

variable {declared : Registry} {scope blocks blocks' : Bindings} {text text' : List Char}

/-- **Let blocks are resolved in rounds.** -/
theorem resolved_of_resolveAll
    (h : outcome (resolveAll declared scope text) blocks = (.ok text', blocks')) :
    Resolved declared scope text blocks text' blocks' := by
  -- each round takes the parentheses of a block away
  induction hcount : text.count '(' using Nat.strongRecOn generalizing text blocks with
  | ind n ih =>
    subst hcount
    cases hsplit : splitAtLet text with
    | none =>
      rw [resolveAll_of_none hsplit] at h
      cases h
      exact .done hsplit
    | some split =>
      obtain ⟨before, here⟩ := split
      cases hfound : enclosed here with
      | none =>
        rw [resolveAll_of_unbalanced hsplit hfound] at h
        cases h
      | some cut =>
        obtain ⟨found, after⟩ := cut
        rw [resolveAll_of_block hsplit hfound] at h
        obtain ⟨body, later, hblock, h⟩ := outcome_bind_eq_ok_iff.1 h
        have hfewer := count_of_round hsplit hfound later
        rw [List.append_assoc] at hfewer
        rw [outcome_bind_of_ok (outcome_enter body later), List.append_assoc] at h
        exact .round hsplit hfound hblock (ih _ hfewer h rfl)

/-- The table behind a round is numbered. -/
theorem numbered_of_round {found : List Char} {body : Expr} {later : Bindings}
    (hblocks : Numbered blocks)
    (hblock : outcome (block (inScope declared) scope found) blocks = (.ok body, later)) :
    Numbered ((String.ofList (placeholder later), body) :: later) :=
  ⟨rfl, (grows_block (grows_inScope declared) scope found).numbered hblocks hblock⟩

/-- **So is the table behind all rounds.** -/
theorem Resolved.numbered (h : Resolved declared scope text blocks text' blocks')
    (hblocks : Numbered blocks) :
    Numbered blocks' := by
  induction h with
  | done => exact hblocks
  | round _ _ hblock _ ih => exact ih (numbered_of_round hblocks hblock)

end

end Decode

end Interpolants
