import Interpolants.Proofs.Decoding.Unseen
import Interpolants.Proofs.Offsets.Slice

/-!
# Interpolants — starts of let blocks

A placeholder may be longer than the let block it stands for, so no size goes down from round to
round. What comes to an end is the number of starts of let blocks, and of texts that only look like
one at first: `fewer_of_round` says that a round takes one away and makes none, at neither end of
the placeholder.
-/

namespace Interpolants

open Text Decode

namespace Offsets

/-! ## Starts of let blocks -/

/-- Whether a text starts as a let block does, whatever follows the word. -/
def opensWord (cs : List Char) : Bool :=
  "(let".toList.isPrefixOf cs

/-- How many times a text starts anew in a way. -/
def marks (starts : List Char → Bool) : List Char → Nat
  | [] => 0
  | c :: cs => (if starts (c :: cs) then 1 else 0) + marks starts cs

/-- A text that is put together has fewer starts than the text before, and only those of its
pieces. -/
def Fewer (starts : List Char → Bool) (text before after next : List Char) : Prop :=
  marks starts next < marks starts text ∧
    marks starts next = marks starts before + marks starts after

instance (starts : List Char → Bool) (text before after next : List Char) :
    Decidable (Fewer starts text before after next) :=
  inferInstanceAs (Decidable (_ ∧ _))

/-! ## Putting texts together -/

/-- A way for let blocks to start: with a parenthesis, and with no number sign in it. -/
structure OpensBlock (starts : List Char → Bool) : Prop where
  opening {c : Char} {cs : List Char} : starts (c :: cs) = true → c = '('
  extend {cs : List Char} (ds : List Char) : starts cs = true → starts (cs ++ ds) = true
  hash {cs : List Char} (ds : List Char) : starts (cs ++ '#' :: ds) = true → starts cs = true

theorem opensWord_iff {cs : List Char} : opensWord cs = true ↔ "(let".toList <+: cs :=
  List.isPrefixOf_iff_prefix

/-- Where a let block starts there is its word. -/
theorem opensWord_of_startsLet {cs : List Char} (h : startsLet cs = true) :
    opensWord cs = true := by
  rw [opensWord_iff]
  unfold startsLet at h
  split at h
  · exact List.prefix_append "(let".toList _
  · cases h

/-- A let block starts with a parenthesis, and no placeholder behind it makes it one. -/
theorem opensBlock_startsLet : OpensBlock startsLet where
  opening := by
    intro c cs h
    by_contra hne
    rw [startsLet_of_ne hne] at h
    cases h
  extend := by
    intro cs ds h
    unfold startsLet at h
    split at h
    · exact h
    · cases h
  hash := by
    intro cs ds h
    have := startsLet_of_hash h []
    rwa [List.append_nil] at this

/-- The word of let blocks starts with a parenthesis, and has no number sign in it. -/
theorem opensBlock_opensWord : OpensBlock opensWord where
  opening := by
    intro c cs h
    obtain ⟨more, hmore⟩ := opensWord_iff.1 h
    exact (List.cons.inj hmore).1.symm
  extend := fun ds h => opensWord_iff.2 ((opensWord_iff.1 h).trans (List.prefix_append _ ds))
  hash := by
    intro cs ds h
    obtain ⟨more, hmore⟩ := opensWord_iff.1 h
    rw [opensWord_iff]
    rcases List.append_eq_append_iff.1 hmore with ⟨behind, rfl, -⟩ | ⟨behind, hword, hhash⟩
    · exact List.prefix_append _ _
    · cases behind with
      | nil => exact ⟨[], by rw [List.append_nil, hword, List.append_nil]⟩
      | cons c behind =>
        -- the word would go on with the number sign
        obtain rfl := (List.cons.inj hhash).1
        have hmem : '#' ∈ "(let".toList := by
          rw [hword]
          simp
        exact absurd hmem (by decide)

namespace OpensBlock

variable {starts : List Char → Bool} {front rest : List Char}

/-- Nothing starts in a text without opening parentheses. -/
theorem marks_of_not_mem (h : OpensBlock starts) (hfront : '(' ∉ front) (rest : List Char) :
    marks starts (front ++ rest) = marks starts rest := by
  induction front with
  | nil => rfl
  | cons c front ih =>
    rw [List.mem_cons, not_or] at hfront
    rw [List.cons_append, marks, if_neg fun hstarts => hfront.1 (h.opening hstarts).symm,
      Nat.zero_add, ih hfront.2]

/-- A number sign ends what comes before it. -/
theorem marks_append_hash (h : OpensBlock starts) (front rest : List Char) :
    marks starts (front ++ '#' :: rest) = marks starts front + marks starts ('#' :: rest) := by
  induction front with
  | nil => rw [List.nil_append, marks, Nat.zero_add]
  | cons c front ih =>
    have hstarts : starts (c :: (front ++ '#' :: rest)) = starts (c :: front) := by
      rw [← List.cons_append, Bool.eq_iff_iff]
      exact ⟨h.hash rest, h.extend _⟩
    rw [List.cons_append, marks, marks, hstarts, ih, Nat.add_assoc]

/-- What starts in one of two texts starts in both together. -/
theorem marks_append_le (h : OpensBlock starts) (front rest : List Char) :
    marks starts front + marks starts rest ≤ marks starts (front ++ rest) := by
  induction front with
  | nil => rw [List.nil_append, marks, Nat.zero_add]
  | cons c front ih =>
    have hle : (if starts (c :: front) = true then 1 else 0)
        ≤ if starts (c :: (front ++ rest)) = true then 1 else 0 := by
      split
      · next hstarts =>
        rw [if_pos]
        exact h.extend rest hstarts
      · omega
    rw [List.cons_append, marks, marks]
    omega

/-- **A round takes a start away and makes none**, at neither end of the placeholder. -/
theorem fewer (h : OpensBlock starts) {before found after : List Char} (blocks : Bindings)
    (hfound : found ≠ []) (hstarts : starts (found ++ after) = true) :
    Fewer starts (before ++ (found ++ after)) before after
      (before ++ placeholder blocks ++ after) := by
  have hkey : '(' ∉ placeholder blocks := List.count_eq_zero.1 (count_placeholder blocks)
  have hword : placeholder blocks = '#' :: ("let".toList ++ Decimal.digits blocks.length) := rfl
  have hnext : marks starts (before ++ placeholder blocks ++ after)
      = marks starts before + marks starts after := by
    rw [List.append_assoc, ← h.marks_of_not_mem hkey after, hword, List.cons_append,
      h.marks_append_hash]
  have hlost : marks starts after < marks starts (found ++ after) := by
    obtain ⟨c, inside, rfl⟩ := List.exists_cons_of_ne_nil hfound
    have hinside := h.marks_append_le inside after
    rw [List.cons_append] at hstarts ⊢
    rw [marks, if_pos hstarts]
    omega
  have htext := h.marks_append_le before (found ++ after)
  exact ⟨by omega, hnext⟩

end OpensBlock

/-- A round takes one let block away, and one of the places that look like the start of one. -/
theorem fewer_of_round {text before here found after : List Char}
    (hsplit : splitAtLet text = some (before, here)) (hfound : enclosed here = some (found, after))
    (blocks : Bindings) :
    Fewer opensWord text before after (before ++ placeholder blocks ++ after) ∧
      Fewer startsLet text before after (before ++ placeholder blocks ++ after) := by
  obtain ⟨htext, hopen⟩ := text_of_round hsplit hfound
  have hne : found ≠ [] := by
    rintro rfl
    cases hopen
  have hstarts : startsLet (found ++ after) = true := by
    rw [append_of_closing hfound]
    exact startsLet_of_splitAtLet hsplit
  rw [htext]
  exact ⟨opensBlock_opensWord.fewer blocks hne (opensWord_of_startsLet hstarts),
    opensBlock_startsLet.fewer blocks hne hstarts⟩

end Offsets

end Interpolants
