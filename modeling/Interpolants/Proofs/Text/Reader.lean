import Interpolants.Proofs.Lists
import Interpolants.Text.Reader
import Mathlib.Data.List.Forall2
import Mathlib.Data.List.TakeWhile

/-!
# Interpolants — what readers read

The value that a reader takes off a text does not depend on where its alternatives get stuck. So the
lemmas here are about values alone: one for each way to build a reader, and at the end what can be
said of a whole text from them: when it is read (`run_eq_ok`), what the reader then took off it
(`exists_of_run_eq_ok`), and when it is not read (`exists_run_error`).
-/

namespace Interpolants.Text.Reader

variable {α β : Type}

/-! ## Values -/

@[simp] theorem value_fail (cs : List Char) : ((fail : Reader α) cs).value = none := rfl

/-- A reader goes on where the one before it has stopped. -/
theorem value_bind (first : Reader α) (next : α → Reader β) (cs : List Char) :
    ((first >>= next) cs).value = (first cs).value.bind fun p => (next p.1 p.2).value := by
  show (Reader.bind first next cs).value = _
  unfold Reader.bind
  rcases first cs with ⟨_ | ⟨a, rest⟩, stuck⟩ <;> rfl

theorem value_bind_of_some {first : Reader α} {cs rest : List Char} {a : α}
    (h : (first cs).value = some (a, rest)) (next : α → Reader β) :
    ((first >>= next) cs).value = (next a rest).value := by
  rw [value_bind, h]
  rfl

theorem value_bind_of_none {first : Reader α} {cs : List Char} (h : (first cs).value = none)
    (next : α → Reader β) : ((first >>= next) cs).value = none := by
  rw [value_bind, h]
  rfl

/-- Two readers one after the other read something if each of them does. -/
theorem value_bind_eq_some_iff {first : Reader α} {next : α → Reader β} {cs rest : List Char}
    {b : β} :
    ((first >>= next) cs).value = some (b, rest) ↔
      ∃ a mid, (first cs).value = some (a, mid) ∧ (next a mid).value = some (b, rest) := by
  rw [value_bind, Option.bind_eq_some_iff]
  exact Prod.exists

/-- The second reader is tried where the first one fails. -/
theorem value_orElse (first second : Reader α) (cs : List Char) :
    (orElse first second cs).value = (first cs).value.or (second cs).value := by
  unfold orElse
  rcases first cs with ⟨_ | result, stuck⟩ <;> rfl

theorem value_firstOf_cons (reader : Reader α) (others : List (Reader α)) (cs : List Char) :
    (firstOf (reader :: others) cs).value = (reader cs).value.or (firstOf others cs).value :=
  value_orElse reader (firstOf others) cs

theorem value_firstOf_eq_none {readers : List (Reader α)} {cs : List Char}
    (h : ∀ reader ∈ readers, (reader cs).value = none) : (firstOf readers cs).value = none := by
  induction readers with
  | nil => rfl
  | cons reader others ih =>
    rw [value_firstOf_cons, h reader List.mem_cons_self, Option.none_or]
    exact ih fun other hother => h other (List.mem_cons_of_mem reader hother)

/-- The first reader that reads something is taken. -/
theorem value_firstOf_append {before behind : List (Reader α)} {reader : Reader α} {cs : List Char}
    {result : α × List Char} (hbefore : ∀ other ∈ before, (other cs).value = none)
    (h : (reader cs).value = some result) :
    (firstOf (before ++ reader :: behind) cs).value = some result := by
  induction before with
  | nil => rw [List.nil_append, value_firstOf_cons, h, Option.some_or]
  | cons other before ih =>
    rw [List.cons_append, value_firstOf_cons, hbefore other List.mem_cons_self, Option.none_or]
    exact ih fun other' hother => hbefore other' (List.mem_cons_of_mem other hother)

/-- What the first of some readers gives, one of them gives. -/
theorem exists_of_value_firstOf {readers : List (Reader α)} {cs : List Char}
    {result : α × List Char} (h : (firstOf readers cs).value = some result) :
    ∃ reader ∈ readers, (reader cs).value = some result := by
  induction readers with
  | nil => cases h
  | cons reader others ih =>
    rw [value_firstOf_cons, Option.or_eq_some_iff] at h
    rcases h with h | ⟨-, h⟩
    · exact ⟨reader, List.mem_cons_self, h⟩
    · obtain ⟨other, hother, hread⟩ := ih h
      exact ⟨other, List.mem_cons_of_mem reader hother, hread⟩

/-- Where one of some readers reads something, the first of them does. -/
theorem value_firstOf_ne_none {readers : List (Reader α)} {reader : Reader α} {cs : List Char}
    (hmem : reader ∈ readers) (h : (reader cs).value ≠ none) :
    (firstOf readers cs).value ≠ none := by
  induction readers with
  | nil => cases hmem
  | cons other others ih =>
    rw [value_firstOf_cons, Ne, Option.or_eq_none_iff]
    rintro ⟨hother, hothers⟩
    rcases List.mem_cons.1 hmem with rfl | hmem
    · exact h hother
    · exact ih hmem hothers

/-- An optional reader takes nothing where it fails. -/
theorem value_optional (reader : Reader α) (cs : List Char) :
    (optional reader cs).value
      = some (match (reader cs).value with
        | some (a, rest) => (some a, rest)
        | none => (none, cs)) := by
  unfold optional
  rcases reader cs with ⟨_ | ⟨a, rest⟩, stuck⟩ <;> rfl

/-! ## Single characters and words -/

theorem value_takeWhile (p : Char → Bool) (cs : List Char) :
    (takeWhile p cs).value = some (cs.takeWhile p, cs.dropWhile p) := rfl

theorem value_spaces (cs : List Char) : (spaces cs).value = some ((), cs.dropWhile isSpace) := rfl

theorem value_one_of_pos {p : Char → Bool} {c : Char} (h : p c = true) (cs : List Char) :
    (one p (c :: cs)).value = some (c, cs) := by
  rw [one, if_pos h]

theorem value_one_of_neg {p : Char → Bool} {c : Char} (h : p c = false) (cs : List Char) :
    (one p (c :: cs)).value = none := by
  rw [one, h]
  rfl

/-- A fixed word is read where the text starts with it. -/
theorem value_word (expected cs : List Char) :
    (word expected cs).value
      = if expected.isPrefixOf cs then some ((), cs.drop expected.length) else none := by
  unfold word
  split <;> rfl

theorem value_word_append (expected cs : List Char) :
    (word expected (expected ++ cs)).value = some ((), cs) := by
  have hahead : expected.isPrefixOf (expected ++ cs) = true :=
    List.isPrefixOf_iff_prefix.2 (List.prefix_append expected cs)
  rw [value_word, if_pos hahead, List.drop_left]

theorem value_word_head (c : Char) (cs : List Char) :
    (word [c] (c :: cs)).value = some ((), cs) :=
  value_word_append [c] cs

theorem value_word_of_ne {c c' : Char} (h : c ≠ c') (expected cs : List Char) :
    (word (c :: expected) (c' :: cs)).value = none := by
  have hahead : (c :: expected).isPrefixOf (c' :: cs) = false := by
    rw [List.isPrefixOf, beq_false_of_ne h, Bool.false_and]
  rw [value_word, hahead]
  rfl

theorem value_word_nil (c : Char) (expected : List Char) :
    (word (c :: expected) []).value = none := rfl

theorem value_notAhead (unwanted cs : List Char) :
    (notAhead unwanted cs).value = if unwanted.isPrefixOf cs then none else some ((), cs) := by
  unfold notAhead
  split <;> rfl

/-- The end of a text is where nothing is left. -/
theorem value_endOfText_eq_some_iff {cs rest : List Char} {u : Unit} :
    (endOfText cs).value = some (u, rest) ↔ cs = [] ∧ rest = [] := by
  cases cs with
  | nil => simp [endOfText, eq_comm]
  | cons c cs => simp [endOfText]

/-! ## What has been read

A value says what stood in front of the text that is left. -/

/-- A fixed character is read off a text that starts with it. -/
theorem value_word_singleton_iff {c : Char} {cs rest : List Char} {u : Unit} :
    (word [c] cs).value = some (u, rest) ↔ cs = c :: rest := by
  constructor
  · intro h
    cases cs with
    | nil => cases h
    | cons c' cs =>
      by_cases hc : c = c'
      · subst hc
        rw [value_word_head] at h
        cases h
        rfl
      · rw [value_word_of_ne hc] at h
        cases h
  · rintro rfl
    exact value_word_head c rest

/-- A character of a kind is read off a text that starts with one. -/
theorem value_one_eq_some_iff {p : Char → Bool} {c : Char} {cs rest : List Char} :
    (one p cs).value = some (c, rest) ↔ cs = c :: rest ∧ p c = true := by
  constructor
  · intro h
    cases cs with
    | nil => cases h
    | cons c' cs =>
      cases hc : p c' with
      | true =>
        rw [value_one_of_pos hc] at h
        cases h
        exact ⟨rfl, hc⟩
      | false =>
        rw [value_one_of_neg hc] at h
        cases h
  · rintro ⟨rfl, hc⟩
    exact value_one_of_pos hc rest

/-- A run of a kind is read to its end. -/
theorem value_takeWhile_eq_some_iff {p : Char → Bool} {cs taken rest : List Char} :
    (takeWhile p cs).value = some (taken, rest) ↔
      cs = taken ++ rest ∧ (∀ c ∈ taken, p c = true) ∧ ∀ c ∈ rest.head?, p c = false := by
  rw [value_takeWhile, Option.some.injEq, Prod.mk.injEq]
  constructor
  · rintro ⟨rfl, rfl⟩
    refine ⟨List.takeWhile_append_dropWhile.symm, fun c hc => List.mem_takeWhile_imp hc,
      fun c hc => ?_⟩
    have hhead := List.head?_dropWhile_not p cs
    rw [Option.mem_def.1 hc] at hhead
    simpa using hhead
  · rintro ⟨rfl, htaken, hrest⟩
    rw [List.takeWhile_append_of_pos htaken, List.dropWhile_append_of_pos htaken]
    cases rest with
    | nil => exact ⟨List.append_nil taken, rfl⟩
    | cons c rest =>
      have hc : p c = false := hrest c rfl
      rw [List.takeWhile_cons_of_neg (by simp [hc]), List.dropWhile_cons_of_neg (by simp [hc])]
      exact ⟨List.append_nil taken, rfl⟩

/-- A run of characters up to a mark is read to where the mark first stands. -/
theorem value_takeWhile_of_not_mem {mark : Char} {cs : List Char} (h : mark ∉ cs)
    (rest : List Char) :
    (takeWhile (· != mark) (cs ++ mark :: rest)).value = some (cs, mark :: rest) := by
  obtain ⟨htake, hdrop⟩ := span_of_not_mem h rest
  rw [value_takeWhile, htake, hdrop]

/-- A reader behind spaces starts where they end. -/
theorem value_spaces_bind (reader : Reader α) (cs : List Char) :
    ((do spaces; reader : Reader α) cs).value = (reader (cs.dropWhile isSpace)).value :=
  value_bind_of_some (value_spaces cs) fun _ => reader

/-- One value more is read behind spaces. -/
theorem value_manyUpTo_of_some {reader : Reader α} {cs rest : List Char} {a : α}
    (h : (reader (cs.dropWhile isSpace)).value = some (a, rest)) (limit : Nat) :
    (manyUpTo reader (limit + 1) cs).value
      = (manyUpTo reader limit rest).value.map fun r => (a :: r.1, r.2) := by
  rw [manyUpTo, value_bind, value_optional, value_spaces_bind, h, Option.bind_some]
  show ((manyUpTo reader limit >>= fun more => pure (a :: more)) rest).value = _
  rw [value_bind]
  cases (manyUpTo reader limit rest).value <;> rfl

/-- Where no value comes, the spaces are left too. -/
theorem value_manyUpTo_of_none {reader : Reader α} {cs : List Char}
    (h : (reader (cs.dropWhile isSpace)).value = none) (limit : Nat) :
    (manyUpTo reader limit cs).value = some ([], cs) := by
  cases limit with
  | zero => rfl
  | succ limit =>
    rw [manyUpTo, value_bind, value_optional, value_spaces_bind, h, Option.bind_some]
    rfl

/-- Reading as many values as there are always succeeds. -/
theorem exists_value_manyUpTo (reader : Reader α) (limit : Nat) (cs : List Char) :
    ∃ as rest, (manyUpTo reader limit cs).value = some (as, rest) := by
  induction limit generalizing cs with
  | zero => exact ⟨[], cs, rfl⟩
  | succ limit ih =>
    cases hread : (reader (cs.dropWhile isSpace)).value with
    | none => exact ⟨[], cs, value_manyUpTo_of_none hread _⟩
    | some result =>
      obtain ⟨as, rest, hmore⟩ := ih result.2
      refine ⟨result.1 :: as, rest, ?_⟩
      rw [value_manyUpTo_of_some hread, hmore]
      rfl

/-- Where nothing is read, nothing is taken. -/
theorem eq_of_value_manyUpTo_nil {reader : Reader α} {limit : Nat} {cs rest : List Char}
    (h : (manyUpTo reader limit cs).value = some ([], rest)) : rest = cs := by
  cases hread : (reader (cs.dropWhile isSpace)).value with
  | none =>
    rw [value_manyUpTo_of_none hread] at h
    cases h
    rfl
  | some result =>
    cases limit with
    | zero =>
      cases h
      rfl
    | succ limit =>
      rw [value_manyUpTo_of_some hread] at h
      obtain ⟨_, -, heq⟩ := Option.map_eq_some_iff.1 h
      cases heq

/-- The first of many is read behind the spaces, and the others behind it. -/
theorem exists_of_value_manyUpTo_cons {reader : Reader α} {limit : Nat} {cs rest : List Char}
    {a : α} {as : List α} (h : (manyUpTo reader limit cs).value = some (a :: as, rest)) :
    ∃ fewer mid, (reader (cs.dropWhile isSpace)).value = some (a, mid) ∧
      (manyUpTo reader fewer mid).value = some (as, rest) := by
  cases hread : (reader (cs.dropWhile isSpace)).value with
  | none =>
    rw [value_manyUpTo_of_none hread] at h
    cases h
  | some result =>
    cases limit with
    | zero => cases h
    | succ limit =>
      obtain ⟨a', mid⟩ := result
      rw [value_manyUpTo_of_some hread] at h
      obtain ⟨⟨as', rest'⟩, hmore, heq⟩ := Option.map_eq_some_iff.1 h
      cases heq
      exact ⟨limit, mid, rfl, hmore⟩

/-! ## What readers keep

What is left of a text behind whatever a reader takes off it may have a property that the text
had. -/

/-- A reader leaves texts with the property behind if it is given one. -/
def Keeps (good : List Char → Prop) (reader : Reader α) : Prop :=
  ∀ cs a rest, good cs → (reader cs).value = some (a, rest) → good rest

namespace Keeps

variable {good : List Char → Prop} {reader : Reader α}

theorem pure (a : α) : Keeps good (Pure.pure a) := by
  rintro cs a' rest hcs ⟨⟩
  exact hcs

theorem fail : Keeps good (Reader.fail : Reader α) :=
  nofun

/-- Two readers one after the other keep a property if each of them does. -/
theorem bind {next : α → Reader β} (h : Keeps good reader) (hnext : ∀ a, Keeps good (next a)) :
    Keeps good (reader >>= next) := by
  intro cs b rest hcs hb
  obtain ⟨a, mid, ha, hb⟩ := value_bind_eq_some_iff.1 hb
  exact hnext a mid b rest (h cs a mid hcs ha) hb

/-- The first of some readers keeps a property if all of them do. -/
theorem firstOf {readers : List (Reader α)} (h : ∀ reader ∈ readers, Keeps good reader) :
    Keeps good (Reader.firstOf readers) := by
  intro cs a rest hcs ha
  induction readers with
  | nil => cases ha
  | cons reader others ih =>
    rw [value_firstOf_cons] at ha
    rcases Option.or_eq_some_iff.1 ha with ha | ⟨-, ha⟩
    · exact h reader List.mem_cons_self cs a rest hcs ha
    · exact ih (fun other hother => h other (List.mem_cons_of_mem reader hother)) ha

theorem optional (h : Keeps good reader) : Keeps good (Reader.optional reader) := by
  intro cs a rest hcs ha
  rw [value_optional] at ha
  cases hvalue : (reader cs).value with
  | none =>
    rw [hvalue] at ha
    cases ha
    exact hcs
  | some result =>
    rw [hvalue] at ha
    cases ha
    exact h cs _ _ hcs hvalue

theorem notAhead (unwanted : List Char) : Keeps good (Reader.notAhead unwanted) := by
  intro cs u rest hcs hu
  rw [value_notAhead] at hu
  split at hu
  · cases hu
  · cases hu
    exact hcs

/-- Reading many keeps a property if reading one and skipping spaces do. -/
theorem manyUpTo (h : Keeps good reader) (hspaces : Keeps good spaces) (limit : Nat) :
    Keeps good (Reader.manyUpTo reader limit) := by
  induction limit with
  | zero => exact .pure []
  | succ limit ih =>
    rw [Reader.manyUpTo]
    refine Keeps.bind (.optional (hspaces.bind fun _ => h)) fun result => ?_
    cases result with
    | none => exact .pure _
    | some a => exact ih.bind fun _ => .pure _

end Keeps

/-! ## Readers that agree

Readers that differ in how deep they may go read the same from texts that are short enough. -/

/-- What a reader leaves of a text is no longer. -/
abbrev Shortens (reader : Reader α) : Prop :=
  ∀ n, Keeps (·.length ≤ n) reader

theorem shortens_spaces : Shortens spaces := by
  rintro n cs _ _ hcs ⟨⟩
  exact Nat.le_trans (List.length_dropWhile_le ..) hcs

theorem shortens_word (expected : List Char) : Shortens (word expected) := by
  intro n cs u rest hcs hread
  rw [value_word] at hread
  split at hread
  · cases hread
    exact Nat.le_trans (by simp) hcs
  · cases hread

theorem shortens_one (p : Char → Bool) : Shortens (one p) := by
  intro n cs c rest hcs hread
  obtain ⟨rfl, -⟩ := value_one_eq_some_iff.1 hread
  exact Nat.le_of_succ_le hcs

theorem shortens_takeWhile (p : Char → Bool) : Shortens (takeWhile p) := by
  rintro n cs _ _ hcs ⟨⟩
  exact Nat.le_trans (List.length_dropWhile_le ..) hcs

/-- A reader that takes at least one character. -/
def Consumes (reader : Reader α) : Prop :=
  ∀ cs a rest, (reader cs).value = some (a, rest) → rest.length < cs.length

theorem consumes_one (p : Char → Bool) : Consumes (one p) := by
  intro cs c rest h
  obtain ⟨rfl, -⟩ := value_one_eq_some_iff.1 h
  exact Nat.lt_succ_self _

/-- A fixed word that is not empty consumes. -/
theorem consumes_word (c : Char) (expected : List Char) : Consumes (word (c :: expected)) := by
  intro cs u rest h
  rw [value_word] at h
  split at h
  · next hahead =>
    cases h
    obtain ⟨more, rfl⟩ := List.isPrefixOf_iff_prefix.1 hahead
    rw [List.drop_left, List.length_append, List.length_cons]
    omega
  · cases h

namespace Consumes

variable {reader : Reader α}

theorem shortens (h : Consumes reader) : Shortens reader :=
  fun _ cs a rest hcs ha => Nat.le_of_lt (Nat.lt_of_lt_of_le (h cs a rest ha) hcs)

/-- A reader that consumes may be followed by one that takes nothing. -/
theorem bind {next : α → Reader β} (h : Consumes reader) (hnext : ∀ a, Shortens (next a)) :
    Consumes (reader >>= next) := by
  intro cs b rest hb
  obtain ⟨a, mid, ha, hb⟩ := value_bind_eq_some_iff.1 hb
  exact Nat.lt_of_le_of_lt (hnext a mid.length mid b rest (Nat.le_refl _) hb) (h cs a mid ha)

/-- The first of some readers consumes if all of them do. -/
theorem firstOf {readers : List (Reader α)} (h : ∀ reader ∈ readers, Consumes reader) :
    Consumes (Reader.firstOf readers) := by
  intro cs a rest ha
  obtain ⟨reader, hmem, hread⟩ := exists_of_value_firstOf ha
  exact h reader hmem cs a rest hread

/-- The limit counts for nothing if it is above the length of the text. -/
theorem value_manyUpTo (h : Consumes reader) {limit limit' : Nat} {cs : List Char}
    (hlimit : cs.length < limit) (hlimit' : cs.length < limit') :
    (manyUpTo reader limit cs).value = (manyUpTo reader limit' cs).value := by
  induction limit generalizing limit' cs with
  | zero => cases hlimit
  | succ limit ih =>
    obtain _ | limit' := limit'
    · cases hlimit'
    cases hread : (reader (cs.dropWhile isSpace)).value with
    | none => rw [value_manyUpTo_of_none hread, value_manyUpTo_of_none hread]
    | some result =>
      have hrest : result.2.length < cs.length :=
        Nat.lt_of_lt_of_le (h _ _ _ hread) (List.length_dropWhile_le ..)
      have hmore : (manyUpTo reader limit result.2).value
          = (manyUpTo reader limit' result.2).value :=
        ih (by omega) (by omega)
      rw [value_manyUpTo_of_some hread, value_manyUpTo_of_some hread, hmore]

end Consumes

/-- Two readers that read the same from all texts up to a length. -/
def SameUpTo (n : Nat) (reader reader' : Reader α) : Prop :=
  ∀ cs, cs.length ≤ n → (reader cs).value = (reader' cs).value

namespace SameUpTo

variable {n : Nat} {reader reader' : Reader α}

theorem refl (reader : Reader α) : SameUpTo n reader reader :=
  fun _ _ => rfl

/-- Readers one after the other read alike if each of them does. -/
theorem bind {next next' : α → Reader β} (h : SameUpTo n reader reader') (hreader : Shortens reader)
    (hnext : ∀ a, SameUpTo n (next a) (next' a)) :
    SameUpTo n (reader >>= next) (reader' >>= next') := by
  intro cs hcs
  rw [value_bind, value_bind, ← h cs hcs]
  cases hread : (reader cs).value with
  | none => rfl
  | some result => exact hnext _ _ (hreader n cs _ _ hcs hread)

/-- Behind something that has been read they have to agree on shorter texts only. -/
theorem behind {next next' : α → Reader β}
    (hreader : Consumes reader)
    (hnext : ∀ a, ∀ m < n, SameUpTo m (next a) (next' a)) :
    SameUpTo n (reader >>= next) (reader >>= next') := by
  intro cs hcs
  rw [value_bind, value_bind]
  cases hread : (reader cs).value with
  | none => rfl
  | some result =>
    exact hnext _ _ (Nat.lt_of_lt_of_le (hreader cs _ _ hread) hcs) _ (Nat.le_refl _)

/-- The first of some readers reads alike if all of them do. -/
theorem firstOf {readers readers' : List (Reader α)}
    (h : List.Forall₂ (SameUpTo n) readers readers') :
    SameUpTo n (Reader.firstOf readers) (Reader.firstOf readers') := by
  induction h with
  | nil => exact refl _
  | cons h _ ih =>
    intro cs hcs
    rw [value_firstOf_cons, value_firstOf_cons, h cs hcs, ih cs hcs]

theorem optional (h : SameUpTo n reader reader') :
    SameUpTo n (Reader.optional reader) (Reader.optional reader') := by
  intro cs hcs
  rw [value_optional, value_optional, h cs hcs]

/-- Reading many is alike if reading one is. -/
theorem manyUpTo (h : SameUpTo n reader reader') (hreader : Shortens reader) (limit : Nat) :
    SameUpTo n (Reader.manyUpTo reader limit) (Reader.manyUpTo reader' limit) := by
  induction limit with
  | zero => exact refl _
  | succ limit ih =>
    have hfirst : SameUpTo n (Reader.optional (do spaces; reader))
        (Reader.optional (do spaces; reader')) :=
      ((refl spaces).bind shortens_spaces fun _ => h).optional
    have hshort : Shortens (Reader.optional (do spaces; reader)) :=
      fun m => .optional ((shortens_spaces m).bind fun _ => hreader m)
    rw [Reader.manyUpTo, Reader.manyUpTo]
    refine hfirst.bind hshort fun result => ?_
    cases result with
    | none => exact refl _
    | some a =>
      exact ih.bind (fun m => (hreader m).manyUpTo (shortens_spaces m) limit) fun _ => refl _

theorem many (h : SameUpTo n reader reader') (hreader : Shortens reader) :
    SameUpTo n (Reader.many reader) (Reader.many reader') :=
  fun cs hcs => h.manyUpTo hreader (cs.length + 1) cs hcs

end SameUpTo

/-! ## Whole texts -/

/-- A text is read if the reader takes everything off it. -/
theorem run_eq_ok {reader : Reader α} {text rest : List Char} {a : α}
    (h : (reader (text.dropWhile isSpace)).value = some (a, rest))
    (hrest : rest.dropWhile isSpace = []) : reader.run text = .ok a := by
  have hvalue : ((do spaces; let a ← reader; spaces; endOfText; return a : Reader α) text).value
      = some (a, []) := by
    rw [value_bind_of_some (value_spaces text), value_bind_of_some h,
      value_bind_of_some (value_spaces rest), hrest]
    rfl
  unfold run
  split
  · next hread =>
    rw [hread] at hvalue
    cases hvalue
    rfl
  · next hread =>
    rw [hread] at hvalue
    cases hvalue

/-- Of a text that is read, the reader takes everything. -/
theorem exists_of_run_eq_ok {reader : Reader α} {text : List Char} {a : α}
    (h : reader.run text = .ok a) :
    ∃ rest, (reader (text.dropWhile isSpace)).value = some (a, rest) ∧
    rest.dropWhile isSpace = [] := by
  unfold run at h
  split at h
  · next a' rest stuck hread =>
    cases h
    have hvalue := congrArg Reading.value hread
    rw [value_bind_of_some (value_spaces text)] at hvalue
    obtain ⟨a', mid, ha, hvalue⟩ := value_bind_eq_some_iff.1 hvalue
    rw [value_bind_of_some (value_spaces mid)] at hvalue
    obtain ⟨u, behind, hend, hvalue⟩ := value_bind_eq_some_iff.1 hvalue
    cases hvalue
    exact ⟨mid, ha, (value_endOfText_eq_some_iff.1 hend).1⟩
  · cases h

/-- A text is not read if something is kept that the end of the text is not. -/
theorem exists_run_error {good : List Char → Prop} {reader : Reader α} (h : Keeps good reader)
    (hspaces : Keeps good spaces) {text : List Char} (htext : good text) (hend : ¬ good []) :
    ∃ p, reader.run text = .error p := by
  have hvalue : ((do spaces; let a ← reader; spaces; endOfText; return a : Reader α) text).value
      = none := by
    rw [Option.eq_none_iff_forall_ne_some]
    rintro ⟨a, rest⟩ hread
    obtain ⟨u, cs₁, hu, hread⟩ := value_bind_eq_some_iff.1 hread
    obtain ⟨a', cs₂, ha, hread⟩ := value_bind_eq_some_iff.1 hread
    obtain ⟨u', cs₃, hu', hread⟩ := value_bind_eq_some_iff.1 hread
    obtain ⟨u'', cs₄, hdone, -⟩ := value_bind_eq_some_iff.1 hread
    -- the property is kept up to the place where the text has to end
    have hgood := hspaces cs₂ u' cs₃ (h cs₁ a' cs₂ (hspaces text u cs₁ htext hu) ha) hu'
    rw [(value_endOfText_eq_some_iff.1 hdone).1] at hgood
    exact hend hgood
  unfold run
  split
  · next hread =>
    rw [hread] at hvalue
    cases hvalue
  · exact ⟨_, rfl⟩

end Interpolants.Text.Reader
