import Mathlib.Data.List.Induction
import Mathlib.Data.List.TakeWhile

/-!
# Interpolants — lists

Facts about lists of any elements: what a list keeps when repeated elements are dropped, where the
elements of joined lists stand, and lists that are cut in two behind a piece.
-/

namespace Interpolants

section

variable {α : Type}

/-- What holds of all elements of a list is decided by looking at these, and not at all elements
that there are. -/
theorem forall_mem_of_all {p : α → Prop} [DecidablePred p] {as : List α}
    (h : as.all (fun a => decide (p a)) = true) : ∀ a ∈ as, p a :=
  fun a ha => of_decide_eq_true (List.all_eq_true.1 h a ha)

/-! ## Lists without repetition -/

/-- No element is left twice. -/
theorem nodup_eraseDups [BEq α] [LawfulBEq α] (as : List α) : as.eraseDups.Nodup := by
  induction as using List.reverseRecOn with
  | nil => exact List.nodup_nil
  | append_singleton as a ih =>
    rw [List.eraseDups_append]
    refine List.nodup_append.2 ⟨ih, ?_, ?_⟩
    · by_cases ha : a ∈ as <;> simp [List.removeAll, ha, List.eraseDups_cons]
    · intro b hb c hc
      have hlater : c ∉ as := by simpa using (List.mem_filter.1 (List.mem_eraseDups.1 hc)).2
      rintro rfl
      exact hlater (List.mem_eraseDups.1 hb)

/-- The first of each element is kept, so that a search finds the same. -/
theorem find?_eraseDups [BEq α] [LawfulBEq α] (p : α → Bool) (as : List α) :
    as.eraseDups.find? p = as.find? p := by
  induction as using List.reverseRecOn with
  | nil => rfl
  | append_singleton as a ih =>
    rw [List.eraseDups_append, List.find?_append, List.find?_append, ih]
    by_cases ha : a ∈ as
    · -- what is repeated is found before
      simp only [List.removeAll, List.filter_cons, List.elem_eq_mem, ha, decide_true, Bool.not_true]
      cases hp : p a with
      | true =>
        obtain ⟨b, hb⟩ := Option.isSome_iff_exists.1 (List.find?_isSome.2 ⟨a, ha, hp⟩)
        simp [hb]
      | false => simp [hp]
    · simp [List.removeAll, ha, List.eraseDups_cons]

/-! ## Joined lists -/

/-- Where an element of joined lists stands: in one of them, with those before joined in front of
it. -/
theorem exists_of_getElem?_flatMap_range {f : Nat → List α} {n k : Nat} {a : α}
    (h : ((List.range n).flatMap f)[k]? = some a) :
    ∃ m earlier later, f m = earlier ++ a :: later ∧
      ((List.range n).flatMap f).take k = (List.range m).flatMap f ++ earlier := by
  induction n with
  | zero => simp at h
  | succ n ih =>
    rw [List.range_succ, List.flatMap_append, List.flatMap_singleton] at h ⊢
    by_cases hk : k < ((List.range n).flatMap f).length
    · rw [List.getElem?_append_left hk] at h
      obtain ⟨m, earlier, later, hblock, htake⟩ := ih h
      refine ⟨m, earlier, later, hblock, ?_⟩
      exact (List.take_append_of_le_length (Nat.le_of_lt hk)).trans htake
    · -- it is in the last of the pieces
      have hle := Nat.le_of_not_lt hk
      rw [List.getElem?_append_right hle] at h
      obtain ⟨hlt, ha⟩ := List.getElem?_eq_some_iff.1 h
      refine ⟨n, (f n).take (k - ((List.range n).flatMap f).length),
        (f n).drop (k - ((List.range n).flatMap f).length + 1), ?_, ?_⟩
      · rw [← ha, ← List.drop_eq_getElem_cons hlt, List.take_append_drop]
      · rw [List.take_append, List.take_of_length_le hle]

/-! ## Lists that are cut in two -/

/-- A list is cut at the first mark in it: in front of the mark there is none. -/
theorem span_of_not_mem [BEq α] [LawfulBEq α] {mark : α} {as : List α} (h : mark ∉ as)
    (rest : List α) :
    (as ++ mark :: rest).takeWhile (· != mark) = as ∧
      (as ++ mark :: rest).dropWhile (· != mark) = mark :: rest := by
  have has : ∀ a ∈ as, (a != mark) = true := by
    intro a ha
    rw [bne_iff_ne]
    rintro rfl
    exact h ha
  rw [List.takeWhile_append_of_pos has, List.dropWhile_append_of_pos has]
  simp

/-- A list that is cut behind two pieces has both of them before the cut. -/
theorem map_before_map_before (before piece : List α) (split : Option (List α × List α)) :
    (split.map fun s => (piece ++ s.1, s.2)).map (fun s => (before ++ s.1, s.2))
      = split.map fun s => (before ++ piece ++ s.1, s.2) := by
  cases split with
  | none => rfl
  | some s => rw [Option.map_some, Option.map_some, Option.map_some, List.append_assoc]

/-- A list that is cut somewhere behind a piece starts with it. -/
theorem exists_of_map_before (piece : List α) {as rest : List α} {split : Option (List α × List α)}
    (h : split.map (fun s => (piece ++ s.1, s.2)) = some (as, rest)) :
    ∃ front, as = piece ++ front ∧ split = some (front, rest) := by
  obtain ⟨⟨front, _⟩, hsplit, heq⟩ := Option.map_eq_some_iff.1 h
  cases heq
  exact ⟨front, rfl, hsplit⟩

end

end Interpolants
