import Interpolants.Proofs.Decoding.Lexical
import Interpolants.Proofs.Decoding.Table
import Interpolants.Proofs.Decoding.Written

/-!
# Interpolants — names and placeholders

Placeholders are symbols among the others. As long as the names of a term and of its scope are no
placeholders, the two never meet: the table hides no name, and no name hides the table.
-/

namespace Interpolants

open Text

namespace Decode

/-- A symbol that is legible and stands for no let block. -/
def Plain (name : String) : Prop :=
  Legible name ∧ ¬ IsPlaceholder name

/-- Bindings of names that stand for no let block. -/
def Clean (scope : Bindings) : Prop :=
  ∀ entry ∈ scope, ¬ IsPlaceholder entry.1

section

variable {declared : Registry} {scope blocks : Bindings} {name : String} {e : Expr}

theorem clean_nil : Clean [] := by
  intro entry hentry
  cases hentry

/-- A scope without placeholders does not know any. -/
theorem Clean.lookup_eq_none (h : Clean scope) (hname : IsPlaceholder name) :
    scope.lookup name = none := by
  rw [List.lookup_eq_none_iff]
  intro entry hentry
  rw [bne_iff_ne]
  rintro rfl
  exact h entry hentry hname

/-- The table hides no name of a term. -/
theorem find?_of_not_isPlaceholder (hblocks : Numbered blocks) (hname : ¬ IsPlaceholder name) :
    Names.find? ⟨scope, blocks, declared⟩ name = declared.environment.extend scope name := by
  simp only [Names.find?, hblocks.lookup_eq_none hname, Env.extend]
  cases scope.lookup name <;> rfl

/-- No name of a term hides the table. -/
theorem find?_of_isPlaceholder (hscope : Clean scope) (hname : IsPlaceholder name)
    (he : blocks.lookup name = some e) :
    Names.find? ⟨scope, blocks, declared⟩ name = some e := by
  simp only [Names.find?, hscope.lookup_eq_none hname, he]

/-- A placeholder has a number sign. -/
theorem hash_mem_of_isPlaceholder (h : IsPlaceholder name) : '#' ∈ name.toList := by
  obtain ⟨n, rfl⟩ := h
  rw [String.toList_ofList]
  simp

/-- So it is none of the words without one. -/
theorem ne_of_isPlaceholder (h : IsPlaceholder name) {word : String} (hword : '#' ∉ word.toList) :
    name ≠ word := by
  rintro rfl
  exact hword (hash_mem_of_isPlaceholder h)

/-- A placeholder is made of its mark and digits. -/
theorem mem_of_isPlaceholder (h : IsPlaceholder name) {c : Char} (hc : c ∈ name.toList) :
    c ∈ "#let".toList ∨ c.isDigit = true := by
  obtain ⟨n, rfl⟩ := h
  rw [String.toList_ofList, List.mem_append] at hc
  exact hc.imp_right fun hdigit => List.all_eq_true.1 (Decimal.isNumeral_digits n) c hdigit

/-- No character of a placeholder ends a token. -/
theorem isDelimiter_of_isPlaceholder (h : IsPlaceholder name) {c : Char} (hc : c ∈ name.toList) :
    isDelimiter c = false := by
  rcases mem_of_isPlaceholder h hc with hc | hdigit
  · have hword : ∀ c ∈ "#let".toList, isDelimiter c = false :=
      forall_mem_of_all (by decide)
    exact hword c hc
  · exact isDelimiter_of_isDigit hdigit

/-- **A placeholder is legible**, as names are. -/
theorem legible_of_isPlaceholder (h : IsPlaceholder name) : Legible name where
  nonempty := ne_of_isPlaceholder h (by decide)
  notNumeral := by
    rw [Decimal.isNumeral, List.all_eq_false]
    exact ⟨'#', hash_mem_of_isPlaceholder h, by decide⟩
  unpiped := by
    intro hc
    rcases mem_of_isPlaceholder h hc with hc | hdigit
    · exact absurd hc (by decide)
    · exact absurd hdigit (by decide)
  quoted := by
    rintro ⟨c, hc, hblank⟩
    have hdelim := isDelimiter_of_isPlaceholder h hc
    rw [isDelimiter, hblank] at hdelim
    cases hdelim
  unmarked := by
    rintro ⟨before, c, after, heq, -⟩
    have hdelim := isDelimiter_of_isPlaceholder h (c := '(') (by rw [heq]; simp)
    cases hdelim

/-- No character of a placeholder needs quotes. -/
theorem isSpecial_of_isPlaceholder (h : IsPlaceholder name) {c : Char} (hc : c ∈ name.toList) :
    Atom.isSpecial c = false := by
  rw [Bool.eq_false_iff]
  intro hspecial
  simp only [Atom.isSpecial, Bool.or_eq_true, beq_iff_eq] at hspecial
  rcases mem_of_isPlaceholder h hc with hc | hdigit
  · rcases hspecial with (((rfl | rfl) | rfl) | rfl) | rfl <;> exact absurd hc (by decide)
  · rcases hspecial with (((rfl | rfl) | rfl) | rfl) | rfl <;> exact absurd hdigit (by decide)

/-- The name of an entry is no placeholder. -/
theorem not_isPlaceholder_name {a : Atom} (h : (Sexp.atom a).Spelled Plain) :
    ¬ IsPlaceholder a.name := by
  cases h with
  | symbol hs => exact hs.2
  | numeral n =>
    intro hname
    have hhash := hash_mem_of_isPlaceholder hname
    rw [Atom.name, String.toList_ofList] at hhash
    exact absurd (List.all_eq_true.1 (Decimal.isNumeral_digits n.toNat) _ hhash) (by decide)

end

end Decode

end Interpolants
