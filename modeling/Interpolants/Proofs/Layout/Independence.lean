import Interpolants.Proofs.Layout.Splicing

/-!
# Interpolants — independence of the layout

Two clear texts of the same trees are decoded alike, or both are refused. The texts may differ in
all blanks but the ones that set let blocks apart. These cannot be left out: the placeholder of a
block is put into the text as it stands, and makes one token with a neighbour that has no blank in
between (`decode_unparted_let`).
-/

namespace Interpolants

open TokenTree

/-- **Decoding does not depend on the layout** of a clear text. -/
theorem decode_of_layout (declared : Registry) {ts : List TokenTree} {text text' : String}
    (h : Laid .clear ts text.toList) (h' : Laid .clear ts text'.toList) :
    (decode declared text).toOption = (decode declared text').toOption := by
  rw [toOption_decode_laid h, toOption_decode_laid h']

/-- A let block with and without blanks beside its parentheses. -/
theorem decode_of_layout_let :
    let declared := (Registry.empty.insert ⟨"p", .bool⟩).insert ⟨"q", .bool⟩
    let ts := [node [leaf "and".toList, leaf "p".toList, node [leaf "let".toList,
      node [node [leaf "a".toList, leaf "q".toList]], node [leaf "not".toList, leaf "a".toList]]]]
    let text := "(and p (let ((a q)) (not a)))"
    let text' := "( and\tp (let((a q)\n)(not a ) ))"
    Laid .clear ts text.toList ∧ Laid .clear ts text'.toList ∧
      (decode declared text').toOption
        = some (.logic .and (.var ⟨"p", .bool⟩) (.negation (.var ⟨"q", .bool⟩))) ∧
      (decode declared text).toOption = (decode declared text').toOption := by
  intro declared ts text text'
  have h : Laid .clear ts text.toList := laid_of_check (by decide +kernel)
  have h' : Laid .clear ts text'.toList := laid_of_check (by decide +kernel)
  exact ⟨h, h', by decide +kernel, decode_of_layout declared h h'⟩

/-- Without a blank before it, a let block and the name in front of it become one token. -/
theorem decode_unparted_let :
    let declared := (Registry.empty.insert ⟨"p", .bool⟩).insert ⟨"q", .bool⟩
    let ts := [node [leaf "and".toList, leaf "p".toList, node [leaf "let".toList,
      node [node [leaf "a".toList, leaf "q".toList]], leaf "a".toList]]]
    let text := "(and p (let ((a q)) a))"
    let text' := "(and p(let ((a q))a))"
    Laid .standard ts text.toList ∧ Laid .standard ts text'.toList ∧
      (decode declared text).toOption
        = some (.logic .and (.var ⟨"p", .bool⟩) (.var ⟨"q", .bool⟩)) ∧
      (decode declared text').toOption = none ∧
      (decode declared text).toOption ≠ (decode declared text').toOption := by
  intro declared ts text text'
  have hdecoded : (decode declared text).toOption
      = some (.logic .and (.var ⟨"p", .bool⟩) (.var ⟨"q", .bool⟩)) := by decide +kernel
  have hrefused : (decode declared text').toOption = none := by decide +kernel
  refine ⟨laid_of_check (by decide +kernel), laid_of_check (by decide +kernel), hdecoded,
    hrefused, ?_⟩
  rw [hdecoded, hrefused]
  nofun

end Interpolants
