import Interpolants.Proofs.Layout.Printed
import Interpolants.Sexp.Parser

/-!
# Interpolants — decoding follows lexical scoping

The two passes of decoding, the text they cut and the table they share are not seen in the result: a
printed term is decoded to the formula that a structural recursion over the term gives it, with an
environment for the names in scope.
-/

namespace Interpolants

open Text Sexp

/-! ## Symbols that can be printed

A bare symbol of the grammar is printed as it stands, and one with a special character between
pipes. Neither can be taken for a numeral or for a placeholder. -/

/-- Whether the grammar of s-expressions reads a symbol without quotes. -/
def isSimple (name : String) : Bool :=
  match name.toList with
  | [] => false
  | c :: cs => isSymbolStart c && cs.all isSymbolChar

/-- Whether a symbol is quoted by pipes when it is printed, and holds none. -/
def isQuotable (name : String) : Bool :=
  name.toList.any Atom.isSpecial && !name.toList.contains '|'

/-- A symbol that comes through printing: simple or quoted, and without the start of a let block. -/
def Printable (name : String) : Prop :=
  (isSimple name || isQuotable name) = true ∧ ¬ Marked name.toList

instance : DecidablePred Printable :=
  fun name => inferInstanceAs (Decidable (_ ∧ ¬ Marked name.toList))

/-- No bare symbol starts like a numeral or like a placeholder. -/
theorem of_isSymbolStart {c : Char} (h : isSymbolStart c = true) : c.isDigit = false ∧ c ≠ '#' := by
  rw [isSymbolStart, Bool.or_eq_true] at h
  rcases h with halpha | hmark
  · refine ⟨isDigit_of_isAlpha halpha, ?_⟩
    rintro rfl
    exact absurd halpha (by decide)
  · have hmarks : ∀ c ∈ "_'<>:=$@+-*/.~!?%^&".toList, c.isDigit = false ∧ c ≠ '#' :=
      forall_mem_of_all (by decide)
    exact hmarks c (by simpa using hmark)

/-- The characters of bare symbols are neither blanks nor pipes. -/
theorem of_isSymbolChar {c : Char} (h : isSymbolChar c = true) : isBlank c = false ∧ c ≠ '|' := by
  rw [isSymbolChar, isSymbolStart, Bool.or_eq_true, Bool.or_eq_true, Bool.or_eq_true,
    beq_iff_eq] at h
  rcases h with ((halpha | hmark) | hdigit) | rfl
  · refine ⟨isBlank_of_isAlpha halpha, ?_⟩
    rintro rfl
    exact absurd halpha (by decide)
  · have hmarks : ∀ c ∈ "_'<>:=$@+-*/.~!?%^&".toList, isBlank c = false ∧ c ≠ '|' :=
      forall_mem_of_all (by decide)
    exact hmarks c (by simpa using hmark)
  · refine ⟨(ne_of_not_isDelimiter (isDelimiter_of_isDigit hdigit)).1, ?_⟩
    rintro rfl
    exact absurd hdigit (by decide)
  · decide

/-- A simple name has a first character, and its characters are those of symbols. -/
theorem exists_cons_of_isSimple {name : String} (h : isSimple name = true) :
    ∃ c cs, name.toList = c :: cs ∧ isSymbolStart c = true ∧
      ∀ c' ∈ name.toList, isSymbolChar c' = true := by
  unfold isSimple at h
  split at h
  · cases h
  · next c cs heq =>
    rw [Bool.and_eq_true, List.all_eq_true] at h
    refine ⟨c, cs, heq, h.1, fun c' hc' => ?_⟩
    rw [heq] at hc'
    rcases List.mem_cons.1 hc' with rfl | hc'
    · rw [isSymbolChar, h.1]
      rfl
    · exact h.2 c' hc'

/-- A quotable name has a character that needs quotes, and no pipe. -/
theorem exists_of_isQuotable {name : String} (h : isQuotable name = true) :
    (∃ c ∈ name.toList, Atom.isSpecial c = true) ∧ '|' ∉ name.toList := by
  simpa [isQuotable] using h

/-- A simple name is legible unless it looks like a let block. -/
theorem legible_of_isSimple {name : String} (h : isSimple name = true)
    (hmark : ¬ Marked name.toList) : Legible name := by
  obtain ⟨c, cs, heq, hc, hcs⟩ := exists_cons_of_isSimple h
  refine ⟨?_, ?_, fun hpipe => (of_isSymbolChar (hcs _ hpipe)).2 rfl, ?_, hmark⟩
  · rintro rfl
    cases heq
  · rw [heq, Decimal.isNumeral, List.all_cons, (of_isSymbolStart hc).1]
    rfl
  · rintro ⟨c', hc', hblank⟩
    rw [(of_isSymbolChar (hcs c' hc')).1] at hblank
    cases hblank

/-- So is a quotable one. -/
theorem legible_of_isQuotable {name : String} (h : isQuotable name = true)
    (hmark : ¬ Marked name.toList) : Legible name := by
  obtain ⟨⟨c, hc, hspecial⟩, hpipe⟩ := exists_of_isQuotable h
  refine ⟨?_, ?_, hpipe, fun _ => ⟨c, hc, hspecial⟩, hmark⟩
  · rintro rfl
    cases hc
  · rw [Decimal.isNumeral, List.all_eq_false]
    refine ⟨c, hc, ?_⟩
    simp only [Atom.isSpecial, Bool.or_eq_true, beq_iff_eq] at hspecial
    rcases hspecial with (((rfl | rfl) | rfl) | rfl) | rfl <;> decide

/-- What can be printed is read back and stands for no let block. -/
theorem Printable.plain {name : String} (h : Printable name) : Decode.Plain name := by
  obtain ⟨hname, hmark⟩ := h
  rw [Bool.or_eq_true] at hname
  -- a bare symbol has no number sign in front, and a placeholder has nothing that asks for quotes
  rcases hname with hsimple | hquotable
  · refine ⟨legible_of_isSimple hsimple hmark, fun hname => ?_⟩
    obtain ⟨c, cs, heq, hc, -⟩ := exists_cons_of_isSimple hsimple
    obtain ⟨n, rfl⟩ := hname
    rw [String.toList_ofList] at heq
    cases heq
    exact (of_isSymbolStart hc).2 rfl
  · refine ⟨legible_of_isQuotable hquotable hmark, fun hname => ?_⟩
    obtain ⟨⟨c, hc, hspecial⟩, -⟩ := exists_of_isQuotable hquotable
    rw [Decode.isSpecial_of_isPlaceholder hname hc] at hspecial
    cases hspecial

/-! ## Decoding -/

variable {declared : Registry} {t : Sexp}

/-- Decoding a text in a session of its own starts without let blocks and without bound names. -/
theorem decode_render (declared : Registry) (t : Sexp) :
    decode declared t.render = (outcome (Decode.inScope declared [] t.chars) []).1 := by
  show (outcome (Decode.inScope declared [] (String.ofList t.chars).toList) []).1 = _
  rw [String.toList_ofList]

/-- A printed term without let blocks is decoded to the formula that it stands for, also if its
symbols look like placeholders: none are in use. -/
theorem toOption_decode_of_letFree (h : t.Spelled Legible) (hfree : t.LetFree) :
    (decode declared t.render).toOption = t.formula? declared [] :=
  toOption_run_of_names h Decode.numbered_nil (by simp [lets_tree h hfree])

/-- A printed term is decoded to the formula that it stands for. -/
theorem toOption_decode (h : t.Spelled Decode.Plain) :
    (decode declared t.render).toOption = t.formula? declared [] :=
  toOption_run h Decode.numbered_nil

/-- **Decoding follows lexical scoping.** The text of a term is decoded exactly if the term stands
for a formula in the scope of the declared variables, and then to that formula. -/
theorem decode_eq_ok_iff (declared : Registry) {t : Sexp} (h : t.Spelled Printable) (e : Expr) :
    decode declared t.render = .ok e ↔ t.formula? declared [] = some e := by
  rw [← toOption_decode (h.mono fun _ hs => hs.plain), toOption_eq_some_iff]

/-- A let block inside a bound term and two side by side. One name hides a declared variable. -/
theorem decode_nested :
    let declared := (Registry.empty.insert ⟨"x", .integer⟩).insert ⟨"a b", .integer⟩
    let t := Sexp.app "and" [
      .app "let" [
        .list [.list [.symbol "y", .app "let" [
          .list [.list [.symbol "x", .numeral 1]], .app "+" [.symbol "x", .numeral 2]]]],
        .app "<" [.symbol "x", .symbol "y"]],
      .app "let" [
        .list [.list [.symbol "x", .app "-" [leastNumeral]]],
        .app ">" [.symbol "x", .symbol "a b"]]]
    let e := Expr.conj [
      .compare .lt (.var ⟨"x", .integer⟩) (.arith .plus (.integer 1) (.integer 2)),
      .compare .gt (.integer Int64.minValue) (.var ⟨"a b", .integer⟩)]
    t.Spelled Printable ∧ t.formula? declared [] = some e ∧ decode declared t.render = .ok e := by
  intro declared t e
  have hspelled : t.Spelled Printable := by decide +kernel
  have hformula : t.formula? declared [] = some e := by decide +kernel
  exact ⟨hspelled, hformula, (decode_eq_ok_iff declared hspelled e).2 hformula⟩

end Interpolants
