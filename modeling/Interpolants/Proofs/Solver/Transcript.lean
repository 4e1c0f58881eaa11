import Interpolants.Proofs.Sexp.Reprint
import Interpolants.Solver.Transcript

/-!
# Interpolants — transcripts are read back

The file of a transcript has a line for each entry: a command as it is printed, a comment behind `;;
`, and an empty line for an empty comment. Reading the file gives the comments back with one
semicolon in front of them, and each command as an s-expression of the same printed form. It need
not be the same s-expression, since a symbol of digits is read as a numeral (`exists_reparsable`).
-/

namespace Interpolants

open Text Text.Reader

namespace Sexp

/-! ## Commands with the same printed form -/

/-- A symbol whose printed form is read as an atom of this printed form: one that is read bare, one
that is quoted and has no pipe, or one of digits that are read as a numeral. -/
def Reread (name : String) : Prop :=
  isSimple name = true ∨ isQuotable name = true ∨ ∃ n : UInt64, name.toList = Decimal.digits n.toNat

/-- Whether a name consists of the digits of a number can be computed. -/
theorem exists_digits_iff (name : String) :
    ((Word.unsigned? (Decimal.value name.toList)).any fun n => name.toList
      == Decimal.digits n.toNat) = true
      ↔ ∃ n : UInt64, name.toList = Decimal.digits n.toNat := by
  rw [Option.any_eq_true]
  constructor
  · rintro ⟨n, -, hn⟩
    exact ⟨n, eq_of_beq hn⟩
  · rintro ⟨n, hn⟩
    refine ⟨n, ?_, beq_iff_eq.2 hn⟩
    rw [hn, Decimal.value_digits]
    exact Word.unsigned?_eq_some_iff.2 rfl

instance : DecidablePred Reread := fun name =>
  decidable_of_iff ((isSimple name || isQuotable name ||
    (Word.unsigned? (Decimal.value name.toList)).any fun n =>
      name.toList == Decimal.digits n.toNat) = true)
    (by rw [Bool.or_eq_true, Bool.or_eq_true, exists_digits_iff, or_assoc, Reread])

/-- A command without comments in it whose symbols keep their printed forms. -/
structure Replayable (t : Sexp) : Prop where
  is_list : ∃ items, t = .list items
  composed : t.Composed Reread fun _ => False

instance : DecidablePred Replayable
  | .list _ => decidable_of_iff _ ⟨fun h => ⟨⟨_, rfl⟩, h⟩, Replayable.composed⟩
  | .atom _ => isFalse fun h => by obtain ⟨⟨_, heq⟩, -⟩ := h; cases heq
  | .comment _ => isFalse fun h => by obtain ⟨⟨_, heq⟩, -⟩ := h; cases heq

/-- Whether an s-expression is a comment. -/
def isComment : Sexp → Bool
  | .comment _ => true
  | _ => false

variable {t : Sexp} {items : List Sexp}

/-- An s-expression without comments is none. -/
theorem ne_comment_of_composed {p : String → Prop} (h : t.Composed p fun _ => False)
    (text : String) :
    t ≠ .comment text := by
  rintro rfl
  cases h with
  | comment h => exact h

/-- Elements that can be replaced one by one can be replaced in their list. -/
theorem exists_items_reparsable (h : ∀ t ∈ items, (∀ text, t ≠ .comment text) ∧
      ∃ t' : Sexp, t'.Reparsable ∧ t'.chars = t.chars) :
    ∃ items' : List Sexp, (∀ t ∈ items', t.Composed Survives OneLine) ∧
      ∀ spaced, itemsChars spaced items' = itemsChars spaced items := by
  induction items with
  | nil => exact ⟨[], nofun, fun _ => rfl⟩
  | cons t items ih =>
    obtain ⟨⟨hne, t', ht', hchars⟩, hmore⟩ := List.forall_mem_cons.1 h
    obtain ⟨items', hcomposed, hitems⟩ := ih hmore
    refine ⟨t' :: items', List.forall_mem_cons.2 ⟨ht'.composed, hcomposed⟩, fun spaced => ?_⟩
    rw [itemsChars_cons_of_ne ht'.not_comment, itemsChars_cons_of_ne hne, hchars, hitems]

/-- A symbol of digits is printed bare. -/
theorem chars_symbol_of_digits {name : String} {n : Nat} (h : name.toList = Decimal.digits n) :
    (Atom.symbol name).chars = Decimal.digits n := by
  have hdigits := List.all_eq_true.1 (Decimal.isNumeral_digits n)
  rcases chars_symbol_cases name with ⟨⟨c, hc, hspecial⟩, -⟩ | ⟨-, hpipe, -⟩ | ⟨-, -, hchars⟩
  · have hdigit := hdigits c (h ▸ hc)
    simp only [Atom.isSpecial, Bool.or_eq_true, beq_iff_eq] at hspecial
    rcases hspecial with (((rfl | rfl) | rfl) | rfl) | rfl <;> exact absurd hdigit (by decide)
  · exact absurd (hdigits '|' (h ▸ hpipe)) (by decide)
  · rw [hchars, h]

/-- A command has the printed form of one that comes through printing and reading. -/
theorem exists_reparsable (h : t.Composed Reread fun _ => False) :
    ∃ t' : Sexp, t'.Reparsable ∧ t'.chars = t.chars := by
  induction h with
  | numeral n => exact ⟨numeral n, ⟨.numeral n, atom_ne_comment _⟩, rfl⟩
  | @symbol name h =>
    rcases h with hsimple | hquotable | ⟨n, hn⟩
    · exact ⟨symbol name, ⟨.symbol (.inl hsimple), atom_ne_comment _⟩, rfl⟩
    · exact ⟨symbol name, ⟨.symbol (.inr (.inl hquotable)), atom_ne_comment _⟩, rfl⟩
    · exact ⟨numeral n, ⟨.numeral n, atom_ne_comment _⟩, (chars_symbol_of_digits hn).symm⟩
  | comment h => exact h.elim
  | list h ih =>
    obtain ⟨items', hcomposed, hitems⟩ :=
      exists_items_reparsable fun t ht => ⟨ne_comment_of_composed (h t ht), ih t ht⟩
    exact ⟨.list items', ⟨.list hcomposed, list_ne_comment _⟩, by rw [chars, chars, hitems]⟩

end Sexp

/-! ## Files -/

namespace Transcript

open Sexp

/-- An entry that is read back from its line. -/
inductive Recordable : Sexp → Prop where
  | comment {text : String} (h : OneLine text) : Recordable (.comment text)
  | command {t : Sexp} (h : t.Replayable) : Recordable t

/-- The lines of some entries, each with its end. -/
def lines (entries : List Sexp) : List Char :=
  entries.flatMap fun entry => line entry ++ ['\n']

theorem lines_cons (entry : Sexp) (entries : List Sexp) :
    lines (entry :: entries) = line entry ++ '\n' :: lines entries := by
  rw [lines, List.flatMap_cons, List.append_assoc]
  rfl

/-- Lines that are put together with line ends between them have one behind the last too. -/
theorem unlines_eq_lines {entries : List Sexp} (h : entries ≠ []) :
    unlines (entries.map line) ++ ['\n'] = lines entries := by
  induction entries with
  | nil => exact absurd rfl h
  | cons entry entries ih =>
    cases entries with
    | nil => simp [unlines, lines]
    | cons next entries =>
      rw [lines_cons, ← ih (List.cons_ne_nil _ _)]
      simp [unlines, List.intercalate]

/-- The s-expressions among some that are no comments, as they are printed. -/
def commandTexts (ts : List Sexp) : List String :=
  (ts.filter fun t => !t.isComment).map Sexp.render

/-- The line of a comment starts with two semicolons, one of which is part of its text. -/
theorem line_comment {text : String} (h : text ≠ "") :
    line (.comment text) = ';' :: ';' :: ' ' :: text.toList :=
  if_neg h

/-- The line of a command is its printed form. -/
theorem line_of_ne {t : Sexp} (h : ∀ text, t ≠ .comment text) : line t = t.chars := by
  cases t with
  | comment text => exact absurd rfl (h text)
  | atom => rfl
  | list => rfl

/-- What is no comment is one more command. -/
theorem commandTexts_cons_of_ne {t : Sexp} (h : ∀ text, t ≠ .comment text) (ts : List Sexp) :
    commandTexts (t :: ts) = t.render :: commandTexts ts := by
  cases t with
  | comment text => exact absurd rfl (h text)
  | atom => rfl
  | list => rfl

/-- There are no more entries than characters, and no line is longer than all of them. -/
theorem length_le_lines (entries : List Sexp) : entries.length ≤ (lines entries).length ∧
    ∀ entry ∈ entries, (line entry).length ≤ (lines entries).length := by
  induction entries with
  | nil => exact ⟨Nat.le_refl _, nofun⟩
  | cons entry entries ih =>
    obtain ⟨hlength, hall⟩ := ih
    rw [lines_cons, List.length_append, List.length_cons, List.length_cons]
    refine ⟨by omega, List.forall_mem_cons.2 ⟨by omega, fun entry' h => ?_⟩⟩
    have := hall entry' h
    omega

/-- A comment is read up to the end of its line. -/
theorem value_nested_comment_ofList {cs : List Char} (h : '\n' ∉ cs) (depth : Nat)
    (rest : List Char) :
    (nested (depth + 1) (';' :: (cs ++ '\n' :: rest))).value
      = some (.comment (String.ofList cs), rest) := by
  have htext : (String.ofList cs).toList = cs := String.toList_ofList
  rw [← htext] at h
  have hread := value_nested_comment h depth rest
  rwa [htext] at hread

section

variable {gap : List Char} (hgap : ∀ c ∈ gap, isSpace c = true)
include hgap

/-- The line of a comment that is not empty gives one comment, and its end with it. -/
theorem value_line_comment {text : String} (hline : OneLine text) (hempty : text ≠ "") (depth : Nat)
    (rest : List Char) :
    (nested (depth + 1) ((gap ++ (line (.comment text) ++ '\n' :: rest)).dropWhile isSpace)).value
      = some (.comment (String.ofList (';' :: ' ' :: text.toList)), rest) := by
  have hone : '\n' ∉ ';' :: ' ' :: text.toList := by simpa [OneLine] using hline
  have hskip : (gap ++ (line (.comment text) ++ '\n' :: rest)).dropWhile isSpace
      = ';' :: (';' :: ' ' :: text.toList ++ '\n' :: rest) := by
    rw [line_comment hempty, List.dropWhile_append_of_pos hgap]
    exact List.dropWhile_cons_of_neg (by decide)
  rw [hskip]
  exact value_nested_comment_ofList hone depth rest

/-- The line of a command gives one of the same printed form, and leaves the end of the line. -/
theorem exists_value_line_command {t : Sexp} (ht : t.Replayable) {depth : Nat}
    (hdepth : (line t).length < depth + 1) (rest : List Char) :
    ∃ t' : Sexp, (∀ text, t' ≠ .comment text) ∧ t'.chars = t.chars ∧
      (nested (depth + 1) ((gap ++ (line t ++ '\n' :: rest)).dropWhile isSpace)).value
        = some (t', '\n' :: rest) := by
  obtain ⟨t', ht', hchars⟩ := exists_reparsable ht.composed
  rw [line_of_ne (ne_comment_of_composed ht.composed), ← hchars] at hdepth ⊢
  have hskip : (gap ++ (t'.chars ++ '\n' :: rest)).dropWhile isSpace
      = t'.chars ++ '\n' :: rest := by
    rw [List.dropWhile_append_of_pos hgap]
    exact (ht'.composed.starts ht'.not_comment).dropWhile_eq _
  rw [hskip]
  exact ⟨t', ht'.not_comment, rfl,
    ht'.composed.readBack ht'.not_comment hdepth ('\n' :: rest) (halts_cons (by decide) _)⟩

end

/-- **The lines of a transcript are read one after the other**, also behind spaces. -/
theorem value_manyUpTo_lines {depth limit : Nat} {entries : List Sexp} {gap : List Char}
    (hentries : ∀ entry ∈ entries, Recordable entry)
    (hdepth : ∀ entry ∈ entries, (line entry).length < depth) (hlimit : entries.length ≤ limit)
    (hgap : ∀ c ∈ gap, isSpace c = true) :
    ∃ items rest, (manyUpTo (nested depth) limit (gap ++ lines entries)).value
      = some (items, rest) ∧
      rest.dropWhile isSpace = [] ∧ commandTexts items = commandTexts entries := by
  induction entries generalizing limit gap with
  | nil =>
    have hnone : gap.dropWhile isSpace = [] := List.dropWhile_eq_nil_iff.2 hgap
    refine ⟨[], gap ++ [], value_manyUpTo_of_none (value_nested_eq_none ?_ _) limit, ?_, rfl⟩
    · rw [show lines [] = [] from rfl, List.append_nil, hnone]
      nofun
    · rw [List.append_nil, hnone]
  | cons entry entries ih =>
    obtain ⟨hentry, hmore⟩ := List.forall_mem_cons.1 hentries
    obtain ⟨hfits, hdepths⟩ := List.forall_mem_cons.1 hdepth
    obtain _ | limit := limit
    · cases hlimit
    obtain _ | depth := depth
    · cases hfits
    have hlength : entries.length ≤ limit := Nat.le_of_succ_le_succ hlimit
    rw [lines_cons]
    cases hentry with
    | @comment text hline =>
      by_cases hempty : text = ""
      · -- an empty line is more space in front of the next entry
        have hspace : gap ++ (line (.comment text) ++ '\n' :: lines entries)
            = (gap ++ ['\n']) ++ lines entries := by
          rw [line, if_pos hempty, List.nil_append, List.append_assoc]
          rfl
        rw [hspace]
        refine ih hmore hdepths (Nat.le_succ_of_le hlength) fun c hc => ?_
        rcases List.mem_append.1 hc with hc | hc
        · exact hgap c hc
        · rw [List.mem_singleton.1 hc]
          rfl
      · obtain ⟨items, rest, hread, hrest, htexts⟩ := @ih limit [] hmore hdepths hlength nofun
        refine ⟨.comment (String.ofList (';' :: ' ' :: text.toList)) :: items, rest, ?_,
          hrest, htexts⟩
        rw [value_manyUpTo_of_some (value_line_comment hgap hline hempty depth (lines entries))]
        exact congrArg (Option.map _) hread
    | command h =>
      obtain ⟨items, rest, hread, hrest, htexts⟩ := @ih limit ['\n'] hmore hdepths hlength
        (by simp [isSpace])
      -- what is read off the line is printed like the entry
      obtain ⟨t', hne, hchars, hback⟩ := exists_value_line_command hgap h hfits (lines entries)
      refine ⟨t' :: items, rest, ?_, hrest, ?_⟩
      · rw [value_manyUpTo_of_some hback]
        exact congrArg (Option.map _) hread
      · rw [commandTexts_cons_of_ne hne,
          commandTexts_cons_of_ne (ne_comment_of_composed h.composed), htexts, render, render,
          hchars]

/-- **The file of a transcript is read back**: its commands, as they are printed and in order, and
comments between them. -/
theorem parseMany_fileText {t : Transcript} (hentries : ∀ entry ∈ t.entries, Recordable entry)
    (hfirst : ∃ text entries, t.entries = .comment text :: entries ∧ text ≠ "") :
    ∃ items, parseMany t.fileText = .ok items ∧ commandTexts items = commandTexts t.entries := by
  obtain ⟨text, entries, heq, hempty⟩ := hfirst
  have hne : t.entries ≠ [] := heq ▸ List.cons_ne_nil _ _
  -- the file starts with a semicolon, so there is nothing to skip in front
  have hskip : (lines t.entries).dropWhile isSpace = lines t.entries := by
    rw [heq, lines_cons, line_comment hempty]
    exact List.dropWhile_cons_of_neg (by decide)
  obtain ⟨hlength, hfits⟩ := length_le_lines t.entries
  obtain ⟨items, rest, hread, hrest, htexts⟩ := @value_manyUpTo_lines ((lines t.entries).length + 1)
    ((lines t.entries).length + 1) t.entries [] hentries
    (fun entry h => by have := hfits entry h; omega)
    (by omega) nofun
  refine ⟨items, ?_, htexts⟩
  rw [fileText, unlines_eq_lines hne]
  refine parseMany_eq_ok ?_ hrest
  rw [hskip]
  exact hread

end Transcript

/-! ## Saving -/

namespace Folder

variable {folder folder' : Folder} {t : Transcript}

/-- **What saving a transcript does**: its file is added, unless it is there. -/
theorem save?_eq_some_iff :
    folder.save? t = some folder' ↔ folder.creatable = true ∧
      folder' = { folder with
        files := folder.files ++ if t.fileText ∈ folder.files then [] else [t.fileText] } := by
  obtain ⟨creatable, files⟩ := folder
  cases creatable with
  | false => simp [save?]
  | true => by_cases hknown : t.fileText ∈ files <;> simp [save?, hknown, @eq_comm _ folder']

/-- Whether a transcript can be saved does not depend on what it holds. -/
theorem save?_eq_none_iff : folder.save? t = none ↔ folder.creatable = false := by
  rw [save?]
  cases folder.creatable with
  | false => simp
  | true => by_cases hknown : t.fileText ∈ folder.files <;> simp [hknown]

theorem creatable_of_save? (h : folder.save? t = some folder') :
    folder'.creatable = folder.creatable := by
  obtain ⟨-, rfl⟩ := save?_eq_some_iff.1 h
  rfl

/-- Saving a transcript removes no file. -/
theorem files_of_save? (h : folder.save? t = some folder') : folder.files <+: folder'.files := by
  obtain ⟨-, rfl⟩ := save?_eq_some_iff.1 h
  exact List.prefix_append _ _

/-- Saving a transcript adds its file and no other. -/
theorem mem_files_iff_of_save? (h : folder.save? t = some folder') {file : String} :
    file ∈ folder'.files ↔ file ∈ folder.files ∨ file = t.fileText := by
  obtain ⟨-, rfl⟩ := save?_eq_some_iff.1 h
  rw [List.mem_append]
  split
  · next hknown => simpa using fun heq => heq ▸ hknown
  · rw [List.mem_singleton]

/-- A transcript that is saved is in the folder. -/
theorem mem_of_save? (h : folder.save? t = some folder') : t.fileText ∈ folder'.files :=
  (mem_files_iff_of_save? h).2 (.inr rfl)

end Folder

end Interpolants
