import Interpolants.Proofs.Decoding.Placeholders
import Interpolants.Proofs.Decoding.Reading
import Interpolants.Proofs.History.Apart

/-!
# Interpolants — texts that differ in their placeholders

Two sessions that resolve the same text number its let blocks differently, so what is left for the
second pass differs in the placeholders, and in nothing else: the two texts are `Alike`. The second
pass reads them alike, each with its own table (`agree_wholeTerm`). It stops at the same place with
the same formula, or both readings fail and for the same kind of reason.

## The architecture

* **`Agree`** — two results that are related, or two errors of one kind; with it comes a lemma for
  `bind`.
* **`Counterpart`, `Alike`** — related tokens and related texts.
* **`Follows`** — two cursors that have moved on in related texts. That they have moved is what
  makes any two amounts of fuel agree.
-/

namespace Interpolants

open Text Decode

/-! ## Kinds of errors -/

/-- What an error is about, without the details. -/
inductive DecodeError.Kind where
  | malformed | unknownOperator | arity | unknownVariable
deriving DecidableEq, Repr

/-- The kind of an error. -/
def DecodeError.kind : DecodeError → DecodeError.Kind
  | .flaw _ _ | .unbalanced _ | .numeralRange _ => .malformed
  | .unknownOperator _ => .unknownOperator
  | .arity _ _ _ => .arity
  | .unknownVariable _ => .unknownVariable

/-- Two related results, or two errors of the same kind. -/
inductive Agree {α β : Type} (r : α → β → Prop) :
    Except DecodeError α → Except DecodeError β → Prop where
  | ok {a : α} {b : β} (h : r a b) : Agree r (.ok a) (.ok b)
  | error {e e' : DecodeError} (h : e.kind = e'.kind) : Agree r (.error e) (.error e')

namespace Agree

variable {α β γ δ : Type} {r : α → β → Prop} {s : γ → δ → Prop} {x : Except DecodeError α}
  {y : Except DecodeError β}

theorem refl (x : Except DecodeError α) : Agree Eq x x := by
  cases x with
  | error e => exact .error rfl
  | ok a => exact .ok rfl

/-- Related steps one after the other are related. -/
theorem bind {next : α → Except DecodeError γ} {next' : β → Except DecodeError δ} (h : Agree r x y)
    (hnext : ∀ a b, r a b → Agree s (next a) (next' b)) : Agree s (x >>= next) (y >>= next') := by
  cases h with
  | ok h => exact hnext _ _ h
  | error h => exact .error h

/-- Two related results are both there, or both missing for errors of one kind. -/
theorem exists_eq (h : Agree r x y) :
    (∃ e e', x = .error e ∧ y = .error e' ∧ e.kind = e'.kind) ∨
      ∃ a b, x = .ok a ∧ y = .ok b ∧ r a b := by
  cases h with
  | ok h => exact Or.inr ⟨_, _, rfl, rfl, h⟩
  | error h => exact Or.inl ⟨_, _, rfl, rfl, h⟩

/-- Results that agree are equal once an error is cut down to its kind. -/
theorem mapError_eq {x y : Except DecodeError α} (h : Agree Eq x y) :
    x.mapError DecodeError.kind = y.mapError DecodeError.kind := by
  cases h with
  | ok h => rw [h]
  | error h => exact congrArg Except.error h

end Agree

/-! ## Related texts -/

/-- Tokens that mean the same, each with its table: one token of a term, or two placeholders for
blocks with the same formula. -/
inductive Counterpart (blocks blocks' : Bindings) : List Char → List Char → Prop where
  | same {token : List Char} (h : Ordinary token) : Counterpart blocks blocks' token token
  | entered {name name' : String} {e : Expr} (hname : IsPlaceholder name)
      (hname' : IsPlaceholder name') (he : blocks.lookup name = some e)
      (he' : blocks'.lookup name' = some e) : Counterpart blocks blocks' name.toList name'.toList

/-- Texts that differ in the placeholders of let blocks. -/
inductive Alike (blocks blocks' : Bindings) : List Char → List Char → Prop where
  | nil : Alike blocks blocks' [] []
  | delimiter {c : Char} {cs cs' : List Char} (hc : isDelimiter c = true)
      (h : Alike blocks blocks' cs cs') : Alike blocks blocks' (c :: cs) (c :: cs')
  | token {token token' cs cs' : List Char} (htoken : Counterpart blocks blocks' token token')
      (hcs : Boundary cs) (h : Alike blocks blocks' cs cs') :
      Alike blocks blocks' (token ++ cs) (token' ++ cs')

section

variable {blocks blocks' : Bindings} {token token' cs cs' : List Char}

/-- A placeholder has the form of a token. -/
theorem tokenForm_of_isPlaceholder {name : String} (h : IsPlaceholder name) :
    TokenForm name.toList := by
  have hlegible := legible_of_isPlaceholder h
  exact .bare hlegible.toList_ne_nil hlegible.unpiped fun c => isDelimiter_of_isPlaceholder h

theorem unquote_of_isPlaceholder {name : String} (h : IsPlaceholder name) :
    unquote name.toList = name := by
  rw [unquote_of_not_mem (legible_of_isPlaceholder h).unpiped, String.ofList_toList]

namespace Counterpart

/-- Tokens that mean the same are both in the form of tokens. -/
theorem form (h : Counterpart blocks blocks' token token') :
    TokenForm token ∧ TokenForm token' := by
  cases h with
  | same h => exact ⟨h.form, h.form⟩
  | entered hname hname' =>
    exact ⟨tokenForm_of_isPlaceholder hname, tokenForm_of_isPlaceholder hname'⟩

/-- No placeholder is a word without a number sign. -/
theorem eq_iff (h : Counterpart blocks blocks' token token') (word : String)
    (hword : '#' ∉ word.toList) : token = word.toList ↔ token' = word.toList := by
  cases h with
  | same h => exact Iff.rfl
  | entered hname hname' =>
    rw [String.toList_inj, String.toList_inj]
    exact iff_of_false (ne_of_isPlaceholder hname hword) (ne_of_isPlaceholder hname' hword)

/-- Of two tokens that mean the same, none or both are numerals. -/
theorem isNumeral_eq (h : Counterpart blocks blocks' token token') :
    Decimal.isNumeral token = Decimal.isNumeral token' := by
  cases h with
  | same h => rfl
  | entered hname hname' =>
    rw [(legible_of_isPlaceholder hname).notNumeral, (legible_of_isPlaceholder hname').notNumeral]

/-- A numeral means the same as itself only. -/
theorem eq_of_isNumeral (h : Counterpart blocks blocks' token token')
    (hnumeral : Decimal.isNumeral token = true) : token = token' := by
  cases h with
  | same h => rfl
  | entered hname =>
    rw [(legible_of_isPlaceholder hname).notNumeral] at hnumeral
    cases hnumeral

end Counterpart

/-! ## Meaning of tokens -/

variable {declared : Registry} {scope : Bindings}

/-- The name of a token stands for the same in both tables. -/
theorem Counterpart.find?_eq (h : Counterpart blocks blocks' token token') (declared : Registry)
    (hscope : Clean scope) (hblocks : Numbered blocks) (hblocks' : Numbered blocks') :
    Names.find? ⟨scope, blocks, declared⟩ (unquote token)
      = Names.find? ⟨scope, blocks', declared⟩ (unquote token') := by
  cases h with
  | same h =>
    rw [find?_of_not_isPlaceholder hblocks h.name, find?_of_not_isPlaceholder hblocks' h.name]
  | entered hname hname' he he' =>
    rw [unquote_of_isPlaceholder hname, unquote_of_isPlaceholder hname',
      find?_of_isPlaceholder hscope hname he, find?_of_isPlaceholder hscope hname' he']

/-- Tokens that mean the same are read alike, each with its table. -/
theorem agree_leaf (h : Counterpart blocks blocks' token token') (hscope : Clean scope)
    (hblocks : Numbered blocks) (hblocks' : Numbered blocks') :
    Agree Eq (Names.leaf ⟨scope, blocks, declared⟩ token)
      (Names.leaf ⟨scope, blocks', declared⟩ token') := by
  have htrue := h.eq_iff "true" (by decide)
  have hfalse := h.eq_iff "false" (by decide)
  have hfind := h.find?_eq declared hscope hblocks hblocks'
  unfold Names.leaf
  by_cases ht : token = "true".toList
  · rw [if_pos ht, if_pos (htrue.1 ht)]
    exact .ok rfl
  rw [if_neg ht, if_neg (mt htrue.2 ht)]
  by_cases hf : token = "false".toList
  · rw [if_pos hf, if_pos (hfalse.1 hf)]
    exact .ok rfl
  rw [if_neg hf, if_neg (mt hfalse.2 hf), ← h.isNumeral_eq]
  -- a numeral is the same token in both, and any other stands for one formula
  by_cases hnumeral : Decimal.isNumeral token = true
  · rw [if_pos hnumeral, if_pos hnumeral, ← h.eq_of_isNumeral hnumeral]
    exact .refl _
  · rw [if_neg hnumeral, if_neg hnumeral, ← hfind]
    cases Names.find? ⟨scope, blocks, declared⟩ (unquote token) with
    | none => exact .error rfl
    | some e => exact .ok rfl

/-- No placeholder is an operator. -/
theorem agree_applyNamed (h : Counterpart blocks blocks' token token') (es : List Expr) :
    Agree Eq (applyNamed (String.ofList token) es) (applyNamed (String.ofList token') es) := by
  cases h with
  | same h => exact .refl _
  | entered hname hname' =>
    have hnone : ∀ {name : String}, IsPlaceholder name → Operator.ofName? name = none := fun h =>
      ofName?_of_mem (hash_mem_of_isPlaceholder h) (· == '#') rfl (by decide)
    rw [String.ofList_toList, String.ofList_toList, applyNamed, applyNamed, hnone hname,
      hnone hname']
    exact .error rfl

/-! ## Reading related texts -/

namespace Alike

/-- A token may end before both or none of two related texts. -/
theorem boundary_iff (h : Alike blocks blocks' cs cs') : Boundary cs ↔ Boundary cs' := by
  cases h with
  | nil => exact Iff.rfl
  | delimiter => exact Iff.rfl
  | token htoken =>
    obtain ⟨c, cs, rfl, hc⟩ := htoken.form.1.exists_cons
    obtain ⟨c', cs', rfl, hc'⟩ := htoken.form.2.exists_cons
    constructor <;> intro h
    · exact absurd (h c rfl) (by simp [hc])
    · exact absurd (h c' rfl) (by simp [hc'])

/-- Behind blanks, related texts are at their end, at the same parenthesis or at related tokens. -/
theorem start (h : Alike blocks blocks' cs cs') :
    (trimStart cs = [] ∧ trimStart cs' = []) ∨
    (∃ c ds ds', (c = '(' ∨ c = ')') ∧ trimStart cs = c :: ds ∧ trimStart cs' = c :: ds' ∧
      Alike blocks blocks' ds ds') ∨
    ∃ token token' ds ds', Counterpart blocks blocks' token token' ∧ Boundary ds ∧ Boundary ds' ∧
      trimStart cs = token ++ ds ∧ trimStart cs' = token' ++ ds' ∧ Alike blocks blocks' ds ds' := by
  induction h with
  | nil => exact Or.inl ⟨rfl, rfl⟩
  | @delimiter c cs cs' hc h ih =>
    by_cases hblank : isBlank c = true
    · have hskip : ∀ cs, trimStart (c :: cs) = trimStart cs := fun cs =>
        List.dropWhile_cons_of_pos hblank
      rw [hskip, hskip]
      -- a blank is skipped on both sides
      exact ih
    · rw [Bool.not_eq_true] at hblank
      refine Or.inr (Or.inl ⟨c, cs, cs', ?_, trimStart_of_not_isBlank hblank cs,
        trimStart_of_not_isBlank hblank cs', h⟩)
      simpa [isDelimiter, hblank] using hc
  | token htoken hcs h =>
    exact Or.inr (Or.inr ⟨_, _, _, _, htoken, hcs, h.boundary_iff.1 hcs, htoken.form.1.trimStart _,
      htoken.form.2.trimStart _, h⟩)

/-- Related texts are related behind their blanks. -/
theorem trimStart (h : Alike blocks blocks' cs cs') :
    Alike blocks blocks' (trimStart cs) (trimStart cs') := by
  rcases h.start with
    ⟨hc, hc'⟩ | ⟨c, ds, ds', hparen, hc, hc', h⟩ |
    ⟨token, token', ds, ds', htoken, hds, -, hc, hc', h⟩
  · rw [hc, hc']
    exact .nil
  · rw [hc, hc']
    refine .delimiter ?_ h
    rcases hparen with rfl | rfl
    · exact isDelimiter_open
    · exact isDelimiter_close
  · rw [hc, hc']
    exact .token htoken hds h

/-- Of two related texts, none or both are empty. -/
theorem isEmpty_eq (h : Alike blocks blocks' cs cs') : cs.isEmpty = cs'.isEmpty := by
  cases h with
  | nil => rfl
  | delimiter => rfl
  | token htoken =>
    obtain ⟨c, token, rfl, -⟩ := htoken.form.1.exists_cons
    obtain ⟨c', token', rfl, -⟩ := htoken.form.2.exists_cons
    rfl

end Alike

/-- A text without placeholders is the same in both sessions. -/
theorem Apart.alike (h : Apart cs) : Alike blocks blocks' cs cs := by
  induction h with
  | nil => exact .nil
  | blank hc h ih => exact .delimiter (by rw [isDelimiter, hc]; rfl) ih
  | opening h ih => exact .delimiter isDelimiter_open ih
  | closing hparting h ih => exact .delimiter isDelimiter_close ih
  | token htoken hparting h ih => exact .token (.same htoken) hparting.boundary ih

/-- Two cursors that have moved on from related places to related places. -/
structure Follows (blocks blocks' : Bindings) (c c' d d' : Cursor) : Prop where
  alike : Alike blocks blocks' d.rest d'.rest
  shorter : d.rest.length < c.rest.length
  shorter' : d'.rest.length < c'.rest.length

theorem Follows.trans {c c' d d' k k' : Cursor} (h : Follows blocks blocks' c c' d d')
    (h' : Follows blocks blocks' d d' k k') : Follows blocks blocks' c c' k k' :=
  ⟨h'.alike, h'.shorter.trans h.shorter, h'.shorter'.trans h.shorter'⟩

theorem length_trimStart_le (cs : List Char) : (trimStart cs).length ≤ cs.length :=
  (List.dropWhile_suffix _).length_le

/-- What follows two places behind their blanks follows the places before them. -/
theorem Follows.of_skipBlanks {c c' d d' : Cursor}
    (h : Follows blocks blocks' c.skipBlanks c'.skipBlanks d d') :
    Follows blocks blocks' c c' d d' :=
  ⟨h.alike, h.shorter.trans_le (length_trimStart_le c.rest),
    h.shorter'.trans_le (length_trimStart_le c'.rest)⟩

/-- What stands behind something is shorter. -/
theorem length_lt_of_trimStart {piece ds : List Char} (hne : piece ≠ [])
    (h : trimStart cs = piece ++ ds) : ds.length < cs.length := by
  have hle := length_trimStart_le cs
  have hpos := List.length_pos_iff.2 hne
  rw [h, List.length_append] at hle
  omega

section

variable {c c' : Cursor}

/-- In related texts tokens that mean the same are taken. -/
theorem agree_token (h : Alike blocks blocks' c.rest c'.rest) :
    Agree (fun r r' => Counterpart blocks blocks' r.1 r'.1 ∧ Follows blocks blocks' c c' r.2 r'.2)
      c.token c'.token := by
  rcases h.start with
    ⟨hc, hc'⟩ | ⟨ch, ds, ds', hch, hc, hc', -⟩ |
    ⟨token, token', ds, ds', htoken, hds, hds', hc, hc', halike⟩
  · rw [Cursor.token_of_delimiter (by rw [hc]; nofun),
      Cursor.token_of_delimiter (by rw [hc']; nofun)]
    exact .error rfl
  · -- a parenthesis starts no token
    have hdelim : isDelimiter ch = true := by
      rcases hch with rfl | rfl
      · exact isDelimiter_open
      · exact isDelimiter_close
    have hhead : ∀ ds : List Char, ∀ next ∈ (ch :: ds).head?, isDelimiter next = true := by
      rintro ds _ ⟨⟩
      exact hdelim
    rw [Cursor.token_of_delimiter (hc ▸ hhead ds), Cursor.token_of_delimiter (hc' ▸ hhead ds')]
    exact .error rfl
  · rw [Cursor.token_of_form htoken.form.1 hds hc, Cursor.token_of_form htoken.form.2 hds' hc']
    exact .ok ⟨htoken, halike, length_lt_of_trimStart htoken.form.1.ne_nil hc,
      length_lt_of_trimStart htoken.form.2.ne_nil hc'⟩

/-- A closing parenthesis comes next in both texts or in none. -/
theorem eat?_close_alike (h : Alike blocks blocks' c.rest c'.rest) :
    (c.eat? ')' = none ∧ c'.eat? ')' = none) ∨
      ∃ d d', c.eat? ')' = some d ∧ c'.eat? ')' = some d' ∧ Follows blocks blocks' c c' d d' := by
  rcases h.start with
    ⟨hc, hc'⟩ | ⟨ch, ds, ds', hch, hc, hc', halike⟩ |
    ⟨token, token', ds, ds', htoken, -, -, hc, hc', -⟩
  · exact Or.inl ⟨Cursor.eat?_of_ne (by rw [hc]; nofun), Cursor.eat?_of_ne (by rw [hc']; nofun)⟩
  · rcases hch with rfl | rfl
    · have hne : ∀ ds : List Char, ∀ next ∈ ('(' :: ds).head?, next ≠ ')' := by
        rintro ds _ ⟨⟩
        decide
      exact Or.inl ⟨Cursor.eat?_of_ne (hc ▸ hne ds), Cursor.eat?_of_ne (hc' ▸ hne ds')⟩
    · -- both go on behind the parenthesis
      have hlt : ∀ {cs ds : List Char}, trimStart cs = ')' :: ds → ds.length < cs.length := fun h =>
        length_lt_of_trimStart (List.cons_ne_nil ')' []) h
      exact Or.inr ⟨_, _, Cursor.eat?_of_head hc, Cursor.eat?_of_head hc', halike, hlt hc, hlt hc'⟩
  · have hne : ∀ {token}, TokenForm token → ∀ ds : List Char,
        ∀ next ∈ (token ++ ds).head?, next ≠ ')' := by
      intro token hform ds next hnext
      obtain ⟨ch, cs, rfl, hdelim⟩ := hform.exists_cons
      cases hnext
      exact (ne_of_not_isDelimiter hdelim).2.2
    exact Or.inl ⟨Cursor.eat?_of_ne (hc ▸ hne htoken.form.1 ds),
      Cursor.eat?_of_ne (hc' ▸ hne htoken.form.2 ds')⟩

/-- The magnitude of the least signed word is found in both texts or in none. -/
theorem leastWord?_alike (h : Alike blocks blocks' c.rest c'.rest) :
    (c.leastWord? = none ∧ c'.leastWord? = none) ∨
      ∃ d d', c.leastWord? = some d ∧ c'.leastWord? = some d' ∧
      Follows blocks blocks' c c' d d' := by
  unfold Cursor.leastWord?
  rcases (agree_token h).exists_eq with
    ⟨e, e', hc, hc', -⟩ | ⟨⟨token, d⟩, ⟨token', d'⟩, hc, hc', htoken, hfollows⟩
  · rw [hc, hc']
    exact Or.inl ⟨rfl, rfl⟩
  · rw [hc, hc']
    dsimp only
    by_cases hnumeral : Decimal.isNumeral token = true
    · -- a numeral is no placeholder
      obtain rfl : token = token' := htoken.eq_of_isNumeral hnumeral
      split
      · rcases eat?_close_alike hfollows.alike with hnone | ⟨k, k', hk, hk', hbehind⟩
        · exact Or.inl hnone
        · exact Or.inr ⟨k, k', hk, hk', hfollows.trans hbehind⟩
      · exact Or.inl ⟨rfl, rfl⟩
    · have hnumeral' := htoken.isNumeral_eq ▸ hnumeral
      rw [Bool.not_eq_true] at hnumeral hnumeral'
      simp only [hnumeral, hnumeral', Bool.false_and, Bool.false_eq_true, if_false]
      exact Or.inl ⟨trivial, trivial⟩

end

/-! ## The second pass -/

/-- The results of two readings: the same, and related places behind. -/
def SameRead (blocks blocks' : Bindings) {α : Type} (c c' : Cursor) (r r' : α × Cursor) : Prop :=
  r.1 = r'.1 ∧ Follows blocks blocks' c c' r.2 r'.2

/-- Two readings that agree behind cursors that have moved on agree from the start. -/
theorem Agree.follow {α : Type} {c c' d d' : Cursor} {x y : Except DecodeError (α × Cursor)}
    (h : Agree (SameRead blocks blocks' d d') x y) (hd : Follows blocks blocks' c c' d d') :
    Agree (SameRead blocks blocks' c c') x y := by
  cases h with
  | ok h => exact .ok ⟨h.1, hd.trans h.2⟩
  | error h => exact .error h

section

variable {read read' : Cursor → Except DecodeError (Expr × Cursor)} {n n' : Nat}
  (hread : ∀ c c' : Cursor, Alike blocks blocks' c.rest c'.rest → c.rest.length < n →
    c'.rest.length < n' → Agree (SameRead blocks blocks' c c') (read c) (read' c'))

include hread

/-- Operands are read alike if each of them is. -/
theorem agree_operands {limit limit' : Nat} {c c' : Cursor}
    (h : Alike blocks blocks' c.rest c'.rest) (hn : c.rest.length < n) (hn' : c'.rest.length < n')
    (hlimit : c.rest.length < limit) (hlimit' : c'.rest.length < limit') :
    Agree (SameRead blocks blocks' c c') (operands read limit c) (operands read' limit' c') := by
  induction limit generalizing limit' c c' with
  | zero => omega
  | succ limit ih =>
    obtain _ | limit' := limit'
    · omega
    have hskip := length_trimStart_le c.rest
    have hskip' := length_trimStart_le c'.rest
    -- one more operand, and the others behind it
    have hmore : ∀ {ch ch' : Char} {cs cs' : List Char}, trimStart c.rest = ch :: cs →
        trimStart c'.rest = ch' :: cs' → ch ≠ ')' → ch' ≠ ')' →
        Agree (SameRead blocks blocks' c c') (operands read (limit + 1) c)
          (operands read' (limit' + 1) c') := by
      intro ch ch' cs cs' hc hc' hclose hclose'
      rw [operands_of_head hc hclose, operands_of_head hc' hclose']
      refine (hread c.skipBlanks c'.skipBlanks h.trimStart (by simp; omega) (by simp; omega)).bind
        ?_
      rintro ⟨e, d⟩ ⟨_, d'⟩ ⟨rfl, hfirst⟩
      have hd := hfirst.of_skipBlanks
      have := hd.shorter
      have := hd.shorter'
      refine (ih hd.alike (by omega) (by omega) (by omega) (by omega)).bind ?_
      rintro ⟨es, k⟩ ⟨_, k'⟩ ⟨rfl, hothers⟩
      exact .ok ⟨rfl, hd.trans hothers⟩
    rcases h.start with
      ⟨hc, hc'⟩ | ⟨ch, ds, ds', rfl | rfl, hc, hc', halike⟩ |
      ⟨token, token', ds, ds', htoken, -, -, hc, hc', -⟩
    · rw [operands, operands, Cursor.skipBlanks_rest, Cursor.skipBlanks_rest, hc, hc']
      exact .error rfl
    · exact hmore hc hc' (by decide) (by decide)
    · rw [operands, operands, Cursor.skipBlanks_rest, Cursor.skipBlanks_rest, hc, hc']
      exact .ok ⟨rfl, halike, length_lt_of_trimStart (List.cons_ne_nil ')' []) hc,
        length_lt_of_trimStart (List.cons_ne_nil ')' []) hc'⟩
    · obtain ⟨ch, cs, rfl, hdelim⟩ := htoken.form.1.exists_cons
      obtain ⟨ch', cs', rfl, hdelim'⟩ := htoken.form.2.exists_cons
      exact hmore hc hc' (ne_of_not_isDelimiter hdelim).2.2 (ne_of_not_isDelimiter hdelim').2.2

/-- An application is read alike behind its operator. -/
theorem agree_application {c c' : Cursor} (htoken : Counterpart blocks blocks' token token')
    (h : Alike blocks blocks' c.rest c'.rest) (hn : c.rest.length < n) (hn' : c'.rest.length < n') :
    Agree (SameRead blocks blocks' c c')
      (operands read (c.rest.length + 1) c >>= fun r =>
        applyNamed (String.ofList token) r.1 >>= fun e => pure (e, r.2))
      (operands read' (c'.rest.length + 1) c' >>= fun r =>
        applyNamed (String.ofList token') r.1 >>= fun e => pure (e, r.2)) := by
  refine (agree_operands hread h hn hn' (Nat.lt_succ_self _) (Nat.lt_succ_self _)).bind ?_
  rintro ⟨es, d⟩ ⟨_, d'⟩ ⟨rfl, hd⟩
  refine (agree_applyNamed htoken es).bind ?_
  rintro e _ rfl
  exact .ok ⟨rfl, hd⟩

end

section

variable {declared : Registry} {scope : Bindings}

/-- **Related texts are read alike**, each with its own table. -/
theorem agree_term (hscope : Clean scope) (hblocks : Numbered blocks) (hblocks' : Numbered blocks')
    {depth depth' : Nat} {c c' : Cursor} (h : Alike blocks blocks' c.rest c'.rest)
    (hdepth : c.rest.length < depth) (hdepth' : c'.rest.length < depth') :
    Agree (SameRead blocks blocks' c c') (term ⟨scope, blocks, declared⟩ depth c)
      (term ⟨scope, blocks', declared⟩ depth' c') := by
  induction depth generalizing depth' c c' with
  | zero => omega
  | succ depth ih =>
    obtain _ | depth' := depth'
    · omega
    rcases h.start with
      ⟨hc, hc'⟩ | ⟨ch, ds, ds', rfl | rfl, hc, hc', halike⟩ |
      ⟨token, token', ds, ds', htoken, hds, hds', hc, hc', halike⟩
    · rw [term, term, Cursor.skipBlanks_rest, Cursor.skipBlanks_rest, hc, hc']
      exact .error rfl
    · -- an application: its operator, then the least word or the operands
      have hopen : Follows blocks blocks' c c' (c.goTo ds) (c'.goTo ds') :=
        ⟨halike, length_lt_of_trimStart (List.cons_ne_nil '(' []) hc,
          length_lt_of_trimStart (List.cons_ne_nil '(' []) hc'⟩
      rw [term_open hc, term_open hc']
      refine (agree_token hopen.alike).bind ?_
      rintro ⟨op, d⟩ ⟨op', d'⟩ ⟨hop, htoken⟩
      have hd := hopen.trans htoken
      have := hd.shorter
      have := hd.shorter'
      have hread : ∀ c c' : Cursor, Alike blocks blocks' c.rest c'.rest → c.rest.length < depth →
          c'.rest.length < depth' → Agree (SameRead blocks blocks' c c')
            (term ⟨scope, blocks, declared⟩ depth c) (term ⟨scope, blocks', declared⟩ depth' c') :=
        fun c c' h hn hn' => ih h hn hn'
      have hoperands := agree_application hread hop htoken.alike (by omega) (by omega)
      -- a placeholder is no minus, so both operators are one or none is
      have hminus : op = ['-'] ↔ op' = ['-'] := hop.eq_iff "-" (by decide)
      dsimp only
      by_cases hsign : op = ['-']
      · rw [if_pos hsign, if_pos (hminus.1 hsign)]
        rcases leastWord?_alike htoken.alike with ⟨hnone, hnone'⟩ | ⟨k, k', hk, hk', hbehind⟩
        · rw [hnone, hnone']
          exact hoperands.follow hd
        · rw [hk, hk']
          exact .ok ⟨rfl, hd.trans hbehind⟩
      · rw [if_neg hsign, if_neg (mt hminus.2 hsign)]
        exact hoperands.follow hd
    · rw [term, term, Cursor.skipBlanks_rest, Cursor.skipBlanks_rest, hc, hc']
      exact .error rfl
    -- a leaf: a name, a numeral or a placeholder, each in its own table
    · rw [term_of_token htoken.form.1 hc, term_of_token htoken.form.2 hc']
      refine (agree_token h).bind ?_
      rintro ⟨t, d⟩ ⟨t', d'⟩ ⟨ht, hd⟩
      refine (agree_leaf ht hscope hblocks hblocks').bind ?_
      rintro e _ rfl
      exact .ok ⟨rfl, hd⟩

/-- Related texts without let blocks are read alike, each with its table. -/
theorem agree_wholeTerm (hscope : Clean scope) (hblocks : Numbered blocks)
    (hblocks' : Numbered blocks') (h : Alike blocks blocks' cs cs') :
    Agree Eq (wholeTerm ⟨scope, blocks, declared⟩ cs)
      (wholeTerm ⟨scope, blocks', declared⟩ cs') := by
  refine (agree_term hscope hblocks hblocks' h (Nat.lt_succ_self _) (Nat.lt_succ_self _)).bind ?_
  rintro ⟨e, c⟩ ⟨_, c'⟩ ⟨rfl, hbehind⟩
  have hend : c.skipBlanks.rest.isEmpty = c'.skipBlanks.rest.isEmpty :=
    hbehind.alike.trimStart.isEmpty_eq
  dsimp only
  rw [← hend]
  split
  · exact .ok rfl
  · exact .error rfl

end

end

end Interpolants
