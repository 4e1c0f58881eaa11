import Interpolants.Proofs.Decoding.Reading
import Interpolants.Proofs.Decoding.Unseen
import Interpolants.Proofs.Encoding.Acceptance
import Interpolants.Proofs.Encoding.RoundTrip
import Interpolants.Proofs.Expr.Typing
import Interpolants.Proofs.Query.Assignments

/-!
# Interpolants — names that come back

A formula that is encoded, printed and decoded comes back as a formula with the same values if the
names of its variables are `Readable`. There are no other names for which this is so: an unreadable
one is lost already in the formula that is the boolean variable of this name
(`readable_of_comesBack`). Printed, it is taken for a number or a literal, comes apart at a blank
that is not quoted, or holds what is taken for a let block.
-/

namespace Interpolants

open Text Sexp

/-- A valuation gives variables no values of other types. -/
def Valuation.Respects (v : Valuation) (vars : List Variable) : Prop :=
  ∀ x ∈ vars, ∀ a, v x.name = some a → ∃ b, a.smt? = some b ∧ x.ty.srt? = some b.srt

/-- A formula that a session encodes and that is printed then can be decoded over what is declared,
to a formula with the same value or error wherever types are respected. -/
def Expr.ComesBack (e : Expr) (start : Encoder) : Prop :=
  ∃ t enc back, start.run e.encode = (.ok t, enc) ∧ decode enc.declared t.render = .ok back ∧
    ∀ v : Valuation, v.Respects e.vars → back.eval v = e.eval v

/-! ## Readable names -/

/-- A valuation that respects the types of variables respects the boolean ones. -/
theorem Valuation.Respects.respectsBool {v : Valuation} {vars : List Variable}
    (h : v.Respects vars) :
    v.RespectsBool vars := by
  intro x hx hty a ha
  obtain ⟨b, hb, hsort⟩ := h x hx a ha
  rw [hty] at hsort
  cases a with
  | bool p => exact ⟨p, rfl⟩
  | int i =>
    cases hb
    cases hsort
  | bitvec => cases hb

/-- In a well-typed formula only booleans are equivalent. -/
theorem Expr.HasSort.equivBoolean {e : Expr} {s : Smt.Srt} (h : e.HasSort s) :
    e.equivBoolean = true := by
  induction h with
  | var | literal | integer => rfl
  | negation _ ih | minus _ ih => exact ih
  | equality _ _ _ ihl ihr | order _ _ _ ihl ihr | arith _ _ _ ihl ihr =>
    simp [Expr.compare, Expr.arith, Expr.equivBoolean, ihl, ihr]
  | logic op hl hr ihl ihr =>
    have htyl := hl.eq_bool_iff.1 rfl
    have htyr := hr.eq_bool_iff.1 rfl
    simp [Expr.logic, Expr.equivBoolean, ihl, ihr, htyl, htyr, Ty.isBool]

/-- **A formula over readable names comes back.** -/
theorem Expr.HasSort.comesBack {calls : List EncoderCall} {e : Expr} {s : Smt.Srt} (h : e.HasSort s)
    (hnamed : e.Named) (hcoherent : Coherent (EncoderCall.reached calls ++ e.vars))
    (hnames : ∀ x ∈ e.vars, Readable x.name) : e.ComesBack (EncoderCall.after calls) := by
  obtain ⟨t, hterm⟩ := h.exists_hasTerm hnamed
  have hencode := hterm.outcome_encode hcoherent (commandsFor [] (EncoderCall.reached calls))
  rw [EncoderCall.after_eq]
  exact ⟨t, _, e.readBack, hencode,
    decode_render_of_hasTerm hterm hnames (encode_ok hencode).declared,
    fun v hv => Expr.eval_readBack hv.respectsBool h.equivBoolean⟩

/-! ## Reading a text without let blocks -/

section

variable {declared : Registry} {e : Expr} {x : Variable} {token : List Char}

/-- A leaf that holds a variable is no literal, and its name is that of the variable. -/
theorem of_leaf (h : LeafRead ⟨[], [], declared⟩ token e) (hx : x ∈ e.vars) :
    token ≠ "true".toList ∧ token ≠ "false".toList ∧ Decimal.isNumeral token = false ∧
      unquote token = x.name := by
  cases h with
  | yes | no | numeral => cases hx
  | name hyes hno hnumeral hfind =>
    have hvar : (declared.find? _).map Expr.var = some e := hfind
    obtain ⟨y, hy, rfl⟩ := Option.map_eq_some_iff.1 hvar
    rw [List.mem_singleton.1 hx, Registry.name_of_find? hy]
    exact ⟨hyes, hno, hnumeral, rfl⟩

/-- A text that does not start with a parenthesis is read as a leaf. -/
theorem exists_token_of_wholeTerm {text : List Char} (hstart : (trimStart text).head? ≠ some '(')
    {names : Names} (h : wholeTerm names text = .ok e) :
    ∃ token c, (Cursor.ofText text).token = .ok (token, c) ∧ LeafRead names token e := by
  obtain ⟨c, hterm, -⟩ := exists_term_of_wholeTerm h
  cases termRead_of_term hterm with
  | leaf _ htoken hleaf => exact ⟨_, c, htoken, hleaf⟩
  | leastWord hopen | application hopen =>
    have hhead : (trimStart text).head? = some '(' := congrArg List.head? hopen
    exact absurd hhead hstart

end

/-! ## Unreadable names -/

/-- Where the name of a symbol holds no start of a let block, its written form does not either. -/
theorem inert_chars {name : String} (h : ¬ Marked name.toList) :
    Inert (Atom.symbol name).chars := by
  have hopen : (∀ ch ∈ name.toList, Atom.isSpecial ch = false) → '(' ∉ name.toList :=
    fun hplain hmem => absurd (hplain _ hmem) (by decide)
  rcases chars_symbol_cases name with ⟨-, hchars⟩ | ⟨hplain, -, hchars⟩ | ⟨hplain, -, hchars⟩
  · rw [hchars]
    exact ((Sealed.quoted h).cons_of_ne (by decide)).inert
  · rw [hchars]
    exact Inert.of_not_mem (by simpa using hopen hplain)
  · rw [hchars]
    exact Inert.of_not_mem (hopen hplain)

/-- A symbol that does not look like a let block is decoded as a whole term. -/
theorem decode_render_symbol {name : String} (h : ¬ Marked name.toList) (declared : Registry) :
    decode declared (symbol name).render
      = wholeTerm ⟨[], [], declared⟩ (Atom.symbol name).chars := by
  have hnone : splitAtLet (symbol name).chars = none := splitAtLet_eq_none (inert_chars h)
  rw [decode_render, Decode.inScope_eq, Decode.resolveAll_of_none hnone, pure_bind,
    Decode.outcome_plain]
  rfl

/-- A symbol is never read as a list. -/
theorem head?_trimStart_chars (name : String) :
    (trimStart (Atom.symbol name).chars).head? ≠ some '(' := by
  intro hhead
  have hmem : '(' ∈ (Atom.symbol name).chars :=
    (List.dropWhile_suffix _).subset (List.mem_of_mem_head? hhead)
  rcases chars_symbol_cases name with ⟨-, hchars⟩ | ⟨hplain, -, hchars⟩ | ⟨hplain, -, hchars⟩
  · rw [hchars, trimStart_of_not_isBlank (by decide)] at hhead
    cases hhead
  · rw [hchars, trimStart_of_not_isBlank (by decide)] at hhead
    cases hhead
  · rw [hchars] at hmem
    exact absurd (hplain _ hmem) (by decide)

/-- A name that is read from between pipes is readable. -/
theorem readable_of_special {name : String} (hmark : ¬ Marked name.toList)
    (hpipe : '|' ∉ name.toList) (hspecial : ∃ ch ∈ name.toList, Atom.isSpecial ch = true) :
    Readable name := by
  have hquotable : isQuotable name = true := by
    simpa [isQuotable, hpipe] using hspecial
  have hword : ∀ word : String, (∀ ch ∈ word.toList, Atom.isSpecial ch = false) → name ≠ word := by
    rintro word hword rfl
    obtain ⟨ch, hch, hspecial⟩ := hspecial
    rw [hword ch hch] at hspecial
    cases hspecial
  exact ⟨legible_of_isQuotable hquotable hmark, hword "true" (forall_mem_of_all (by decide)),
    hword "false" (forall_mem_of_all (by decide))⟩

/-- A symbol from which a variable of its name is read is readable. -/
theorem readable_of_wholeTerm {declared : Registry} {e : Expr} {x : Variable}
    (hmark : ¬ Marked x.name.toList) (hx : x ∈ e.vars)
    (h : wholeTerm ⟨[], [], declared⟩ (Atom.symbol x.name).chars = .ok e) : Readable x.name := by
  obtain ⟨token, c, htoken, hleaf⟩ := exists_token_of_wholeTerm (head?_trimStart_chars x.name) h
  obtain ⟨htrue, hfalse, hnumeral, hname⟩ := of_leaf hleaf hx
  have happend : token ++ c.rest = trimStart (Atom.symbol x.name).chars :=
    Cursor.append_of_token htoken
  cases Cursor.tokenRead_of_token htoken with
  | quoted hpipe =>
    -- the token ends at the second pipe, so the name has none
    rw [unquote_quoted] at hname
    have hpipe' : '|' ∉ x.name.toList := by rwa [← hname, String.toList_ofList]
    rcases chars_symbol_cases x.name with ⟨hspecial, -⟩ | ⟨-, hmem, -⟩ | ⟨-, -, hchars⟩
    · exact readable_of_special hmark hpipe' hspecial
    · exact absurd hmem hpipe'
    · rw [hchars] at happend
      have hmem : '|' ∈ trimStart x.name.toList := by simp [← happend]
      exact absurd ((List.dropWhile_suffix _).subset hmem) hpipe'
  | bare hne hhead hdelim =>
    -- the name is a bare token, which holds no blank
    rw [unquote_bare hhead] at hname
    obtain rfl : token = x.name.toList := by rw [← hname, String.toList_ofList]
    obtain ⟨first, more, heq⟩ := List.exists_cons_of_ne_nil hne
    rcases chars_symbol_cases x.name with ⟨-, hchars⟩ | ⟨hplain, -, hchars⟩ | ⟨-, hpipe, -⟩
    · rw [hchars, trimStart_of_not_isBlank (by decide), heq, List.cons_append,
        List.cons.injEq] at happend
      rw [heq] at hhead
      exact absurd (congrArg some happend.1) hhead
    · -- one that holds a double quote stands between pipes
      rw [hchars, trimStart_of_not_isBlank (by decide), heq, List.cons_append,
        List.cons.injEq] at happend
      exact absurd (hplain '"' (by simp [heq, happend.1])) (by decide)
    · refine ⟨⟨?_, hnumeral, hpipe, ?_, hmark⟩, ?_, ?_⟩
      · exact fun hempty => hne (String.toList_eq_nil_iff.2 hempty)
      · rintro ⟨ch, hch, hblank⟩
        rw [(ne_of_not_isDelimiter (hdelim ch hch)).1] at hblank
        cases hblank
      · exact fun heq => htrue (congrArg String.toList heq)
      · exact fun heq => hfalse (congrArg String.toList heq)

/-! ## Names that come back -/

/-- A text is decoded to a formula over the declared variables. -/
theorem mem_of_mem_vars_decode {vs : List Variable} {text : String} {e : Expr}
    (h : decode (.reaching vs) text = .ok e) : ∀ y ∈ e.vars, y ∈ vs := by
  have hmem : .ok e ∈ decodeEach (.reaching vs) [text] := List.mem_singleton.2 h.symm
  have hdecoded := decoded_of_decodeEach hmem
  intro y hy
  have hfind := hdecoded.find?_of_mem_vars y hy
  rw [Registry.find?_reaching] at hfind
  exact List.mem_of_find?_eq_some hfind

/-- **A name that comes back is readable.** -/
theorem readable_of_comesBack {name : String} (h : (Expr.var ⟨name, .bool⟩).ComesBack .empty) :
    Readable name := by
  set x : Variable := ⟨name, .bool⟩ with hx
  obtain ⟨t, enc, back, hencode, hdecode, hvalue⟩ := h
  have hcoherent : Coherent ([] ++ [x]) :=
    coherent_nil.snoc rfl
  have hrun : outcome (Expr.var x).encode .empty = _ :=
    (Expr.HasTerm.var x).outcome_encode hcoherent []
  obtain ⟨ht, henc⟩ := Prod.mk.inj (hencode.symm.trans hrun)
  cases ht
  have hdecode : decode (.reaching [x]) (symbol name).render = .ok back := by
    rw [henc] at hdecode
    exact hdecode
  have hvars : ∀ y ∈ back.vars, y = x := by simpa using mem_of_mem_vars_decode hdecode
  -- a formula without the variable cannot be true and false as the variable is
  have hmem : x ∈ back.vars := by
    by_contra hnone
    have heval : ∀ b : Bool, back.eval (Valuation.empty.set name (.bool b)) = .ok (.bool b) := by
      intro b
      have hset : Valuation.empty.set name (.bool b) x.name = some (.bool b) :=
        Valuation.set_self _ _ _
      rw [hvalue]
      · exact Expr.eval_var_eq_ok_iff.2 hset
      · intro y hy a ha
        rw [List.mem_singleton.1 hy, hset] at ha
        cases ha
        exact ⟨.bool b, rfl, by rw [List.mem_singleton.1 hy]; rfl⟩
    have hsame : back.eval (Valuation.empty.set name (.bool true))
        = back.eval (Valuation.empty.set name (.bool false)) :=
      Expr.eval_congr fun y hy => absurd (hvars y hy ▸ hy) hnone
    rw [heval, heval] at hsame
    cases hsame
  by_cases hmark : Marked name.toList
  · have hagree : Registry.AgreeUnmarked (.reaching [x]) (.reaching []) := by
      intro other hother
      have hne : (x.name == other) = false := by
        rw [beq_eq_false_iff_ne]
        rintro rfl
        exact hother hmark
      rw [Registry.find?_reaching, Registry.find?_reaching, List.find?_cons, hne]
    rw [decode_congr hagree] at hdecode
    cases mem_of_mem_vars_decode hdecode x hmem
  · rw [decode_render_symbol hmark] at hdecode
    exact readable_of_wholeTerm hmark hmem hdecode

/-- **Which names come back.** All well-typed formulas over some names come back, from every session
that agrees with them on the variables, exactly if the names are readable. -/
theorem comesBack_iff_readable (names : String → Prop) :
    (∀ (calls : List EncoderCall) (e : Expr) (s : Smt.Srt), e.HasSort s → e.Named →
        Coherent (EncoderCall.reached calls ++ e.vars) → (∀ x ∈ e.vars, names x.name) →
        e.ComesBack (EncoderCall.after calls)) ↔
      ∀ name, names name → Readable name := by
  constructor
  · intro h name hname
    have hcoherent : Coherent ([] ++ [⟨name, .bool⟩]) := coherent_nil.snoc rfl
    exact readable_of_comesBack (h [] (.var ⟨name, .bool⟩) .bool (.var rfl) (List.forall_mem_nil _)
      hcoherent (List.forall_mem_singleton.2 hname))
  · intro h calls e s hsort hnamed hcoherent hnames
    exact hsort.comesBack hnamed hcoherent fun x hx => h x.name (hnames x hx)

/-- A name with a tab beside a space, with a parenthesis and the word `let`, and one like a
placeholder. -/
theorem comesBack_quoted :
    let x : Variable := ⟨"a\tb (let", .integer⟩
    let y : Variable := ⟨"#let0", .int ⟨some 0, none⟩⟩
    (Expr.compare .ne (.arith .plus (.var x) (.integer (-3))) (.var y)).ComesBack .empty := by
  intro x y
  set e := Expr.compare .ne (.arith .plus (.var x) (.integer (-3))) (.var y)
  have hsort : e.HasSort .bool := .equality rfl (.arith .plus (.var rfl) (.integer (-3))) (.var rfl)
  have hcoherent : Coherent ([] ++ e.vars) := (coherent_nil.snoc (v := x) rfl).snoc (v := y) rfl
  exact (comesBack_iff_readable Readable).2 (fun _ h => h) [] e .bool hsort (List.forall_mem_nil _)
    hcoherent (by decide +kernel)

/-- A variable whose name is a digit is printed bare and comes back as a number, though the name can
be written between pipes. -/
theorem numeral_not_comesBack :
    let e := Expr.var ⟨"1", .bool⟩
    e.HasSort .bool ∧ e.Named ∧ Coherent e.vars ∧
      (∀ x ∈ e.vars, x.name ≠ "" ∧ '|' ∉ x.name.toList ∧ '\\' ∉ x.name.toList ∧
        x.name ≠ "true" ∧ x.name ≠ "false") ∧
      (Encoder.empty.run e.encode).1 = .ok (.symbol "1") ∧
      decode (Encoder.empty.run e.encode).2.declared (Sexp.symbol "1").render = .ok (.integer 1) ∧
      ¬ e.ComesBack .empty := by
  intro e
  have hcoherent : Coherent ([] ++ e.vars) := coherent_nil.snoc rfl
  refine ⟨.var rfl, List.forall_mem_nil _, hcoherent, by decide, rfl, ?_, fun h => ?_⟩
  · exact toOption_eq_some_iff.1 (by decide +kernel)
  · exact absurd (readable_of_comesBack h).1.notNumeral (by decide)

end Interpolants
