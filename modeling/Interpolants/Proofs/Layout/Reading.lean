import Interpolants.Proofs.Decoding.Reading
import Interpolants.Proofs.Layout.Passes

/-!
# Interpolants — reading the texts of a term

The second pass of decoding on a clear text: what is read is the tree that the text holds, whatever
the blanks (`wholeTerm_laid`). The induction follows `Laid`, and carries two statements at once: how
the trees of a text are read as operands, and how they are read behind an opening parenthesis, where
the first of them is the operator.
-/

namespace Interpolants

open Text TokenTree

/-! ## The place of a cursor

A token is read behind blanks, so it makes no difference how many of them there are. -/

namespace Cursor

variable {c c' : Cursor}

/-- Places that differ in blanks only lead to the same place behind them. -/
theorem skipBlanks_congr (htext : c.text = c'.text) (h : trimStart c.rest = trimStart c'.rest) :
    c.skipBlanks = c'.skipBlanks := by
  rw [skipBlanks, skipBlanks, h, goTo, goTo, htext]

/-- The same token is taken at places that differ in blanks only. -/
theorem token_congr (htext : c.text = c'.text) (h : trimStart c.rest = trimStart c'.rest) :
    c.token = c'.token := by
  have hgoTo : ∀ rest, c.goTo rest = c'.goTo rest := fun rest => by rw [goTo, goTo, htext]
  simp only [Cursor.token, skipBlanks_congr htext h, hgoTo]

end Cursor

section

variable {names : Names} {depth limit : Nat} {c : Cursor} {rest : List Char}

/-- A token is read as a leaf. -/
theorem term_leaf {token : List Char} (htoken : TokenForm token) (hrest : Boundary rest)
    (hc : trimStart c.rest = token ++ rest) :
    (term names (depth + 1) c).toOption
      = (TokenTree.read names (leaf token)).map fun e => (e, c.goTo rest) := by
  rw [term_of_token htoken hc, toOption_bind, Cursor.token_of_form htoken hrest hc]
  show ((names.leaf token) >>= _).toOption = (names.leaf token).toOption.map _
  rw [toOption_bind]
  cases (names.leaf token).toOption <;> rfl

/-- At a closing parenthesis there are no more operands. -/
theorem operands_close {read : Cursor → Except DecodeError (Expr × Cursor)}
    (hc : trimStart c.rest = ')' :: rest) :
    operands read (limit + 1) c = .ok ([], c.goTo rest) := by
  rw [operands, Cursor.skipBlanks_rest, hc]
  rfl

/-- An operand is read where no parenthesis closes. -/
theorem operands_cons {read : Cursor → Except DecodeError (Expr × Cursor)} {ch : Char}
    {cs : List Char} (hc : trimStart c.rest = ch :: cs) (hclose : ch ≠ ')') :
    (operands read (limit + 1) c).toOption =
      (read c.skipBlanks).toOption.bind fun first =>
        (operands read limit first.2).toOption.map
          fun others => (first.1 :: others.1, others.2) := by
  rw [operands_of_head hc hclose, toOption_bind]
  congr 1
  funext first
  rw [toOption_bind]
  cases (operands read limit first.2).toOption <;> rfl

/-- The magnitude of the least signed word is recognised if it is the only operand. -/
theorem leastWord?_laid {ts : List TokenTree} {cs : List Char} (h : Laid .clear ts cs)
    (hc : c.rest = cs ++ ')' :: rest) :
    c.leastWord? = if isLeast ts then some (c.goTo rest) else none := by
  unfold Cursor.leastWord?
  cases ts with
  | nil =>
    have hclose : trimStart c.rest = ')' :: rest := by
      rw [hc, h.trimStart_of_nil, trimStart_close]
    rw [token_close hclose]
    rfl
  | cons t ts =>
    obtain ⟨own, more, hown, hmore, hparted, -, hfront⟩ := h.front
    have htrim : trimStart c.rest = own ++ (more ++ ')' :: rest) := by rw [hc, hfront]
    cases t with
    | node items =>
      -- a list among the operands is no token
      obtain ⟨inside, rfl, -⟩ := hown
      have herror := Cursor.token_of_delimiter (c := c) (by
        rw [htrim]
        rintro _ ⟨⟩
        exact isDelimiter_open)
      rw [herror]
      rfl
    | leaf token =>
      obtain ⟨rfl, htoken⟩ := hown
      rw [Cursor.token_of_form (Style.clear_token htoken) (hmore.boundary_close (hparted rfl) rest)
        htrim]
      cases ts with
      | nil =>
        have heat : (c.goTo (more ++ ')' :: rest)).eat? ')' = some (c.goTo rest) :=
          Cursor.eat?_of_head (hmore.trimStart_of_nil _ |>.trans (trimStart_close rest))
        simp only [heat]
        rfl
      | cons t' ts =>
        obtain ⟨own', more', hown', -, -, -, hfront'⟩ := hmore.front
        obtain ⟨ch, tail, rfl, -, hclose, -⟩ := hown'.head
        have heat : (c.goTo (more ++ ')' :: rest)).eat? ')' = none := by
          refine Cursor.eat?_of_ne fun next hnext => ?_
          rw [Cursor.goTo_rest, hfront'] at hnext
          cases hnext
          exact hclose
        simp only [heat, ite_self]
        rfl

end

/-! ## Reading trees -/

section

variable {names : Names} {ts : List TokenTree} {cs : List Char}

section

variable {depth : Nat} {c c' : Cursor} {op more : List Char}
  (hc : trimStart c.rest = '(' :: more) (htoken : (c.goTo more).token = .ok (op, c'))

include hc htoken

/-- The least signed word has no positive counterpart, so it is read at once. -/
theorem term_of_least {c'' : Cursor}
    (hleast : (if op = ['-'] then c'.leastWord? else none) = some c'') :
    term names (depth + 1) c = .ok (.integer Int64.minValue, c'') := by
  rw [term_open hc, htoken]
  simp only [bind, Except.bind, hleast]
  rfl

/-- Any other application is read through its operands. -/
theorem term_of_operands (hleast : (if op = ['-'] then c'.leastWord? else none) = none) :
    (term names (depth + 1) c).toOption =
      (operands (term names depth) (c'.rest.length + 1) c').toOption.bind fun read =>
        (applyNamed (String.ofList op) read.1).toOption.map fun e => (e, read.2) := by
  have hstep : term names (depth + 1) c =
      operands (term names depth) (c'.rest.length + 1) c' >>= fun read =>
        applyNamed (String.ofList op) read.1 >>= fun e => pure (e, read.2) := by
    rw [term_open hc, htoken]
    simp only [bind, Except.bind, hleast]
  rw [hstep, toOption_bind]
  congr 1
  funext read
  rw [toOption_bind]
  cases (applyNamed (String.ofList op) read.1).toOption <;> rfl

end

/-- An application whose operator has been read is read through its operands. -/
theorem term_operator {depth : Nat} {c : Cursor} {rest op : List Char} (hop : TokenForm op)
    (h : Laid .clear ts cs) (hparted : Parted .clear ts cs)
    (hoperands : ∀ limit c, ts.length < limit → c.rest = cs ++ ')' :: rest →
      (operands (term names depth) limit c).toOption
        = (readAll names ts).map fun es => (es, c.goTo rest))
    (hc : trimStart c.rest = '(' :: (op ++ (cs ++ ')' :: rest))) :
    (term names (depth + 1) c).toOption
      = (TokenTree.read names (node (leaf op :: ts))).map fun e => (e, c.goTo rest) := by
  have htoken : (c.goTo (op ++ (cs ++ ')' :: rest))).token = .ok (op, c.goTo (cs ++ ')' :: rest)) :=
    Cursor.token_of_form hop (h.boundary_close hparted rest) (hop.trimStart _)
  have hleast := leastWord?_laid (c := c.goTo (cs ++ ')' :: rest)) h rfl
  rw [TokenTree.read]
  by_cases hcase : op = ['-'] ∧ isLeast ts = true
  · rw [if_pos hcase]
    rw [if_pos hcase.2] at hleast
    rw [term_of_least hc htoken (by rw [if_pos hcase.1]; exact hleast)]
    rfl
  · -- behind another operator, or before other operands, there is no least word
    have hnone : (if op = ['-'] then (c.goTo (cs ++ ')' :: rest)).leastWord? else none) = none := by
      by_cases hminus : op = ['-']
      · rw [if_pos hminus, hleast, if_neg fun hleast => hcase ⟨hminus, hleast⟩]
      · rw [if_neg hminus]
    have hlimit : ts.length < (cs ++ ')' :: rest).length + 1 := by
      have := h.length_le
      rw [List.length_append]
      omega
    rw [if_neg hcase, term_of_operands hc htoken hnone, Cursor.goTo_rest,
      hoperands _ (c.goTo _) hlimit rfl]
    cases readAll names ts <;> rfl

/-- Where a tree is read in front, and then some others, all of them are read as operands. -/
theorem operands_of_read {read : Cursor → Except DecodeError (Expr × Cursor)} {limit : Nat}
    {c c' c'' : Cursor} {t : TokenTree} {ch : Char} {more : List Char}
    (hc : trimStart c.rest = ch :: more) (hclose : ch ≠ ')')
    (hfirst : (read c.skipBlanks).toOption = (t.read names).map fun e => (e, c'))
    (hothers : (operands read limit c').toOption = (readAll names ts).map fun es => (es, c'')) :
    (operands read (limit + 1) c).toOption = (readAll names (t :: ts)).map fun es => (es, c'') := by
  rw [operands_cons hc hclose, hfirst, readAll]
  cases t.read names with
  | none => rfl
  | some e =>
    show Option.map _ (operands read limit c').toOption = _
    rw [hothers]
    cases readAll names ts <;> rfl

/-- A token among operands is read, and then the others. -/
theorem operands_leaf {depth limit : Nat} {c c' : Cursor} {token rest : List Char}
    (htoken : TokenForm token) (hrest : Boundary rest) (hc : trimStart c.rest = token ++ rest)
    (hothers : (operands (term names (depth + 1)) limit (c.skipBlanks.goTo rest)).toOption
      = (readAll names ts).map fun es => (es, c')) :
    (operands (term names (depth + 1)) (limit + 1) c).toOption
      = (readAll names (leaf token :: ts)).map fun es => (es, c') := by
  have hskip : trimStart c.skipBlanks.rest = token ++ rest := by
    rw [Cursor.skipBlanks_rest, hc, htoken.trimStart]
  have hfirst : (term names (depth + 1) c.skipBlanks).toOption
      = (TokenTree.read names (leaf token)).map fun e => (e, c.skipBlanks.goTo rest) :=
    term_leaf htoken hrest hskip
  obtain ⟨ch, tail, rfl, hdelim⟩ := htoken.exists_cons
  obtain ⟨-, -, hclose⟩ := ne_of_not_isDelimiter hdelim
  exact operands_of_read hc hclose hfirst hothers

/-- In front of a closing parenthesis a text is read as operands: its trees. -/
def ReadsOperands (names : Names) (ts : List TokenTree) (cs : List Char) : Prop :=
  ∀ (depth limit : Nat) (c : Cursor) (rest : List Char), cs.length ≤ depth → ts.length < limit →
    trimStart c.rest = trimStart (cs ++ ')' :: rest) →
    (operands (term names depth) limit c).toOption
      = (readAll names ts).map fun es => (es, c.goTo rest)

/-- Between parentheses a text is read as a term: the list of its trees. -/
def ReadsList (names : Names) (ts : List TokenTree) (cs : List Char) : Prop :=
  ∀ (depth : Nat) (c : Cursor) (rest : List Char), cs.length ≤ depth →
    trimStart c.rest = '(' :: (cs ++ ')' :: rest) →
    (term names (depth + 1) c).toOption
      = (TokenTree.read names (node ts)).map fun e => (e, c.goTo rest)

/-- No text holds no operands. -/
theorem readsOperands_nil : ReadsOperands names [] [] := by
  intro depth limit c rest _ hlimit hc
  obtain _ | limit := limit
  · omega
  rw [List.nil_append, trimStart_close] at hc
  rw [operands_close hc]
  rfl

/-- An empty list has no operator. -/
theorem readsList_nil : ReadsList names [] [] := fun _ _ rest _ hc =>
  term_unnamed hc (token_close (trimStart_close rest))

section

variable {b : Char} (hb : isBlank b = true)

include hb

theorem trimStart_blank (cs : List Char) : trimStart (b :: cs) = trimStart cs :=
  trimStart_append (List.forall_mem_singleton.2 hb) cs

/-- A blank in front of operands makes no difference. -/
theorem ReadsOperands.blank (h : ReadsOperands names ts cs) : ReadsOperands names ts (b :: cs) := by
  intro depth limit c rest hdepth hlimit hc
  rw [List.cons_append, trimStart_blank hb] at hc
  exact h depth limit c rest (by rw [List.length_cons] at hdepth; omega) hlimit hc

/-- The same term is read as without the blank behind the parenthesis. -/
theorem ReadsList.blank (h : ReadsList names ts cs) : ReadsList names ts (b :: cs) := by
  intro depth c rest hdepth hc
  have hterm := h depth (c.goTo ('(' :: (cs ++ ')' :: rest))) rest
    (by rw [List.length_cons] at hdepth; omega) (trimStart_of_not_isBlank (by decide) _)
  have htoken : (c.goTo (b :: cs ++ ')' :: rest)).token = (c.goTo (cs ++ ')' :: rest)).token :=
    Cursor.token_congr rfl (trimStart_blank hb _)
  rw [term_open hc, htoken]
  rw [term_open (trimStart_of_not_isBlank (by decide) _)] at hterm
  exact hterm

end

section

variable {token : List Char} (htoken : TokenForm token)

include htoken

/-- A token in front of operands is read as one more of them. -/
theorem ReadsOperands.leaf (hbehind : ∀ rest, Boundary (cs ++ ')' :: rest))
    (h : ReadsOperands names ts cs) : ReadsOperands names (leaf token :: ts) (token ++ cs) := by
  intro depth limit c rest hdepth hlimit hc
  have hlength : 0 < token.length := List.length_pos_iff.2 htoken.ne_nil
  rw [List.length_append] at hdepth
  obtain _ | depth := depth
  · omega
  obtain _ | limit := limit
  · omega
  rw [List.append_assoc, htoken.trimStart] at hc
  exact operands_leaf htoken (hbehind rest) hc
    (h (depth + 1) limit (c.skipBlanks.goTo _) rest (by omega) (by simpa using hlimit) rfl)

/-- Behind a token the trees are read as its operands. -/
theorem ReadsOperands.applied (hlaid : Laid .clear ts cs) (hparted : Parted .clear ts cs)
    (h : ReadsOperands names ts cs) :
    ReadsList names (TokenTree.leaf token :: ts) (token ++ cs) := by
  intro depth c rest hdepth hc
  rw [List.append_assoc] at hc
  refine term_operator htoken hlaid hparted (fun limit c hlimit hrest => ?_) hc
  exact h depth limit c rest (by rw [List.length_append] at hdepth; omega) hlimit (by rw [hrest])

end

section

variable {items : List TokenTree} {inside : List Char}

/-- A list in front of operands is read as one more of them, if it is read as a term. -/
theorem ReadsOperands.node (hinside : ReadsList names items inside)
    (h : ReadsOperands names ts cs) :
    ReadsOperands names (node items :: ts) ('(' :: inside ++ ')' :: cs) := by
  intro depth limit c rest hdepth hlimit hc
  simp only [List.length_append, List.length_cons] at hdepth
  obtain _ | depth := depth
  · omega
  obtain _ | limit := limit
  · omega
  rw [List.append_assoc, List.cons_append, List.cons_append,
    trimStart_of_not_isBlank (by decide)] at hc
  have hskip : trimStart c.skipBlanks.rest = '(' :: (inside ++ ')' :: (cs ++ ')' :: rest)) := by
    rw [Cursor.skipBlanks_rest, hc, trimStart_of_not_isBlank (by decide)]
  exact operands_of_read hc (by decide) (hinside depth c.skipBlanks _ (by omega) hskip)
    (h (depth + 1) limit (c.skipBlanks.goTo _) rest (by omega) (by simpa using hlimit) rfl)

/-- A list in front is no operator. -/
theorem readsList_node :
    ReadsList names (TokenTree.node items :: ts) ('(' :: inside ++ ')' :: cs) := by
  intro depth c rest _ hc
  refine term_unnamed hc (Cursor.token_of_delimiter (c := c.goTo _) fun next hnext => ?_)
  rw [Cursor.goTo_rest, List.append_assoc, List.cons_append,
    trimStart_of_not_isBlank (by decide)] at hnext
  cases hnext
  exact isDelimiter_open

end

/-- **The trees of a clear text are what is read**, as operands and between parentheses. -/
theorem reads_laid (h : Laid .clear ts cs) : ReadsOperands names ts cs ∧ ReadsList names ts cs := by
  induction h with
  | nil => exact ⟨readsOperands_nil, readsList_nil⟩
  | blank hb _ ih => exact ⟨ih.1.blank hb, ih.2.blank hb⟩
  | leaf htoken h hparted ih =>
    have hform := Style.clear_token htoken
    exact ⟨ih.1.leaf hform (h.boundary_close (hparted rfl)), ih.1.applied hform h (hparted rfl)⟩
  | node _ _ _ _ ihinside ih => exact ⟨ih.1.node ihinside.2, readsList_node⟩

end

/-- What a text is read as: its only tree. -/
def readOne (names : Names) : List TokenTree → Option Expr
  | [t] => TokenTree.read names t
  | _ => none

/-- **A clear text is read as the tree that it holds.** One that holds none, or more than one, is
refused. -/
theorem wholeTerm_laid (names : Names) {ts : List TokenTree} {cs : List Char}
    (h : Laid .clear ts cs) :
    (wholeTerm names cs).toOption = readOne names ts := by
  cases ts with
  | nil => exact wholeTerm_blank names h.of_nil
  | cons t ts =>
    obtain ⟨own, more, hown, hmore, hparted, hlength, hfront⟩ := h.front
    have hstart := hfront []
    rw [List.append_nil, List.append_nil] at hstart
    have hfirst : (term names (cs.length + 1) (Cursor.ofText cs)).toOption
        = (TokenTree.read names t).map fun e => (e, (Cursor.ofText cs).goTo more) := by
      cases t with
      | leaf token =>
        obtain ⟨rfl, htoken⟩ := hown
        exact term_leaf (Style.clear_token htoken) (hmore.boundary (hparted rfl)) hstart
      | node items =>
        obtain ⟨inside, rfl, hitems, -⟩ := hown
        simp only [List.length_append, List.length_cons] at hlength
        exact (reads_laid hitems).2 cs.length _ more (by omega) (hstart.trans (by simp))
    rw [wholeTerm, toOption_bind, hfirst]
    cases ts with
    | nil =>
      have hend : trimStart more = [] := List.dropWhile_eq_nil_iff.2 hmore.of_nil
      show Option.bind (Option.map _ (TokenTree.read names t)) _ = TokenTree.read names t
      cases TokenTree.read names t with
      | none => rfl
      | some e =>
        show (if (trimStart more).isEmpty then _ else _ : Except DecodeError Expr).toOption = some e
        rw [hend]
        rfl
    -- a second tree is left over, unless the first one is refused already
    | cons t' ts =>
      obtain ⟨own', more', hown', -, -, -, hfront'⟩ := hmore.front
      obtain ⟨ch, tail, rfl, -⟩ := hown'.head
      have htrailing := hfront' []
      rw [List.append_nil] at htrailing
      cases TokenTree.read names t with
      | none => rfl
      | some e =>
        show (if (trimStart more).isEmpty then _ else _ : Except DecodeError Expr).toOption = none
        rw [htrailing]
        rfl

end Interpolants
