import Interpolants.Proofs.Layout.Reading

/-!
# Interpolants — the parts of let blocks in any layout

`LetBlock.ofText` on a clear text of an application of `let`. Either the application has the form of
a let block up to its body, and the parts are texts of its bound terms and of its body, or a flaw
takes the place of the body (`ofText_laid`). The entries are read from the front of the text, as
`Laid` is built.
-/

namespace Interpolants

open Text TokenTree

/-- An entry of a let block: its name, its term and the text of the term. -/
structure Entry where
  name : List Char
  term : TokenTree
  text : List Char

namespace Entry

def tree (entry : Entry) : TokenTree :=
  node [leaf entry.name, entry.term]

/-- The name with the text that it is bound to. -/
def binding (entry : Entry) : String × List Char :=
  (unquote entry.name, entry.text)

/-- The text of an entry's term is a clear text of it, shorter than a given one. -/
def Fits (length : Nat) (entry : Entry) : Prop :=
  Holds .clear entry.term entry.text ∧ entry.text.length < length

end Entry

section

variable {c : Cursor} {t : TokenTree} {ts items : List TokenTree} {cs inside rest : List Char}

/-! ## Names and bound terms -/

/-- The text of the first of some trees is cut out. -/
theorem span_laid (h : Laid .clear (t :: ts) cs)
    (hc : trimStart c.rest = trimStart (cs ++ ')' :: rest)) :
    ∃ own more, Holds .clear t own ∧ Laid .clear ts more ∧ own.length + more.length ≤ cs.length ∧
      c.span = .ok (own, c.goTo (more ++ ')' :: rest)) := by
  obtain ⟨own, more, hown, hmore, hparted, hlength, hfront⟩ := h.front
  rw [hfront] at hc
  refine ⟨own, more, hown, hmore, hlength, ?_⟩
  cases t with
  | leaf token =>
    obtain ⟨rfl, htoken⟩ := hown
    have hform := Style.clear_token htoken
    -- a token starts with no parenthesis, so what is spanned is this token
    have hhead : (trimStart c.rest).head? ≠ some '(' := by
      obtain ⟨ch, tail, rfl, hdelim⟩ := hform.exists_cons
      obtain ⟨-, hopen, -⟩ := ne_of_not_isDelimiter hdelim
      rw [hc]
      exact fun heq => hopen (Option.some.inj heq)
    rw [Cursor.span_of_ne hhead]
    exact Cursor.token_of_form hform (hmore.boundary_close (hparted rfl) rest) hc
  | node items =>
    obtain ⟨inside, rfl, hitems, -⟩ := hown
    exact Cursor.span_of_some hc (enclosed_parens hitems.balanced (more ++ ')' :: rest))

/-- A name is read if the first of some trees is one. -/
theorem token_laid (h : Laid .clear ts cs) (hc : trimStart c.rest = trimStart (cs ++ ')' :: rest)) :
    (∃ name others more, ts = leaf name :: others ∧ Laid .clear others more ∧
      more.length ≤ cs.length ∧ c.token = .ok (name, c.goTo (more ++ ')' :: rest))) ∨
    ((∀ name others, ts ≠ leaf name :: others) ∧ ∃ e, c.token = .error e) := by
  cases ts with
  | nil =>
    rw [h.trimStart_of_nil, trimStart_close] at hc
    exact Or.inr ⟨nofun, _, token_close hc⟩
  | cons t others =>
    obtain ⟨own, more, hown, hmore, hparted, hlength, hfront⟩ := h.front
    rw [hfront] at hc
    cases t with
    | leaf name =>
      obtain ⟨rfl, htoken⟩ := hown
      exact Or.inl ⟨own, others, more, rfl, hmore, by omega,
        Cursor.token_of_form (Style.clear_token htoken)
          (hmore.boundary_close (hparted rfl) rest) hc⟩
    | node items =>
      obtain ⟨inside, rfl, -⟩ := hown
      refine Or.inr ⟨nofun, _, Cursor.token_of_delimiter fun next hnext => ?_⟩
      rw [hc] at hnext
      cases hnext
      exact isDelimiter_open

/-! ## Entries -/

/-- A list starts an entry if its first tree is a name and there is a second. -/
theorem binding_laid (h : Laid .clear items inside)
    (hc : trimStart c.rest = '(' :: (inside ++ ')' :: rest)) :
    (∃ (entry : Entry) (others : List TokenTree) (more : List Char),
      items = leaf entry.name :: entry.term :: others ∧ entry.Fits (inside.length + 1) ∧
      Laid .clear others more ∧
      LetBlock.binding c = .ok (entry.binding, c.goTo (more ++ ')' :: rest))) ∨
    ((∀ name bound others, items ≠ leaf name :: bound :: others) ∧
      ∃ e, LetBlock.binding c = .error e) := by
  have hopen : LetBlock.binding c =
      (c.goTo (inside ++ ')' :: rest)).token >>= fun name =>
        name.2.span >>= fun bound => pure ((unquote name.1, bound.1), bound.2) := by
    rw [LetBlock.binding, Cursor.expect_of_head hc]
    rfl
  rw [hopen]
  rcases token_laid (c := c.goTo (inside ++ ')' :: rest)) h rfl with
    ⟨name, others, more, rfl, hmore, hlength, htoken⟩ | ⟨hname, e, htoken⟩
  · rw [htoken]
    cases others with
    | nil =>
      -- behind the name the list ends
      have hspan := span_close (c := c.goTo (more ++ ')' :: rest))
        ((hmore.trimStart_of_nil _).trans (trimStart_close rest))
      refine Or.inr ⟨by rintro _ _ _ ⟨⟩, ?_⟩
      show ∃ e, ((c.goTo (more ++ ')' :: rest)).span >>= _) = .error e
      rw [hspan]
      exact ⟨_, rfl⟩
    | cons bound others =>
      obtain ⟨own, left, hown, hleft, hlength', hspan⟩ :=
        span_laid (c := c.goTo (more ++ ')' :: rest)) hmore
          (Eq.refl (trimStart (more ++ ')' :: rest)))
      refine Or.inl ⟨⟨name, bound, own⟩, others, left, rfl, ⟨hown, ?_⟩, hleft, ?_⟩
      · show own.length < _
        omega
      · show ((c.goTo (more ++ ')' :: rest)).span >>= _) = _
        rw [hspan]
        rfl
  · rw [htoken]
    refine Or.inr ⟨fun name bound others heq => hname name _ heq, e, rfl⟩

/-- A list that stands among the entries is one, or there is a flaw. -/
theorem bindingsAt_node {limit : Nat} (h : Laid .clear items inside)
    (hc : trimStart c.rest = '(' :: (inside ++ ')' :: rest)) :
    (∃ entry : Entry, node items = entry.tree ∧ entry.Fits (inside.length + 1) ∧
      LetBlock.bindingsAt (limit + 1) c
        = ⟨entry.binding :: (LetBlock.bindingsAt limit (c.goTo rest)).bindings,
            (LetBlock.bindingsAt limit (c.goTo rest)).body⟩) ∨
    ((∀ entry : Entry, node items ≠ entry.tree) ∧
      (LetBlock.bindingsAt (limit + 1) c).body.toOption = none) := by
  have heat : c.eat? ')' = none := by
    refine Cursor.eat?_of_ne fun next hnext => ?_
    rw [hc] at hnext
    cases hnext
    decide
  rcases binding_laid h hc with
    ⟨entry, others, more, rfl, hfits, hmore, hbinding⟩ | ⟨hform, e, herror⟩
  · cases others with
    | nil =>
      have hclose : (c.goTo (more ++ ')' :: rest)).expect ')' = .ok (c.goTo rest) :=
        Cursor.expect_of_head ((hmore.trimStart_of_nil _).trans (trimStart_close rest))
      exact Or.inl ⟨entry, rfl, hfits, LetBlock.bindingsAt_of_entry heat hbinding hclose⟩
    | cons extra others =>
      -- it is the closing parenthesis behind the term that is missing
      obtain ⟨own, left, hown, -, -, -, hfront⟩ := hmore.front
      obtain ⟨ch, tail, rfl, -, hne, -⟩ := hown.head
      have hmissing : ∀ next ∈ (trimStart (more ++ ')' :: rest)).head?, next ≠ ')' := by
        rw [hfront]
        rintro next ⟨⟩
        exact hne
      have hclose := Cursor.expect_of_ne (c := c.goTo (more ++ ')' :: rest)) hmissing
      refine Or.inr ⟨fun entry' heq => ?_, ?_⟩
      · simp [Entry.tree] at heq
      · rw [LetBlock.bindingsAt_of_unclosed heat hbinding hclose]
        rfl
  · refine Or.inr ⟨fun entry heq => ?_, ?_⟩
    · rw [Entry.tree, node.injEq] at heq
      exact hform _ _ _ heq
    · rw [LetBlock.bindingsAt_of_flaw heat herror]
      rfl

/-- No entry starts with a token. -/
theorem bindingsAt_leaf {token more : List Char} (htoken : TokenForm token)
    (hc : trimStart c.rest = token ++ more) (limit : Nat) :
    (LetBlock.bindingsAt (limit + 1) c).body.toOption = none := by
  obtain ⟨ch, tail, rfl, hdelim⟩ := htoken.exists_cons
  obtain ⟨-, hopen, hclose⟩ := ne_of_not_isDelimiter hdelim
  have hnext : ∀ next ∈ (trimStart c.rest).head?, next = ch := by
    rintro next hnext
    rw [hc] at hnext
    cases hnext
    rfl
  have heat : c.eat? ')' = none := Cursor.eat?_of_ne fun next h => hnext next h ▸ hclose
  have hexpect : c.expect '(' = .error _ := Cursor.expect_of_ne fun next h => hnext next h ▸ hopen
  have hentry : LetBlock.binding c = .error (c.skipBlanks.flaw (.expected '(')) := by
    rw [LetBlock.binding, hexpect]
    rfl
  rw [LetBlock.bindingsAt_of_flaw heat hentry]
  rfl

/-- In front of a closing parenthesis a text is read as the bindings of a let block if its trees are
entries, and the body is what stands behind them. Else there is a flaw. -/
def ReadsBindings (ts : List TokenTree) (cs : List Char) : Prop :=
  ∀ (c : Cursor) (limit : Nat) (body : List Char), ts.length < limit →
    trimStart c.rest = trimStart (cs ++ ')' :: (body ++ [')'])) →
    (∃ entries : List Entry, ts = entries.map Entry.tree ∧
      (∀ entry ∈ entries, entry.Fits cs.length) ∧
      LetBlock.bindingsAt limit c = ⟨entries.map Entry.binding, .ok body⟩) ∨
    ((∀ entries : List Entry, ts ≠ entries.map Entry.tree) ∧
      (LetBlock.bindingsAt limit c).body.toOption = none)

/-- A list of entries starts with one and goes on with them. -/
theorem cons_ne_map_tree {t : TokenTree}
    (h : (∀ entry : Entry, t ≠ entry.tree) ∨ ∀ entries : List Entry, ts ≠ entries.map Entry.tree)
    (entries : List Entry) : t :: ts ≠ entries.map Entry.tree := by
  cases entries with
  | nil => nofun
  | cons entry entries =>
    intro heq
    obtain ⟨hfirst, hothers⟩ := List.cons.inj heq
    exact h.elim (fun hne => hne entry hfirst) fun hne => hne entries hothers

/-- No text is read as no bindings. -/
theorem readsBindings_nil : ReadsBindings [] [] := by
  intro c limit body hlimit hc
  obtain _ | limit := limit
  · omega
  rw [List.nil_append, trimStart_close] at hc
  exact Or.inl ⟨[], rfl, nofun, bindingsAt_close hc⟩

/-- A blank in front of bindings makes no difference. -/
theorem ReadsBindings.blank {b : Char} (hb : isBlank b = true) (h : ReadsBindings ts cs) :
    ReadsBindings ts (b :: cs) := by
  intro c limit body hlimit hc
  rw [List.cons_append, trimStart_blank hb] at hc
  rcases h c limit body hlimit hc with ⟨entries, rfl, hfits, hbindings⟩ | hflaw
  · refine Or.inl ⟨entries, rfl, fun entry he => ⟨(hfits entry he).1, ?_⟩, hbindings⟩
    have := (hfits entry he).2
    rw [List.length_cons]
    omega
  · exact Or.inr hflaw

/-- A text that starts with a token is not read as bindings. -/
theorem readsBindings_leaf {token : List Char} (htoken : TokenForm token) :
    ReadsBindings (leaf token :: ts) (token ++ cs) := by
  intro c limit body hlimit hc
  obtain _ | limit := limit
  · omega
  rw [List.append_assoc, htoken.trimStart] at hc
  exact Or.inr ⟨cons_ne_map_tree (Or.inl fun entry heq => by cases heq),
    bindingsAt_leaf htoken hc limit⟩

/-- A list in front of bindings is read as one more binding, or is a flaw. -/
theorem ReadsBindings.node (hitems : Laid .clear items inside) (h : ReadsBindings ts cs) :
    ReadsBindings (node items :: ts) ('(' :: inside ++ ')' :: cs) := by
  intro c limit body hlimit hc
  obtain _ | limit := limit
  · omega
  have hopen : trimStart c.rest = '(' :: (inside ++ ')' :: (cs ++ ')' :: (body ++ [')']))) := by
    rw [hc, List.cons_append, List.cons_append, trimStart_of_not_isBlank (by decide),
      List.append_assoc, List.cons_append]
  -- the first list is an entry or not, and what follows is entries or not
  rcases bindingsAt_node hitems hopen with ⟨entry, hentry, hfirst, hstep⟩ | ⟨hne, hflaw⟩
  · rw [hstep]
    rcases h (c.goTo _) limit body (by simpa using hlimit) rfl with
      ⟨entries, rfl, hfits, hbindings⟩ | ⟨hne, hflaw⟩
    · -- the texts of all terms are shorter than the whole
      refine Or.inl ⟨entry :: entries, by rw [hentry]; rfl, ?_, by rw [hbindings]; rfl⟩
      simp only [List.length_append, List.length_cons]
      refine List.forall_mem_cons.2 ⟨⟨hfirst.1, ?_⟩, fun entry' he => ⟨(hfits entry' he).1, ?_⟩⟩
      · have := hfirst.2
        omega
      · have := (hfits entry' he).2
        omega
    · exact Or.inr ⟨cons_ne_map_tree (Or.inr hne), hflaw⟩
  · exact Or.inr ⟨cons_ne_map_tree (Or.inl hne), hflaw⟩

/-- **The bindings of a let block are its entries**, and its body is what stands behind them. A list
that holds anything but entries ends in a flaw. -/
theorem bindingsAt_laid (h : Laid .clear ts cs) : ReadsBindings ts cs := by
  induction h with
  | nil => exact readsBindings_nil
  | blank hb _ ih => exact ih.blank hb
  | leaf htoken => exact readsBindings_leaf (Style.clear_token htoken)
  | node hitems _ _ _ _ ih => exact ih.node hitems

/-! ## Blocks -/

/-- Behind the word `let` a list has to follow. -/
theorem header_laid {more : List Char} (h : Laid .clear ts more) (hparted : Parted .clear ts more)
    (hc : trimStart c.rest = '(' :: ("let".toList ++ (more ++ [')']))) :
    (∃ items inside others body, ts = node items :: others ∧ Laid .clear items inside ∧
      Laid .clear others body ∧ inside.length + body.length < more.length ∧
      LetBlock.header c = .ok (c.goTo (inside ++ ')' :: (body ++ [')'])))) ∨
    ((∀ items others, ts ≠ node items :: others) ∧ ∃ e, LetBlock.header c = .error e) := by
  have hlet : TokenForm "let".toList :=
    .bare (by decide) (by decide) (forall_mem_of_all (by decide))
  -- the parenthesis and the word are there, so only the parenthesis of the bindings may be missing
  have hheader : LetBlock.header c = (c.goTo (more ++ [')'])).expect '(' := by
    have htoken := Cursor.token_of_form (c := c.goTo ("let".toList ++ (more ++ [')']))) hlet
      (h.boundary_close hparted []) (hlet.trimStart _)
    rw [LetBlock.header, Cursor.expect_of_head hc]
    exact congrArg (fun result => result >>= fun read => read.2.expect '(') htoken
  rw [hheader]
  cases ts with
  | nil =>
    refine Or.inr ⟨by rintro _ _ ⟨⟩, _, Cursor.expect_of_ne fun next hnext => ?_⟩
    rw [Cursor.goTo_rest, h.trimStart_of_nil, trimStart_close] at hnext
    cases hnext
    decide
  | cons t others =>
    obtain ⟨own, body, hown, hbody, -, hlength, hfront⟩ := h.front
    cases t with
    | leaf token =>
      obtain ⟨rfl, htoken⟩ := hown
      obtain ⟨ch, tail, rfl, hdelim⟩ := (Style.clear_token htoken).exists_cons
      obtain ⟨-, hopen, -⟩ := ne_of_not_isDelimiter hdelim
      refine Or.inr ⟨by rintro _ _ ⟨⟩, _, Cursor.expect_of_ne fun next hnext => ?_⟩
      rw [Cursor.goTo_rest, hfront] at hnext
      cases hnext
      exact hopen
    | node items =>
      obtain ⟨inside, rfl, hitems, -⟩ := hown
      simp only [List.length_append, List.length_cons] at hlength
      exact Or.inl ⟨items, inside, others, body, rfl, hitems, hbody, by omega,
        Cursor.expect_of_head ((hfront [')']).trans (by simp))⟩

/-- **The parts of a let block are its bound terms and its body.** Any other application of `let` is
read as some bindings before a flaw. -/
theorem ofText_laid {more : List Char} (h : Laid .clear ts more) (hparted : Parted .clear ts more) :
    (∃ (entries : List Entry) (others : List TokenTree) (body : List Char),
      ts = node (entries.map Entry.tree) :: others ∧
      (∀ entry ∈ entries, entry.Fits more.length) ∧ Laid .clear others body ∧
      body.length ≤ more.length ∧
      LetBlock.ofText ('(' :: ("let".toList ++ more) ++ [')'])
        = ⟨entries.map Entry.binding, .ok body⟩) ∨
    ((∀ (entries : List Entry) (others : List TokenTree),
        ts ≠ node (entries.map Entry.tree) :: others) ∧
      (LetBlock.ofText ('(' :: ("let".toList ++ more) ++ [')'])).body.toOption = none) := by
  have hstart : trimStart (Cursor.ofText ('(' :: ("let".toList ++ more) ++ [')'])).rest
      = '(' :: ("let".toList ++ (more ++ [')'])) := by
    rw [Cursor.ofText, List.cons_append, trimStart_of_not_isBlank (by decide), List.append_assoc]
  rw [LetBlock.ofText]
  rcases header_laid h hparted hstart with
    ⟨items, inside, others, body, rfl, hitems, hbody, hlength, hheader⟩ | ⟨hne, e, hheader⟩
  · rw [hheader]
    have hlimit : items.length < ('(' :: ("let".toList ++ more) ++ [')']).length + 1 := by
      have := hitems.length_le
      simp only [List.length_append, List.length_cons]
      omega
    -- the bindings are read up to the parenthesis behind them, and all that follows is the body
    rcases bindingsAt_laid hitems (Cursor.goTo _ (inside ++ ')' :: (body ++ [')']))) _ body hlimit
      rfl with
      ⟨entries, rfl, hfits, hbindings⟩ | ⟨hne, hflaw⟩
    · refine Or.inl ⟨entries, others, body, rfl, fun entry he => ⟨(hfits entry he).1, ?_⟩, hbody,
        by omega, hbindings⟩
      have := (hfits entry he).2
      omega
    · refine Or.inr ⟨fun entries _ heq => ?_, hflaw⟩
      rw [List.cons.injEq, node.injEq] at heq
      exact hne entries heq.1
  · rw [hheader]
    exact Or.inr ⟨fun entries others => hne _ others, rfl⟩

end

end Interpolants
