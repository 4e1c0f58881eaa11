import Interpolants.Proofs.Decoding.Placeholders
import Interpolants.Proofs.Layout.Parts

/-!
# Interpolants — splicing in any layout

The first pass of decoding on clear texts. It cuts let blocks out of the text and puts placeholders
in their place; here it is shown to resolve the trees that the text holds, from left to right.

## The architecture

* **`Sealed`, `Joins`** — what stands before some trees goes on with no let block, be it because of
  its own end or because of the text that follows.
* **`Splices`, `SplicesAll`** — the first pass on the text of a tree and of some trees, wherever
  they stand: it goes on as if the resolved trees stood there, or it fails.
* **`splicesAll_laid`** — the induction along a text; let blocks are decoded by the induction on the
  length of texts.
* **`settled_inScope`** — both passes on a clear text decode the tree that the text holds.
-/

namespace Interpolants

open Text TokenTree

/-! ## What stands before a text -/

/-- No let block starts in the text before another one that follows it. -/
def Joins (before cs : List Char) : Prop :=
  Sealed before ∨ Inert before ∧ Calm cs

section

variable {before piece piece' cs ds : List Char}

/-- A piece is sealed by a character that no let block has in front of its last one. -/
theorem Inert.sealed (h : Inert piece) {c : Char} (hopen : c ≠ '(')
    (hc : c ≠ 'l' ∧ c ≠ 'e' ∧ c ≠ 't') : Sealed (piece ++ [c]) := by
  intro rest
  rw [List.append_assoc, List.singleton_append, h _ (calm_cons hc rest),
    splitAtLet_cons (startsLet_of_ne hopen rest)]
  cases splitAtLet rest <;> simp

theorem calm_nil : Calm [] := by
  rintro c ⟨⟩

theorem Calm.left (h : Calm (cs ++ ds)) : Calm cs := by
  cases cs with
  | nil => exact calm_nil
  | cons c cs => exact h

/-- In a text that joins another no let block starts. -/
theorem Joins.inert (h : Joins before cs) : Inert before := by
  rcases h with hsealed | ⟨hinert, -⟩
  · exact hsealed.inert
  · exact hinert

/-- A text still joins what follows when a piece with no start of a block is added to it. -/
theorem Joins.append (h : Joins before (piece ++ cs)) (hpiece : Inert piece) :
    Inert (before ++ piece) := by
  rcases h with hsealed | ⟨hinert, hcalm⟩
  · intro rest hrest
    rw [List.append_assoc, hsealed, hpiece rest hrest, map_before_map_before]
  · exact hinert.append hpiece hcalm.left

/-- The word `let` alone in parentheses starts no block. -/
theorem Inert.sealed_let (h : Inert before) :
    Sealed (before ++ ('(' :: "let".toList ++ [')'])) := by
  intro rest
  have hcalm : Calm ('(' :: "let".toList ++ [')'] ++ rest) := calm_cons (by decide) _
  rw [List.append_assoc, h _ hcalm]
  show Option.map _ (splitAtLet ('(' :: 'l' :: 'e' :: 't' :: ')' :: rest)) = _
  rw [splitAtLet_cons rfl, splitAtLet_cons rfl, splitAtLet_cons rfl, splitAtLet_cons rfl,
    splitAtLet_cons rfl]
  cases splitAtLet rest <;> simp

/-- Behind an opening parenthesis, blanks or a list start no let block of their own. -/
theorem Inert.joins_open (h : Inert before) (hcs : Calm cs) : Joins (before ++ ['(']) cs :=
  Or.inr ⟨h.append Inert.singleton (calm_cons (by decide) _), hcs⟩

end

namespace TokenTree

/-! ## Lists without a formula -/

/-- A list that gives no formula, whatever the names stand for. -/
def Hopeless (t : TokenTree) : Prop :=
  t.isLeaf = false ∧ ∀ names, t.read names = none

section

variable {t : TokenTree} {items : List TokenTree}

/-- Trees are not read if one of them is not. -/
theorem readAll_eq_none {names : Names} (hmem : t ∈ items) (h : t.read names = none) :
    readAll names items = none := by
  induction items with
  | nil => cases hmem
  | cons first items ih =>
    rw [readAll]
    rcases List.mem_cons.1 hmem with rfl | hmem
    · rw [h]
      rfl
    · rw [ih hmem]
      cases first.read names <;> rfl

/-- A list is no magnitude of the least word, nor is anything with a list in it. -/
theorem isLeast_eq_false (hmem : t ∈ items) (h : t.isLeaf = false) : isLeast items = false := by
  unfold isLeast
  split
  · rw [List.mem_singleton.1 hmem] at h
    cases h
  · rfl

/-- What has a hopeless part is hopeless. -/
theorem Hopeless.of_mem (h : Hopeless t) (hmem : t ∈ items) : Hopeless (node items) := by
  refine ⟨rfl, fun names => ?_⟩
  obtain ⟨hlist, hread⟩ := h
  cases items with
  | nil => cases hmem
  | cons head args =>
    cases head with
    | node => rw [read.eq_def]
    | leaf op =>
      have hargs : t ∈ args := by
        rcases List.mem_cons.1 hmem with rfl | hargs
        · cases hlist
        · exact hargs
      rw [read, if_neg (by simp [isLeast_eq_false hargs hlist]),
        readAll_eq_none hargs (hread names)]
      rfl

/-- The word `let` is no operator. -/
theorem hopeless_let : Hopeless (node [leaf "let".toList]) := by
  refine ⟨rfl, fun names => ?_⟩
  rw [read, if_neg (by decide)]
  rfl

end

section

variable {declared : Registry} {scope blocks : Bindings} {items : List TokenTree}

/-- Anything but a list of entries binds nothing. -/
theorem bindEntries_eq_none (inner : Bindings)
    (h : ∀ entries : List Entry, items ≠ entries.map Entry.tree) :
    bindEntries declared scope inner items blocks = none := by
  induction items generalizing inner blocks with
  | nil => exact absurd rfl (h [])
  | cons first items ih =>
    rw [bindEntries.eq_def]
    split
    · next heq => cases heq
    · next name bound others heq =>
      cases heq
      refine Option.bind_eq_none_iff.2 fun resolved _ => Option.bind_eq_none_iff.2 fun e _ => ?_
      refine ih _ fun entries heq => h (⟨name, bound, []⟩ :: entries) ?_
      rw [heq]
      rfl
    · rfl

end

end TokenTree

/-! ## The first pass -/

section

variable (declared : Registry) (scope blocks : Bindings) (before after : List Char)

/-- The first pass on the text of a tree, wherever it stands. -/
def Splices (t : TokenTree) (own : List Char) : Prop :=
  (∃ t' blocks' own', t.resolve declared scope blocks = some (t', blocks') ∧
    Holds .clear t' own' ∧ (Style.clear.apart t' = true → Style.clear.apart t = true) ∧
    Inert (before ++ own') ∧ (t'.isLeaf = false → Sealed (before ++ own')) ∧
    settled (Decode.resolveAll declared scope (before ++ (own ++ after))) blocks
      = settled (Decode.resolveAll declared scope (before ++ (own' ++ after))) blocks') ∨
  settled (Decode.resolveAll declared scope (before ++ (own ++ after))) blocks = none ∧
    ∀ t' blocks', t.resolve declared scope blocks = some (t', blocks') → t'.Hopeless

/-- The first pass on a text that holds some trees, wherever it stands. -/
def SplicesAll (ts : List TokenTree) (cs : List Char) : Prop :=
  (∃ ts' blocks' cs', resolveAll declared scope ts blocks = some (ts', blocks') ∧
    Laid .clear ts' cs' ∧ (Parted .clear ts cs → Parted .clear ts' cs') ∧ Inert (before ++ cs') ∧
    settled (Decode.resolveAll declared scope (before ++ (cs ++ after))) blocks
      = settled (Decode.resolveAll declared scope (before ++ (cs' ++ after))) blocks') ∨
  settled (Decode.resolveAll declared scope (before ++ (cs ++ after))) blocks = none ∧
    ∀ ts' blocks', resolveAll declared scope ts blocks = some (ts', blocks') → ∃ t ∈ ts', t.Hopeless

end

section

variable {declared : Registry} {scope blocks : Bindings} {before after : List Char} {t : TokenTree}
  {items ts : List TokenTree} {own cs inside : List Char}

/-- A text that starts with a blank is spliced behind the blank. -/
theorem SplicesAll.blank {c : Char} (hc : isBlank c = true)
    (h : SplicesAll declared scope blocks (before ++ [c]) after ts cs) :
    SplicesAll declared scope blocks before after ts (c :: cs) := by
  have htext : ∀ cs : List Char, before ++ [c] ++ (cs ++ after) = before ++ (c :: cs ++ after) := by
    intro cs
    simp
  rcases h with ⟨ts', blocks', cs', hresolve, hlaid, -, hinert, hrun⟩ | ⟨hfails, hhopeless⟩
  · refine Or.inl ⟨ts', blocks', c :: cs', hresolve, .blank hc hlaid,
      fun _ _ _ _ => ⟨c, rfl, hc⟩, ?_, ?_⟩
    · simpa using hinert
    · rw [htext, htext] at hrun
      exact hrun
  · rw [htext] at hfails
    exact Or.inr ⟨hfails, hhopeless⟩

/-- Trees are spliced one after the other, each behind the resolved ones. -/
theorem SplicesAll.cons (hown : Holds .clear t own) (hcs : Laid .clear ts cs)
    (hparted : Style.clear.apart t = true → Parted .clear ts cs)
    (hfirst : Splices declared scope blocks before (cs ++ after) t own)
    (hothers : ∀ own' blocks', Joins (before ++ own') cs →
      SplicesAll declared scope blocks' (before ++ own') after ts cs) :
    SplicesAll declared scope blocks before after (t :: ts) (own ++ cs) := by
  have htext : ∀ own cs : List Char,
      before ++ (own ++ (cs ++ after)) = before ++ (own ++ cs ++ after) := by
    intro own cs
    rw [List.append_assoc own]
  rw [Splices, htext] at hfirst
  rcases hfirst with
    ⟨t', blocks₁, own', hresolve, hown', hapart, hinert, hsealed, hrun⟩ | ⟨hfails, hhopeless⟩
  · have hjoins : Joins (before ++ own') cs := by
      -- behind a leaf stands a boundary, and a list is closed
      cases hleaf : t'.isLeaf with
      | true =>
        exact Or.inr ⟨hinert, calm_of_boundary
          (hcs.boundary (hparted (hapart (by simp [Style.clear, hleaf]))))⟩
      | false => exact Or.inl (hsealed hleaf)
    have hmiddle : ∀ cs : List Char, before ++ own' ++ (cs ++ after)
        = before ++ (own' ++ cs ++ after) := by
      intro cs
      simp
    rcases hothers own' blocks₁ hjoins with
      ⟨ts', blocks₂, cs', hresolve', hlaid, hparted', hinert', hrun'⟩ | ⟨hfails, hhopeless⟩
    · rw [hmiddle, hmiddle] at hrun'
      refine Or.inl ⟨t' :: ts', blocks₂, own' ++ cs', ?_, ?_, ?_, by simpa using hinert', ?_⟩
      · rw [resolveAll_cons, hresolve, Option.bind_some, hresolve']
        rfl
      · exact .cons hown' hlaid fun h => hparted' (hparted (hapart h))
      · -- the text of a tree starts with no blank
        intro hstart t₀ ht₀ hapart₀
        cases ht₀
        obtain ⟨c, more, rfl, hc, -⟩ := hown.head
        obtain ⟨c', hc', hblank⟩ := hstart t rfl (hapart hapart₀)
        cases hc'
        rw [hc] at hblank
        cases hblank
      · rw [hrun, htext, hrun']
    · rw [hmiddle] at hfails
      refine Or.inr ⟨by rw [hrun, htext, hfails], fun ts' blocks' h => ?_⟩
      rw [resolveAll_cons, hresolve, Option.bind_some] at h
      obtain ⟨others, hothers, h⟩ := Option.map_eq_some_iff.1 h
      cases h
      obtain ⟨t₀, ht₀, h₀⟩ := hhopeless _ _ hothers
      exact ⟨t₀, List.mem_cons_of_mem _ ht₀, h₀⟩
  · refine Or.inr ⟨hfails, fun ts' blocks' h => ?_⟩
    rw [resolveAll_cons] at h
    obtain ⟨first, hfirst, h⟩ := Option.bind_eq_some_iff.1 h
    obtain ⟨others, -, h⟩ := Option.map_eq_some_iff.1 h
    cases h
    exact ⟨_, List.mem_cons_self, hhopeless _ _ hfirst⟩

/-- A token is left as it stands. -/
theorem splices_leaf {token : List Char} (htoken : Style.clear.token token)
    (hinert : Inert (before ++ token)) :
    Splices declared scope blocks before after (leaf token) token :=
  Or.inl ⟨leaf token, blocks, token, by rw [resolve], ⟨rfl, htoken⟩, id, hinert, nofun, rfl⟩

/-- A list that is no let block is spliced as what stands in its parentheses. -/
theorem splices_node (hlet : isLet (node items) = false)
    (h : SplicesAll declared scope blocks (before ++ ['(']) (')' :: after) items inside) :
    Splices declared scope blocks before after (node items) ('(' :: inside ++ [')']) := by
  have htext : ∀ inside : List Char, before ++ ['('] ++ (inside ++ ')' :: after)
      = before ++ ('(' :: inside ++ [')'] ++ after) := by
    intro inside
    simp
  rcases h with ⟨items', blocks', inside', hresolve, hlaid, -, hinert, hrun⟩ | ⟨hfails, hhopeless⟩
  · have hlet' := isLet_of_resolveAll hlet hresolve
    -- behind its closing parenthesis a list can start nothing
    have hsealed : Sealed (before ++ ('(' :: inside' ++ [')'])) := by
      have := hinert.sealed (c := ')') (by decide) (by decide)
      simpa using this
    rw [htext, htext] at hrun
    refine Or.inl ⟨node items', blocks', '(' :: inside' ++ [')'], ?_, ⟨inside', rfl, hlaid, ?_⟩, ?_,
      hsealed.inert, fun _ => hsealed, hrun⟩
    · rw [resolve_node hlet, hresolve]
      rfl
    · exact fun h => absurd h (by simp [Style.clear, hlet'])
    · exact fun h => absurd h (by simp [Style.clear, hlet', isLeaf])
  · rw [htext] at hfails
    refine Or.inr ⟨hfails, fun t' blocks' h => ?_⟩
    rw [resolve_node hlet] at h
    obtain ⟨resolved, hresolved, h⟩ := Option.map_eq_some_iff.1 h
    cases h
    -- a list with a hopeless tree in it is hopeless
    obtain ⟨t₀, ht₀, h₀⟩ := hhopeless _ _ hresolved
    exact h₀.of_mem ht₀

/-! ## Let blocks -/

variable {n : Nat}

/-- The first pass on texts of a limited length is right, if decoding shorter ones is. -/
def DecodesBelow (declared : Registry) (n : Nat) : Prop :=
  ∀ ts cs, Laid .clear ts cs → cs.length < n → ∀ scope blocks,
    settled (Decode.inScope declared scope cs) blocks = decodeOne declared scope ts blocks

/-- The bound terms of a let block are decoded one after the other. -/
theorem settled_bindAll (hbelow : DecodesBelow declared n) {entries : List Entry}
    (hfits : ∀ entry ∈ entries, entry.Fits n) (scope inner blocks : Bindings) :
    settled (Decode.bindAll (Decode.inScope declared scope) inner (entries.map Entry.binding))
      blocks
      = bindEntries declared scope inner (entries.map Entry.tree) blocks := by
  induction entries generalizing inner blocks with
  | nil =>
    rw [List.map_nil, List.map_nil, bindEntries]
    rfl
  | cons entry entries ih =>
    obtain ⟨hentry, hentries⟩ := List.forall_mem_cons.1 hfits
    rw [List.map_cons, List.map_cons, Entry.tree, bindEntries_cons]
    show settled (Decode.inScope declared scope entry.text >>= _) blocks = _
    rw [settled_bind, hbelow _ _ hentry.1.laid hentry.2]
    show Option.bind (TokenTree.decode declared scope entry.term blocks) _ = _
    congr 1
    funext decoded
    exact ih hentries _ _

/-- **A let block is decoded through its parts**, and resolved to a placeholder for the result. -/
theorem settled_block {more : List Char} (hbelow : DecodesBelow declared n)
    (h : Laid .clear ts more) (hparted : Parted .clear ts more) (hlength : more.length < n)
    (scope blocks : Bindings) :
    ((settled (Decode.block (Decode.inScope declared) scope
      ('(' :: ("let".toList ++ more) ++ [')']))
        blocks).map fun decoded => enterBlock decoded.2 decoded.1)
      = if ts = [] then none
        else resolve declared scope (node (leaf "let".toList :: ts)) blocks := by
  rcases ofText_laid h hparted with
    ⟨entries, others, body, rfl, hfits, hbody, hle, hparts⟩ | ⟨hne, hflaw⟩
  · -- the entries are shorter than the text, so they are decoded as they stand
    have hbound := settled_bindAll hbelow
      (fun entry he => ⟨(hfits entry he).1, (hfits entry he).2.trans hlength⟩) scope scope blocks
    rw [if_neg nofun, resolve_let, ← hbound, Decode.block, hparts, settled_bind, Option.map_bind]
    congr 1
    funext bound
    show Option.map _ (settled (Decode.inScope declared bound.1 body) bound.2) = _
    rw [hbelow _ _ hbody (by omega)]
  · rw [settled_of_fails (Decode.fails_block_of_flaw hflaw scope blocks)]
    match ts with
    | [] => rfl
    | leaf token :: others =>
      rw [if_neg nofun, resolve_let_of_leaf]
      rfl
    | node items :: others =>
      rw [if_neg nofun, resolve_let, bindEntries_eq_none scope fun entries heq =>
        hne entries others (by rw [heq])]
      rfl

/-- A let block starts where its text stands. -/
theorem startsLet_laid {more : List Char} (h : Laid .clear ts more)
    (hparted : Parted .clear ts more) (hne : more ≠ []) (rest : List Char) :
    startsLet ('(' :: ("let".toList ++ more) ++ rest) = true := by
  cases h with
  | nil => exact absurd rfl hne
  | blank hc =>
    show (isBlank _ || _) = true
    rw [hc]
    rfl
  | leaf htoken =>
    -- behind the word stands a blank, and no token starts with one
    obtain ⟨c, hc, hblank⟩ := hparted _ rfl rfl
    obtain ⟨c', token, rfl, hdelim⟩ := (Style.clear_token htoken).exists_cons
    cases hc
    rw [(ne_of_not_isDelimiter hdelim).1] at hblank
    cases hblank
  | node => rfl

/-- **The first pass on a let block** decodes the block and goes on with a placeholder in its
place. -/
theorem settled_resolveAll_block {more : List Char} (hbefore : Inert before)
    (h : Laid .clear ts more) (hparted : Parted .clear ts more) (hne : more ≠ [])
    (declared : Registry) (scope blocks : Bindings) (after : List Char) :
    settled (Decode.resolveAll declared scope
        (before ++ ('(' :: ("let".toList ++ more) ++ [')'] ++ after))) blocks =
      (settled (Decode.block (Decode.inScope declared) scope
        ('(' :: ("let".toList ++ more) ++ [')']))
        blocks).bind fun decoded =>
          settled
            (Decode.resolveAll declared scope (before ++ (Decode.placeholder decoded.2 ++ after)))
            ((String.ofList (Decode.placeholder decoded.2), decoded.1) :: decoded.2) := by
  have hword : Balanced "let".toList := Balanced.of_plain (forall_mem_of_all (by decide))
  have hfound := enclosed_parens (hword.append h.balanced) after
  have hsplit : splitAtLet (before ++ ('(' :: ("let".toList ++ more) ++ [')'] ++ after))
      = some (before, '(' :: ("let".toList ++ more) ++ [')'] ++ after) := by
    have hstarts := startsLet_laid h hparted hne ([')'] ++ after)
    rw [← List.append_assoc] at hstarts
    -- nothing before the block starts one, not even together with its parenthesis
    have hcalm : Calm ('(' :: ("let".toList ++ more) ++ [')'] ++ after) := calm_cons (by decide) _
    rw [hbefore _ hcalm, splitAtLet_of_startsLet hstarts]
    simp
  rw [Decode.resolveAll_of_block hsplit hfound, settled_bind]
  congr 1
  funext decoded
  rw [settled_bind, settled, Decode.outcome_enter, Option.bind_some, List.append_assoc]

/-- Placeholders may stand in clear texts. -/
theorem clear_placeholder (blocks : Bindings) : Style.clear.token (Decode.placeholder blocks) := by
  have h := Decode.isPlaceholder_placeholder blocks
  have hname : (String.ofList (Decode.placeholder blocks)).toList = Decode.placeholder blocks :=
    String.toList_ofList
  have hlegible := Decode.legible_of_isPlaceholder h
  refine ⟨.bare (fun heq => ?_) (hname ▸ hlegible.unpiped) fun c hc => ?_,
    hname ▸ hlegible.unmarked⟩
  · exact hlegible.nonempty (by rw [heq])
  · exact Decode.isDelimiter_of_isPlaceholder h (by rwa [hname])

/-- A let block is spliced as its placeholder. -/
theorem splices_let {more : List Char} (hbelow : DecodesBelow declared n) (hbefore : Inert before)
    (h : Laid .clear ts more) (hparted : Parted .clear ts more) (hlength : more.length < n)
    (hts : ts ≠ []) :
    Splices declared scope blocks before after (node (leaf "let".toList :: ts))
      ('(' :: ("let".toList ++ more) ++ [')']) := by
  have hne : more ≠ [] := by
    rintro rfl
    have := h.length_le
    rw [List.length_nil, Nat.le_zero, List.length_eq_zero_iff] at this
    exact hts this
  have hblock := settled_block hbelow h hparted hlength scope blocks
  rw [if_neg hts] at hblock
  have hrun := settled_resolveAll_block hbefore h hparted hne declared scope blocks after
  cases hdecoded : settled (Decode.block (Decode.inScope declared) scope
    ('(' :: ("let".toList ++ more) ++ [')'])) blocks with
  | none =>
    rw [hdecoded] at hblock hrun
    refine Or.inr ⟨hrun, fun t' blocks' ht' => ?_⟩
    rw [← hblock] at ht'
    cases ht'
  | some decoded =>
    rw [hdecoded] at hblock hrun
    have htoken := clear_placeholder decoded.2
    -- the placeholder is a clear text of its own leaf
    refine Or.inl ⟨_, _, Decode.placeholder decoded.2, hblock.symm, ⟨rfl, htoken⟩, fun _ => ?_, ?_,
      nofun, hrun⟩
    · obtain ⟨t, ts, rfl⟩ := List.exists_cons_of_ne_nil hts
      simp [Style.clear, isLet]
    · exact hbefore.append (Style.clear_token htoken).inert (calm_cons (by decide) _)

/-- The word `let` alone in parentheses is left as it stands, or fails if a blank is behind it. -/
theorem splices_lone_let {more : List Char} (hbelow : DecodesBelow declared n)
    (hbefore : Inert before) (h : Laid .clear [] more) (hlength : more.length < n) :
    Splices declared scope blocks before after (node [leaf "let".toList])
      ('(' :: ("let".toList ++ more) ++ [')']) := by
  have hresolve : resolve declared scope (node [leaf "let".toList]) blocks
      = some (node [leaf "let".toList], blocks) := by
    rw [resolve_node rfl, resolveAll_cons, resolve, Option.bind_some, resolveAll_nil]
    rfl
  cases more with
  | nil =>
    -- without anything behind the word this is an application, which is left as it is
    have hsealed : Sealed (before ++ ('(' :: ("let".toList ++ []) ++ [')'])) := hbefore.sealed_let
    have hword : Laid .clear [leaf "let".toList] ("let".toList ++ []) :=
      .leaf ⟨.bare (by decide) (by decide) (forall_mem_of_all (by decide)), by decide⟩ .nil
        fun _ => parted_nil
    have hown : Holds .clear (node [leaf "let".toList]) ('(' :: ("let".toList ++ []) ++ [')']) :=
      ⟨_, rfl, hword, fun hlet => by cases hlet⟩
    exact Or.inl ⟨_, _, _, hresolve, hown, id, hsealed.inert, fun _ => hsealed, rfl⟩
  | cons c more =>
    -- a blank behind the word makes it a block, and one that is refused
    have hblock := settled_block hbelow h parted_nil hlength scope blocks
    rw [if_pos rfl, Option.map_eq_none_iff] at hblock
    have hrun :=
      settled_resolveAll_block hbefore h parted_nil (List.cons_ne_nil c more) declared scope
      blocks after
    rw [hblock] at hrun
    refine Or.inr ⟨hrun, fun t' blocks' ht' => ?_⟩
    rw [hresolve] at ht'
    cases ht'
    exact hopeless_let

/-- A list with a token in front is a let block, or it is spliced as what stands in its
parentheses. -/
theorem splices_token {token : List Char} (hbelow : DecodesBelow declared n)
    (hbefore : Inert before)
    (htoken : Style.clear.token token) (h : Laid .clear ts cs) (hparted : Parted .clear ts cs)
    (hlength : (token ++ cs).length ≤ n)
    (hitems : Inert (before ++ ['('] ++ token) →
      SplicesAll declared scope blocks (before ++ ['(']) (')' :: after) (leaf token :: ts)
        (token ++ cs)) :
    Splices declared scope blocks before after (node (leaf token :: ts))
      ('(' :: (token ++ cs) ++ [')']) := by
  by_cases hword : token = "let".toList
  · subst hword
    have hmore : cs.length < n := by
      have : "let".toList.length = 3 := rfl
      rw [List.length_append] at hlength
      omega
    by_cases hts : ts = []
    · subst hts
      exact splices_lone_let hbelow hbefore h hmore
    · exact splices_let hbelow hbefore h hparted hmore hts
  · have hlet : isLet (node (leaf token :: ts)) = false := by
      cases ts with
      | nil => rfl
      | cons => exact beq_eq_false_iff_ne.2 hword
    -- any other token starts no block
    have hinert :=
      hbefore.append ((Style.clear_token htoken).inert_open hword) (calm_cons (by decide) _)
    exact splices_node hlet (hitems (by simpa using hinert))

/-! ## The induction along a text -/

/-- A blank is no part of the start of a let block. -/
theorem ne_of_isBlank {c : Char} (hc : isBlank c = true) :
    c ≠ '(' ∧ c ≠ 'l' ∧ c ≠ 'e' ∧ c ≠ 't' := by
  refine ⟨?_, ?_, ?_, ?_⟩ <;> rintro rfl <;> exact absurd hc (by decide)

/-- **The first pass resolves the trees of a clear text**, from left to right and wherever they
stand; and so it does the list of these trees. -/
theorem splicesAll_laid (hbelow : DecodesBelow declared n) (h : Laid .clear ts cs)
    (hlength : cs.length ≤ n) :
    (∀ blocks before after, Joins before cs → SplicesAll declared scope blocks before after ts cs) ∧
    ∀ blocks before after, Inert before →
      (isLet (node ts) = true → ∀ c ∈ cs.head?, isBlank c = false) →
      Splices declared scope blocks before after (node ts) ('(' :: cs ++ [')']) := by
  induction h with
  | nil =>
    have hnil : ∀ blocks before after, Joins before [] →
        SplicesAll declared scope blocks before after [] [] := by
      intro blocks before after hjoins
      refine Or.inl ⟨[], blocks, [], resolveAll_nil, .nil, id, ?_, rfl⟩
      rw [List.append_nil]
      exact hjoins.inert
    exact ⟨hnil, fun blocks before after hbefore _ =>
      splices_node rfl (hnil _ _ _ (hbefore.joins_open calm_nil))⟩
  | @blank c ts cs hc h ih =>
    obtain ⟨ihall, -⟩ := ih (by rw [List.length_cons] at hlength; omega)
    obtain ⟨hopen, hcalm⟩ := ne_of_isBlank hc
    have hall : ∀ blocks before after, Joins before (c :: cs) →
        SplicesAll declared scope blocks before after ts (c :: cs) :=
      fun blocks before after hjoins =>
        .blank hc (ihall _ _ _ (Or.inl (hjoins.inert.sealed hopen hcalm)))
    refine ⟨hall, fun blocks before after hbefore htight => ?_⟩
    have hlet : isLet (node ts) = false := by
      rw [Bool.eq_false_iff]
      intro hlet
      rw [htight hlet c rfl] at hc
      cases hc
    exact splices_node hlet (hall _ _ _ (hbefore.joins_open (calm_cons hcalm _)))
  -- a token in front of a list may make a let block of it
  | @leaf token ts cs htoken h hparted ih =>
    obtain ⟨ihall, -⟩ := ih (by rw [List.length_append] at hlength; omega)
    have hcons : ∀ blocks before after, Inert (before ++ token) →
        SplicesAll declared scope blocks before after (leaf token :: ts) (token ++ cs) :=
      fun blocks before after hinert =>
        .cons ⟨rfl, htoken⟩ h hparted (splices_leaf htoken hinert)
          fun _ _ hjoins => ihall _ _ _ hjoins
    exact ⟨fun blocks before after hjoins =>
        hcons _ _ _ (hjoins.append (Style.clear_token htoken).inert),
      fun blocks before after hbefore _ =>
        splices_token hbelow hbefore htoken h (hparted rfl) hlength (hcons _ _ _)⟩
  | @node items ts inside cs hitems htight h hparted ihitems ih =>
    simp only [List.length_append, List.length_cons] at hlength
    obtain ⟨-, ihinside⟩ := ihitems (by omega)
    obtain ⟨ihall, -⟩ := ih (by omega)
    have hown : Holds .clear (node items) ('(' :: inside ++ [')']) := ⟨inside, rfl, hitems, htight⟩
    have hall : ∀ blocks before after, Inert before →
        SplicesAll declared scope blocks before after (node items :: ts)
          ('(' :: inside ++ ')' :: cs) := by
      intro blocks before after hbefore
      have hcons :=
        SplicesAll.cons hown h hparted (ihinside blocks before (cs ++ after) hbefore htight)
        fun _ _ hjoins => ihall _ _ after hjoins
      simpa using hcons
    exact ⟨fun blocks before after hjoins => hall _ _ _ hjoins.inert,
      fun blocks before after hbefore _ => splices_node rfl
        (hall _ _ _ (hbefore.append Inert.singleton (calm_cons (by decide) _)))⟩

/-! ## Both passes -/

/-- What stands where one tree should stand is decoded by reading what it is resolved to. -/
theorem decodeOne_of_resolveAll {ts' : List TokenTree} {blocks' : Bindings}
    (h : TokenTree.resolveAll declared scope ts blocks = some (ts', blocks')) :
    decodeOne declared scope ts blocks
      = (readOne ⟨scope, blocks', declared⟩ ts').map fun e => (e, blocks') := by
  have hlength := length_of_resolveAll h
  rcases ts with _ | ⟨t, _ | ⟨t₁, ts⟩⟩
  · rw [List.length_eq_zero_iff.1 hlength]
    rfl
  · rw [resolveAll_cons] at h
    obtain ⟨first, hfirst, h⟩ := Option.bind_eq_some_iff.1 h
    rw [resolveAll_nil] at h
    cases h
    rw [decodeOne, TokenTree.decode, hfirst]
    rfl
  · rcases ts' with _ | ⟨t', _ | ⟨t₁', ts'⟩⟩
    · cases hlength
    · cases hlength
    · rfl

/-- Where something hopeless is left, nothing is decoded. -/
theorem decodeOne_of_hopeless
    (h : ∀ ts' blocks', TokenTree.resolveAll declared scope ts blocks = some (ts', blocks') →
      ∃ t ∈ ts', t.Hopeless) :
    decodeOne declared scope ts blocks = none := by
  cases hresolved : TokenTree.resolveAll declared scope ts blocks with
  | none =>
    rw [Option.eq_none_iff_forall_ne_some]
    intro r hr
    obtain ⟨t, rfl⟩ := exists_of_decodeOne hr
    obtain ⟨t', hresolve, -⟩ := decode_eq_some_iff.1 hr
    rw [resolveAll_cons, hresolve, Option.bind_some, resolveAll_nil] at hresolved
    cases hresolved
  | some r =>
    obtain ⟨t, ht, hhopeless⟩ := h r.1 r.2 hresolved
    rw [decodeOne_of_resolveAll hresolved]
    -- only a single tree would be read, and this one is hopeless
    rcases hr : r.1 with _ | ⟨t', _ | ⟨t₁, ts'⟩⟩
    · rfl
    · rw [hr, List.mem_singleton] at ht
      rw [readOne, ← ht, hhopeless.2]
      rfl
    · rfl

/-- Both passes on a text are right, if they are on shorter ones. -/
theorem settled_inScope_of_below (hbelow : DecodesBelow declared n) (h : Laid .clear ts cs)
    (hlength : cs.length ≤ n) :
    settled (Decode.inScope declared scope cs) blocks = decodeOne declared scope ts blocks := by
  have hplain : ∀ text blocks, settled (Decode.plain declared scope text) blocks
      = (wholeTerm ⟨scope, blocks, declared⟩ text).toOption.map fun e => (e, blocks) := by
    intro text blocks
    rw [settled, Decode.outcome_plain]
    cases wholeTerm ⟨scope, blocks, declared⟩ text <;> rfl
  rw [Decode.inScope_eq, settled_bind]
  rcases (splicesAll_laid hbelow h hlength).1 blocks [] [] (Or.inl Sealed.nil) with
    ⟨ts', blocks', cs', hresolve, hlaid, -, hinert, hrun⟩ | ⟨hfails, hhopeless⟩
  · -- no let block is left, so the first pass is done
    simp only [List.nil_append, List.append_nil] at hrun hinert
    rw [hrun, Decode.resolveAll_of_none (splitAtLet_eq_none hinert), settled_pure, Option.bind_some,
      hplain, wholeTerm_laid _ hlaid, decodeOne_of_resolveAll hresolve]
  · simp only [List.nil_append, List.append_nil] at hfails
    rw [hfails, decodeOne_of_hopeless hhopeless]
    rfl

/-- **Both passes on a clear text decode the tree that it holds**, in any scope and on any table. -/
theorem settled_inScope (h : Laid .clear ts cs) :
    settled (Decode.inScope declared scope cs) blocks = decodeOne declared scope ts blocks := by
  have hbelow : ∀ n, DecodesBelow declared n := by
    intro n
    induction n with
    | zero => exact fun _ _ _ hlt => absurd hlt (Nat.not_lt_zero _)
    | succ n ih =>
      exact fun ts cs h hlt scope blocks => settled_inScope_of_below ih h (Nat.le_of_lt_succ hlt)
  exact settled_inScope_of_below (hbelow cs.length) h (Nat.le_refl _)

/-- What a clear text is decoded to in a session. -/
theorem toOption_run_laid {text : String} (h : Laid .clear ts text.toList) (blocks : Bindings) :
    (Decode.run declared blocks text).1.toOption
      = (decodeOne declared [] ts blocks).map Prod.fst := by
  show (outcome (Decode.inScope declared [] text.toList) blocks).1.toOption = _
  rw [toOption_outcome, settled_inScope h]

/-- What a clear text is decoded to in a session of its own. -/
theorem toOption_decode_laid {text : String} (h : Laid .clear ts text.toList) :
    (decode declared text).toOption = (decodeOne declared [] ts []).map Prod.fst :=
  toOption_run_laid h []

end

end Interpolants
