import Interpolants.Proofs.Decoding.Table
import Interpolants.Proofs.Layout.TokenTree

/-!
# Interpolants — decoding token trees

The two passes of decoding, told of the tree of a term and not of one of its texts. The first pass
puts placeholders in the place of let blocks, from left to right, and enters the blocks in the
table; the second reads the tree that is left. `TokenTree.decode` is both of them. It keeps what is
peculiar to decoding in two passes: placeholders are tokens among the others, and a name is looked
up in the table after all let blocks of its text have been entered.
-/

namespace Interpolants

namespace TokenTree

/-! ## Reading -/

/-- Whether the only operand is the magnitude of the least signed word. -/
def isLeast : List TokenTree → Bool
  | [leaf token] =>
    Decimal.isNumeral token && Decimal.value token == Int64.minValue.toInt.natAbs
  | _ => false

mutual

/-- The formula of a tree without let blocks. -/
def read (names : Names) : TokenTree → Option Expr
  | leaf token => (names.leaf token).toOption
  | node (leaf op :: args) =>
    if op = ['-'] ∧ isLeast args then some (.integer Int64.minValue)
    else (readAll names args).bind fun es => (applyNamed (String.ofList op) es).toOption
  | node _ => none

def readAll (names : Names) : List TokenTree → Option (List Expr)
  | [] => some []
  | t :: ts => (read names t).bind fun e => (readAll names ts).bind fun es => some (e :: es)

end

/-! ## Resolving let blocks -/

/-- A let block is replaced by a placeholder for its formula. -/
def enterBlock (blocks : Bindings) (e : Expr) : TokenTree × Bindings :=
  (leaf (Decode.placeholder blocks), (String.ofList (Decode.placeholder blocks), e) :: blocks)

mutual

/-- The tree with placeholders for its let blocks, and the table with these blocks. -/
def resolve (declared : Registry) (scope : Bindings) :
    TokenTree → Bindings → Option (TokenTree × Bindings)
  | leaf token, blocks => some (leaf token, blocks)
  | node items, blocks =>
    if isLet (node items) then
      match items with
      | [_, node entries, body] =>
        (bindEntries declared scope scope entries blocks).bind fun bound =>
          (resolve declared bound.1 body bound.2).bind fun resolved =>
            (read ⟨bound.1, resolved.2, declared⟩ resolved.1).map (enterBlock resolved.2)
      | _ => none
    else (resolveAll declared scope items blocks).map fun resolved => (node resolved.1, resolved.2)

/-- Some trees are resolved from left to right, each on the table that the one before it leaves. -/
def resolveAll (declared : Registry) (scope : Bindings) :
    List TokenTree → Bindings → Option (List TokenTree × Bindings)
  | [], blocks => some ([], blocks)
  | t :: ts, blocks =>
    (resolve declared scope t blocks).bind fun first =>
      (resolveAll declared scope ts first.2).map fun others => (first.1 :: others.1, others.2)

/-- The names of a let block with their formulas, put before those of `inner`. -/
def bindEntries (declared : Registry) (scope inner : Bindings) :
    List TokenTree → Bindings → Option (Bindings × Bindings)
  | [], blocks => some (inner, blocks)
  | node [leaf name, bound] :: entries, blocks =>
    (resolve declared scope bound blocks).bind fun resolved =>
      (read ⟨scope, resolved.2, declared⟩ resolved.1).bind fun e =>
        bindEntries declared scope ((unquote name, e) :: inner) entries resolved.2
  | _, _ => none

end

/-- The formula of a tree, and the table with its let blocks. -/
def decode (declared : Registry) (scope : Bindings) (t : TokenTree) (blocks : Bindings) :
    Option (Expr × Bindings) :=
  (resolve declared scope t blocks).bind fun resolved =>
    (read ⟨scope, resolved.2, declared⟩ resolved.1).map fun e => (e, resolved.2)

/-- What is decoded where one tree should stand. -/
def decodeOne (declared : Registry) (scope : Bindings) :
    List TokenTree → Bindings → Option (Expr × Bindings)
  | [t], blocks => decode declared scope t blocks
  | _, _ => none

section

variable {declared : Registry} {scope blocks blocks' : Bindings} {t : TokenTree}
  {ts ts' : List TokenTree}

/-- A let block is decoded in its bindings and then in its body, if it has these. -/
theorem resolve_let (entries ts : List TokenTree) (blocks : Bindings) :
    resolve declared scope (node (leaf "let".toList :: node entries :: ts)) blocks =
      (bindEntries declared scope scope entries blocks).bind fun bound =>
        (decodeOne declared bound.1 ts bound.2).map
          fun decoded => enterBlock decoded.2 decoded.1 := by
  rw [resolve.eq_def]
  dsimp only
  rw [if_pos (by simp [isLet])]
  match ts with
  | [body] =>
    dsimp only
    simp only [decodeOne, decode, Option.map_bind, Option.map_map, Function.comp_def]
  | [] | _ :: _ :: _ =>
    dsimp only
    cases bindEntries declared scope scope entries blocks <;> rfl

/-- A let block without a list of bindings is none. -/
theorem resolve_let_of_leaf (token : List Char) (ts : List TokenTree) (blocks : Bindings) :
    resolve declared scope (node (leaf "let".toList :: leaf token :: ts)) blocks = none := by
  rw [resolve.eq_def]
  dsimp only
  rw [if_pos (by simp [isLet])]

/-- A list that is no let block is resolved item by item. -/
theorem resolve_node (h : isLet (node ts) = false) :
    resolve declared scope (node ts) blocks
      = (resolveAll declared scope ts blocks).map
        fun resolved => (node resolved.1, resolved.2) := by
  rw [resolve.eq_def]
  simp [h]

theorem bindEntries_nil {inner : Bindings} :
    bindEntries declared scope inner [] blocks = some (inner, blocks) := by
  rw [bindEntries]

/-- An entry is decoded and put before those that are bound already. -/
theorem bindEntries_cons (inner : Bindings) (name : List Char) (bound : TokenTree)
    (entries : List TokenTree) :
    bindEntries declared scope inner (node [leaf name, bound] :: entries) blocks =
      (decode declared scope bound blocks).bind fun decoded =>
        bindEntries declared scope ((unquote name, decoded.1) :: inner) entries decoded.2 := by
  rw [bindEntries, decode, Option.bind_assoc]
  simp only [Option.bind_map, Function.comp_def]

/-- A let block has the word `let` and something behind it. -/
theorem exists_of_isLet (h : isLet (node ts) = true) :
    ∃ t others, ts = leaf "let".toList :: t :: others := by
  unfold isLet at h
  split at h
  · next heq =>
    cases heq
    exact ⟨_, _, by rw [eq_of_beq h]⟩
  · cases h

/-- **Induction on the let blocks of a tree.** What holds of the terms of a let block holds of the
block. -/
@[elab_as_elim]
theorem block_induction {motive : TokenTree → Prop} (leaf : ∀ token, motive (leaf token))
    (node : ∀ items, isLet (node items) = false → (∀ t ∈ items, motive t) → motive (node items))
    (block : ∀ entries ts,
      (∀ name bound, TokenTree.node [TokenTree.leaf name, bound] ∈ entries → motive bound) →
      (∀ t ∈ ts, motive t) →
      motive (TokenTree.node (TokenTree.leaf "let".toList :: TokenTree.node entries :: ts)))
    (malformed : ∀ token ts,
      motive (TokenTree.node (TokenTree.leaf "let".toList :: TokenTree.leaf token :: ts)))
    (t : TokenTree) : motive t := by
  induction hsize : sizeOf t using Nat.strongRecOn generalizing t with
  | ind n ih =>
    subst hsize
    cases t with
    | leaf token => exact leaf token
    | node items =>
      cases hlet : isLet (TokenTree.node items) with
      | false =>
        refine node items hlet fun t ht => ih _ ?_ t rfl
        have hlt := List.sizeOf_lt_of_mem ht
        rw [TokenTree.node.sizeOf_spec]
        omega
      | true =>
        obtain ⟨t, ts, rfl⟩ := exists_of_isLet hlet
        cases t with
        | leaf token => exact malformed token ts
        | node entries =>
          -- a bound term is smaller than its entry, and that than the block
          refine block entries ts (fun name bound h => ih _ ?_ bound rfl) fun t ht => ih _ ?_ t rfl
          · have hlt := List.sizeOf_lt_of_mem h
            simp only [TokenTree.node.sizeOf_spec, TokenTree.leaf.sizeOf_spec,
              List.cons.sizeOf_spec, List.nil.sizeOf_spec] at hlt ⊢
            omega
          · have hlt := List.sizeOf_lt_of_mem ht
            simp only [TokenTree.node.sizeOf_spec, List.cons.sizeOf_spec]
            omega

theorem resolveAll_nil : resolveAll declared scope [] blocks = some ([], blocks) := by
  rw [resolveAll]

/-- Trees are resolved from the left, each on the table that the ones before it leave. -/
theorem resolveAll_cons :
    resolveAll declared scope (t :: ts) blocks =
      (resolve declared scope t blocks).bind fun first =>
        (resolveAll declared scope ts first.2).map fun others =>
          (first.1 :: others.1, others.2) := by
  rw [resolveAll]

/-- An entry that does not have the form of one binds nothing. -/
theorem bindEntries_of_ne (h : ∀ name bound, t ≠ node [leaf name, bound]) (inner : Bindings) :
    bindEntries declared scope inner (t :: ts) blocks = none := by
  rw [bindEntries.eq_def]
  split
  · next heq => cases heq
  · next name bound _ heq => exact absurd (List.cons.inj heq).1 (h name bound)
  · rfl

/-- What is decoded where one tree should stand is one tree. -/
theorem exists_of_decodeOne {r : Expr × Bindings}
    (h : decodeOne declared scope ts blocks = some r) :
    ∃ t, ts = [t] := by
  match ts with
  | [t] => exact ⟨t, rfl⟩
  | [] | _ :: _ :: _ => cases h

/-- A tree is decoded by resolving its let blocks and reading what is left. -/
theorem decode_eq_some_iff {e : Expr} :
    decode declared scope t blocks = some (e, blocks') ↔
      ∃ t', resolve declared scope t blocks = some (t', blocks') ∧
        read ⟨scope, blocks', declared⟩ t' = some e := by
  rw [decode, Option.bind_eq_some_iff]
  constructor
  · rintro ⟨⟨t', blocks₁⟩, hresolve, h⟩
    obtain ⟨e', hread, heq⟩ := Option.map_eq_some_iff.1 h
    cases heq
    exact ⟨t', hresolve, hread⟩
  · rintro ⟨t', hresolve, hread⟩
    exact ⟨_, hresolve, by rw [hread]; rfl⟩

/-- Resolving keeps the number of trees. -/
theorem length_of_resolveAll (h : resolveAll declared scope ts blocks = some (ts', blocks')) :
    ts'.length = ts.length := by
  induction ts generalizing ts' blocks with
  | nil =>
    cases h
    rfl
  | cons t ts ih =>
    rw [resolveAll] at h
    obtain ⟨first, -, h⟩ := Option.bind_eq_some_iff.1 h
    obtain ⟨others, hothers, h⟩ := Option.map_eq_some_iff.1 h
    cases h
    rw [List.length_cons, List.length_cons, ih hothers]

/-- A list is resolved to a list or to a placeholder. -/
theorem resolve_list (h : resolve declared scope (node ts) blocks = some (t, blocks')) :
    (∃ items, t = node items) ∨ ∃ entered, t = leaf (Decode.placeholder entered) := by
  rw [resolve.eq_def] at h
  dsimp only at h
  split at h
  · split at h
    · obtain ⟨bound, -, h⟩ := Option.bind_eq_some_iff.1 h
      obtain ⟨body, -, h⟩ := Option.bind_eq_some_iff.1 h
      obtain ⟨e, -, h⟩ := Option.map_eq_some_iff.1 h
      cases h
      exact Or.inr ⟨_, rfl⟩
    · cases h
  · obtain ⟨inside, -, h⟩ := Option.map_eq_some_iff.1 h
    cases h
    exact Or.inl ⟨_, rfl⟩

/-- A list that is no let block is resolved to one that is none either. -/
theorem isLet_of_resolveAll (hlet : isLet (node ts) = false)
    (h : resolveAll declared scope ts blocks = some (ts', blocks')) :
    isLet (node ts') = false := by
  have hlength := length_of_resolveAll h
  match ts, ts' with
  | [], [] => rfl
  | [_], [t'] => cases t' <;> rfl
  -- the head decides: a token stays, and a list becomes a list or a placeholder
  | first :: _ :: _, first' :: second' :: others' =>
    rw [resolveAll_cons] at h
    obtain ⟨resolved, hfirst, h⟩ := Option.bind_eq_some_iff.1 h
    obtain ⟨others, -, h⟩ := Option.map_eq_some_iff.1 h
    rw [Prod.mk.injEq, List.cons.injEq] at h
    obtain ⟨⟨rfl, -⟩, -⟩ := h
    cases first with
    | leaf token =>
      rw [resolve] at hfirst
      cases hfirst
      exact hlet
    | node =>
      obtain ⟨t', blocks₁⟩ := resolved
      rcases resolve_list hfirst with ⟨inside, rfl⟩ | ⟨entered, rfl⟩
      · rfl
      · exact beq_eq_false_iff_ne.2 fun heq => by cases heq

end

/-! ## The table

Resolving a tree only adds entries to the table, at most one for each let block. -/

mutual

/-- The number of let blocks in a tree. -/
def lets : TokenTree → Nat
  | leaf _ => 0
  | node items => (if isLet (node items) then 1 else 0) + letsAll items

def letsAll : List TokenTree → Nat
  | [] => 0
  | t :: ts => lets t + letsAll ts

end

/-- A numbered table that has grown by some entries. -/
structure Grown (n : Nat) (blocks blocks' : Bindings) : Prop where
  numbered : Decode.Numbered blocks'
  suffix : blocks <:+ blocks'
  length_le : blocks'.length ≤ blocks.length + n

namespace Grown

variable {m n : Nat} {blocks blocks' blocks'' : Bindings}

theorem refl (h : Decode.Numbered blocks) : Grown 0 blocks blocks :=
  ⟨h, List.suffix_refl _, Nat.le_refl _⟩

/-- A table that has grown twice has grown by both amounts. -/
theorem trans (h : Grown m blocks blocks') (h' : Grown n blocks' blocks'') :
    Grown (m + n) blocks blocks'' :=
  ⟨h'.numbered, h.suffix.trans h'.suffix, by have := h.length_le; have := h'.length_le; omega⟩

theorem mono (h : Grown m blocks blocks') (hle : m ≤ n) : Grown n blocks blocks' :=
  ⟨h.numbered, h.suffix, by have := h.length_le; omega⟩

/-- A block that is entered makes the table one longer. -/
theorem enter (h : Grown n blocks blocks') (e : Expr) :
    Grown (n + 1) blocks (enterBlock blocks' e).2 :=
  ⟨⟨rfl, h.numbered⟩, h.suffix.trans (List.suffix_cons _ _), by
    have := h.length_le
    simp only [enterBlock, List.length_cons]
    omega⟩

end Grown

section

variable {declared : Registry} {scope inner : Bindings} {ts entries : List TokenTree}

/-- Resolving a tree only adds to the table. -/
def Grows (declared : Registry) (t : TokenTree) : Prop :=
  ∀ scope blocks r, Decode.Numbered blocks → resolve declared scope t blocks = some r →
    Grown t.lets blocks r.2

/-- Resolving some trees adds their let blocks to the table at most, if resolving each does. -/
theorem grown_of_resolveAll (hts : ∀ t ∈ ts, Grows declared t) {blocks : Bindings}
    (hblocks : Decode.Numbered blocks) {r : List TokenTree × Bindings}
    (h : resolveAll declared scope ts blocks = some r) : Grown (letsAll ts) blocks r.2 := by
  induction ts generalizing blocks r with
  | nil =>
    rw [resolveAll] at h
    cases h
    exact .refl hblocks
  | cons t ts ih =>
    obtain ⟨ht, hts⟩ := List.forall_mem_cons.1 hts
    rw [resolveAll_cons] at h
    obtain ⟨first, hfirst, h⟩ := Option.bind_eq_some_iff.1 h
    obtain ⟨others, hothers, rfl⟩ := Option.map_eq_some_iff.1 h
    have hgrown := ht _ _ _ hblocks hfirst
    have hmore := ih hts hgrown.numbered hothers
    rw [letsAll]
    exact hgrown.trans hmore

/-- Decoding a tree adds to the table what resolving it does. -/
theorem grown_of_decode {t : TokenTree} (ht : Grows declared t) {blocks : Bindings}
    (hblocks : Decode.Numbered blocks) {r : Expr × Bindings}
    (h : decode declared scope t blocks = some r) : Grown t.lets blocks r.2 := by
  obtain ⟨t', hresolve, -⟩ := decode_eq_some_iff.1 h
  exact ht _ _ _ hblocks hresolve

/-- Binding some entries adds the let blocks of their terms to the table at most. -/
theorem grown_of_bindEntries
    (hentries : ∀ name bound, node [leaf name, bound] ∈ entries → Grows declared bound)
    {blocks : Bindings} (hblocks : Decode.Numbered blocks) {r : Bindings × Bindings}
    (h : bindEntries declared scope inner entries blocks = some r) :
    Grown (letsAll entries) blocks r.2 := by
  induction entries generalizing inner blocks r with
  | nil =>
    rw [bindEntries] at h
    cases h
    exact .refl hblocks
  | cons t entries ih =>
    by_cases hentry : ∃ name bound, t = node [leaf name, bound]
    · obtain ⟨name, bound, rfl⟩ := hentry
      rw [bindEntries_cons] at h
      obtain ⟨decoded, hdecoded, h⟩ := Option.bind_eq_some_iff.1 h
      have hbound := grown_of_decode (hentries name bound List.mem_cons_self) hblocks hdecoded
      have hmore := ih (fun name bound h => hentries name bound (List.mem_cons_of_mem _ h))
        hbound.numbered h
      -- the entry itself is no block, so its blocks are those of its term
      refine (hbound.trans hmore).mono ?_
      simp only [lets, letsAll]
      omega
    · rw [bindEntries_of_ne (by simpa using hentry)] at h
      cases h

/-- **Resolving only adds to the table**, and no more than the let blocks. -/
theorem grows (declared : Registry) (t : TokenTree) : Grows declared t := by
  induction t using block_induction with
  | leaf token =>
    intro scope blocks r hblocks h
    rw [resolve] at h
    cases h
    exact .refl hblocks
  | node items hlet ih =>
    intro scope blocks r hblocks h
    rw [resolve_node hlet] at h
    obtain ⟨inside, hinside, rfl⟩ := Option.map_eq_some_iff.1 h
    refine (grown_of_resolveAll ih hblocks hinside).mono ?_
    rw [lets]
    omega
  | block entries ts ihentries ihbody =>
    intro scope blocks r hblocks h
    rw [resolve_let] at h
    obtain ⟨bound, hbound, h⟩ := Option.bind_eq_some_iff.1 h
    obtain ⟨decoded, hdecoded, rfl⟩ := Option.map_eq_some_iff.1 h
    obtain ⟨body, rfl⟩ := exists_of_decodeOne hdecoded
    have hentries := grown_of_bindEntries ihentries hblocks hbound
    have hbody := grown_of_decode (ihbody body List.mem_cons_self) hentries.numbered hdecoded
    -- the block is one more than those of its entries and its body
    refine ((hentries.trans hbody).enter decoded.1).mono ?_
    simp only [lets, letsAll, isLet, beq_self_eq_true, if_true]
    omega
  | malformed token ts =>
    intro scope blocks r hblocks h
    rw [resolve_let_of_leaf] at h
    cases h

end

end TokenTree

end Interpolants
