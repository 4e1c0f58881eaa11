import Interpolants.Proofs.Decoding.Renaming
import Interpolants.Proofs.Layout.Names

/-!
# Interpolants — renaming the symbols of a term

Both passes of decoding under other names. They look names up and compare them with nothing, so that
an injective renaming goes through them (`read_rename`, `resolve_rename`) if it leaves placeholders
alone. A name under another name is written between pipes, whatever its content.
-/

namespace Interpolants

namespace TokenTree

/-! ## Tokens -/

/-- The token between pipes that stands for a name. -/
def quotedToken (name : String) : List Char :=
  '|' :: name.toList ++ ['|']

/-- A token that stands for a name, under another name. -/
def renameToken (f : String → String) (token : List Char) : List Char :=
  if f (unquote token) = unquote token then token else quotedToken (f (unquote token))

/-- A token where a term stands, under another name if it stands for one. -/
def renameLeaf (f : String → String) (token : List Char) : List Char :=
  if isLiteral token then token else renameToken f token

section

variable {f g : String → String} {token : List Char}

/-- Literals hold no names. -/
theorem rename_of_literal? {e : Expr} (h : literal? token = some e) : e.rename f = e := by
  unfold literal? at h
  split at h
  · cases h
    rfl
  · split at h
    · cases h
      rfl
    · obtain ⟨i, -, rfl⟩ := Option.map_eq_some_iff.1 h
      rfl

/-- A name between pipes stands for itself. -/
theorem unquote_quotedToken (name : String) : unquote (quotedToken name) = name :=
  (unquote_quoted name.toList).trans String.ofList_toList

/-- A name between pipes is no literal. -/
theorem isLiteral_quotedToken (name : String) : isLiteral (quotedToken name) = false := by
  have hne : ∀ {c : Char} {cs : List Char}, c ≠ '|' → quotedToken name ≠ c :: cs := by
    rintro c cs hc heq
    exact hc (List.cons.inj heq).1.symm
  have hnumeral : Decimal.isNumeral (quotedToken name) = false := rfl
  rw [isLiteral, hnumeral, Bool.or_false, Bool.or_eq_false_iff]
  exact ⟨beq_eq_false_iff_ne.2 (hne (by decide)), beq_eq_false_iff_ne.2 (hne (by decide))⟩

/-- A renamed token stands for the new name. -/
theorem unquote_renameToken (f : String → String) (token : List Char) :
    unquote (renameToken f token) = f (unquote token) := by
  unfold renameToken
  split
  · next heq => exact heq.symm
  · exact unquote_quotedToken _

/-- Renaming makes no name of a literal and no literal of a name. -/
theorem isLiteral_renameLeaf (f : String → String) (token : List Char) :
    isLiteral (renameLeaf f token) = isLiteral token := by
  unfold renameLeaf renameToken
  split
  · rfl
  · next h =>
    split
    · rfl
    · rw [isLiteral_quotedToken, Bool.eq_false_iff.2 h]

/-- A renamed token that is no literal stands for the new name. -/
theorem unquote_renameLeaf (h : isLiteral token = false) :
    unquote (renameLeaf f token) = f (unquote token) := by
  rw [renameLeaf, if_neg (by simp [h]), unquote_renameToken]

/-- A leaf under another name is looked up under the other name. -/
theorem leaf_rename (hf : Function.Injective f) (names : Names) (token : List Char) :
    ((names.rename f).leaf (renameLeaf f token)).toOption
      = (names.leaf token).toOption.map (Expr.rename f) := by
  rw [toOption_leaf, toOption_leaf, isLiteral_renameLeaf]
  cases hliteral : isLiteral token with
  | true =>
    rw [if_pos rfl, if_pos rfl, renameLeaf, if_pos hliteral]
    cases hvalue : literal? token with
    | none => rfl
    | some e => rw [Option.map_some, rename_of_literal? hvalue]
  | false =>
    rw [if_neg (by decide), if_neg (by decide), unquote_renameLeaf hliteral, Names.find?_rename hf]

end

/-! ## Trees -/

mutual

/-- A tree under other names. Operators stay what they are, and so does what is no term. -/
def rename (f : String → String) : TokenTree → TokenTree
  | leaf token => leaf (renameLeaf f token)
  | node (leaf op :: args) =>
    node (leaf op :: if op = "let".toList then renameParts f args else renameAll f args)
  | node items => node (renameAll f items)

def renameAll (f : String → String) : List TokenTree → List TokenTree
  | [] => []
  | t :: ts => rename f t :: renameAll f ts

/-- The bindings of a let block and what follows them. -/
def renameParts (f : String → String) : List TokenTree → List TokenTree
  | node entries :: ts => node (renameEntries f entries) :: renameAll f ts
  | ts => ts

def renameEntries (f : String → String) : List TokenTree → List TokenTree
  | node [leaf name, bound] :: entries =>
    node [leaf (renameToken f name), rename f bound] :: renameEntries f entries
  | ts => ts

end

section

variable {f : String → String} {items args : List TokenTree}

/-- What stands in the parentheses of an application, under other names. -/
def renameItems (f : String → String) : List TokenTree → List TokenTree
  | leaf op :: args => leaf op :: renameAll f args
  | items => renameAll f items

/-- A list in the place of an operator is renamed like the others. -/
theorem renameItems_node (inside args : List TokenTree) :
    renameItems f (node inside :: args) = renameAll f (node inside :: args) :=
  rfl

/-- A list stays a list. -/
theorem exists_rename_node (f : String → String) (items : List TokenTree) :
    ∃ items', rename f (node items) = node items' := by
  match items with
  | [] | node _ :: _ => exact ⟨_, rfl⟩
  | leaf op :: args =>
    rw [rename]
    exact ⟨_, rfl⟩

/-- A let block is renamed part by part. -/
theorem rename_let (args : List TokenTree) :
    rename f (node (leaf "let".toList :: args))
      = node (leaf "let".toList :: renameParts f args) := by
  rw [rename, if_pos rfl]

/-- A let block with a token for its entries stays what it is. -/
theorem rename_malformed (token : List Char) (ts : List TokenTree) :
    rename f (node (leaf "let".toList :: leaf token :: ts))
      = node (leaf "let".toList :: leaf token :: ts) := by
  rw [rename_let, renameParts]
  rintro entries others ⟨⟩

/-- A list that is no let block is renamed item by item. -/
theorem rename_node (h : isLet (node items) = false) :
    rename f (node items) = node (renameItems f items) := by
  match items with
  | [] => rfl
  | [leaf op] =>
    rw [rename, renameItems]
    split <;> rfl
  | leaf op :: _ :: _ =>
    rw [rename, if_neg (beq_eq_false_iff_ne.1 h), renameItems]
  | node inside :: args => rw [rename, renameItems] <;> nofun

/-- Renaming makes no let block of another list. -/
theorem isLet_renameItems (h : isLet (node items) = false) :
    isLet (node (renameItems f items)) = false := by
  match items with
  | [] => rfl
  | [leaf op] => rfl
  | leaf op :: _ :: _ => exact h
  | node inside :: args =>
    obtain ⟨inside', heq⟩ := exists_rename_node f inside
    show isLet (node (rename f (node inside) :: _)) = false
    rw [heq]
    rfl

/-! ## Reading under other names -/

/-- Renaming does not touch the magnitude of the least word. -/
theorem isLeast_rename (f : String → String) (args : List TokenTree) :
    isLeast (renameAll f args) = isLeast args := by
  match args with
  | [leaf token] =>
    show isLeast [leaf (renameLeaf f token)] = _
    cases hliteral : isLiteral token with
    | true => rw [renameLeaf, if_pos hliteral]
    | false =>
      -- a name is no numeral, and no other name is one
      have hnumeral : ∀ {token}, isLiteral token = false → Decimal.isNumeral token = false := by
        intro token h
        simp only [isLiteral, Bool.or_eq_false_iff] at h
        exact h.2
      rw [isLeast, isLeast, hnumeral hliteral,
        hnumeral ((isLiteral_renameLeaf f token).trans hliteral)]
      rfl
  | [node items] =>
    obtain ⟨items', heq⟩ := exists_rename_node f items
    show isLeast [rename f (node items)] = _
    rw [heq]
    rfl
  | [] => rfl
  | _ :: _ :: _ => simp [renameAll, isLeast]

/-- A let block is no application. -/
theorem read_let (names : Names) (args : List TokenTree) :
    read names (node (leaf "let".toList :: args)) = none := by
  rw [read, if_neg (by simp)]
  cases readAll names args <;> rfl

/-- Reading some trees goes through a renaming if reading each does. -/
theorem readAll_rename {names : Names}
    (h : ∀ t ∈ args, (rename f t).read (names.rename f) = (t.read names).map (Expr.rename f)) :
    readAll (names.rename f) (renameAll f args)
      = (readAll names args).map (List.map (Expr.rename f)) := by
  induction args with
  | nil => rfl
  | cons t args ih =>
    obtain ⟨ht, hargs⟩ := List.forall_mem_cons.1 h
    rw [renameAll, readAll, readAll, ht, ih hargs]
    cases t.read names with
    | none => rfl
    | some e => cases readAll names args <;> rfl

variable (hf : Function.Injective f)

include hf

/-- **Reading goes through a renaming.** -/
theorem read_rename (names : Names) (t : TokenTree) :
    (rename f t).read (names.rename f) = (t.read names).map (Expr.rename f) := by
  induction t using block_induction with
  | leaf token =>
    rw [rename, read, read]
    exact leaf_rename hf names token
  | node items hlet ih =>
    rw [rename_node hlet]
    match items with
    | [] => rfl
    | node inside :: args =>
      -- a list in the place of the operator stays one, and is not read
      obtain ⟨inside', heq⟩ := exists_rename_node f inside
      show read _ (node (rename f (node inside) :: _)) = _
      rw [heq]
      rfl
    | leaf op :: args =>
      rw [renameItems, read, read, isLeast_rename,
        readAll_rename fun t ht => ih t (List.mem_cons_of_mem _ ht)]
      split
      · rfl
      · cases readAll names args with
        | none => rfl
        | some es => exact applyNamed_rename _ es
  | block entries ts =>
    rw [rename_let, read_let, read_let]
    rfl
  | malformed token ts =>
    rw [rename_let, read_let, read_let]
    rfl

/-! ## Resolving under other names -/

omit hf in
/-- No token for a let block is given another name. -/
theorem renameLeaf_placeholder (hkept : ∀ name, Decode.IsPlaceholder name → f name = name)
    (blocks : Bindings) : renameLeaf f (Decode.placeholder blocks) = Decode.placeholder blocks := by
  have hname : unquote (Decode.placeholder blocks) = String.ofList (Decode.placeholder blocks) :=
    rfl
  rw [renameLeaf, renameToken, hname, hkept _ (Decode.isPlaceholder_placeholder blocks), if_pos rfl,
    ite_self]

omit hf in
/-- Entering a block goes through a renaming that keeps placeholders. -/
theorem enterBlock_rename (hkept : ∀ name, Decode.IsPlaceholder name → f name = name)
    (blocks : Bindings) (e : Expr) :
    enterBlock (renameBindings f blocks) (e.rename f)
      = (rename f (enterBlock blocks e).1, renameBindings f (enterBlock blocks e).2) := by
  have hsame : Decode.placeholder (renameBindings f blocks) = Decode.placeholder blocks := by
    rw [Decode.placeholder, Decode.placeholder, renameBindings, List.length_map]
  rw [enterBlock, enterBlock, hsame, rename, renameLeaf_placeholder hkept, renameBindings,
    renameBindings, List.map_cons, hkept _ (Decode.isPlaceholder_placeholder blocks)]

variable {declared : Registry} {t : TokenTree} {ts entries : List TokenTree}

omit hf in
/-- Resolving a tree goes through a renaming. -/
def ResolvesRenamed (f : String → String) (declared : Registry) (t : TokenTree) : Prop :=
  ∀ scope blocks,
    resolve (declared.rename f) (renameBindings f scope) (rename f t) (renameBindings f blocks)
      = (resolve declared scope t blocks).map fun r => (rename f r.1, renameBindings f r.2)

omit hf in
/-- Resolving some trees goes through a renaming if resolving each does. -/
theorem resolveAll_rename (h : ∀ t ∈ ts, ResolvesRenamed f declared t) (scope blocks : Bindings) :
    resolveAll (declared.rename f) (renameBindings f scope) (renameAll f ts)
      (renameBindings f blocks)
      = (resolveAll declared scope ts blocks).map
          fun r => (renameAll f r.1, renameBindings f r.2) := by
  induction ts generalizing blocks with
  | nil =>
    rw [renameAll, resolveAll, resolveAll]
    rfl
  | cons t ts ih =>
    obtain ⟨ht, hts⟩ := List.forall_mem_cons.1 h
    rw [renameAll, resolveAll_cons, resolveAll_cons, ht scope blocks]
    cases resolve declared scope t blocks with
    | none => rfl
    | some first =>
      show Option.map _ (resolveAll _ _ (renameAll f ts) (renameBindings f first.2)) = _
      rw [ih hts]
      show _ = Option.map _ (Option.map _ (resolveAll declared scope ts first.2))
      rw [Option.map_map, Option.map_map]
      rfl

omit hf in
/-- Resolving the items of a list goes through a renaming if resolving each item does. -/
theorem resolveItems_rename (hkept : ∀ name, Decode.IsPlaceholder name → f name = name)
    (h : ∀ t ∈ items, ResolvesRenamed f declared t) (scope blocks : Bindings) :
    resolveAll (declared.rename f) (renameBindings f scope) (renameItems f items)
        (renameBindings f blocks)
      = (resolveAll declared scope items blocks).map
          fun r => (renameItems f r.1, renameBindings f r.2) := by
  cases items with
  | nil =>
    rw [resolveAll_nil]
    rfl
  | cons head args =>
    cases head with
    | leaf op =>
      rw [renameItems, resolveAll_cons, resolveAll_cons, resolve, resolve, Option.bind_some,
        Option.bind_some, resolveAll_rename (fun t ht => h t (List.mem_cons_of_mem _ ht)),
        Option.map_map, Option.map_map]
      rfl
    | node inside =>
      rw [renameItems_node, resolveAll_rename h, resolveAll_cons]
      cases hfirst : resolve declared scope (node inside) blocks with
      | none => rfl
      | some first =>
        -- in front stands a list or a placeholder, which keeps its name
        have hfront : ∀ ts, renameItems f (first.1 :: ts) = renameAll f (first.1 :: ts) := by
          intro ts
          rcases resolve_list hfirst with ⟨items, heq⟩ | ⟨entered, heq⟩
          · rw [heq, renameItems_node]
          · rw [heq, renameItems, renameAll, rename, renameLeaf_placeholder hkept]
        rw [Option.bind_some, Option.map_map, Option.map_map]
        congr 1
        funext others
        exact Prod.ext (hfront _).symm rfl

/-- Decoding a tree goes through a renaming if resolving it does. -/
theorem decode_rename_of_resolves (h : ResolvesRenamed f declared t) (scope blocks : Bindings) :
    decode (declared.rename f) (renameBindings f scope) (rename f t) (renameBindings f blocks)
      = (decode declared scope t blocks).map fun r => (r.1.rename f, renameBindings f r.2) := by
  rw [decode, decode, h scope blocks]
  cases resolve declared scope t blocks with
  | none => rfl
  | some resolved =>
    have hread := read_rename hf ⟨scope, resolved.2, declared⟩ resolved.1
    show Option.map _ (read (Names.rename f ⟨scope, resolved.2, declared⟩) (rename f resolved.1))
      = _
    rw [hread, Option.bind_some, Option.map_map, Option.map_map]
    rfl

/-- Decoding the body of a let block goes through a renaming if resolving it does. -/
theorem decodeOne_rename_of_resolves (h : ∀ t ∈ ts, ResolvesRenamed f declared t)
    (scope blocks : Bindings) :
    decodeOne (declared.rename f) (renameBindings f scope) (renameAll f ts)
      (renameBindings f blocks)
      = (decodeOne declared scope ts blocks).map fun r => (r.1.rename f, renameBindings f r.2) := by
  rcases ts with _ | ⟨t, _ | ⟨t', ts⟩⟩
  · rfl
  · exact decode_rename_of_resolves hf (h t List.mem_cons_self) scope blocks
  · rfl

/-- Binding some entries goes through a renaming if resolving their terms does. -/
theorem bindEntries_rename
    (h : ∀ name bound, node [leaf name, bound] ∈ entries → ResolvesRenamed f declared bound)
    (scope inner blocks : Bindings) :
    bindEntries (declared.rename f) (renameBindings f scope) (renameBindings f inner)
        (renameEntries f entries) (renameBindings f blocks)
      = (bindEntries declared scope inner entries blocks).map
          fun r => (renameBindings f r.1, renameBindings f r.2) := by
  induction entries generalizing inner blocks with
  | nil =>
    rw [bindEntries_nil]
    exact bindEntries_nil
  | cons t entries ih =>
    by_cases hentry : ∃ name bound, t = node [leaf name, bound]
    · obtain ⟨name, bound, rfl⟩ := hentry
      rw [renameEntries, bindEntries_cons, bindEntries_cons, unquote_renameToken,
        decode_rename_of_resolves hf (h name bound List.mem_cons_self)]
      cases decode declared scope bound blocks with
      | none => rfl
      | some decoded =>
        exact ih (fun name bound h' => h name bound (List.mem_cons_of_mem _ h'))
          ((unquote name, decoded.1) :: inner) decoded.2
    -- what is no entry ends the bindings, under either names
    · have hne : ∀ name bound, t ≠ node [leaf name, bound] := by simpa using hentry
      have hsame : renameEntries f (t :: entries) = t :: entries := by
        rw [renameEntries]
        rintro name bound others ⟨rfl, rfl⟩
        exact hne name bound rfl
      rw [hsame, bindEntries_of_ne hne, bindEntries_of_ne hne]
      rfl

/-- **Resolving goes through a renaming** that leaves placeholders alone. -/
theorem resolve_rename (hkept : ∀ name, Decode.IsPlaceholder name → f name = name)
    (declared : Registry) (t : TokenTree) : ResolvesRenamed f declared t := by
  induction t using block_induction with
  | leaf token =>
    intro scope blocks
    rw [rename, resolve, resolve, Option.map_some, rename]
  | node items hlet ih =>
    intro scope blocks
    rw [rename_node hlet, resolve_node (isLet_renameItems hlet), resolve_node hlet,
      resolveItems_rename hkept ih]
    cases hresolved : resolveAll declared scope items blocks with
    | none => rfl
    | some r => rw [Option.map_some, Option.map_some, Option.map_some, Option.map_some,
        rename_node (isLet_of_resolveAll hlet hresolved)]
  | block entries ts ihentries ihbody =>
    intro scope blocks
    rw [rename_let, renameParts, resolve_let, resolve_let, bindEntries_rename hf ihentries]
    cases bindEntries declared scope scope entries blocks with
    | none => rfl
    | some bound =>
      show Option.map _ (decodeOne _ (renameBindings f bound.1) (renameAll f ts)
        (renameBindings f bound.2))
        = Option.map _ (Option.map _ (decodeOne declared bound.1 ts bound.2))
      rw [decodeOne_rename_of_resolves hf ihbody, Option.map_map, Option.map_map]
      congr 1
      funext decoded
      -- the placeholder depends on the length of the table alone
      exact enterBlock_rename hkept decoded.2 decoded.1
  | malformed token ts =>
    intro scope blocks
    rw [rename_malformed, resolve_let_of_leaf, resolve_let_of_leaf]
    rfl

end

end TokenTree

end Interpolants
