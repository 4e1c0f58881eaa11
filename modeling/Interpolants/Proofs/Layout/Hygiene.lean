import Interpolants.Proofs.Decoding.Placeholders
import Interpolants.Proofs.Layout.Names
import Interpolants.Proofs.Layout.Splicing

/-!
# Interpolants — hygiene of placeholders

Placeholders are tokens among the others, and a quoted symbol may be spelled like one. What keeps
them apart is a count: a term with `n` let blocks uses the first `n` placeholders at most, and a
clear text whose names are other ones is decoded by lexical scoping (`decode_lexical`). A name that
is spelled like a placeholder in use is taken for the let block (`decode_clash`).

## The architecture

* **`TokenTree.formula?`** — what a tree stands for: a recursion that passes the scope down and
  never sees a placeholder.
* **`Stands`** — a resolved tree is read as the formula on every table that the session may still
  reach.
* **`lexical`** — each tree is resolved to one that stands for its formula, or neither gives any.
-/

namespace Interpolants

namespace TokenTree

/-! ## Lexical scoping -/

mutual

/-- The formula that a tree stands for in a scope. -/
def formula? (declared : Registry) (scope : Bindings) : TokenTree → Option Expr
  | leaf token => ((⟨scope, [], declared⟩ : Names).leaf token).toOption
  | node items =>
    if isLet (node items) then
      match items with
      | [_, node entries, body] =>
        (formulaEntries declared scope scope entries).bind fun inner => formula? declared inner body
      | _ => none
    else
      match items with
      | leaf op :: args =>
        if op = ['-'] ∧ isLeast args then some (.integer Int64.minValue)
        else (formulas declared scope args).bind
          fun es => (applyNamed (String.ofList op) es).toOption
      | _ => none

def formulas (declared : Registry) (scope : Bindings) : List TokenTree → Option (List Expr)
  | [] => some []
  | t :: ts =>
    (formula? declared scope t).bind fun e =>
      (formulas declared scope ts).bind fun es => some (e :: es)

/-- The names of a let block with their formulas in a scope, put before those of `inner`. -/
def formulaEntries (declared : Registry) (scope inner : Bindings) : List TokenTree → Option Bindings
  | [] => some inner
  | node [leaf name, bound] :: entries =>
    (formula? declared scope bound).bind fun e =>
      formulaEntries declared scope ((unquote name, e) :: inner) entries
  | _ => none

end

/-- What stands where one tree should stand. -/
def formulaOne (declared : Registry) (scope : Bindings) : List TokenTree → Option Expr
  | [t] => formula? declared scope t
  | _ => none

section

variable {declared : Registry} {scope inner : Bindings} {t : TokenTree}
    {ts entries items : List TokenTree}

/-- A let block stands for its body, in the scope that its entries make. -/
theorem formula?_let (entries ts : List TokenTree) :
    formula? declared scope (node (leaf "let".toList :: node entries :: ts))
      = (formulaEntries declared scope scope entries).bind
        fun inner => formulaOne declared inner ts := by
  rw [formula?.eq_def]
  dsimp only
  rw [if_pos (by simp [isLet])]
  rcases ts with _ | ⟨body, _ | ⟨other, ts⟩⟩
  · cases formulaEntries declared scope scope entries <;> rfl
  · rfl
  · cases formulaEntries declared scope scope entries <;> rfl

/-- A let block with a token for its entries stands for nothing. -/
theorem formula?_let_of_leaf (token : List Char) (ts : List TokenTree) :
    formula? declared scope (node (leaf "let".toList :: leaf token :: ts)) = none := by
  rw [formula?.eq_def]
  dsimp only
  rw [if_pos (by simp [isLet])]

/-- An application stands for its operator on what its arguments stand for. -/
theorem formula?_application {op : List Char} (h : isLet (node (leaf op :: ts)) = false) :
    formula? declared scope (node (leaf op :: ts))
      = if op = ['-'] ∧ isLeast ts then some (.integer Int64.minValue)
        else (formulas declared scope ts).bind
          fun es => (applyNamed (String.ofList op) es).toOption := by
  rw [formula?.eq_def]
  simp only [h]
  rfl

/-- What is no pair of a name and a term is no entry. -/
theorem formulaEntries_of_ne (h : ∀ name bound, t ≠ node [leaf name, bound]) (inner : Bindings) :
    formulaEntries declared scope inner (t :: ts) = none := by
  rw [formulaEntries.eq_def]
  split
  · next heq => cases heq
  · next name bound _ heq => exact absurd (List.cons.inj heq).1 (h name bound)
  · rfl

end

/-! ## Names that are no placeholders in use -/

/-- The name is none of the first `n` placeholders. -/
def Foreign (n : Nat) (name : String) : Prop :=
  ∀ k < n, name ≠ String.ofList ("#let".toList ++ Decimal.digits k)

/-- The names of a scope are none of the first `n` placeholders. -/
def ForeignScope (n : Nat) (scope : Bindings) : Prop :=
  ∀ entry ∈ scope, Foreign n entry.1

section

variable {declared : Registry} {n : Nat} {scope blocks blocks' : Bindings} {name : String}

/-- A name that is none of the first placeholders is not in a table of these. -/
theorem Foreign.lookup_eq_none (h : Foreign n name) (hblocks : Decode.Numbered blocks)
    (hlength : blocks.length ≤ n) : blocks.lookup name = none := by
  cases hlookup : blocks.lookup name with
  | none => rfl
  | some e =>
    obtain ⟨k, hk, hname⟩ := hblocks.exists_number hlookup
    exact absurd hname (h k (by omega))

/-- **A name keeps its meaning**, whatever is in the table. -/
theorem find?_of_foreign (h : Foreign n name) (hblocks : Decode.Numbered blocks)
    (hlength : blocks.length ≤ n) :
    Names.find? ⟨scope, blocks, declared⟩ name = Names.find? ⟨scope, [], declared⟩ name := by
  simp only [Names.find?, h.lookup_eq_none hblocks hlength, List.lookup_nil]

/-- **A placeholder stands for its let block**, whatever is in the scope. -/
theorem find?_placeholder (hscope : ForeignScope n scope) (hlength : blocks.length < n) {e : Expr}
    (hentry : blocks'.lookup (String.ofList (Decode.placeholder blocks)) = some e) :
    Names.find? ⟨scope, blocks', declared⟩ (String.ofList (Decode.placeholder blocks))
      = some e := by
  have hnone : scope.lookup (String.ofList (Decode.placeholder blocks)) = none := by
    rw [List.lookup_eq_none_iff]
    intro entry he
    rw [bne_iff_ne]
    exact fun heq => hscope entry he _ hlength heq.symm
  simp only [Names.find?, hnone, hentry]

/-- A placeholder is looked up like a name. -/
theorem read_placeholder (names : Names) (blocks : Bindings) :
    (leaf (Decode.placeholder blocks)).read names
      = names.find? (String.ofList (Decode.placeholder blocks)) := by
  have hliteral : isLiteral (Decode.placeholder blocks) = false := by
    rfl
  rw [read, toOption_leaf, hliteral]
  rfl

end

/-! ## Resolved trees -/

/-- The tree is read as the formula, on each table that has grown from this one and holds no more
than `n` let blocks. -/
def Stands (n : Nat) (declared : Registry) (scope blocks : Bindings) (t : TokenTree)
    (v : Option Expr) :
    Prop :=
  ∀ blocks', Decode.Numbered blocks' → blocks <:+ blocks' → blocks'.length ≤ n →
    t.read ⟨scope, blocks', declared⟩ = v

/-- A tree whose names are none of the first `n` placeholders is resolved to one that stands for its
formula, while the table holds no more let blocks. -/
def Lexical (n : Nat) (declared : Registry) (t : TokenTree) : Prop :=
  (∀ name ∈ t.names, Foreign n name) → ∀ scope blocks, ForeignScope n scope →
    Decode.Numbered blocks → blocks.length + t.lets ≤ n →
    (∀ r, resolve declared scope t blocks = some r →
      Stands n declared scope r.2 r.1 (formula? declared scope t)) ∧
    (resolve declared scope t blocks = none → formula? declared scope t = none)

section

variable {declared : Registry} {n : Nat} {scope blocks : Bindings} {t : TokenTree}
  {ts items entries : List TokenTree}

/-- A list or a placeholder in front is no operator. -/
theorem read_of_list (names : Names) {r : TokenTree × Bindings}
    (h : resolve declared scope (node items) blocks = some r) (ts : List TokenTree) :
    (node (r.1 :: ts)).read names = none := by
  rcases resolve_list h with ⟨inside, heq⟩ | ⟨entered, heq⟩
  · rw [heq]
    rfl
  · have hhash := Decode.hash_mem_of_isPlaceholder (Decode.isPlaceholder_placeholder entered)
    have hoperator := ofName?_of_mem hhash (· == '#') rfl (by decide)
    rw [heq, read, if_neg fun h => by cases h.1]
    cases readAll names ts with
    | none => rfl
    | some es =>
      show (applyNamed _ es).toOption = none
      exact applyNamed_of_ofName? hoperator es

/-- A numeral is a numeral after resolving, and a list is none. -/
theorem isLeast_of_resolveAll {r : List TokenTree × Bindings}
    (h : resolveAll declared scope ts blocks = some r) : isLeast r.1 = isLeast ts := by
  have hlength := length_of_resolveAll h
  -- the lists with one tree are those that matter, and resolving keeps the length
  rcases ts with _ | ⟨t, _ | ⟨t₁, ts⟩⟩
  · rw [List.length_eq_zero_iff.1 hlength]
  · rw [resolveAll_cons] at h
    obtain ⟨first, hfirst, h⟩ := Option.bind_eq_some_iff.1 h
    rw [resolveAll_nil] at h
    cases h
    cases t with
    | leaf token =>
      rw [resolve] at hfirst
      cases hfirst
      rfl
    | node items =>
      rcases resolve_list hfirst with ⟨inside, heq⟩ | ⟨entered, heq⟩ <;> rw [heq] <;> rfl
  · rcases hr : r.1 with _ | ⟨t', _ | ⟨t₁', ts'⟩⟩
    · rw [hr] at hlength
      cases hlength
    · rw [hr] at hlength
      cases hlength
    · simp [isLeast]

/-- The least word is written without let blocks, which resolving could refuse. -/
theorem isLeast_of_unresolved (h : resolveAll declared scope ts blocks = none) :
    isLeast ts = false := by
  unfold isLeast
  split
  · rw [resolveAll_cons, resolve, Option.bind_some, resolveAll_nil] at h
    cases h
  · rfl

/-- Trees are resolved to ones that stand for their formulas. -/
theorem lexical_resolveAll (hts : ∀ t ∈ ts, Lexical n declared t)
    (hnames : ∀ name ∈ namesOfAll ts, Foreign n name) (hscope : ForeignScope n scope)
    (hblocks : Decode.Numbered blocks) (hlength : blocks.length + letsAll ts ≤ n) :
    (∀ r, resolveAll declared scope ts blocks = some r →
      ∀ blocks', Decode.Numbered blocks' → r.2 <:+ blocks' → blocks'.length ≤ n →
        readAll ⟨scope, blocks', declared⟩ r.1 = formulas declared scope ts) ∧
    (resolveAll declared scope ts blocks = none → formulas declared scope ts = none) := by
  induction ts generalizing blocks with
  | nil =>
    rw [resolveAll_nil]
    refine ⟨?_, by rintro ⟨⟩⟩
    rintro _ ⟨⟩ _ _ _ _
    rfl
  | cons t ts ih =>
    obtain ⟨ht, hts⟩ := List.forall_mem_cons.1 hts
    rw [namesOfAll, List.forall_mem_append] at hnames
    rw [letsAll] at hlength
    obtain ⟨hstands, hfails⟩ := ht hnames.1 scope blocks hscope hblocks (by omega)
    rw [resolveAll_cons, formulas]
    cases hfirst : resolve declared scope t blocks with
    | none =>
      refine ⟨by rintro _ ⟨⟩, fun _ => ?_⟩
      rw [hfails hfirst]
      rfl
    | some first =>
      have hgrown := grows declared t scope blocks first hblocks hfirst
      obtain ⟨hothers, hnone⟩ :=
        ih hts hnames.2 hgrown.numbered (by have := hgrown.length_le; omega)
      rw [Option.bind_some]
      cases hresolved : resolveAll declared scope ts first.2 with
      | none =>
        refine ⟨by rintro _ ⟨⟩, fun _ => ?_⟩
        rw [hnone hresolved]
        cases formula? declared scope t <;> rfl
      | some others =>
        refine ⟨?_, by rintro ⟨⟩⟩
        rintro _ ⟨⟩ blocks' hblocks' hsuffix hle
        -- the tree in front is read on a table that the others have made longer
        have hmore :=
          (grown_of_resolveAll (fun t _ => grows declared t) hgrown.numbered hresolved).suffix
        rw [readAll, hstands first hfirst blocks' hblocks' (hmore.trans hsuffix) hle,
          hothers others hresolved blocks' hblocks' hsuffix hle]

/-- The formula of a tree is what decoding gives. -/
theorem lexical_decode (ht : Lexical n declared t) (hnames : ∀ name ∈ t.names, Foreign n name)
    (hscope : ForeignScope n scope) (hblocks : Decode.Numbered blocks)
    (hlength : blocks.length + t.lets ≤ n) :
    (decode declared scope t blocks).map Prod.fst = formula? declared scope t := by
  obtain ⟨hstands, hfails⟩ := ht hnames scope blocks hscope hblocks hlength
  rw [decode]
  cases hresolved : resolve declared scope t blocks with
  | none => exact (hfails hresolved).symm
  | some r =>
    have hgrown := grows declared t scope blocks r hblocks hresolved
    have hread := hstands r hresolved r.2 hgrown.numbered (List.suffix_refl _)
      (by have := hgrown.length_le; omega)
    show Option.map Prod.fst (Option.map _ (read _ r.1)) = _
    rw [hread, Option.map_map]
    exact Option.map_id'

/-- The entries of a let block bind the formulas of their terms. -/
theorem lexical_bindEntries
    (hentries : ∀ name bound, node [leaf name, bound] ∈ entries → Lexical n declared bound)
    (hnames : ∀ name ∈ namesOfEntries entries, Foreign n name) (hscope : ForeignScope n scope)
    {inner : Bindings} (hinner : ForeignScope n inner) (hblocks : Decode.Numbered blocks)
    (hlength : blocks.length + letsAll entries ≤ n) :
    (bindEntries declared scope inner entries blocks).map Prod.fst
        = formulaEntries declared scope inner entries ∧
      ∀ r, bindEntries declared scope inner entries blocks = some r → ForeignScope n r.1 := by
  induction entries generalizing inner blocks with
  | nil =>
    rw [bindEntries_nil, formulaEntries]
    refine ⟨rfl, ?_⟩
    rintro _ ⟨⟩
    exact hinner
  | cons t entries ih =>
    by_cases hentry : ∃ name bound, t = node [leaf name, bound]
    · obtain ⟨name, bound, rfl⟩ := hentry
      rw [namesOfEntries, List.cons_append, List.forall_mem_cons, List.forall_mem_append] at hnames
      simp only [letsAll, lets] at hlength
      have hbound := hentries name bound List.mem_cons_self
      -- the name of the entry is foreign, so it hides no placeholder from the entries behind
      have hdecode := lexical_decode hbound hnames.2.1 hscope hblocks (by omega)
      rw [bindEntries_cons, formulaEntries, ← hdecode]
      cases hdecoded : decode declared scope bound blocks with
      | none => exact ⟨rfl, by rintro _ ⟨⟩⟩
      | some decoded =>
        have hgrown := grown_of_decode (grows declared bound) hblocks hdecoded
        have hinner' : ForeignScope n ((unquote name, decoded.1) :: inner) :=
          List.forall_mem_cons.2 ⟨hnames.1, hinner⟩
        exact ih (fun name bound h => hentries name bound (List.mem_cons_of_mem _ h))
          hnames.2.2 hinner'
          hgrown.numbered (by have := hgrown.length_le; omega)
    · have hne : ∀ name bound, t ≠ node [leaf name, bound] := by simpa using hentry
      rw [bindEntries_of_ne hne, formulaEntries_of_ne hne]
      exact ⟨rfl, by rintro _ ⟨⟩⟩

/-- An application is resolved through its operands. -/
theorem lexical_node (hlet : isLet (node items) = false)
    (hitems : ∀ t ∈ items, Lexical n declared t) :
    Lexical n declared (node items) := by
  intro hnames scope blocks hscope hblocks hlength
  rw [names_node hlet] at hnames
  rw [lets] at hlength
  rw [resolve_node hlet]
  cases items with
  | nil =>
    rw [resolveAll_nil]
    refine ⟨?_, by rintro ⟨⟩⟩
    rintro _ ⟨⟩ _ _ _ _
    rfl
  | cons head args =>
    cases head with
    | node inside =>
      -- a list in front is no operator, also if a let block stands there
      have hnone : formula? declared scope (node (node inside :: args)) = none := by
        rw [formula?.eq_def]
        simp only [hlet]
        rfl
      rw [hnone]
      refine ⟨fun r hr => ?_, fun _ => rfl⟩
      obtain ⟨resolved, hresolved, rfl⟩ := Option.map_eq_some_iff.1 hr
      rw [resolveAll_cons] at hresolved
      obtain ⟨first, hfirst, hresolved⟩ := Option.bind_eq_some_iff.1 hresolved
      obtain ⟨others, -, rfl⟩ := Option.map_eq_some_iff.1 hresolved
      exact fun blocks' _ _ _ => read_of_list _ hfirst _
    | leaf op =>
      rw [letsAll, lets] at hlength
      obtain ⟨hreads, hfails⟩ :=
        lexical_resolveAll (fun t ht => hitems t (List.mem_cons_of_mem _ ht))
        hnames hscope hblocks (by omega)
      rw [formula?_application hlet, resolveAll_cons, resolve, Option.bind_some]
      cases hresolved : resolveAll declared scope args blocks with
      | none =>
        -- the magnitude of the least word is resolved, so it is not what stands there
        have hleast : isLeast args = false := isLeast_of_unresolved hresolved
        refine ⟨by rintro _ ⟨⟩, fun _ => ?_⟩
        rw [if_neg (by simp [hleast]), hfails hresolved]
        rfl
      | some others =>
        refine ⟨?_, by rintro ⟨⟩⟩
        rintro _ ⟨⟩ blocks' hblocks' hsuffix hle
        rw [read, hreads others hresolved blocks' hblocks' hsuffix hle,
          isLeast_of_resolveAll hresolved]

/-- **A let block is resolved to a placeholder for its formula.** -/
theorem lexical_block
    (hentries : ∀ name bound, node [leaf name, bound] ∈ entries → Lexical n declared bound)
    (hts : ∀ t ∈ ts, Lexical n declared t) :
    Lexical n declared (node (leaf "let".toList :: node entries :: ts)) := by
  intro hnames scope blocks hscope hblocks hlength
  rw [names_let, namesOfParts, List.forall_mem_append] at hnames
  simp only [lets, letsAll, isLet, beq_self_eq_true, if_true] at hlength
  obtain ⟨hbinds, hforeign⟩ :=
    lexical_bindEntries hentries hnames.1 hscope hscope hblocks (by omega)
  rw [resolve_let, formula?_let, ← hbinds]
  cases hbound : bindEntries declared scope scope entries blocks with
  | none => exact ⟨by rintro _ ⟨⟩, fun _ => rfl⟩
  | some bound =>
    rw [Option.map_some, Option.bind_some, Option.bind_some]
    have hgrown := grown_of_bindEntries (fun _ bound _ => grows declared bound) hblocks hbound
    have hle := hgrown.length_le
    rcases ts with _ | ⟨body, _ | ⟨other, ts⟩⟩
    · exact ⟨by rintro _ ⟨⟩, fun _ => rfl⟩
    · rw [namesOfAll, List.forall_mem_append] at hnames
      rw [letsAll] at hlength
      have hbody := lexical_decode (hts body List.mem_cons_self) hnames.2.1 (hforeign bound hbound)
        hgrown.numbered (by omega)
      rw [formulaOne, decodeOne, ← hbody]
      cases hdecoded : decode declared bound.1 body bound.2 with
      | none => exact ⟨by rintro _ ⟨⟩, fun _ => rfl⟩
      | some decoded =>
        have hgrown' := grown_of_decode (grows declared body) hgrown.numbered hdecoded
        have hle' := hgrown'.length_le
        refine ⟨?_, by rintro ⟨⟩⟩
        rintro _ ⟨⟩ blocks' hblocks' hsuffix _
        -- the scope of the block has foreign names only, so the placeholder is found in the table
        show (leaf (Decode.placeholder decoded.2)).read _ = _
        rw [read_placeholder]
        exact find?_placeholder hscope (by omega)
          (hblocks'.lookup_of_suffix hsuffix List.lookup_cons_self)
    · exact ⟨by rintro _ ⟨⟩, fun _ => rfl⟩

/-- **Every tree is resolved lexically**, if its names are none of the placeholders in use. -/
theorem lexical (n : Nat) (declared : Registry) (t : TokenTree) : Lexical n declared t := by
  induction t using block_induction with
  | leaf token =>
    intro hnames scope blocks _ _ _
    rw [resolve]
    refine ⟨?_, by rintro ⟨⟩⟩
    rintro _ ⟨⟩ blocks' hblocks' _ hle
    rw [read, formula?, toOption_leaf, toOption_leaf]
    cases hliteral : isLiteral token with
    | true => rfl
    | false =>
      rw [names, if_neg (by simp [hliteral]), List.forall_mem_singleton] at hnames
      exact find?_of_foreign hnames hblocks' hle
  | node items hlet ih => exact lexical_node hlet ih
  | block entries ts ihentries ihbody => exact lexical_block ihentries ihbody
  | malformed token ts =>
    intro _ scope blocks _ _ _
    rw [resolve_let_of_leaf, formula?_let_of_leaf]
    exact ⟨by rintro _ ⟨⟩, fun _ => rfl⟩

end

end TokenTree

open TokenTree

/-- Whatever was decoded before in the session, a clear text is decoded to the formula that its term
stands for, if the names in the term are none of the placeholders that are in use by then. -/
theorem run_lexical (declared : Registry) {blocks : Bindings} (hblocks : Decode.Numbered blocks)
    {t : TokenTree}
    (hnames : ∀ n < blocks.length + t.lets,
      String.ofList ("#let".toList ++ Decimal.digits n) ∉ t.names)
    {text : String} (h : Laid .clear [t] text.toList) :
    (Decode.run declared blocks text).1.toOption = t.formula? declared [] := by
  have hforeign : ∀ name ∈ t.names, Foreign (blocks.length + t.lets) name := by
    rintro name hname n hn rfl
    exact hnames n hn hname
  rw [toOption_run_laid h, decodeOne]
  exact lexical_decode (lexical _ declared t) hforeign (List.forall_mem_nil _) hblocks
    (Nat.le_refl _)

/-- **Decoding follows lexical scoping as long as no name is a placeholder in use.** A clear text of
a term is decoded to the formula that the term stands for, whatever the declared variables, if the
names in the term are none of as many placeholders as the term has let blocks. -/
theorem decode_lexical (declared : Registry) {t : TokenTree}
    (hnames : ∀ n < t.lets, String.ofList ("#let".toList ++ Decimal.digits n) ∉ t.names)
    {text : String} (h : Laid .clear [t] text.toList) :
    (decode declared text).toOption = t.formula? declared [] :=
  run_lexical declared Decode.numbered_nil (by simpa using hnames) h

/-- Names that are spelled like placeholders, but of more let blocks than there are. -/
theorem decode_lexical_spelled :
    let declared := (Registry.empty.insert ⟨"#let2", .bool⟩).insert ⟨"#let0", .bool⟩
    let t := node [leaf "and".toList,
      node [leaf "let".toList, node [node [leaf "|#let7|".toList, leaf "#let2".toList]],
        node [leaf "not".toList, leaf "|#let7|".toList]],
      node [leaf "let".toList, node [node [leaf "a".toList, leaf "|#let2|".toList]],
        leaf "a".toList]]
    let text := "(and (let ((|#let7| #let2)) (not |#let7|)) (let ((a |#let2|)) a))"
    let x := Expr.var ⟨"#let2", .bool⟩
    (∀ n < t.lets, String.ofList ("#let".toList ++ Decimal.digits n) ∉ t.names) ∧
      Laid .clear [t] text.toList ∧ t.formula? declared [] = some (.logic .and (.negation x) x) ∧
      decode declared text = .ok (.logic .and (.negation x) x) := by
  intro declared t text x
  have hnames : ∀ n < t.lets, String.ofList ("#let".toList ++ Decimal.digits n) ∉ t.names := by
    decide +kernel
  have h : Laid .clear [t] text.toList := laid_of_check (by decide +kernel)
  have hformula : t.formula? declared [] = some (.logic .and (.negation x) x) := by decide +kernel
  exact ⟨hnames, h, hformula,
    toOption_eq_some_iff.1 ((decode_lexical declared hnames h).trans hformula)⟩

/-- A declared variable that is spelled like the placeholder of a let block is taken for the
block. -/
theorem decode_clash :
    let declared := (Registry.empty.insert ⟨"p", .bool⟩).insert ⟨"#let0", .bool⟩
    let t := node [leaf "and".toList,
      node [leaf "let".toList, node [node [leaf "a".toList, leaf "p".toList]], leaf "a".toList],
      leaf "|#let0|".toList]
    let text := "(and (let ((a p)) a) |#let0|)"
    let p := Expr.var ⟨"p", .bool⟩
    Laid .clear [t] text.toList ∧
      t.formula? declared [] = some (.logic .and p (.var ⟨"#let0", .bool⟩)) ∧
      (decode declared text).toOption = some (.logic .and p p) := by
  exact ⟨laid_of_check (by decide +kernel), by decide +kernel, by decide +kernel⟩

end Interpolants
