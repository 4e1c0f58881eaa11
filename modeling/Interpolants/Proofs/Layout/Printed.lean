import Interpolants.Proofs.Decoding.Atoms
import Interpolants.Proofs.Layout.Hygiene

/-!
# Interpolants — printed terms

A printed term is one text among those of a tree: its tokens, grouped by its lists (`Sexp.tree`).
The text is clear, the tree stands for the formula that the term stands for, and its names are those
of the term. So what is proved of all clear texts holds of printed terms, and decoding a printed
term follows the scopes of its let blocks.
-/

namespace Interpolants

open Text

namespace Sexp

/-! ## The tree of a term -/

mutual

/-- The tokens of a term, grouped by its lists. A comment has none. -/
def tree : Sexp → TokenTree
  | .atom a => .leaf a.chars
  | .list items => .node (trees items)
  | .comment _ => .node []

def trees : List Sexp → List TokenTree
  | [] => []
  | t :: ts => tree t :: trees ts

end

variable {t : Sexp} {ts : List Sexp}

/-! ## Printed terms are clear -/

/-- Behind a printed term a list ends or goes on with a space. -/
theorem parted_spaced (ts : List Sexp) : TokenTree.Parted .clear (trees ts) (spaced ts) := by
  intro t ht _
  cases ts with
  | nil => cases ht
  | cons => exact ⟨' ', rfl, by decide⟩

/-- Terms with blanks between them are a clear text of their trees, if each term is. -/
theorem laid_spaced (h : ∀ t ∈ ts, TokenTree.Holds .clear t.tree t.chars) :
    TokenTree.Laid .clear (trees ts) (spaced ts) := by
  induction ts with
  | nil => exact .nil
  | cons t ts ih =>
    obtain ⟨ht, hts⟩ := List.forall_mem_cons.1 h
    exact .blank (by decide) (.cons ht (ih hts) fun _ => parted_spaced ts)

/-- **A printed term is a clear text of its tree.** -/
theorem holds_chars (h : t.Spelled Legible) : TokenTree.Holds .clear t.tree t.chars := by
  induction h with
  | numeral n => exact ⟨rfl, TokenTree.Style.clear_of_form (tokenForm_digits n.toNat)⟩
  | symbol hs => exact ⟨rfl, TokenTree.Style.clear_of_form hs.tokenForm⟩
  | @list items hitems ih =>
    cases items with
    | nil => exact ⟨[], rfl, .nil, nofun⟩
    | cons t ts =>
      obtain ⟨ht, hts⟩ := List.forall_mem_cons.1 ih
      refine ⟨t.chars ++ spaced ts, ?_, .cons ht (laid_spaced hts) fun _ => parted_spaced ts, ?_⟩
      · rw [chars_list_cons (.list hitems)]
        simp
      · -- nothing stands between the parenthesis and the first element
        rintro - c hc
        obtain ⟨c', more, heq, hblank, -⟩ := ht.head
        rw [heq] at hc
        cases hc
        exact hblank

/-- A printed term is a clear text of its tree. -/
theorem laid_chars (h : t.Spelled Legible) : TokenTree.Laid .clear [t.tree] t.chars :=
  (holds_chars h).laid

/-! ## The formula of a term -/

variable {declared : Registry} {scope : Bindings}

/-- Without let blocks names stand for what the scope and the declarations say. -/
theorem find?_nil (declared : Registry) (scope : Bindings) :
    Names.find? ⟨scope, [], declared⟩ = declared.environment.extend scope := by
  funext name
  simp only [Names.find?, Env.extend, List.lookup_nil]
  cases scope.lookup name <;> rfl

/-- The magnitude of the least word is recognised in printed terms. -/
theorem isLeast_trees (h : ∀ t ∈ ts, t.Spelled Legible) :
    TokenTree.isLeast (trees ts) = true ↔ ts = [leastNumeral] := by
  cases ts with
  | nil => simp [trees, TokenTree.isLeast]
  | cons t ts =>
    cases ts with
    | cons => simp [trees, TokenTree.isLeast]
    | nil =>
      have ht := h t List.mem_cons_self
      cases t with
      | atom a =>
        rw [List.cons.injEq, and_iff_left rfl]
        exact isLeast_iff ht
      | list => simp [trees, tree, TokenTree.isLeast, leastNumeral, Sexp.numeral]
      | comment => cases ht

/-- Only the symbol `let` is written `let`, so a tree is a let block where the term is one. -/
theorem isLet_trees (h : ∀ t ∈ ts, t.Spelled Legible) :
    TokenTree.isLet (.node (trees ts)) = isLet ts := by
  match ts with
  | [] | [_] | .list _ :: _ :: _ => simp [trees, tree, TokenTree.isLet, isLet]
  | .comment _ :: _ :: _ => cases h (.comment _) List.mem_cons_self
  | .atom a :: t :: ts =>
    have ha := h (.atom a) List.mem_cons_self
    show (a.chars == "let".toList) = _
    by_cases hlet : a = .symbol "let"
    · subst hlet
      rfl
    · rw [beq_false_of_ne (mt (chars_eq_let_iff ha).1 hlet)]
      cases a with
      | numeral => rfl
      | symbol s => exact (beq_false_of_ne fun heq => hlet (congrArg Atom.symbol heq)).symm

/-- An application stands for the same in both, if its operands do. -/
theorem formula?_application {a : Atom} (h : (list (.atom a :: ts)).Spelled Legible)
    (hlet : isLet (.atom a :: ts) = false)
    (hts : TokenTree.formulas declared scope (trees ts)
      = interpretAll formulas (declared.environment.extend scope) ts) :
    (list (.atom a :: ts)).tree.formula? declared scope
      = (list (.atom a :: ts)).interpret formulas (declared.environment.extend scope) := by
  obtain ⟨ha, hargs⟩ := List.forall_mem_cons.1 h.of_list
  have htree : TokenTree.isLet (.node (.leaf a.chars :: trees ts)) = false :=
    (isLet_trees h.of_list).trans hlet
  rw [tree, trees, tree, TokenTree.formula?_application htree, interpret_application ha hlet, hts]
  simp only [isLeast_trees hargs, chars_eq_minus_iff ha]

/-- A let block stands for the same in both, if its entries do and its body does in every scope. -/
theorem formula?_block {entries : List Sexp}
    (hentries : TokenTree.formulaEntries declared scope scope (trees entries)
      = (interpretEntries formulas (declared.environment.extend scope) [] entries).map (· ++ scope))
    (hbody : ∀ scope, TokenTree.formulaOne declared scope (trees ts)
      = interpretBody formulas (declared.environment.extend scope) ts) :
    (list (symbol "let" :: list entries :: ts)).tree.formula? declared scope
      = (list (symbol "let" :: list entries :: ts)).interpret formulas
          (declared.environment.extend scope) := by
  rw [interpret_block]
  refine (TokenTree.formula?_let _ _).trans ?_
  rw [hentries]
  cases interpretEntries formulas (declared.environment.extend scope) [] entries with
  | none => rfl
  | some inner =>
    rw [Option.map_some, Option.bind_some, Option.bind_some, hbody, Env.extend_append]

mutual

/-- **The tree of a printed term stands for the formula that the term stands for**, in every
scope. -/
theorem formula?_tree (declared : Registry) (t : Sexp) (h : t.Spelled Legible) (scope : Bindings) :
    t.tree.formula? declared scope = t.interpret formulas (declared.environment.extend scope) := by
  match t with
  | .atom a => rw [tree, TokenTree.formula?, leaf_atom _ h, find?_nil]
  | .comment _ => cases h
  | .list [] => rfl
  | .list (.comment _ :: _) => cases h.of_list (.comment _) List.mem_cons_self
  | .list (.list items :: args) =>
    -- a list is no operator
    rw [tree, trees, tree, TokenTree.formula?.eq_def]
    rfl
  | .list (.atom a :: args) =>
    obtain ⟨-, hargs⟩ := List.forall_mem_cons.1 h.of_list
    cases hlet : isLet (.atom a :: args) with
    | false => exact formula?_application h hlet (formulas_trees declared args hargs scope)
    | true =>
      match a, args with
      | .symbol head, .list entries :: ts =>
        -- the entries are read in the scope of the block, the body with their names in front of it
        obtain ⟨hentries, hts⟩ := List.forall_mem_cons.1 hargs
        obtain rfl : head = "let" := by simpa [isLet] using hlet
        exact formula?_block (formulaEntries_trees declared entries hentries.of_list scope [])
          (formulaOne_trees declared ts hts)
      | .symbol head, .atom b :: ts =>
        obtain rfl : head = "let" := by simpa [isLet] using hlet
        have hnone : (app "let" (.atom b :: ts)).interpret formulas
            (declared.environment.extend scope) = none :=
          interpret_let_eq_none fun _ _ heq => by cases heq
        exact (TokenTree.formula?_let_of_leaf _ _).trans hnone.symm
      | _, .comment _ :: _ => cases hargs (.comment _) List.mem_cons_self

/-- The trees of some printed terms stand for what the terms stand for. -/
theorem formulas_trees (declared : Registry) (ts : List Sexp) (h : ∀ t ∈ ts, t.Spelled Legible)
    (scope : Bindings) :
    TokenTree.formulas declared scope (trees ts)
      = interpretAll formulas (declared.environment.extend scope) ts := by
  match ts with
  | [] => rfl
  | t :: ts =>
    obtain ⟨ht, hts⟩ := List.forall_mem_cons.1 h
    rw [trees, TokenTree.formulas, interpretAll, formula?_tree declared t ht,
      formulas_trees declared ts hts]

/-- The tree of a printed body stands for what the body stands for. -/
theorem formulaOne_trees (declared : Registry) (ts : List Sexp) (h : ∀ t ∈ ts, t.Spelled Legible)
    (scope : Bindings) :
    TokenTree.formulaOne declared scope (trees ts)
      = interpretBody formulas (declared.environment.extend scope) ts := by
  match ts with
  | [t] => exact formula?_tree declared t (h t List.mem_cons_self) scope
  | [] | _ :: _ :: _ => rfl

/-- The trees of printed bindings bind what the bindings do. -/
theorem formulaEntries_trees (declared : Registry) (ts : List Sexp)
    (h : ∀ t ∈ ts, t.Spelled Legible) (scope inner : Bindings) :
    TokenTree.formulaEntries declared scope (inner ++ scope) (trees ts)
      = (interpretEntries formulas (declared.environment.extend scope) inner ts).map
        (· ++ scope) := by
  match ts with
  | [] => rfl
  | .list [.atom name, bound] :: ts =>
    obtain ⟨ht, hts⟩ := List.forall_mem_cons.1 h
    have hname := unquote_name (ht.of_list (.atom name) (by simp))
    have hbound := formula?_tree declared bound (ht.of_list bound (by simp)) scope
    simp only [trees, tree, TokenTree.formulaEntries, interpretEntries, hname, hbound]
    rw [Option.map_bind]
    congr 1
    funext e
    exact formulaEntries_trees declared ts hts scope ((name.name, e) :: inner)
  | .list [.list _, _] :: _ | .list [.comment _, _] :: _ | .list [] :: _ | .list [_] :: _
  | .list (_ :: _ :: _ :: _) :: _ | .atom _ :: _ | .comment _ :: _ =>
    -- what is no pair of a name and a term binds nothing in either reading
    rw [trees, TokenTree.formulaEntries_of_ne (by simp [tree, trees])]
    simp [interpretEntries]

end

/-! ## The names of a term -/

mutual

/-- No name of a printed term is a placeholder. -/
theorem not_isPlaceholder_of_mem_names (t : Sexp) (h : t.Spelled Decode.Plain) :
    ∀ name ∈ t.tree.names, ¬ Decode.IsPlaceholder name := by
  match t with
  | .atom a =>
    rw [tree, TokenTree.names]
    split
    · nofun
    · rw [List.forall_mem_singleton, unquote_name (h.mono fun _ hs => hs.1)]
      exact Decode.not_isPlaceholder_name h
  | .comment _ => cases h
  | .list [] => nofun
  | .list (.atom a :: args) =>
    obtain ⟨-, hargs⟩ := List.forall_mem_cons.1 h.of_list
    rw [tree, trees, tree, TokenTree.names]
    split
    · -- behind `let` the names are those of its parts
      exact not_isPlaceholder_of_mem_parts args hargs
    · exact not_isPlaceholder_of_mem_all args hargs
  | .list (.list items :: args) =>
    exact not_isPlaceholder_of_mem_all (.list items :: args) h.of_list
  | .list (.comment _ :: _) => cases h.of_list (.comment _) List.mem_cons_self

/-- No name in the trees of plain terms is a placeholder. -/
theorem not_isPlaceholder_of_mem_all (ts : List Sexp) (h : ∀ t ∈ ts, t.Spelled Decode.Plain) :
    ∀ name ∈ TokenTree.namesOfAll (trees ts), ¬ Decode.IsPlaceholder name := by
  match ts with
  | [] => nofun
  | t :: ts =>
    obtain ⟨ht, hts⟩ := List.forall_mem_cons.1 h
    rw [trees, TokenTree.namesOfAll, List.forall_mem_append]
    exact ⟨not_isPlaceholder_of_mem_names t ht, not_isPlaceholder_of_mem_all ts hts⟩

/-- No name in the tree of a plain let block is a placeholder. -/
theorem not_isPlaceholder_of_mem_parts (ts : List Sexp) (h : ∀ t ∈ ts, t.Spelled Decode.Plain) :
    ∀ name ∈ TokenTree.namesOfParts (trees ts), ¬ Decode.IsPlaceholder name := by
  match ts with
  | [] | .atom _ :: _ => nofun
  | .comment _ :: _ => cases h (.comment _) List.mem_cons_self
  | .list entries :: ts =>
    obtain ⟨hentries, hts⟩ := List.forall_mem_cons.1 h
    rw [trees, tree, TokenTree.namesOfParts, List.forall_mem_append]
    exact ⟨not_isPlaceholder_of_mem_entries entries hentries.of_list,
      not_isPlaceholder_of_mem_all ts hts⟩

/-- No name in the trees of plain bindings is a placeholder. -/
theorem not_isPlaceholder_of_mem_entries (ts : List Sexp) (h : ∀ t ∈ ts, t.Spelled Decode.Plain) :
    ∀ name ∈ TokenTree.namesOfEntries (trees ts), ¬ Decode.IsPlaceholder name := by
  match ts with
  | .list [.atom a, bound] :: ts =>
    obtain ⟨ht, hts⟩ := List.forall_mem_cons.1 h
    have ha := ht.of_list (.atom a) (by simp)
    have hbound := not_isPlaceholder_of_mem_names bound (ht.of_list bound (by simp))
    simp only [trees, tree, TokenTree.namesOfEntries, List.cons_append, List.forall_mem_cons,
      List.forall_mem_append, unquote_name (ha.mono fun _ hs => hs.1)]
    exact ⟨Decode.not_isPlaceholder_name ha, hbound, not_isPlaceholder_of_mem_entries ts hts⟩
  | [] | .list [.list _, _] :: _ | .list [.comment _, _] :: _ | .list [] :: _ | .list [_] :: _
  | .list (_ :: _ :: _ :: _) :: _ | .atom _ :: _ | .comment _ :: _ =>
    simp [trees, tree, TokenTree.namesOfEntries]

end

/-! ## Terms without let blocks -/

/-- Terms without let blocks have trees without. -/
theorem letsAll_trees (h : ∀ t ∈ ts, t.tree.lets = 0) : TokenTree.letsAll (trees ts) = 0 := by
  induction ts with
  | nil => rfl
  | cons t ts ih =>
    obtain ⟨ht, hts⟩ := List.forall_mem_cons.1 h
    rw [trees, TokenTree.letsAll, ht, ih hts]

/-- The tree of a term without let blocks has none. -/
theorem lets_tree (h : t.Spelled Legible) (hfree : t.LetFree) : t.tree.lets = 0 := by
  induction hfree with
  | atom a => rfl
  | @list items hlet _ ih =>
    rw [tree, TokenTree.lets, isLet_trees h.of_list, hlet,
      letsAll_trees fun t ht => ih t ht (h.of_list t ht)]
    rfl

/-! ## Decoding a printed term -/

variable {blocks : Bindings}

/-- **A printed term is decoded to the formula that it stands for**, whatever was decoded before in
the session, if none of its names is a placeholder that is in use by then. -/
theorem toOption_run_of_names (h : t.Spelled Legible) (hblocks : Decode.Numbered blocks)
    (hnames : ∀ n < blocks.length + t.tree.lets,
      String.ofList ("#let".toList ++ Decimal.digits n) ∉ t.tree.names) :
    (Decode.run declared blocks t.render).1.toOption = t.formula? declared [] := by
  have hlaid : TokenTree.Laid .clear [t.tree] t.render.toList := by
    rw [render, String.toList_ofList]
    exact laid_chars h
  rw [formula?, ← formula?_tree declared t h, run_lexical declared hblocks hnames hlaid]

/-- Decoding a printed plain term gives what its tree stands for. -/
theorem toOption_run (h : t.Spelled Decode.Plain) (hblocks : Decode.Numbered blocks) :
    (Decode.run declared blocks t.render).1.toOption = t.formula? declared [] :=
  toOption_run_of_names (h.mono fun _ hs => hs.1) hblocks fun n _ hmem =>
    not_isPlaceholder_of_mem_names t h _ hmem ⟨n, rfl⟩

end Sexp

end Interpolants
