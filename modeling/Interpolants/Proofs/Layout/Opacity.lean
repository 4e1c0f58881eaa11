import Interpolants.Proofs.Decoding.Image
import Interpolants.Proofs.Layout.Renaming
import Interpolants.Proofs.Layout.Splicing
import Mathlib.Logic.Equiv.Basic

/-!
# Interpolants — quoted symbols are opaque

A symbol between pipes may have any content: giving one name of a clear text another content changes
the decoded formula by the name of a variable, and nothing else (`decode_rename`). As the new
content is not in use, giving it is the same as exchanging it with the old one, which is injective.

The texts have to be clear. The search for let blocks looks between pipes too, and takes a content
that holds the start of a block for one (`decode_quoted_let`).
-/

namespace Interpolants

namespace TokenTree

/-! ## Renamings that agree -/

section

variable {f g : String → String} {t : TokenTree} {ts items entries : List TokenTree}

/-- On the names of a tree it makes no difference which of the renamings is taken. -/
def RenamedAlike (f g : String → String) (t : TokenTree) : Prop :=
  (∀ name ∈ t.names, f name = g name) → rename f t = rename g t

/-- Two renamings with the same effect on the names of some trees have it on the trees. -/
theorem renameAll_congr (hts : ∀ t ∈ ts, RenamedAlike f g t)
    (h : ∀ name ∈ namesOfAll ts, f name = g name) : renameAll f ts = renameAll g ts := by
  induction ts with
  | nil => rfl
  | cons t ts ih =>
    obtain ⟨ht, hts⟩ := List.forall_mem_cons.1 hts
    rw [namesOfAll, List.forall_mem_append] at h
    rw [renameAll, renameAll, ht h.1, ih hts h.2]

/-- Two renamings with the same effect on the names of an application have it on its parts. -/
theorem renameItems_congr (hitems : ∀ t ∈ items, RenamedAlike f g t)
    (h : ∀ name ∈ namesOfItems items, f name = g name) :
    renameItems f items = renameItems g items := by
  cases items with
  | nil => rfl
  | cons head args =>
    cases head with
    | leaf op =>
      rw [renameItems, renameItems,
        renameAll_congr (fun t ht => hitems t (List.mem_cons_of_mem _ ht)) h]
    | node inside =>
      rw [renameItems_node, renameItems_node]
      exact renameAll_congr hitems h

/-- What a renaming makes of a token depends on the name of the token. -/
theorem renameToken_congr {token : List Char} (h : f (unquote token) = g (unquote token)) :
    renameToken f token = renameToken g token := by
  rw [renameToken, renameToken, h]

/-- Two renamings with the same effect on the names of some entries have it on the entries. -/
theorem renameEntries_congr
    (hentries : ∀ name bound, node [leaf name, bound] ∈ entries → RenamedAlike f g bound)
    (h : ∀ name ∈ namesOfEntries entries, f name = g name) :
    renameEntries f entries = renameEntries g entries := by
  induction entries with
  | nil => rfl
  | cons t entries ih =>
    by_cases hentry : ∃ name bound, t = node [leaf name, bound]
    · obtain ⟨name, bound, rfl⟩ := hentry
      rw [namesOfEntries, List.cons_append, List.forall_mem_cons, List.forall_mem_append] at h
      rw [renameEntries, renameEntries, renameToken_congr h.1,
        hentries name bound List.mem_cons_self h.2.1,
        ih (fun name bound h' => hentries name bound (List.mem_cons_of_mem _ h')) h.2.2]
    · have hne : ∀ name bound, t ≠ node [leaf name, bound] := by simpa using hentry
      rw [renameEntries, renameEntries] <;>
        (rintro name bound others ⟨rfl, rfl⟩; exact hne name bound rfl)

/-- **What a renaming makes of a tree depends on the names of the tree**, and on no others. -/
theorem rename_congr (t : TokenTree) : RenamedAlike f g t := by
  induction t using block_induction with
  | leaf token =>
    intro h
    rw [rename, rename, renameLeaf, renameLeaf]
    cases hliteral : isLiteral token with
    | true => rfl
    | false =>
      rw [names, if_neg (by simp [hliteral]), List.forall_mem_singleton] at h
      rw [if_neg (by decide), if_neg (by decide), renameToken_congr h]
  | node items hlet ih =>
    intro h
    rw [names_node hlet] at h
    rw [rename_node hlet, rename_node hlet, renameItems_congr ih h]
  | block entries ts ihentries ihbody =>
    intro h
    rw [names_let, namesOfParts, List.forall_mem_append] at h
    rw [rename_let, rename_let, renameParts, renameParts, renameEntries_congr ihentries h.1,
      renameAll_congr ihbody h.2]
  | malformed token ts =>
    intro _
    rw [rename_malformed, rename_malformed]

end

end TokenTree

/-! ## Decoding under other names -/

open TokenTree

/-- Another name for one name. -/
def renameTo (c c' : String) (name : String) : String :=
  if name = c then c' else name

variable {declared : Registry} {c c' : String}

/-- Where the new name is not in use, giving it is the same as exchanging the two names. -/
theorem renameTo_eq_swap {name : String} (h : name ≠ c') :
    renameTo c c' name = Equiv.swap c c' name := by
  rw [renameTo, Equiv.swap_apply_def, if_neg h]

/-- A name under which nothing is declared is no variable's. -/
theorem Registry.name_ne {v : Variable} (h : declared.find? c' = none) (hv : v ∈ declared.entries) :
    v.name ≠ c' := by
  intro heq
  have := List.find?_eq_none.1 h v hv
  exact this (by simpa using heq)

/-- A decoded formula holds no variable that is not declared. -/
theorem Decoded.rename_congr {f g : String → String} {e : Expr} (he : Decoded declared e)
    (h : ∀ v ∈ declared.entries, f v.name = g v.name) : e.rename f = e.rename g := by
  induction he with
  | var hfind =>
    rw [Expr.rename, Expr.rename, Variable.rename, Variable.rename,
      h _ (List.mem_of_find?_eq_some hfind)]
  | literal | integer => rfl
  | negation _ ih => exact congrArg Expr.negation ih
  | minus _ ih => exact congrArg Expr.minus ih
  | compare op _ _ ihl ihr => exact congrArg₂ (Expr.compare op) ihl ihr
  | arith op _ _ ihl ihr => exact congrArg₂ (Expr.arith op) ihl ihr
  | logic _ _ _ ihl ihr => exact congrArg₂ (Expr.logic _) ihl ihr

/-- **The content of a symbol makes no difference.** With another content for one name, in a clear
text of the renamed term and among the declared variables, the decoded formula is the renamed one;
and a text that is refused is refused under the other name. -/
theorem decode_rename (declared : Registry) {t : TokenTree} {c c' : String}
    (hc : ¬ Decode.IsPlaceholder c) (hc' : ¬ Decode.IsPlaceholder c') (hnew : c' ∉ t.names)
    (hundeclared : declared.find? c' = none) {text text' : String} (h : Laid .clear [t] text.toList)
    (h' : Laid .clear [t.rename (renameTo c c')] text'.toList) :
    (decode (declared.rename (renameTo c c')) text').toOption
      = (decode declared text).toOption.map (Expr.rename (renameTo c c')) := by
  have hf := (Equiv.swap c c').injective
  have hkept : ∀ name, Decode.IsPlaceholder name → Equiv.swap c c' name = name := by
    intro name hname
    refine Equiv.swap_apply_of_ne_of_ne ?_ ?_ <;> rintro rfl
    · exact hc hname
    · exact hc' hname
  have hdeclared : ∀ v ∈ declared.entries, renameTo c c' v.name = Equiv.swap c c' v.name :=
    fun v hv => renameTo_eq_swap (Registry.name_ne hundeclared hv)
  have htree : t.rename (renameTo c c') = t.rename (Equiv.swap c c') :=
    rename_congr t fun name hname => renameTo_eq_swap (ne_of_mem_of_not_mem hname hnew)
  -- the new name is not in use, so the two names may be exchanged
  rw [htree] at h'
  have hdecoded : (decode (declared.rename (Equiv.swap c c')) text').toOption
      = (decode declared text).toOption.map (Expr.rename (Equiv.swap c c')) := by
    have hpasses := decode_rename_of_resolves hf (resolve_rename hf hkept declared t) [] []
    rw [toOption_decode_laid h', toOption_decode_laid h, decodeOne, decodeOne]
    refine (congrArg (Option.map Prod.fst) hpasses).trans ?_
    rw [Option.map_map, Option.map_map]
    rfl
  rw [Registry.rename_congr hdeclared, hdecoded]
  cases hresult : decode declared text with
  | error => rfl
  | ok e =>
    have hmem : .ok e ∈ decodeEach declared [text] := by
      rw [← hresult]
      exact List.mem_singleton_self _
    have he : Decoded declared e := decoded_of_decodeEach hmem
    exact congrArg some (he.rename_congr hdeclared).symm

/-- A name with blanks, parentheses and words, declared and used beside a let-bound one. -/
theorem decode_rename_words :
    let declared := Registry.empty.insert ⟨"x", .integer⟩
    let t := node [leaf "let".toList, node [node [leaf "y".toList,
        node [leaf "+".toList, leaf "|x|".toList, leaf "1".toList]]],
      node [leaf "<".toList, leaf "x".toList, leaf "y".toList]]
    let c' := "let (b (true"
    let text := "(let ((y (+ |x| 1))) (< x y))"
    let text' := "(let ((y (+ |let (b (true| 1))) (< |let (b (true| y))"
    let e :=
      Expr.compare .lt (.var ⟨"x", .integer⟩) (.arith .plus (.var ⟨"x", .integer⟩) (.integer 1))
    ¬ Decode.IsPlaceholder "x" ∧ ¬ Decode.IsPlaceholder c' ∧ c' ∉ t.names ∧
    declared.find? c' = none ∧
      Laid .clear [t] text.toList ∧ Laid .clear [t.rename (renameTo "x" c')] text'.toList ∧
      decode declared text = .ok e ∧
      (decode (declared.rename (renameTo "x" c')) text').toOption
        = some (e.rename (renameTo "x" c')) := by
  intro declared t c' text text' e
  have hc : ¬ Decode.IsPlaceholder "x" :=
    fun h => absurd (Decode.hash_mem_of_isPlaceholder h) (by decide)
  have hc' : ¬ Decode.IsPlaceholder c' :=
    fun h => absurd (Decode.hash_mem_of_isPlaceholder h) (by decide)
  have hnew : c' ∉ t.names := by decide +kernel
  have hundeclared : declared.find? c' = none := by decide +kernel
  have h : Laid .clear [t] text.toList := laid_of_check (by decide +kernel)
  have h' : Laid .clear [t.rename (renameTo "x" c')] text'.toList :=
    laid_of_check (by decide +kernel)
  have hdecode : decode declared text = .ok e := toOption_eq_some_iff.1 (by decide +kernel)
  refine ⟨hc, hc', hnew, hundeclared, h, h', hdecode, ?_⟩
  rw [decode_rename declared hc hc' hnew hundeclared h h', hdecode]
  rfl

/-- A content that looks like the start of a let block makes a text fail. -/
theorem decode_quoted_let :
    let declared := Registry.empty.insert ⟨"x", .bool⟩
    let t := node [leaf "not".toList, leaf "|x|".toList]
    let c' := "(let x"
    let text := "(not |x|)"
    let text' := "(not |(let x|)"
    ¬ Decode.IsPlaceholder "x" ∧ ¬ Decode.IsPlaceholder c' ∧ c' ∉ t.names ∧
    declared.find? c' = none ∧
      Laid .standard [t] text.toList ∧ Laid .standard [t.rename (renameTo "x" c')] text'.toList ∧
      (decode declared text).toOption = some (.negation (.var ⟨"x", .bool⟩)) ∧
      (decode (declared.rename (renameTo "x" c')) text').toOption = none := by
  refine ⟨fun h => absurd (Decode.hash_mem_of_isPlaceholder h) (by decide),
    fun h => absurd (Decode.hash_mem_of_isPlaceholder h) (by decide), by decide +kernel,
    by decide +kernel, laid_of_check (by decide +kernel), laid_of_check (by decide +kernel),
    by decide +kernel, by decide +kernel⟩

end Interpolants
