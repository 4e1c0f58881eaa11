import Interpolants.Proofs.Decoding.Image
import Interpolants.Proofs.Decoding.Reading
import Interpolants.Proofs.Decoding.Rounds
import Interpolants.Proofs.Decoding.Token
import Mathlib.Data.List.Infix

/-!
# Interpolants — names that decoding cannot see

The search for let blocks does not know about pipes, so no token of a text that is read as a term
holds the start of a let block: what looks like one inside a quoted symbol has been cut out before.
A variable whose name holds the start of a let block is therefore never found. Whatever the text, it
is decoded as if there were no such variable (`decode_congr`).
-/

namespace Interpolants

open Text

/-! ## Pieces of a text -/

/-- A token without its quotes is a part of it. -/
theorem infix_unquote (token : List Char) : (unquote token).toList <:+: token := by
  unfold unquote
  split
  · next rest =>
    rw [String.toList_ofList]
    split
    · exact (List.dropLast_prefix rest).isInfix.trans (List.suffix_cons _ _).isInfix
    · exact List.infix_rfl
  · rw [String.toList_ofList]

/-! ## Reading a term -/

/-- Two registries that differ in names only that hold the start of a let block. -/
def Registry.AgreeUnmarked (declared declared' : Registry) : Prop :=
  ∀ name, ¬ Marked name.toList → declared.find? name = declared'.find? name

/-- Two results of reading are the same, and what is left to read holds no start of a let block. -/
def Skims {α : Type} (x y : Except DecodeError (α × Cursor)) : Prop :=
  x = y ∧ ∀ a c, x = .ok (a, c) → ¬ Marked c.rest

section

variable {α β : Type} {c c' : Cursor}

theorem skims_error (e : DecodeError) : Skims (α := α) (.error e) (.error e) :=
  ⟨rfl, nofun⟩

/-- A reading that leaves an unmarked text skims over it. -/
theorem skims_ok {a : α} (h : ¬ Marked c.rest) : Skims (.ok (a, c)) (.ok (a, c)) := by
  refine ⟨rfl, fun a' c' heq => ?_⟩
  cases heq
  exact h

/-- Readings that skim over a text do so one after the other. -/
theorem Skims.bind {x y : Except DecodeError (α × Cursor)}
    {next next' : α × Cursor → Except DecodeError (β × Cursor)} (h : Skims x y)
    (hnext : ∀ a c, x = .ok (a, c) → ¬ Marked c.rest → Skims (next (a, c)) (next' (a, c))) :
    Skims (x >>= next) (y >>= next') := by
  obtain ⟨rfl, hrest⟩ := h
  rcases x with e | ⟨a, c⟩
  · exact skims_error e
  · exact hnext a c rfl (hrest a c rfl)

theorem not_marked_trimStart {cs : List Char} (h : ¬ Marked cs) : ¬ Marked (trimStart cs) :=
  fun hmarked => h (hmarked.of_infix (List.dropWhile_suffix _).isInfix)

/-- Neither a token nor what is behind it is marked if the text is not. -/
theorem Cursor.not_marked_of_token {token : List Char} (h : ¬ Marked c.rest)
    (htoken : c.token = .ok (token, c')) : ¬ Marked token ∧ ¬ Marked c'.rest := by
  have happend := append_of_token htoken
  have hrest := not_marked_trimStart h
  rw [← happend] at hrest
  exact ⟨fun hmarked => hrest (hmarked.of_infix (List.prefix_append _ _).isInfix),
    fun hmarked => hrest (hmarked.of_infix (List.suffix_append _ _).isInfix)⟩

/-- Nor is what is behind a character that is eaten. -/
theorem Cursor.not_marked_of_eat? {wanted : Char} (h : ¬ Marked c.rest)
    (heat : c.eat? wanted = some c') :
    ¬ Marked c'.rest := by
  have hrest := not_marked_trimStart h
  rw [rest_of_eat? heat] at hrest
  exact fun hmarked => hrest (hmarked.cons wanted)

/-- Nor is what is behind the least word. -/
theorem Cursor.not_marked_of_leastWord? (h : ¬ Marked c.rest) (hleast : c.leastWord? = some c') :
    ¬ Marked c'.rest := by
  obtain ⟨token, behind, htoken, -, heat⟩ := exists_numeral_of_leastWord? hleast
  exact not_marked_of_eat? (not_marked_of_token h htoken).2 heat

theorem skims_token (h : ¬ Marked c.rest) : Skims c.token c.token :=
  ⟨rfl, fun _ _ htoken => (Cursor.not_marked_of_token h htoken).2⟩

/-- Operands are skimmed over if each term is. -/
theorem skims_operands {read read' : Cursor → Except DecodeError (Expr × Cursor)}
    (hread : ∀ c, ¬ Marked c.rest → Skims (read c) (read' c)) (limit : Nat) (h : ¬ Marked c.rest) :
    Skims (operands read limit c) (operands read' limit c) := by
  induction limit generalizing c with
  | zero => exact skims_error _
  | succ limit ih =>
    have hrest := not_marked_trimStart h
    rw [operands, operands]
    split
    · exact skims_error _
    · next rest heq =>
      rw [Cursor.skipBlanks_rest] at heq
      rw [heq] at hrest
      exact skims_ok fun hmarked => hrest (hmarked.cons _)
    · refine (hread c.skipBlanks hrest).bind fun e c₁ _ h₁ => ?_
      exact (ih h₁).bind fun es c₂ _ h₂ => skims_ok h₂

end

section

variable {declared declared' : Registry} {scope blocks : Bindings}

/-- **An unmarked token is the same leaf in both registries.** -/
theorem leaf_congr (h : Registry.AgreeUnmarked declared declared') {token : List Char}
    (htoken : ¬ Marked token) :
    Names.leaf ⟨scope, blocks, declared⟩ token = Names.leaf ⟨scope, blocks, declared'⟩ token := by
  have hfind : Names.find? ⟨scope, blocks, declared⟩ (unquote token)
      = Names.find? ⟨scope, blocks, declared'⟩ (unquote token) := by
    unfold Names.find?
    rw [h (unquote token) fun hmarked => htoken (hmarked.of_infix (infix_unquote token))]
  unfold Names.leaf
  rw [hfind]

/-- So is an unmarked term the same formula. -/
theorem skims_term (h : Registry.AgreeUnmarked declared declared') (depth : Nat) {c : Cursor}
    (hc : ¬ Marked c.rest) :
    Skims (term ⟨scope, blocks, declared⟩ depth c) (term ⟨scope, blocks, declared'⟩ depth c) := by
  induction depth generalizing c with
  | zero => exact skims_error _
  | succ depth ih =>
    have hrest := not_marked_trimStart hc
    rw [term, term]
    split
    · exact skims_error _
    · exact skims_error _
    · next rest heq =>
      rw [Cursor.skipBlanks_rest] at heq
      rw [heq] at hrest
      -- behind the parenthesis the text is unmarked as before it
      have hinside : ¬ Marked (c.goTo rest).rest := fun hmarked => hrest (hmarked.cons _)
      refine (skims_token hinside).bind fun op c₁ _ h₁ => ?_
      dsimp only
      split
      · next c₂ hleast =>
        refine skims_ok ?_
        obtain ⟨-, hleast⟩ := Option.ite_none_right_eq_some.1 hleast
        exact Cursor.not_marked_of_leastWord? h₁ hleast
      · refine (skims_operands (fun c hc => ih hc) _ h₁).bind fun es c₂ _ h₂ => ?_
        cases applyNamed (String.ofList op) es with
        | error e => exact skims_error e
        | ok e => exact skims_ok h₂
    · refine (skims_token hc).bind fun token c₁ htoken h₁ => ?_
      dsimp only
      rw [leaf_congr h (Cursor.not_marked_of_token hc htoken).1]
      cases Names.leaf ⟨scope, blocks, declared'⟩ token with
      | error e => exact skims_error e
      | ok e => exact skims_ok h₁

/-- So is a whole text that is not marked. -/
theorem wholeTerm_congr (h : Registry.AgreeUnmarked declared declared') {text : List Char}
    (htext : ¬ Marked text) :
    wholeTerm ⟨scope, blocks, declared⟩ text = wholeTerm ⟨scope, blocks, declared'⟩ text := by
  have hc : ¬ Marked (Cursor.ofText text).rest := htext
  unfold wholeTerm
  rw [(skims_term h _ hc).1]

end

/-! ## Resolving let blocks -/

namespace Decode

variable {declared declared' : Registry} {scope : Bindings}

/-- No start of a let block is left when let blocks are resolved. -/
theorem Resolved.not_marked {text text' : List Char} {blocks blocks' : Bindings}
    (h : Resolved declared scope text blocks text' blocks') : ¬ Marked text' := by
  induction h with
  | done hnone => exact not_marked_of_splitAtLet hnone
  | round _ _ _ _ ih => exact ih

/-- Reading it does the same to the table. -/
theorem plain_congr (h : Registry.AgreeUnmarked declared declared') (scope : Bindings)
    {text : List Char} (htext : ¬ Marked text) :
    plain declared scope text = plain declared' scope text := by
  unfold plain
  congr 1
  funext blocks
  rw [wholeTerm_congr h htext]

/-- A text whose let blocks are resolved in the same way is decoded in the same way. -/
theorem inScope_congr_of_resolveAll (h : Registry.AgreeUnmarked declared declared')
    {text : List Char}
    (hresolve : resolveAll declared scope text = resolveAll declared' scope text) :
    inScope declared scope text = inScope declared' scope text := by
  rw [inScope_eq, inScope_eq, ← hresolve]
  refine bind_congr_of_outcome fun blocks text' blocks' htext' => ?_
  exact plain_congr h scope (resolved_of_resolveAll htext').not_marked

/-- **Let blocks are resolved in the same way.** What is left behind the rounds is read with the
registry, but no block is marked once the blocks in it are replaced. -/
theorem resolveAll_congr (h : Registry.AgreeUnmarked declared declared') (scope : Bindings)
    (text : List Char) :
    resolveAll declared scope text = resolveAll declared' scope text := by
  induction hn : text.count '(' using Nat.strong_induction_on generalizing scope text with
  | _ n ih =>
    cases hsplit : splitAtLet text with
    | none => rw [resolveAll_of_none hsplit, resolveAll_of_none hsplit]
    | some split =>
      obtain ⟨before, here⟩ := split
      cases hfound : enclosed here with
      | none => rw [resolveAll_of_unbalanced hsplit hfound, resolveAll_of_unbalanced hsplit hfound]
      | some cut =>
        obtain ⟨found, after⟩ := cut
        obtain ⟨htext, hopen⟩ := text_of_round hsplit hfound
        -- the parts of a block and the text with a placeholder have fewer parentheses
        have hcount : text.count '(' = before.count '(' + (found.count '(' + after.count '(') := by
          rw [htext, List.count_append, List.count_append]
        have hblock : block (inScope declared) scope found
            = block (inScope declared') scope found :=
          block_congr fun inner part hpart =>
            inScope_congr_of_resolveAll h (ih _ (by omega) inner part rfl)
        have hnext : ∀ blocks : Bindings,
            resolveAll declared scope (before ++ placeholder blocks ++ after)
              = resolveAll declared' scope (before ++ placeholder blocks ++ after) := by
          intro blocks
          refine ih _ ?_ scope _ rfl
          rw [← hn]
          exact count_of_round hsplit hfound blocks
        rw [resolveAll_of_block hsplit hfound, resolveAll_of_block hsplit hfound, hblock]
        simp only [enter, bind_assoc, pure_bind, hnext]

end Decode

/-- **Decoding does not see marked names.** What is declared under them makes no difference. -/
theorem decode_congr {declared declared' : Registry} (h : Registry.AgreeUnmarked declared declared')
    (text : String) : decode declared text = decode declared' text := by
  unfold decode Decode.run
  rw [Decode.inScope_congr_of_resolveAll h (Decode.resolveAll_congr h [] text.toList)]

end Interpolants
