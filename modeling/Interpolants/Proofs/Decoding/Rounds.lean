import Interpolants.Decoding.Decode
import Interpolants.Proofs.Decoding.Token
import Interpolants.Proofs.Outcome
import Mathlib.Data.List.TakeWhile

/-!
# Interpolants — the rounds of decoding

Decoding counts its recursion by fuel. Here the fuel is shown to be irrelevant, which leaves the two
equations that later proofs work with: `resolveAll_of_block`, for one round of replacing a let block
by a placeholder, and `inScope_eq`.

## The architecture

* **Nothing is lost**: `Cursor.append_of_token` and `Cursor.append_of_span` say that what is taken
  and what is left make up the text. All bounds on sizes come from these two.
* **`count_of_ofText`**: the parts of a let block have fewer opening parentheses than the block.
* **`resolve_fuel`**: any two amounts of fuel above the number of opening parentheses agree. The
  induction is on the fuel; both kinds of recursive call are on texts with fewer parentheses.
-/

namespace Interpolants

open Text

/-! ## Nothing is lost -/

/-- Blanks hold no parentheses. -/
theorem count_trimStart (cs : List Char) : (trimStart cs).count '(' = cs.count '(' := by
  induction cs with
  | nil => rfl
  | cons c cs ih =>
    unfold trimStart at ih ⊢
    rw [List.dropWhile_cons]
    split
    · rename_i hblank
      have hne : c ≠ '(' := by
        rintro rfl
        exact absurd hblank (by decide)
      rw [ih, List.count_cons_of_ne hne]
    · rfl

namespace Cursor

section

variable {c c' : Cursor} {more term : List Char}

/-- A term in parentheses ends where they close. -/
theorem span_of_some {after : List Char} (hopen : trimStart c.rest = '(' :: more)
    (hfound : enclosed ('(' :: more) = some (term, after)) : c.span = .ok (term, c.goTo after) := by
  rw [span, skipBlanks_rest, hopen]
  simp only [hfound]

/-- A parenthesis that nothing closes is an error. -/
theorem span_of_none (hopen : trimStart c.rest = '(' :: more)
    (hfound : enclosed ('(' :: more) = none) :
    c.span = .error (.unbalanced ('(' :: more)) := by
  rw [span, skipBlanks_rest, hopen]
  simp only [hfound]

/-- Without a parenthesis a term is a token. -/
theorem span_of_ne (h : (trimStart c.rest).head? ≠ some '(') : c.span = c.token := by
  rw [span, skipBlanks_rest]
  split
  · next heq =>
    rw [heq] at h
    exact absurd rfl h
  · rfl

/-- A term is cut out up to the parenthesis that closes it, or is a token. -/
theorem span_cases (h : c.span = .ok (term, c')) :
    (∃ more after, trimStart c.rest = '(' :: more ∧ enclosed ('(' :: more) = some (term, after) ∧
      c' = c.goTo after) ∨
    (trimStart c.rest).head? ≠ some '(' ∧ c.token = .ok (term, c') := by
  by_cases hhead : (trimStart c.rest).head? = some '('
  · obtain ⟨more, hopen⟩ := List.head?_eq_some_iff.1 hhead
    cases hfound : enclosed ('(' :: more) with
    | none =>
      rw [span_of_none hopen hfound] at h
      cases h
    | some cut =>
      rw [span_of_some hopen hfound] at h
      cases h
      exact .inl ⟨more, _, hopen, hfound, rfl⟩
  · exact .inr ⟨hhead, span_of_ne hhead ▸ h⟩

/-- A term and what is left behind it make up the text. -/
theorem append_of_span (h : c.span = .ok (term, c')) : term ++ c'.rest = trimStart c.rest := by
  rcases span_cases h with ⟨more, after, hopen, hfound, rfl⟩ | ⟨-, htoken⟩
  · rw [hopen, goTo_rest, append_of_closing hfound]
  · exact append_of_token htoken

end

/-- A token takes none of the parentheses that open behind it. -/
theorem count_of_token {c c' : Cursor} {token : List Char} (h : c.token = .ok (token, c')) :
    c'.rest.count '(' ≤ c.rest.count '(' := by
  have happend := congrArg (List.count '(') (append_of_token h)
  rw [List.count_append, count_trimStart] at happend
  omega

/-- A term takes those that it has. -/
theorem count_of_span {c c' : Cursor} {term : List Char} (h : c.span = .ok (term, c')) :
    term.count '(' + c'.rest.count '(' = c.rest.count '(' := by
  rw [← List.count_append, append_of_span h, count_trimStart]

/-- A character that is eaten stood in front, behind blanks. -/
theorem rest_of_eat? {c c' : Cursor} {wanted : Char} (h : c.eat? wanted = some c') :
    trimStart c.rest = wanted :: c'.rest := by
  unfold eat? at h
  rw [skipBlanks_rest] at h
  split at h
  · next next rest heq =>
    split at h
    · next hwanted =>
      cases h
      rw [heq, hwanted, goTo_rest]
    · cases h
  · cases h

/-- It takes no other parenthesis than itself. -/
theorem count_of_eat? {c c' : Cursor} {wanted : Char} (h : c.eat? wanted = some c') :
    c.rest.count '(' = (if wanted = '(' then 1 else 0) + c'.rest.count '(' := by
  rw [← count_trimStart, rest_of_eat? h, List.count_cons]
  by_cases hw : wanted = '(' <;> simp [hw, Nat.add_comm]

/-- A character that is expected and found is eaten. -/
theorem eat?_of_expect {c c' : Cursor} {wanted : Char} (h : c.expect wanted = .ok c') :
    c.eat? wanted = some c' := by
  unfold expect at h
  split at h
  · next heat =>
    cases h
    exact heat
  · cases h

theorem count_of_expect {c c' : Cursor} {wanted : Char} (h : c.expect wanted = .ok c') :
    c.rest.count '(' = (if wanted = '(' then 1 else 0) + c'.rest.count '(' :=
  count_of_eat? (eat?_of_expect h)

end Cursor

/-- A let block starts with a parenthesis. -/
theorem exists_cons_of_splitAtLet {cs before block : List Char}
    (h : splitAtLet cs = some (before, block)) : ∃ more, block = '(' :: more := by
  have hstarts := startsLet_of_splitAtLet h
  unfold startsLet at hstarts
  split at hstarts
  · exact ⟨_, rfl⟩
  · cases hstarts

/-- The text of one round: what stands before the first let block, the block, and what stands
behind it. -/
theorem text_of_round {text before here found after : List Char}
    (hsplit : splitAtLet text = some (before, here))
    (hfound : enclosed here = some (found, after)) :
    text = before ++ (found ++ after) ∧ 0 < found.count '(' := by
  have happend := append_of_closing hfound
  refine ⟨by rw [happend, append_of_splitAtLet hsplit], ?_⟩
  -- what is cut off is not empty, so it starts where the block starts
  obtain ⟨more, hmore⟩ := exists_cons_of_splitAtLet hsplit
  rw [hmore] at happend
  cases found with
  | nil => exact absurd (getLast?_of_closing hfound) (by simp)
  | cons c inside =>
    rw [List.cons_append, List.cons.injEq] at happend
    rw [happend.1]
    simp

/-! ## The parts of a let block

Each part is taken off the block's text behind its first parenthesis, so it has fewer of them. -/

namespace LetBlock

/-- The bindings are all of a kind, and so is the body if it is there. -/
def Holds (kind : String × List Char → Prop) (bodyKind : List Char → Prop) (parts : LetBlock) :
    Prop :=
  (∀ entry ∈ parts.bindings, kind entry) ∧ ∀ body, parts.body = .ok body → bodyKind body

section

variable {limit : Nat} {c c₁ c₂ : Cursor} {entry : String × List Char} {e : DecodeError}

/-- No further binding: the body stands behind the closing parenthesis. -/
theorem bindingsAt_of_eat? (heat : c.eat? ')' = some c₁) :
    bindingsAt (limit + 1) c = ⟨[], bodyAt c₁⟩ := by
  rw [bindingsAt, heat]

/-- A flaw in an entry takes the place of the body. -/
theorem bindingsAt_of_flaw (heat : c.eat? ')' = none) (hentry : binding c = .error e) :
    bindingsAt (limit + 1) c = ⟨[], .error e⟩ := by
  rw [bindingsAt, heat]
  simp only [hentry]

/-- So does an entry that is not closed, and the entry counts as read. -/
theorem bindingsAt_of_unclosed (heat : c.eat? ')' = none) (hentry : binding c = .ok (entry, c₁))
    (hclose : c₁.expect ')' = .error e) : bindingsAt (limit + 1) c = ⟨[entry], .error e⟩ := by
  rw [bindingsAt, heat]
  simp only [hentry, hclose]

/-- One binding, and the list goes on behind it. -/
theorem bindingsAt_of_entry (heat : c.eat? ')' = none) (hentry : binding c = .ok (entry, c₁))
    (hclose : c₁.expect ')' = .ok c₂) : bindingsAt (limit + 1) c
      = ⟨entry :: (bindingsAt limit c₂).bindings, (bindingsAt limit c₂).body⟩ := by
  rw [bindingsAt, heat]
  simp only [hentry, hclose]

variable {kind : String × List Char → Prop} {bodyKind : List Char → Prop}

theorem holds_error (e : DecodeError) : Holds kind bodyKind ⟨[], .error e⟩ :=
  ⟨nofun, nofun⟩

/-- What a binding keeps of the cursor, and what this says of its parts, holds of all of them. -/
theorem holds_bindingsAt (keeps : Cursor → Prop)
    (hbinding : ∀ {c c₁ entry}, keeps c → binding c = .ok (entry, c₁) →
      kind entry ∧ ∀ c₂, c₁.expect ')' = .ok c₂ → keeps c₂)
    (hbody : ∀ {c c₁ body}, keeps c → c.eat? ')' = some c₁ → bodyAt c₁ = .ok body → bodyKind body)
    (limit : Nat) (hc : keeps c) : Holds kind bodyKind (bindingsAt limit c) := by
  induction limit generalizing c with
  | zero => exact holds_error _
  | succ limit ih =>
    cases heat : c.eat? ')' with
    | some c₁ =>
      rw [bindingsAt_of_eat? heat]
      exact ⟨nofun, fun body => hbody hc heat⟩
    | none =>
      cases hentry : binding c with
      | error e =>
        rw [bindingsAt_of_flaw heat hentry]
        exact holds_error e
      | ok read =>
        -- the binding counts even if the parenthesis behind it is missing
        obtain ⟨hkind, hkeeps⟩ := hbinding hc hentry
        cases hclose : read.2.expect ')' with
        | error e =>
          rw [bindingsAt_of_unclosed heat hentry hclose]
          exact ⟨List.forall_mem_singleton.2 hkind, nofun⟩
        | ok c₂ =>
          obtain ⟨hentries, hrest⟩ := ih (hkeeps c₂ hclose)
          rw [bindingsAt_of_entry heat hentry hclose]
          exact ⟨List.forall_mem_cons.2 ⟨hkind, hentries⟩, hrest⟩

end

/-- An entry has no more parentheses than the text that it is read from, and neither has the
rest. -/
theorem count_of_binding {c c' : Cursor} {entry : String × List Char}
    (h : binding c = .ok (entry, c')) :
    entry.2.count '(' ≤ c.rest.count '(' ∧ c'.rest.count '(' ≤ c.rest.count '(' := by
  unfold binding at h
  obtain ⟨c₁, hopen, h⟩ := except_bind_eq_ok_iff.1 h
  obtain ⟨⟨name, c₂⟩, hname, h⟩ := except_bind_eq_ok_iff.1 h
  obtain ⟨⟨bound, c₃⟩, hbound, h⟩ := except_bind_eq_ok_iff.1 h
  cases h
  have hc₁ := Cursor.count_of_expect hopen
  have hc₂ := Cursor.count_of_token hname
  have hc₃ := Cursor.count_of_span hbound
  rw [if_pos rfl] at hc₁
  refine ⟨?_, by omega⟩
  show bound.count '(' ≤ _
  omega

/-- Nor has the body of a block. -/
theorem count_of_bodyAt {c : Cursor} {body : List Char} (h : bodyAt c = .ok body) :
    body.count '(' ≤ c.rest.count '(' := by
  unfold bodyAt at h
  split at h
  · cases h
    exact (List.dropLast_sublist _).count_le _
  · cases h

/-- **The parts of a block have no more parentheses than the block.** -/
theorem count_of_bindingsAt (limit : Nat) {c : Cursor} {n : Nat} (h : c.rest.count '(' ≤ n) :
    Holds (·.2.count '(' ≤ n) (·.count '(' ≤ n) (bindingsAt limit c) := by
  refine holds_bindingsAt (fun c => c.rest.count '(' ≤ n) (fun hc hentry => ?_)
    (fun hc heat hbody => ?_) limit h
  · obtain ⟨hle, hbehind⟩ := count_of_binding hentry
    refine ⟨hle.trans hc, fun c₂ hclose => ?_⟩
    have hcount := Cursor.count_of_expect hclose
    rw [if_neg (by decide), Nat.zero_add] at hcount
    exact hcount ▸ hbehind.trans hc
  · have hcount := Cursor.count_of_eat? heat
    rw [if_neg (by decide), Nat.zero_add] at hcount
    exact (count_of_bodyAt hbody).trans (hcount ▸ hc)

/-- **The parts of a let block are smaller than the block.** Each has fewer opening parentheses. -/
theorem count_of_ofText (block : List Char) :
    (∀ entry ∈ (ofText block).bindings, entry.2.count '(' < block.count '(') ∧
      ∀ body, (ofText block).body = .ok body → body.count '(' < block.count '(' := by
  unfold ofText
  split
  · exact ⟨by simp, by simp⟩
  · next c hheader =>
    unfold header at hheader
    obtain ⟨c₁, hopen, h⟩ := except_bind_eq_ok_iff.1 hheader
    obtain ⟨⟨word, c₂⟩, hword, hentries⟩ := except_bind_eq_ok_iff.1 h
    -- the parentheses of the block and of its bindings are behind the cursor by then
    have hc₁ := Cursor.count_of_expect hopen
    have hc₂ := Cursor.count_of_token hword
    have hc := Cursor.count_of_expect hentries
    rw [if_pos rfl] at hc₁ hc
    have hblock : (Cursor.ofText block).rest.count '(' = block.count '(' := rfl
    obtain ⟨hentry, hbody⟩ :=
      count_of_bindingsAt (block.length + 1) (Nat.le_refl (c.rest.count '('))
    refine ⟨fun e he => ?_, fun body h => ?_⟩
    · have := hentry e he
      omega
    · have := hbody body h
      omega

end LetBlock

namespace Decode

variable {declared : Registry} {scope : Bindings}

/-- A flaw in place of the body fails, whatever the bindings before it do. -/
theorem fails_block_of_flaw {decode : Bindings → List Char → Decode Expr} {text : List Char}
    (h : (LetBlock.ofText text).body.toOption = none) (scope blocks : Bindings) :
    Fails (block decode scope text) blocks := by
  refine Fails.of_bind fun inner blocks' => ?_
  cases hbody : (LetBlock.ofText text).body with
  | error e => exact ⟨e, blocks', rfl⟩
  | ok body =>
    rw [hbody] at h
    cases h

/-! ## Fuel is irrelevant -/

/-- A block is decoded through its parts only. -/
theorem block_congr {decode decode' : Bindings → List Char → Decode Expr} {text : List Char}
    (h : ∀ inner part, part.count '(' < text.count '(' → decode inner part = decode' inner part) :
    block decode scope text = block decode' scope text := by
  obtain ⟨hentries, hbody⟩ := LetBlock.count_of_ofText text
  unfold block
  -- the bound terms are decoded one after the other, each only through its own text
  have hbind : ∀ (entries : List (String × List Char)) (inner : Bindings),
      (∀ entry ∈ entries, entry.2.count '(' < text.count '(') →
        bindAll (decode scope) inner entries = bindAll (decode' scope) inner entries := by
    intro entries
    induction entries with
    | nil =>
      intro inner _
      rfl
    | cons entry entries ih =>
      intro inner hlt
      unfold bindAll
      rw [h scope entry.2 (hlt entry (by simp))]
      congr 1
      funext e
      exact ih _ fun entry he => hlt entry (by simp [he])
  simp only [hbind _ _ hentries]
  congr 1
  funext inner
  cases hpart : (LetBlock.ofText text).body with
  | error e => rfl
  | ok body => exact h inner body (hbody body hpart)

/-- A placeholder has no parentheses. -/
theorem count_placeholder (blocks : Bindings) : (placeholder blocks).count '(' = 0 := by
  rw [List.count_eq_zero]
  intro hmem
  rcases List.mem_append.1 hmem with hmem | hmem
  · exact absurd hmem (by decide)
  · have := List.all_eq_true.1 (Decimal.isNumeral_digits blocks.length) _ hmem
    exact absurd this (by decide)

/-- A round goes on with fewer parentheses: those of the block are gone, and its placeholder has
none. -/
theorem count_of_round {text before here found after : List Char}
    (hsplit : splitAtLet text = some (before, here)) (hfound : enclosed here = some (found, after))
    (blocks : Bindings) : (before ++ placeholder blocks ++ after).count '(' < text.count '(' := by
  obtain ⟨htext, hopen⟩ := text_of_round hsplit hfound
  rw [htext]
  simp only [List.count_append, count_placeholder]
  omega

/-- One round of replacing the first let block of a text, where `again` does the other rounds. -/
def round (declared : Registry) (again : Bindings → List Char → Decode (List Char))
    (scope : Bindings) (text : List Char) : Decode (List Char) :=
  match splitAtLet text with
  | none => return text
  | some (before, here) =>
    match enclosed here with
    | none => throw (.unbalanced here)
    | some (found, after) => do
      let body ← block (fun inner part => again inner part >>= plain declared inner) scope found
      let key ← enter body
      again scope (before ++ key ++ after)

theorem resolve_succ (fuel : Nat) (text : List Char) :
    resolve declared (fuel + 1) scope text
      = round declared (resolve declared fuel) scope text := rfl

/-- A round does the others on texts with fewer parentheses: the parts of the block, and the text in
which the block is replaced. -/
theorem round_congr {again again' : Bindings → List Char → Decode (List Char)} {text : List Char}
    (h : ∀ inner part, part.count '(' < text.count '(' → again inner part = again' inner part) :
    round declared again scope text = round declared again' scope text := by
  unfold round
  split
  · rfl
  · next before here hsplit =>
    split
    · rfl
    · next found after hfound =>
      obtain ⟨htext, hopen⟩ := text_of_round hsplit hfound
      have hcount : text.count '(' = before.count '(' + (found.count '(' + after.count '(') := by
        rw [htext, List.count_append, List.count_append]
      have hblock :
          block (fun inner part => again inner part >>= plain declared inner) scope found
            = block (fun inner part => again' inner part >>= plain declared inner) scope found := by
        refine block_congr fun inner part hpart => ?_
        rw [h inner part (by omega)]
      have hnext : ∀ blocks : Bindings, again scope (before ++ placeholder blocks ++ after)
          = again' scope (before ++ placeholder blocks ++ after) := by
        intro blocks
        exact h scope _ (count_of_round hsplit hfound blocks)
      -- the key that a block is entered under is the next placeholder
      simp only [hblock, enter, bind_assoc, pure_bind, hnext]

/-- **Fuel is irrelevant.** Any two amounts above the number of opening parentheses agree. -/
theorem resolve_fuel {fuel fuel' : Nat} {text : List Char} (hfuel : text.count '(' < fuel)
    (hfuel' : text.count '(' < fuel') :
    resolve declared fuel scope text = resolve declared fuel' scope text := by
  induction fuel generalizing fuel' scope text with
  | zero => omega
  | succ fuel ih =>
    obtain _ | fuel' := fuel'
    · omega
    -- one round with each amount: what is left to do has fewer parentheses
    rw [resolve_succ, resolve_succ]
    exact round_congr fun inner part hpart => ih (by omega) (by omega)

/-! ## The equations of decoding -/

/-- Replaces all let blocks of a text by placeholders. -/
def resolveAll (declared : Registry) (scope : Bindings) (text : List Char) : Decode (List Char) :=
  resolve declared (text.count '(' + 1) scope text

/-- **Decoding a text.** Its let blocks are replaced and the rest is read. -/
theorem inScope_eq (text : List Char) :
    inScope declared scope text = resolveAll declared scope text >>= plain declared scope := rfl

/-- The rounds follow each other until no let block is left. -/
theorem resolveAll_eq (text : List Char) :
    resolveAll declared scope text = round declared (resolveAll declared) scope text := by
  rw [resolveAll, resolve_succ]
  exact round_congr fun inner part hpart => resolve_fuel hpart (by omega)

/-- A text without let blocks is left as it is. -/
theorem resolveAll_of_none {text : List Char} (h : splitAtLet text = none) :
    resolveAll declared scope text = pure text := by
  rw [resolveAll_eq, round, h]

/-- A let block that nothing closes is an error. -/
theorem resolveAll_of_unbalanced {text before here : List Char}
    (hsplit : splitAtLet text = some (before, here)) (hfound : enclosed here = none) :
    resolveAll declared scope text = throw (.unbalanced here) := by
  rw [resolveAll_eq, round, hsplit]
  simp only [hfound]

/-- **One round.** The first let block is decoded on its own and replaced by its placeholder. -/
theorem resolveAll_of_block {text before here found after : List Char}
    (hsplit : splitAtLet text = some (before, here))
    (hfound : enclosed here = some (found, after)) :
    resolveAll declared scope text = (do
      let body ← block (inScope declared) scope found
      let key ← enter body
      resolveAll declared scope (before ++ key ++ after)) := by
  rw [resolveAll_eq, round, hsplit]
  simp only [hfound]
  rfl

end Decode

end Interpolants
