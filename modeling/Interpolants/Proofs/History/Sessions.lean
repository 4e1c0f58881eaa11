import Interpolants.Proofs.History.Alike
import Interpolants.Proofs.History.Parts
import Interpolants.Proofs.Layout.Splicing

/-!
# Interpolants — sessions

The terms of one answer are decoded in one session, and each let block in them leaves an entry in
the session's table, also if the term is refused later on. None of this matters to the terms that
follow: each is decoded as in a session of its own, or refused for the same kind of reason.

## The architecture

* **`Unaffected`** — a step that gives the same whatever numbered table it starts with.
* **`Fronts`** — what the first pass has left of a text in two sessions. Whatever it goes on with is
  found by the next round and read by the second pass alike.
* **`agree_inScope`** — the induction on the rounds. A round decodes a let block, which has fewer
  parentheses, and goes on with a placeholder in its place, which has none.
-/

namespace Interpolants

open Text Decode

/-! ## What the first pass leaves in front -/

/-- A piece that related texts may stand behind. -/
def Passes (piece : List Char) : Prop :=
  ∀ {blocks blocks' : Bindings} {cs cs' : List Char}, Alike blocks blocks' cs cs' →
    Alike blocks blocks' (piece ++ cs) (piece ++ cs')

section

variable {before more rest cs : List Char}

/-- Where a let block starts, a delimiter or nothing stands in front. -/
theorem Parting.boundary_before (h : Parting (before ++ '(' :: more)) (cs : List Char) :
    Boundary (before ++ cs) := by
  cases before with
  | nil => exact absurd h (not_parting_open more)
  | cons c before => exact fun c' hc' => h.boundary c' hc'

/-- **A round cuts the text before a let block**, and related texts may stand behind the cut. -/
theorem Apart.of_splitAtLet (h : Apart cs) (hsplit : splitAtLet cs = some (before, '(' :: more)) :
    Apart ('(' :: more) ∧ Passes before := by
  induction h generalizing before with
  | nil => cases hsplit
  | @blank c cs hc h ih =>
    have hopen : c ≠ '(' := by
      rintro rfl
      exact absurd hc (by decide)
    obtain ⟨front, rfl, hcut⟩ := exists_of_splitAtLet_cons (startsLet_of_ne hopen cs) hsplit
    obtain ⟨hhere, hpasses⟩ := ih hcut
    exact ⟨hhere, fun h => .delimiter (by rw [isDelimiter, hc]; rfl) (hpasses h)⟩
  | @opening cs h ih =>
    cases hstarts : startsLet ('(' :: cs) with
    | true =>
      rw [splitAtLet_of_startsLet hstarts] at hsplit
      cases hsplit
      -- the block starts here, and nothing stands before it
      exact ⟨.opening h, fun h => h⟩
    | false =>
      obtain ⟨front, rfl, hcut⟩ := exists_of_splitAtLet_cons hstarts hsplit
      obtain ⟨hhere, hpasses⟩ := ih hcut
      exact ⟨hhere, fun h => .delimiter isDelimiter_open (hpasses h)⟩
  | @closing cs hparting h ih =>
    obtain ⟨front, rfl, hcut⟩ := exists_of_splitAtLet_cons (startsLet_of_ne (by decide) cs) hsplit
    obtain ⟨hhere, hpasses⟩ := ih hcut
    exact ⟨hhere, fun h => .delimiter isDelimiter_close (hpasses h)⟩
  | @token token cs htoken hparting h ih =>
    obtain ⟨front, rfl, hcut⟩ := htoken.form.inert.exists_of_splitAtLet hparting.calm hsplit
    obtain ⟨hhere, hpasses⟩ := ih hcut
    rw [← append_of_splitAtLet hcut] at hparting
    refine ⟨hhere, fun {blocks blocks' ds ds'} h => ?_⟩
    rw [List.append_assoc, List.append_assoc]
    exact .token (.same htoken) (hparting.boundary_before ds) (hpasses h)

end

/-- Texts in front of the same rest, as two sessions leave them that may yet enter more blocks. -/
structure Fronts (blocks blocks' : Bindings) (front front' rest : List Char) : Prop where
  sealed : Sealed front
  sealed' : Sealed front'
  alike : ∀ {later later' : Bindings}, Numbered later → Numbered later' → blocks <:+ later →
    blocks' <:+ later' → ∀ {cs cs' : List Char}, (Parting rest → Boundary cs) →
      Alike later later' cs cs' → Alike later later' (front ++ cs) (front' ++ cs')

namespace Fronts

variable {blocks blocks' later later' : Bindings} {front front' rest before more after : List Char}

theorem nil (blocks blocks' : Bindings) (rest : List Char) : Fronts blocks blocks' [] [] rest :=
  ⟨.nil, .nil, fun _ _ _ _ _ _ _ h => h⟩

/-- The whole texts are related. -/
theorem alike_rest (h : Fronts blocks blocks' front front' rest) (hblocks : Numbered blocks)
    (hblocks' : Numbered blocks') (hrest : Apart rest) :
    Alike blocks blocks' (front ++ rest) (front' ++ rest) :=
  h.alike hblocks hblocks' (List.suffix_refl _) (List.suffix_refl _) Parting.boundary hrest.alike

/-- **A round goes on with fronts again**: a placeholder in each stands for the block that was
found. -/
theorem enter (h : Fronts blocks blocks' front front' rest)
    (hsplit : splitAtLet rest = some (before, '(' :: more)) (hpasses : Passes before)
    (hafter : Parting after) (hlater : blocks <:+ later) (hlater' : blocks' <:+ later') (e : Expr) :
    Fronts ((String.ofList (placeholder later), e) :: later)
      ((String.ofList (placeholder later'), e) :: later') (front ++ before ++ placeholder later)
      (front' ++ before ++ placeholder later') after where
  sealed := sealed_placeholder h.sealed hsplit later
  sealed' := sealed_placeholder h.sealed' hsplit later'
  alike := by
    obtain rfl := append_of_splitAtLet hsplit
    intro last last' hlast hlast' hgrown hgrown' cs cs' hcs halike
    have hentered : ∀ blocks : Bindings,
        ((String.ofList (placeholder blocks), e) :: blocks).lookup
        (String.ofList (placeholder blocks))
          = some e := by
      intro blocks
      rw [List.lookup_cons_self]
    -- the two placeholders are entered for the same formula
    have hkeys : Counterpart last last' (placeholder later) (placeholder later') := by
      have :=
        Counterpart.entered (isPlaceholder_placeholder later) (isPlaceholder_placeholder later')
        (hlast.lookup_of_suffix hgrown (hentered later))
        (hlast'.lookup_of_suffix hgrown' (hentered later'))
      rwa [String.toList_ofList, String.toList_ofList] at this
    -- what stands before the block, its placeholder and what comes behind it are related piece by
    -- piece
    have hbehind := hpasses (Alike.token hkeys (hcs hafter) halike)
    have := h.alike hlast hlast' ((hlater.trans (List.suffix_cons _ _)).trans hgrown)
      ((hlater'.trans (List.suffix_cons _ _)).trans hgrown')
      (fun hparting => hparting.boundary_before _) hbehind
    simpa using this

end Fronts

/-! ## Steps that no history affects -/

/-- A step whose result does not depend on the table, up to the details of errors. -/
def Unaffected {α : Type} (step : Decode α) : Prop :=
  ∀ blocks blocks' : Bindings, Numbered blocks → Numbered blocks' →
    Agree Eq (outcome step blocks).1 (outcome step blocks').1

section

variable {α β : Type} {step : Decode α} {next : α → Decode β} {blocks blocks' : Bindings}

theorem unaffected_throw (e : DecodeError) : Unaffected (throw e : Decode α) :=
  fun _ _ _ _ => .error rfl

/-- What a step gives on two tables, and the tables it leaves, together. -/
theorem Unaffected.outcomes (h : Unaffected step) (hgrows : Grows step) (hblocks : Numbered blocks)
    (hblocks' : Numbered blocks') :
    (∃ e e' later later', outcome step blocks = (.error e, later) ∧
        outcome step blocks' = (.error e', later') ∧ e.kind = e'.kind) ∨
      ∃ a later later', outcome step blocks = (.ok a, later) ∧
      outcome step blocks' = (.ok a, later') ∧
        (Numbered later ∧ blocks <:+ later) ∧ Numbered later' ∧ blocks' <:+ later' := by
  have hlater := hgrows blocks hblocks
  have hlater' := hgrows blocks' hblocks'
  rcases (h blocks blocks' hblocks hblocks').exists_eq with
    ⟨e, e', he, he', hkind⟩ | ⟨a, _, ha, ha', rfl⟩
  · exact Or.inl ⟨e, e', _, _, Prod.ext he rfl, Prod.ext he' rfl, hkind⟩
  · exact Or.inr ⟨a, _, _, Prod.ext ha rfl, Prod.ext ha' rfl, hlater, hlater'⟩

/-- Steps one after the other do not depend on the table if none of them does. -/
theorem Unaffected.bind (h : Unaffected step) (hgrows : Grows step)
    (hnext : ∀ a, Unaffected (next a)) : Unaffected (step >>= next) := by
  intro blocks blocks' hblocks hblocks'
  rcases h.outcomes hgrows hblocks hblocks' with
    ⟨e, e', later, later', hrun, hrun', hkind⟩ | ⟨a, later, later', hrun, hrun', hlater, hlater'⟩
  · rw [outcome_bind_of_error hrun, outcome_bind_of_error hrun']
    exact .error hkind
  · rw [outcome_bind_of_ok hrun, outcome_bind_of_ok hrun']
    exact hnext a later later' hlater.1 hlater'.1

end

/-! ## Let blocks -/

section

variable {decode : Bindings → List Char → Decode Expr} {scope : Bindings}

/-- The terms of a let block and its body do not depend on the table if none of them does. -/
theorem unaffected_bindAll {bound : List Char → Decode Expr} {body : Bindings → Decode Expr}
    (hgrows : ∀ part, Grows (bound part)) (hbody : ∀ inner, Clean inner → Unaffected (body inner))
    {entries : List (String × List Char)}
    (hentries : ∀ entry ∈ entries, ¬ IsPlaceholder entry.1 ∧ Unaffected (bound entry.2))
    {inner : Bindings} (hinner : Clean inner) :
    Unaffected (bindAll bound inner entries >>= body) := by
  induction entries generalizing inner with
  | nil =>
    rw [bindAll, pure_bind]
    exact hbody inner hinner
  | cons entry entries ih =>
    obtain ⟨name, part⟩ := entry
    obtain ⟨hentry, hentries⟩ := List.forall_mem_cons.1 hentries
    rw [bindAll, bind_assoc]
    exact hentry.2.bind (hgrows part) fun e =>
      ih hentries (List.forall_mem_cons.2 ⟨hentry.1, hinner⟩)

/-- A let block is unaffected if its parts are, which are smaller. -/
theorem unaffected_block {text : List Char} (htext : Apart text) (hscope : Clean scope)
    (hgrows : ∀ inner part, Grows (decode inner part))
    (hdecode : ∀ inner part, Clean inner → Apart part → part.count '(' < text.count '(' →
      Unaffected (decode inner part)) : Unaffected (block decode scope text) := by
  obtain ⟨hentries, hbody⟩ := LetBlock.clear_ofText htext
  obtain ⟨hcounts, hcount⟩ := LetBlock.count_of_ofText text
  refine unaffected_bindAll (hgrows scope) (fun inner hinner => ?_) (fun entry hentry => ?_) hscope
  · cases hpart : (LetBlock.ofText text).body with
    | error e => exact unaffected_throw e
    | ok body => exact hdecode inner body hinner (hbody body hpart) (hcount body hpart)
  · obtain ⟨hname, hpart⟩ := hentries entry hentry
    exact ⟨hname, hdecode scope entry.2 hscope hpart (hcounts entry hentry)⟩

end

/-! ## Texts -/

/-- Both passes agree on texts with fewer parentheses, however two sessions have come to them. -/
def AgreesBelow (declared : Registry) (n : Nat) : Prop :=
  ∀ {scope blocks blocks' : Bindings} {front front' rest : List Char}, rest.count '(' < n →
  Clean scope →
    Apart rest → Numbered blocks → Numbered blocks' → Fronts blocks blocks' front front' rest →
    Agree Eq (outcome (inScope declared scope (front ++ rest)) blocks).1
      (outcome (inScope declared scope (front' ++ rest)) blocks').1

section

variable {declared : Registry} {scope blocks blocks' : Bindings}
  {front front' rest before more found after : List Char}

/-- A let block is decoded in its own session: it has no front. -/
theorem unaffected_block_of_below {n : Nat} (hbelow : AgreesBelow declared n) (hscope : Clean scope)
    (hfound : Apart found) (hcount : found.count '(' ≤ n) :
    Unaffected (block (inScope declared) scope found) :=
  unaffected_block hfound hscope (grows_inScope declared) fun _ part hinner hpart hlt blocks blocks'
      hblocks hblocks' =>
    hbelow (Nat.lt_of_lt_of_le hlt hcount) hinner hpart hblocks hblocks' (.nil blocks blocks' part)

/-- **A round agrees**: both sessions decode the block that is found, and go on with a placeholder
for the same formula. -/
theorem agree_round (hbelow : AgreesBelow declared (rest.count '(')) (hscope : Clean scope)
    (hrest : Apart rest) (hblocks : Numbered blocks) (hblocks' : Numbered blocks')
    (h : Fronts blocks blocks' front front' rest)
    (hsplit : splitAtLet rest = some (before, '(' :: more))
    (hfound : enclosed ('(' :: more) = some (found, after)) :
    Agree Eq (outcome (inScope declared scope (front ++ rest)) blocks).1
      (outcome (inScope declared scope (front' ++ rest)) blocks').1 := by
  have hcut := h.sealed.splitAtLet_of_some hsplit
  have hcut' := h.sealed'.splitAtLet_of_some hsplit
  obtain ⟨hhere, hpasses⟩ := hrest.of_splitAtLet hsplit
  obtain ⟨hblock, hafter, hparting⟩ := hhere.of_enclosed hfound
  obtain ⟨htext, hopen⟩ := text_of_round hsplit hfound
  have hsum : rest.count '(' = before.count '(' + (found.count '(' + after.count '(') := by
    rw [htext, List.count_append, List.count_append]
  -- the block has fewer parentheses, and so has what is left with the placeholder
  have hunaffected := unaffected_block_of_below hbelow hscope hblock (by omega)
  have hgrows := grows_block (grows_inScope declared) scope found
  rw [inScope_eq, inScope_eq, resolveAll_of_block hcut hfound, resolveAll_of_block hcut' hfound,
    bind_assoc, bind_assoc]
  rcases hunaffected.outcomes hgrows hblocks hblocks' with
    ⟨e, e', later, later', hrun, hrun', hkind⟩ | ⟨e, later, later', hrun, hrun', hlater, hlater'⟩
  · rw [outcome_bind_of_error hrun, outcome_bind_of_error hrun']
    exact .error hkind
  · rw [outcome_bind_of_ok hrun, outcome_bind_of_ok hrun', bind_assoc, bind_assoc,
      outcome_bind_of_ok (outcome_enter e later), outcome_bind_of_ok (outcome_enter e later'),
      ← inScope_eq, ← inScope_eq]
    exact hbelow (by omega) hscope hafter ⟨rfl, hlater.1⟩ ⟨rfl, hlater'.1⟩
      (h.enter hsplit hpasses hparting hlater.2 hlater'.2 e)

/-- **Both passes agree on texts that two sessions have come to differently.** -/
theorem agree_inScope (hscope : Clean scope) (hrest : Apart rest) (hblocks : Numbered blocks)
    (hblocks' : Numbered blocks') (h : Fronts blocks blocks' front front' rest) :
    Agree Eq (outcome (inScope declared scope (front ++ rest)) blocks).1
      (outcome (inScope declared scope (front' ++ rest)) blocks').1 := by
  induction hcount : rest.count '(' using Nat.strongRecOn
    generalizing scope rest blocks blocks' front front' with
  | ind n ih =>
    subst hcount
    cases hsplit : splitAtLet rest with
    | none =>
      rw [inScope_eq, inScope_eq, resolveAll_of_none (h.sealed.splitAtLet_of_none hsplit),
        resolveAll_of_none (h.sealed'.splitAtLet_of_none hsplit), pure_bind, pure_bind,
        outcome_plain, outcome_plain]
      exact agree_wholeTerm hscope hblocks hblocks' (h.alike_rest hblocks hblocks' hrest)
    | some split =>
      obtain ⟨before, here⟩ := split
      obtain ⟨more, rfl⟩ := exists_cons_of_splitAtLet hsplit
      cases hfound : enclosed ('(' :: more) with
      | none =>
        rw [inScope_eq, inScope_eq,
          resolveAll_of_unbalanced (h.sealed.splitAtLet_of_some hsplit) hfound,
          resolveAll_of_unbalanced (h.sealed'.splitAtLet_of_some hsplit) hfound]
        exact .error rfl
      | some split =>
        obtain ⟨found, after⟩ := split
        have hbelow : AgreesBelow declared (rest.count '(') :=
          fun hlt hscope hrest hblocks hblocks' h => ih _ hlt hscope hrest hblocks hblocks' h rfl
        exact agree_round hbelow hscope hrest hblocks hblocks' h hsplit hfound

/-- Decoding a text whose tokens stand apart does not depend on the table. -/
theorem unaffected_inScope (declared : Registry) (hscope : Clean scope) {text : List Char}
    (htext : Apart text) :
    Unaffected (inScope declared scope text) :=
  fun blocks blocks' hblocks hblocks' =>
    agree_inScope hscope htext hblocks hblocks' (.nil blocks blocks' text)

end

/-! ## Terms -/

section

variable {declared : Registry} {ts : List Sexp}

/-- Without the details of errors, each term is decoded as in a session of its own. -/
theorem map_decodeEachFrom_unaffected (h : ∀ t ∈ ts, t.Spelled Unreserved) {blocks : Bindings}
    (hblocks : Numbered blocks) :
    (decodeEachFrom declared blocks (ts.map Sexp.render)).map (Except.mapError DecodeError.kind)
      = ts.map fun t => (decode declared t.render).mapError DecodeError.kind := by
  induction ts generalizing blocks with
  | nil => rfl
  | cons t ts ih =>
    obtain ⟨ht, hts⟩ := List.forall_mem_cons.1 h
    have hrun : ∀ blocks, Decode.run declared blocks t.render
        = outcome (inScope declared [] t.chars) blocks := by
      intro blocks
      show outcome (inScope declared [] (String.ofList t.chars).toList) blocks = _
      rw [String.toList_ofList]
    have htext : Apart t.chars := by
      have := ht.apart parting_nil .nil
      rwa [List.append_nil] at this
    -- a text is decoded on the table so far as it is on an empty one
    have hsame := unaffected_inScope declared clean_nil htext blocks [] hblocks numbered_nil
    have hgrown := (grows_inScope declared [] t.chars blocks hblocks).1
    rw [List.map_cons, decodeEachFrom, List.map_cons, List.map_cons, hrun, ih hts hgrown,
      hsame.mapError_eq, decode, hrun]

/-- **History does not matter.** Each term of a session is decoded to the formula that it is decoded
to in a session of its own, or both are refused for the same kind of reason. So it makes no
difference which other terms there are, or at which place it stands. -/
theorem decodeEach_alone (declared : Registry) (h : ∀ t ∈ ts, t.Spelled Unreserved) :
    (decodeEach declared (ts.map Sexp.render)).map (Except.mapError DecodeError.kind)
        = (ts.map fun t => (decode declared t.render).mapError DecodeError.kind) ∧
      ∀ ts' : List Sexp, (∀ t ∈ ts', t.Spelled Unreserved) → ∀ i j : Nat, ts[i]? = ts'[j]? →
        (decodeEach declared (ts.map Sexp.render))[i]?.map (Except.mapError DecodeError.kind)
          = (decodeEach declared (ts'.map Sexp.render))[j]?.map
            (Except.mapError DecodeError.kind) := by
  have halone : ∀ {ts : List Sexp}, (∀ t ∈ ts, t.Spelled Unreserved) →
      (decodeEach declared (ts.map Sexp.render)).map (Except.mapError DecodeError.kind)
        = ts.map fun t => (decode declared t.render).mapError DecodeError.kind :=
    fun h => map_decodeEachFrom_unaffected h numbered_nil
  refine ⟨halone h, fun ts' h' i j hplace => ?_⟩
  rw [← List.getElem?_map, ← List.getElem?_map, halone h, halone h', List.getElem?_map,
    List.getElem?_map, hplace]

/-- Let blocks before, in and behind terms that are refused. -/
theorem decodeEach_alone_refused :
    let declared := (Registry.empty.insert ⟨"p", .bool⟩).insert ⟨"q", .bool⟩
    let binding (name value : String) := Sexp.list [.list [.symbol name, .symbol value]]
    let block := Sexp.app "let" [binding "a" "q", .app "not" [.symbol "a"]]
    let ts := [.app "and" [.symbol "p", block],
      .app "or" [block, .app "let" [binding "b" "r", .symbol "b"]],
      .app "let" [binding "c" "p", .app "ite" [.symbol "c"]],
      .list [.symbol "a b", .list [], block],
      .app "let" [binding "d\t" "q", .app "or" [.symbol "d", .symbol "q"]]]
    (∀ t ∈ ts, t.Spelled Unreserved) ∧
      (decodeEach declared (ts.map Sexp.render)).map (Except.mapError DecodeError.kind)
        = [.ok (.logic .and (.var ⟨"p", .bool⟩) (.negation (.var ⟨"q", .bool⟩))),
          .error .unknownVariable, .error .unknownOperator, .error .malformed,
          .ok (.logic .or (.var ⟨"q", .bool⟩) (.var ⟨"q", .bool⟩))] ∧
      (decodeEach declared (ts.map Sexp.render)).map (Except.mapError DecodeError.kind)
        = ts.map fun t => (decode declared t.render).mapError DecodeError.kind := by
  intro declared binding block ts
  have h : ∀ t ∈ ts, t.Spelled Unreserved := by decide +kernel
  exact ⟨h, by decide +kernel, (decodeEach_alone declared h).1⟩

end

end Interpolants
