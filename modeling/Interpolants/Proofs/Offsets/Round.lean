import Interpolants.Proofs.Offsets.Block
import Interpolants.Proofs.Offsets.Marks

/-!
# Interpolants — decoding by byte offsets

The loop that replaces let blocks searches the text that it changes. Each of its rounds checks that
a start of a let block is gone and none has been made, and that the key of the placeholder is new;
decoding checks that every part is smaller than its text. `resolve_of_block` is one round in which
no check fails, `agrees_resolve` all of them, and `decoding_never_faults` says what that means for a
session.
-/

namespace Interpolants

open Text Decode

namespace Offsets

/-! ## The search for let blocks -/

/-- The offsets of the word that starts a let block, in a text behind some bytes. -/
def wordOffsets (pos : Nat) : List Char → List Nat
  | [] => []
  | c :: cs =>
    if opensWord (c :: cs) then pos :: wordOffsets (pos + c.utf8Size) cs
    else wordOffsets (pos + c.utf8Size) cs

/-- The first of some offsets of the word that has a blank or a parenthesis behind it. -/
def firstLet (text : List Char) : List Nat → Guarded (Option Nat)
  | [] => .ok none
  | pos :: more => do
    let behind ← sliceFrom text (pos + byteSize "(let".toList)
    if behind.head?.any fun c => isBlank c || c == '(' then return some pos else firstLet text more

def findLet (text : List Char) : Guarded (Option Nat) :=
  firstLet text (wordOffsets 0 text)

/-! ## Rounds -/

/-- Replaces the let blocks of a text by placeholders. -/
def resolve (decode : Bindings → List Char → GuardedStep Expr) (scope : Bindings)
    (text : List Char) : GuardedStep (List Char) := do
  match ← check (findLet text) with
  | none => return text
  | some start => do
    let stop ← check (matchingParen text start)
    let found ← check (slice text start (stop + 1))
    let body ← letBlock decode scope found
    let blocks ← get
    let before ← check (sliceTo text start)
    let after ← check (sliceFrom text (stop + 1))
    if (blocks.lookup (String.ofList (placeholder blocks))).isSome then throw (.fault .overwritten)
    else do
      set ((String.ofList (placeholder blocks), body) :: blocks)
      let next := before ++ placeholder blocks ++ after
      if Fewer opensWord text before after next ∧ Fewer startsLet text before after next then
        resolve decode scope next
      else throw (.fault .standstill)
termination_by marks startsLet text
decreasing_by
  rename_i h
  exact h.2.1

/-- Decodes a text in a scope. -/
def inScope (declared : Registry) (scope : Bindings) (text : List Char) : GuardedStep Expr := do
  let decode (inner : Bindings) (part : List Char) : GuardedStep Expr :=
    if byteSize part < byteSize text then inScope declared inner part
    else throw (.fault .standstill)
  let text ← resolve decode scope text
  check (wholeTerm ⟨scope, ← get, declared⟩ text)
termination_by byteSize text

/-! ## Let blocks are found -/

/-- The word starts a let block if a blank or a parenthesis stands behind it. -/
theorem startsLet_word (behind : List Char) :
    startsLet ("(let".toList ++ behind) = behind.head?.any fun c => isBlank c || c == '(' := by
  cases behind <;> rfl

/-- **The search finds the first let block.** The offsets of the word are tried from left to right,
and the first that a blank or a parenthesis follows is where the text is split. -/
theorem firstLet_eq (front cs : List Char) :
    firstLet (front ++ cs) (wordOffsets (byteSize front) cs)
      = .ok ((splitAtLet cs).map fun split => byteSize (front ++ split.1)) := by
  induction cs generalizing front with
  | nil => rfl
  | cons c cs ih =>
    have hnext := ih (front ++ [c])
    rw [List.append_assoc, List.singleton_append, byteSize_append, byteSize_cons, byteSize_nil,
      Nat.add_zero] at hnext
    have hmore : startsLet (c :: cs) = false →
        (splitAtLet (c :: cs)).map (fun split => byteSize (front ++ split.1))
          = (splitAtLet cs).map fun split => byteSize (front ++ [c] ++ split.1) := by
      intro hstarts
      rw [splitAtLet_cons hstarts, Option.map_map]
      simp only [Function.comp_def, List.append_assoc, List.singleton_append]
    rw [wordOffsets]
    cases hword : opensWord (c :: cs) with
    | false =>
      have hstarts : startsLet (c :: cs) = false := by
        rw [Bool.eq_false_iff]
        intro hstarts
        rw [opensWord_of_startsLet hstarts] at hword
        cases hword
      rw [if_neg (by decide), hmore hstarts]
      exact hnext
    | true =>
      -- the character behind the word decides
      obtain ⟨behind, hbehind⟩ := opensWord_iff.1 hword
      have hslice : sliceFrom (front ++ c :: cs) (byteSize front + byteSize "(let".toList)
          = .ok behind := by
        rw [← hbehind, ← List.append_assoc, ← byteSize_append]
        exact sliceFrom_append _ behind
      rw [if_pos rfl, firstLet, hslice]
      show (if behind.head?.any (fun c => isBlank c || c == '(') = true then _ else _) = _
      rw [← startsLet_word, hbehind]
      cases hstarts : startsLet (c :: cs) with
      | true =>
        rw [if_pos rfl, splitAtLet_of_startsLet hstarts, Option.map_some, List.append_nil]
        rfl
      | false =>
        rw [if_neg (by decide), hmore hstarts]
        exact hnext

/-- **Let blocks are found by offsets.** -/
theorem findLet_eq (text : List Char) :
    findLet text = .ok ((splitAtLet text).map fun split => byteSize split.1) :=
  firstLet_eq [] text

/-! ## Every round does what the round of decoding does -/

section

variable {declared : Registry} {decode' : Bindings → List Char → GuardedStep Expr}
    {scope : Bindings}
  {text before here found after : List Char}

/-- A text without let blocks is left as it is. -/
theorem resolve_of_none (hsplit : splitAtLet text = none) :
    resolve decode' scope text = pure text := by
  rw [resolve, findLet_eq, hsplit]
  rfl

/-- The cursor that stands where the first let block of a text starts. -/
theorem exists_cursor_of_splitAtLet (hsplit : splitAtLet text = some (before, here)) :
    ∃ c : Cursor, c.Inside ∧ c.text = text ∧ c.rest = here ∧ c.offset = byteSize before ∧
      (ParensFit text → ParensFit c.rest) := by
  have htext : before ++ here = text := append_of_splitAtLet hsplit
  have hinside : here <:+ text := ⟨before, htext⟩
  exact ⟨⟨text, here⟩, hinside, rfl, rfl, Cursor.offset_of_append htext,
    fun h => h.sublist hinside.sublist⟩

/-- A let block whose parenthesis is not closed is refused. -/
theorem resolve_of_unbalanced (hfits : ParensFit text)
    (hsplit : splitAtLet text = some (before, here)) (hfound : enclosed here = none) :
    resolve decode' scope text = throw (.refused (.unbalanced here)) := by
  obtain ⟨more, rfl⟩ := exists_cons_of_splitAtLet hsplit
  obtain ⟨c, hinside, htext, hrest, hoffset, hrest'⟩ := exists_cursor_of_splitAtLet hsplit
  have hstop := matchingParen_of_none hinside hrest (hrest' hfits) hfound
  rw [htext, hoffset] at hstop
  rw [resolve, findLet_eq, hsplit]
  show check (matchingParen text (byteSize before)) >>= _ = _
  rw [hstop]
  rfl

/-- Where the first let block ends, and the three pieces that a round cuts the text into. -/
theorem exists_stop_of_round (hfits : ParensFit text)
    (hsplit : splitAtLet text = some (before, here))
    (hfound : enclosed here = some (found, after)) :
    ∃ stop, matchingParen text (byteSize before) = .ok stop ∧
      slice text (byteSize before) (stop + 1) = .ok found ∧
      sliceTo text (byteSize before) = .ok before ∧ sliceFrom text (stop + 1) = .ok after := by
  obtain ⟨htext, -⟩ := text_of_round hsplit hfound
  rw [← List.append_assoc] at htext
  obtain ⟨more, rfl⟩ := exists_cons_of_splitAtLet hsplit
  obtain ⟨c, hinside, hc, hrest, hoffset, hrest'⟩ := exists_cursor_of_splitAtLet hsplit
  obtain ⟨stop, hstop, hbehind⟩ := matchingParen_of_some hinside hrest (hrest' hfits) hfound
  -- the match is the last byte of the block
  have hend : stop + 1 = byteSize (before ++ found) := by
    rw [hbehind]
    exact Cursor.offset_of_append (htext.symm.trans hc.symm)
  rw [hc, hoffset] at hstop
  refine ⟨stop, hstop, ?_, ?_, ?_⟩
  · rw [hend, htext]
    exact slice_append before found after
  · rw [htext, List.append_assoc]
    exact sliceTo_append before _
  · rw [hend, htext]
    exact sliceFrom_append _ after

/-- **One round by offsets**: the block is cut out and decoded, and a new entry is made for it. -/
theorem resolve_of_block (hfits : ParensFit text) (hsplit : splitAtLet text = some (before, here))
    (hfound : enclosed here = some (found, after)) :
    resolve decode' scope text = (do
      let body ← letBlock decode' scope found
      let blocks ← get
      if (blocks.lookup (String.ofList (placeholder blocks))).isSome then
        throw (.fault .overwritten)
      else do
        set ((String.ofList (placeholder blocks), body) :: blocks)
        resolve decode' scope (before ++ placeholder blocks ++ after)) := by
  obtain ⟨stop, hstop, hslice, hbefore, hafter⟩ := exists_stop_of_round hfits hsplit hfound
  rw [resolve, findLet_eq, hsplit]
  show check (matchingParen text (byteSize before)) >>= _ = _
  rw [hstop]
  show check (slice text (byteSize before) (stop + 1)) >>= _ = _
  rw [hslice, hbefore, hafter]
  show letBlock decode' scope found >>= _ = _
  refine congrArg (letBlock decode' scope found >>= ·) (funext fun body => ?_)
  refine congrArg (get >>= ·) (funext fun blocks => ?_)
  show (if (blocks.lookup (String.ofList (placeholder blocks))).isSome = true then _ else _) = _
  congr 1
  refine congrArg (set ((String.ofList (placeholder blocks), body) :: blocks) >>= ·)
    (funext fun _ => ?_)
  -- the round was worth it, so the check on progress does not fail
  exact if_pos (fewer_of_round hsplit hfound blocks)

/-- **The rounds by offsets.** No let block is larger than what stood behind the placeholders at the
start. -/
theorem agrees_resolve {front rest : List Char} {limit : Nat} (hfront : Sealed front)
    (hrest : byteSize rest ≤ limit)
    (hfits : ParensFit (front ++ rest))
    (hdecode : ∀ inner part, byteSize part < limit → ParensFit part →
      Agrees (decode' inner part) (Decode.inScope declared inner part)) :
    Agrees (resolve decode' scope (front ++ rest)) (resolveAll declared scope (front ++ rest)) := by
  -- a round takes the parentheses of a let block away
  induction hcount : (front ++ rest).count '(' using Nat.strongRecOn generalizing front rest with
  | ind n ih =>
    subst hcount
    cases hsplit : splitAtLet rest with
    | none =>
      have hnone := hfront.splitAtLet_of_none hsplit
      rw [resolve_of_none hnone, resolveAll_of_none hnone]
      exact fun _ _ => rfl
    | some split =>
      obtain ⟨before, here⟩ := split
      have hcut := hfront.splitAtLet_of_some hsplit
      cases hfound : enclosed here with
      | none =>
        rw [resolve_of_unbalanced hfits hcut hfound, resolveAll_of_unbalanced hcut hfound]
        exact agrees_throw _
      | some cut =>
        obtain ⟨found, after⟩ := cut
        obtain ⟨hrest', -⟩ := text_of_round hsplit hfound
        have hinside : found <:+: rest := ⟨before, after, by rw [hrest', List.append_assoc]⟩
        have hafter : after <:+: rest :=
          ⟨before ++ found, [], by rw [hrest', List.append_nil, List.append_assoc]⟩
        have hopens : ParensFit found :=
          hfits.sublist (hinside.sublist.trans (List.sublist_append_right front rest))
        have hblock : Agrees (letBlock decode' scope found)
            (block (Decode.inScope declared) scope found) := by
          refine agrees_letBlock hopens (grows_inScope declared) fun inner part hpart => ?_
          exact hdecode inner part
            (Nat.lt_of_lt_of_le hpart (Nat.le_trans (byteSize_le_of_part hinside) hrest))
        rw [resolve_of_block hfits hcut hfound, resolveAll_of_block hcut hfound]
        refine hblock.bind (grows_block (grows_inScope declared) scope found)
          fun body blocks hblocks => ?_
        have hnew : blocks.lookup (String.ofList (placeholder blocks)) = none :=
          hblocks.lookup_placeholder
        have hless := count_of_round hcut hfound blocks
        have hnext := ih _ hless (sealed_placeholder hfront hsplit blocks)
          (Nat.le_trans (byteSize_le_of_part hafter) hrest)
          (hfits.of_count_le (Nat.le_of_lt hless)) rfl
        rw [outcome_bind_of_ok (outcome_get blocks), hnew, if_neg (by decide),
          outcome_bind_of_ok (outcome_set _ _), outcome_bind_of_ok (outcome_enter body blocks)]
        exact hnext _ ⟨rfl, hblocks⟩

/-- **Decoding by offsets.** A text whose parentheses a signed 32-bit word can count is decoded in
every scope to what decoding gives, with the same table behind it. -/
theorem agrees_inScope (declared : Registry) (scope : Bindings) (text : List Char)
    (hfits : ParensFit text) :
    Agrees (inScope declared scope text) (Decode.inScope declared scope text) := by
  induction hsize : byteSize text using Nat.strongRecOn generalizing scope text with
  | ind n ih =>
    subst hsize
    rw [inScope, inScope_eq]
    refine Agrees.bind (agrees_resolve .nil (Nat.le_refl (byteSize text)) hfits ?_)
      (grows_resolve _ scope text)
      fun leaves blocks _ => ?_
    · intro inner part hpart hopens
      rw [if_pos hpart]
      exact ih _ hpart inner part hopens rfl
    · rw [outcome_bind_of_ok (outcome_get blocks), wholeTerm_eq, outcome_plain]
      cases Interpolants.wholeTerm ⟨scope, blocks, declared⟩ leaves <;> rfl

end

end Offsets

/-! ## Sessions -/

/-- The table of a session in which some texts have been decoded, each in a scope of its own. The
latest comes first. -/
def Decode.tableBehind (declared : Registry) : List (Bindings × String) → Bindings
  | [] => []
  | (scope, text) :: earlier =>
    (outcome (inScope declared scope text.toList) (tableBehind declared earlier)).2

/-- The table of a session is numbered. -/
theorem numbered_tableBehind (declared : Registry) (history : List (Bindings × String)) :
    Numbered (tableBehind declared history) := by
  induction history with
  | nil => exact numbered_nil
  | cons call earlier ih =>
    exact (grows_inScope declared call.1 call.2.toList (tableBehind declared earlier) ih).1

/-- **Decoding ends and never faults**, in every session and every scope, on all texts with no more
bytes than a signed 32-bit word can count. Decoding by offsets checks that each round of replacing
let blocks takes a start away and makes none, that every part is smaller than its text, that every
loop moves its cursor on, that texts are sliced between characters and that each placeholder is new.
It gives what decoding gives, so that no check ever fails, and what stood in the table before stands
there still. -/
theorem decoding_never_faults (declared : Registry) (history : List (Bindings × String))
    (scope : Bindings) {text : String} (hsize : (text.utf8ByteSize : Int) ≤ Int32.maxValue.toInt) :
    let blocks := tableBehind declared history
    let run := outcome (Offsets.inScope declared scope text.toList) blocks
    run.1 = refusing (outcome (inScope declared scope text.toList) blocks).1 ∧
      run.2 = (outcome (inScope declared scope text.toList) blocks).2 ∧
      (∀ what, run.1 ≠ .error (.fault what)) ∧
      ∀ name e, blocks.lookup name = some e → run.2.lookup name = some e := by
  intro blocks run
  have hblocks : Numbered blocks := numbered_tableBehind declared history
  have hfits := Offsets.parensFit_of_size hsize
  -- the run is that of decoding, where an error is never a fault
  have hrun : run = _ := Offsets.agrees_inScope declared scope text.toList hfits blocks hblocks
  obtain ⟨hnumbered, hgrown⟩ := grows_inScope declared scope text.toList blocks hblocks
  rw [hrun]
  refine ⟨rfl, rfl, fun what => ?_, fun name e hname => hnumbered.lookup_of_suffix hgrown hname⟩
  cases (outcome (inScope declared scope text.toList) blocks).1 with
  | error e =>
    intro h
    cases h
  | ok e =>
    intro h
    cases h

/-- A text with characters of two bytes and let blocks inside each other, behind a text that had
another let block and was refused. -/
theorem decoding_never_faults_accented :
    let declared := Registry.empty.insert ⟨"é", .integer⟩
    let history : List (Bindings × String) := [([], "(let ((y é)) (< y 1)) )")]
    let scope : Bindings := [("z", .integer 2)]
    let text := "(let ((b (let ((y |é|)) (+ y z))))\u00a0(<= b é))"
    let run := outcome (Offsets.inScope declared scope text.toList) (tableBehind declared history)
    (text.utf8ByteSize : Int) ≤ Int32.maxValue.toInt ∧
      run.1 = .ok (.compare .le (.arith .plus (.var ⟨"é", .integer⟩) (.integer 2))
        (.var ⟨"é", .integer⟩)) ∧
      run.2.map Prod.fst = ["#let2", "#let1", "#let0"] := by
  intro declared history scope text run
  have hsize : (text.utf8ByteSize : Int) ≤ Int32.maxValue.toInt := by decide
  obtain ⟨hresult, htable, -⟩ := decoding_never_faults declared history scope hsize
  have hdecoded : (outcome (inScope declared scope text.toList) (tableBehind declared history)).1
      = .ok (.compare .le (.arith .plus (.var ⟨"é", .integer⟩) (.integer 2))
        (.var ⟨"é", .integer⟩)) :=
    toOption_eq_some_iff.1 (by decide +kernel)
  refine ⟨hsize, ?_, ?_⟩
  · show run.1 = _
    rw [hresult, hdecoded]
    rfl
  · rw [htable]
    decide +kernel

end Interpolants
