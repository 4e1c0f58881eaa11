import Interpolants.Proofs.Decoding.Reading
import Interpolants.Proofs.Decoding.Table
import Interpolants.Proofs.Encoding.Term

/-!
# Interpolants — what decoding can give

Whatever the text, and whatever was decoded before in the session, a formula that decoding gives is
made of declared variables, literals and the operators that solvers use: it is `Decoded`. Names of
let blocks and placeholders stand for formulas that were decoded themselves. So the invariant is
that all formulas of the scope and of the table of blocks are decoded ones; a term is read from them
(`decoded_of_term`), and each step of resolving let blocks keeps it (`Decode.Yields`).
-/

namespace Interpolants

/-- A formula that decoding can give over some declared variables. Integers are not negative, apart
from the least word, and connectives are those that have a name in terms. -/
inductive Decoded (declared : Registry) : Expr → Prop where
  | var {name : String} {x : Variable} (h : declared.find? name = some x) :
      Decoded declared (.var x)
  | literal (b : Bool) : Decoded declared (.literal b)
  | integer {i : Int64} (h : 0 ≤ i.toInt ∨ i = Int64.minValue) : Decoded declared (.integer i)
  | negation {e : Expr} (h : Decoded declared e) : Decoded declared (.negation e)
  | minus {e : Expr} (h : Decoded declared e) : Decoded declared (.minus e)
  | compare (op : Comparison) {left right : Expr} (hl : Decoded declared left)
      (hr : Decoded declared right) : Decoded declared (.compare op left right)
  | arith (op : Arith) {left right : Expr} (hl : Decoded declared left)
      (hr : Decoded declared right) : Decoded declared (.arith op left right)
  | logic {op : Connective} {head : String} (hhead : op.head? = some head) {left right : Expr}
      (hl : Decoded declared left) (hr : Decoded declared right) :
      Decoded declared (.logic op left right)

namespace Decoded

variable {declared : Registry} {e l r : Expr} {es : List Expr}

/-- Each variable of a decoded formula is the declared one of its name. -/
theorem find?_of_mem_vars (h : Decoded declared e) :
    ∀ x ∈ e.vars, declared.find? x.name = some x := by
  induction h with
  | var h =>
    intro x hx
    rw [List.mem_singleton.1 hx]
    rwa [Registry.name_of_find? h]
  | literal | integer => nofun
  | negation _ ih | minus _ ih => exact ih
  | compare _ _ _ ihl ihr | arith _ _ _ ihl ihr | logic _ _ _ ihl ihr =>
    intro x hx
    rcases List.mem_append.1 hx with hx | hx
    · exact ihl x hx
    · exact ihr x hx

/-! ## Applications -/

/-- An equality or an equivalence of decoded formulas is one. -/
theorem equal (hl : Decoded declared l) (hr : Decoded declared r) :
    Decoded declared (.equal l r) := by
  rw [Expr.equal]
  split
  · exact hl.logic rfl hr
  · exact hl.compare .eq hr

/-- So is the negation of either. -/
theorem differ (hl : Decoded declared l) (hr : Decoded declared r) :
    Decoded declared (.differ l r) := by
  rw [Expr.differ]
  split
  · exact (hl.logic rfl hr).negation
  · exact hl.compare .ne hr

/-- Operands joined to the left by an operator are decoded if the operator keeps decoded operands
so. -/
theorem foldl {build : Expr → Expr → Expr}
    (hbuild : ∀ {l r}, Decoded declared l → Decoded declared r → Decoded declared (build l r))
    (h : Decoded declared e) (hes : ∀ e ∈ es, Decoded declared e) :
    Decoded declared (es.foldl build e) := by
  induction es generalizing e with
  | nil => exact h
  | cons e' es ih =>
    obtain ⟨he', hes⟩ := List.forall_mem_cons.1 hes
    exact ih (hbuild h he') hes

/-- A conjunction or a disjunction of decoded formulas is decoded, also if there are none. -/
theorem join {op : Connective} {head : String} (hhead : op.head? = some head) {unit : Expr}
    (hunit : Decoded declared unit) (hes : ∀ e ∈ es, Decoded declared e) :
    Decoded declared (Expr.join op unit es) := by
  cases es with
  | nil => exact hunit
  | cons e es =>
    obtain ⟨he, hes⟩ := List.forall_mem_cons.1 hes
    exact he.foldl (fun hl hr => .logic hhead hl hr) hes

theorem conj (hes : ∀ e ∈ es, Decoded declared e) : Decoded declared (.conj es) :=
  join rfl (.literal true) hes

theorem disj (hes : ∀ e ∈ es, Decoded declared e) : Decoded declared (.disj es) :=
  join rfl (.literal false) hes

/-- So is a sum, a difference or a product of several operands. -/
theorem chain (op : Arith) (hes : ∀ e ∈ es, Decoded declared e) :
    Decoded declared (.chain op es) := by
  cases es with
  | nil => exact .literal true
  | cons e es =>
    obtain ⟨he, hes⟩ := List.forall_mem_cons.1 hes
    exact he.foldl (fun hl hr => .arith op hl hr) hes

/-- Operands that are compared one with the next are decoded. -/
theorem neighbours (hes : ∀ e ∈ es, Decoded declared e) :
    ∀ p ∈ Expr.neighbours es, Decoded declared p.1 ∧ Decoded declared p.2 := by
  intro p hp
  obtain ⟨hl, hr⟩ := List.of_mem_zip hp
  exact ⟨hes _ hl, hes _ (List.mem_of_mem_drop hr)⟩

/-- Operands that are compared each with all later ones are decoded. -/
theorem pairs (hes : ∀ e ∈ es, Decoded declared e) :
    ∀ p ∈ Expr.pairs es, Decoded declared p.1 ∧ Decoded declared p.2 := by
  induction es with
  | nil => nofun
  | cons e es ih =>
    obtain ⟨he, hes⟩ := List.forall_mem_cons.1 hes
    intro p hp
    rcases List.mem_append.1 hp with hp | hp
    · obtain ⟨later, hlater, rfl⟩ := List.mem_map.1 hp
      exact ⟨he, hes later hlater⟩
    · exact ih hes p hp

/-- An operator makes a decoded formula of decoded operands. -/
theorem apply {op : Operator} (h : op.apply es = .ok e) (hes : ∀ e ∈ es, Decoded declared e) :
    Decoded declared e := by
  have hequal : ∀ f ∈ (Expr.neighbours es).map fun p => Expr.equal p.1 p.2, Decoded declared f := by
    intro f hf
    obtain ⟨p, hp, rfl⟩ := List.mem_map.1 hf
    exact (neighbours hes p hp).1.equal (neighbours hes p hp).2
  have hdiffer : ∀ f ∈ (Expr.pairs es).map fun p => Expr.differ p.1 p.2, Decoded declared f := by
    intro f hf
    obtain ⟨p, hp, rfl⟩ := List.mem_map.1 hf
    exact (pairs hes p hp).1.differ (pairs hes p hp).2
  -- an operator that takes enough operands of any number
  have henough : ∀ {n : Nat} {f : Expr}, Decoded declared f →
      (if n ≤ es.length then Except.ok f else .error (Operands.atLeast n)) = .ok e →
      Decoded declared e := by
    intro n f hf h
    split at h
    · cases h
      exact hf
    · cases h
  unfold Operator.apply at h
  split at h
  case h_1 l r =>
    cases h
    exact (hes l (by simp)).equal (hes r (by simp))
  case h_2 => exact henough (conj hequal) h
  case h_3 => exact henough (conj hdiffer) h
  case h_4 op l r =>
    cases h
    exact (hes l (by simp)).compare op (hes r (by simp))
  case h_6 e =>
    cases h
    exact (hes e (by simp)).minus
  case h_7 => exact henough (chain .minus hes) h
  case h_8 => exact henough (chain .plus hes) h
  case h_9 => exact henough (chain .mul hes) h
  case h_10 l r =>
    cases h
    exact (hes l (by simp)).arith .div (hes r (by simp))
  case h_12 l r =>
    cases h
    exact (hes l (by simp)).arith .rem (hes r (by simp))
  case h_14 => exact henough (conj hes) h
  case h_15 => exact henough (disj hes) h
  case h_16 e =>
    cases h
    exact (hes e (by simp)).negation
  -- the wrong number of operands
  all_goals cases h

/-- **What an operator makes of decoded operands is decoded.** -/
theorem applyNamed {name : String} (h : Interpolants.applyNamed name es = .ok e)
    (hes : ∀ e ∈ es, Decoded declared e) : Decoded declared e := by
  unfold Interpolants.applyNamed at h
  split at h
  · cases h
  · split at h
    · next happly =>
      cases h
      exact apply happly hes
    · cases h

end Decoded

/-! ## Terms without let blocks -/

/-- All formulas that some names are bound to are decoded ones. -/
def AllDecoded (declared : Registry) (bindings : Bindings) : Prop :=
  ∀ entry ∈ bindings, Decoded declared entry.2

theorem allDecoded_nil {declared : Registry} : AllDecoded declared [] :=
  nofun

/-- What a table of decoded formulas gives for a name is one of them. -/
theorem AllDecoded.lookup {declared : Registry} {bindings : Bindings}
    (h : AllDecoded declared bindings) {name : String} {e : Expr}
    (hname : bindings.lookup name = some e) : Decoded declared e := by
  induction bindings with
  | nil => cases hname
  | cons entry bindings ih =>
    obtain ⟨hentry, hrest⟩ := List.forall_mem_cons.1 h
    rw [List.lookup_cons] at hname
    split at hname
    · cases hname
      exact hentry
    · exact ih hrest hname

section

variable {names : Names} {e : Expr} {c c' : Cursor}

/-- A name stands for a decoded formula, whether a let block, the table of blocks or the registry
has it. -/
theorem decoded_of_find? (hscope : AllDecoded names.declared names.scope)
    (hblocks : AllDecoded names.declared names.blocks) {name : String}
    (h : names.find? name = some e) :
    Decoded names.declared e := by
  unfold Names.find? at h
  split at h
  · next hlookup =>
    cases h
    exact hscope.lookup hlookup
  · split at h
    · next hlookup =>
      cases h
      exact hblocks.lookup hlookup
    · obtain ⟨x, hx, rfl⟩ := Option.map_eq_some_iff.1 h
      exact .var hx

/-- A leaf is a decoded formula. -/
theorem decoded_of_leaf (hscope : AllDecoded names.declared names.scope)
    (hblocks : AllDecoded names.declared names.blocks) {token : List Char}
    (h : LeafRead names token e) :
    Decoded names.declared e := by
  cases h with
  | yes => exact .literal true
  | no => exact .literal false
  | numeral _ hword =>
    rw [Word.signed?_eq_some_iff] at hword
    exact .integer (.inl (by omega))
  | name _ _ _ hfind => exact decoded_of_find? hscope hblocks hfind

/-- All operands are decoded if each term is that is read. -/
theorem decoded_of_operands {read : Cursor → Except DecodeError (Expr × Cursor)}
    (hread : ∀ {c e c'}, read c = .ok (e, c') → Decoded names.declared e) {es : List Expr}
    (h : OperandsRead read c es c') : ∀ e ∈ es, Decoded names.declared e := by
  induction h with
  | close => nofun
  | more hfirst _ ih => exact List.forall_mem_cons.2 ⟨hread hfirst, ih⟩

/-- A term is made of what its names stand for. -/
theorem decoded_of_term (hscope : AllDecoded names.declared names.scope)
    (hblocks : AllDecoded names.declared names.blocks) {depth : Nat}
    (h : term names depth c = .ok (e, c')) : Decoded names.declared e := by
  induction depth generalizing c e c' with
  | zero => cases h
  | succ depth ih =>
    cases termRead_of_term h with
    | leaf _ _ hleaf => exact decoded_of_leaf hscope hblocks hleaf
    | leastWord => exact .integer (.inr rfl)
    | application _ _ _ hoperands happly =>
      exact .applyNamed happly (decoded_of_operands ih hoperands)

/-- A text without let blocks is decoded to such a formula. -/
theorem decoded_of_wholeTerm (hscope : AllDecoded names.declared names.scope)
    (hblocks : AllDecoded names.declared names.blocks) {text : List Char}
    (h : wholeTerm names text = .ok e) : Decoded names.declared e := by
  obtain ⟨c, hterm, -⟩ := exists_term_of_wholeTerm h
  exact decoded_of_term hscope hblocks hterm

end

/-! ## Resolving let blocks -/

namespace Decode

variable {declared : Registry} {α β : Type} {P : α → Prop} {Q : β → Prop}

/-- From a table of decoded formulas a step leaves such a table, and what it gives is as wanted. -/
def Yields (declared : Registry) (step : Decode α) (P : α → Prop) : Prop :=
  ∀ blocks, AllDecoded declared blocks →
    AllDecoded declared (outcome step blocks).2 ∧ ∀ a, (outcome step blocks).1 = .ok a → P a

theorem yields_pure {a : α} (h : P a) : Yields declared (pure a : Decode α) P := by
  intro blocks hblocks
  refine ⟨hblocks, fun a' ha' => ?_⟩
  cases ha'
  exact h

theorem yields_throw (e : DecodeError) : Yields declared (throw e : Decode α) P :=
  fun _ hblocks => ⟨hblocks, nofun⟩

/-- What a step yields is handed to the next, which keeps the table as it is required to be. -/
theorem yields_bind {step : Decode α} {next : α → Decode β} (hstep : Yields declared step P)
    (hnext : ∀ a, P a → Yields declared (next a) Q) : Yields declared (step >>= next) Q := by
  intro blocks hblocks
  obtain ⟨hkept, hgiven⟩ := hstep blocks hblocks
  rcases hs : outcome step blocks with ⟨e | a, blocks'⟩
  · rw [hs] at hkept
    rw [outcome_bind_of_error hs]
    exact ⟨hkept, nofun⟩
  · rw [hs] at hkept hgiven
    rw [outcome_bind_of_ok hs]
    exact hnext a (hgiven a rfl) blocks' hkept

/-- A decoded formula may be entered into the table. -/
theorem yields_enter {body : Expr} (h : Decoded declared body) :
    Yields declared (enter body) fun _ => True :=
  fun _ hblocks => ⟨List.forall_mem_cons.2 ⟨h, hblocks⟩, fun _ _ => trivial⟩

/-- A text without let blocks yields a decoded formula and leaves the table. -/
theorem yields_plain {scope : Bindings} (hscope : AllDecoded declared scope) (text : List Char) :
    Yields declared (plain declared scope text) (Decoded declared) := by
  intro blocks hblocks
  rw [outcome_plain]
  exact ⟨hblocks, fun e he => decoded_of_wholeTerm hscope hblocks he⟩

/-- The entries of a let block yield a scope of decoded formulas. -/
theorem yields_bindAll {decode : List Char → Decode Expr}
    (hdecode : ∀ part, Yields declared (decode part) (Decoded declared)) {inner : Bindings}
    (hinner : AllDecoded declared inner) (entries : List (String × List Char)) :
    Yields declared (bindAll decode inner entries) (AllDecoded declared) := by
  induction entries generalizing inner with
  | nil => exact yields_pure hinner
  | cons entry entries ih =>
    exact yields_bind (hdecode entry.2) fun e he => ih (List.forall_mem_cons.2 ⟨he, hinner⟩)

/-- A let block yields a decoded formula if its parts do. -/
theorem yields_block {decode : Bindings → List Char → Decode Expr}
    (hdecode : ∀ inner part, AllDecoded declared inner →
      Yields declared (decode inner part) (Decoded declared)) {scope : Bindings}
    (hscope : AllDecoded declared scope) (text : List Char) :
    Yields declared (block decode scope text) (Decoded declared) := by
  refine yields_bind (yields_bindAll (hdecode scope · hscope) hscope _) fun inner hinner => ?_
  cases (LetBlock.ofText text).body with
  | error e => exact yields_throw e
  | ok body => exact hdecode inner body hinner

/-- Resolving the let blocks of a text enters decoded formulas only. -/
theorem yields_resolve (fuel : Nat) {scope : Bindings} (hscope : AllDecoded declared scope)
    (text : List Char) : Yields declared (resolve declared fuel scope text) fun _ => True := by
  -- as for the growth of the table: the fuel bounds the rounds, which are made of such steps
  induction fuel generalizing scope text with
  | zero => exact yields_pure trivial
  | succ fuel ih =>
    rw [resolve_succ, round]
    split
    · exact yields_pure trivial
    · split
      · exact yields_throw _
      · refine yields_bind (yields_block (fun inner part hinner => ?_) hscope _)
          fun body hbody => ?_
        · exact yields_bind (ih hinner part) fun text _ => yields_plain hinner text
        · exact yields_bind (yields_enter hbody) fun key _ => ih hscope _

/-- **A text yields a decoded formula in any scope of such formulas.** -/
theorem yields_inScope {scope : Bindings} (hscope : AllDecoded declared scope) (text : List Char) :
    Yields declared (inScope declared scope text) (Decoded declared) :=
  yields_bind (yields_resolve _ hscope text) fun text _ => yields_plain hscope text

end Decode

/-- **Decoding fabricates nothing.** Whatever the texts decoded in one session, a formula that one
of them gives is made of declared variables, literals and the operators of terms. -/
theorem decoded_of_decodeEachFrom {declared : Registry} {blocks : Bindings}
    (hblocks : AllDecoded declared blocks) {texts : List String} {e : Expr}
    (h : .ok e ∈ decodeEachFrom declared blocks texts) : Decoded declared e := by
  induction texts generalizing blocks with
  | nil => cases h
  | cons text texts ih =>
    obtain ⟨hkept, hgiven⟩ := Decode.yields_inScope allDecoded_nil text.toList blocks hblocks
    rcases List.mem_cons.1 h with h | h
    · exact hgiven e h.symm
    · exact ih hkept h

/-- So does each text of a list. -/
theorem decoded_of_decodeEach {declared : Registry} {texts : List String} {e : Expr}
    (h : .ok e ∈ decodeEach declared texts) : Decoded declared e :=
  decoded_of_decodeEachFrom allDecoded_nil h

end Interpolants
