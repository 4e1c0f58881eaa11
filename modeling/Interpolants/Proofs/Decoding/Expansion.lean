import Interpolants.Proofs.Decoding.Scoping
import Mathlib.Data.List.Forall2

/-!
# Interpolants — expanding let blocks

A let block only abbreviates: writing out what its names are bound to leaves a term without let
blocks that is decoded to the same formula. `Sexp.expand` puts the terms in place of the names,
under an environment of terms that are expanded already, so that no block further in captures a name
of theirs. What carries the induction is `Abbreviates`: a name of the scope stands for the value of
the term that is put in its place.
-/

namespace Interpolants

open Sexp

namespace Sexp

/-! ## Expanded terms -/

mutual

/-- A term with the terms of its let blocks in place of their names. The terms in `bound` are
expanded already. Heads of applications are left alone, and an application of `let` that is no let
block as a whole. -/
def expand (bound : List (String × Sexp)) : Sexp → Sexp
  | .atom (.symbol s) =>
    if s = "true" ∨ s = "false" then symbol s else (bound.lookup s).getD (symbol s)
  | .list (.atom (.symbol head) :: args) =>
    if head = "let" then
      match args with
      | [.list entries, body] => expand (expandEntries bound [] entries ++ bound) body
      | _ => app head args
    else app head (expandAll bound args)
  | .list (head :: args) => .list (head :: expandAll bound args)
  | t => t

def expandAll (bound : List (String × Sexp)) : List Sexp → List Sexp
  | [] => []
  | t :: ts => expand bound t :: expandAll bound ts

/-- The expanded terms of a let block's entries, put before what is already in `inner`. All of them
are expanded in the environment of the block. -/
def expandEntries (bound inner : List (String × Sexp)) : List Sexp → List (String × Sexp)
  | .list [.atom name, t] :: entries =>
    expandEntries bound ((name.name, expand bound t) :: inner) entries
  | _ => inner

end

/-- Expansion goes on to the arguments of anything but a let. -/
theorem expand_app {bound : List (String × Sexp)} {head : String} (hlet : head ≠ "let")
    (args : List Sexp) : (app head args).expand bound = app head (expandAll bound args) := by
  show expand bound (.list (.atom (.symbol head) :: args)) = _
  rw [expand.eq_def]
  exact if_neg hlet

/-- A let is expanded to its body, with the terms of its entries for their names. -/
theorem expand_let (bound : List (String × Sexp)) (entries : List Sexp) (body : Sexp) :
    (app "let" [.list entries, body]).expand bound
      = body.expand (expandEntries bound [] entries ++ bound) := by
  show expand bound (.list [.atom (.symbol "let"), .list entries, body]) = _
  rw [expand.eq_def]
  exact if_pos rfl

/-! ## Terms in place of names -/

/-- A minus sign before a numeral means no more than the operator applied to the numeral. -/
def SignApplies {α : Type} (I : Interpretation α) : Prop :=
  ∀ n a, I.numeral n = some a → I.negative n = I.apply "-" [a]

section

variable {α : Type}

/-- A term without let blocks that is spelled with some symbols and stands for a value. -/
structure WrittenOut (p : String → Prop) (I : Interpretation α) (env : Env α) (t : Sexp) (a : α) :
    Prop where
  spelled : t.Spelled p
  free : t.LetFree
  value : t.interpret I env = some a

/-- The same names are bound to values and to written-out terms that stand for them. -/
def Abbreviates (p : String → Prop) (I : Interpretation α) (env : Env α) :
    List (String × α) → List (String × Sexp) → Prop :=
  List.Forall₂ fun entry term => entry.1 = term.1 ∧ WrittenOut p I env term.2 entry.2

variable {p : String → Prop} {I : Interpretation α} {env : Env α}

/-- Entries of a block come before those of the blocks around it. -/
theorem Abbreviates.append {scope inner : List (String × α)} {bound bound' : List (String × Sexp)}
    (hinner : Abbreviates p I env inner bound') (h : Abbreviates p I env scope bound) :
    Abbreviates p I env (inner ++ scope) (bound' ++ bound) := by
  induction hinner with
  | nil => exact h
  | cons hentry _ ih => exact .cons hentry ih

/-- A name is bound to a value and to a term for it, or to neither. -/
theorem Abbreviates.lookup {scope : List (String × α)} {bound : List (String × Sexp)}
    (h : Abbreviates p I env scope bound) (name : String) :
    (scope.lookup name = none ∧ bound.lookup name = none) ∨
      ∃ a t, scope.lookup name = some a ∧ bound.lookup name = some t ∧ WrittenOut p I env t a := by
  induction h with
  | nil => exact Or.inl ⟨rfl, rfl⟩
  | @cons entry term scope bound hentry _ ih =>
    obtain ⟨hname, hterm⟩ := hentry
    rw [List.lookup_cons, List.lookup_cons, hname]
    cases name == term.1 with
    | true => exact Or.inr ⟨_, _, rfl, rfl, hterm⟩
    | false => exact ih

/-- Operands are written out one by one. -/
theorem interpretAll_of_writtenOut {args : List Sexp} {as : List α}
    (h : List.Forall₂ (WrittenOut p I env) args as) : interpretAll I env args = some as := by
  induction h with
  | nil => rfl
  | cons ht _ ih => rw [interpretAll, ht.value, ih]; rfl

/-- Each argument of an application that stands for something does so itself. -/
theorem exists_writtenOut_of_mem {args : List Sexp} {as : List α}
    (h : List.Forall₂ (WrittenOut p I env) args as) {t : Sexp} (ht : t ∈ args) :
    ∃ a, WrittenOut p I env t a := by
  induction h with
  | nil => cases ht
  | cons hfirst _ ih =>
    rcases List.mem_cons.1 ht with rfl | ht
    · exact ⟨_, hfirst⟩
    · exact ih ht

/-- What an operator is applied to is written out if its operands are. -/
theorem writtenOut_app (hI : SignApplies I) {head : String} (hhead : p head) (hlet : head ≠ "let")
    {args : List Sexp} {as : List α} (hargs : List.Forall₂ (WrittenOut p I env) args as) {a : α}
    (ha : I.apply head as = some a) : WrittenOut p I env (app head args) a := by
  have hitem : ∀ t ∈ args, ∃ b, WrittenOut p I env t b := fun t => exists_writtenOut_of_mem hargs
  refine ⟨.list ?_, .list ?_ ?_, ?_⟩
  · intro t ht
    rcases List.mem_cons.1 ht with rfl | ht
    · exact .symbol hhead
    · exact (hitem t ht).choose_spec.spelled
  · cases args with
    | nil => rfl
    | cons => exact beq_false_of_ne hlet
  · intro t ht
    rcases List.mem_cons.1 ht with rfl | ht
    · exact .atom _
    · exact (hitem t ht).choose_spec.free
  · have hall := interpretAll_of_writtenOut hargs
    rw [interpret_app hlet]
    cases hmagnitude : magnitude? head args with
    | none => exact Option.bind_eq_some_iff.2 ⟨as, hall, ha⟩
    | some n =>
      -- the numeral may stand in the place of a name
      obtain ⟨rfl, rfl⟩ := magnitude?_eq_some_iff.1 hmagnitude
      cases hargs with
      | cons ht hrest =>
        cases hrest
        rw [← ha]
        exact hI n _ ht.value

/-- A name is written out as the term that it is bound to, or stays. -/
theorem writtenOut_symbol {scope : List (String × α)} {bound : List (String × Sexp)}
    (h : Abbreviates p I env scope bound) {s : String} (hs : (symbol s).Spelled p) {a : α}
    (ha : (symbol s).interpret I (env.extend scope) = some a) :
    WrittenOut p I env ((symbol s).expand bound) a := by
  rw [symbol, expand]
  by_cases htrue : s = "true"
  · subst htrue
    exact ⟨hs, .atom _, ha⟩
  by_cases hfalse : s = "false"
  · subst hfalse
    exact ⟨hs, .atom _, ha⟩
  rw [symbol, interpret, if_neg htrue, if_neg hfalse, Env.extend] at ha
  rw [if_neg (not_or.2 ⟨htrue, hfalse⟩)]
  -- a name that no let block binds stands for itself, any other for what it abbreviates
  rcases h.lookup s with ⟨hnone, hnone'⟩ | ⟨b, t, hsome, hsome', hb⟩
  · rw [hnone] at ha
    rw [hnone']
    refine ⟨hs, .atom _, ?_⟩
    show interpret I env (.atom (.symbol s)) = some a
    rw [interpret, if_neg htrue, if_neg hfalse]
    exact ha
  · rw [hsome] at ha
    cases ha
    rw [hsome']
    exact hb

/-- A signed numeral is a leaf of its own. -/
theorem writtenOut_negative {n : UInt64} {a : α} (hn : (app "-" [numeral n]).Spelled p)
    (ha : I.negative n = some a) : WrittenOut p I env (app "-" [numeral n]) a := by
  have hfree : ∀ t ∈ [symbol "-", numeral n], t.LetFree :=
    List.forall_mem_cons.2 ⟨.atom _, List.forall_mem_singleton.2 (.atom _)⟩
  exact ⟨hn, .list rfl hfree, ha⟩

mutual

/-- **A term that stands for a value is expanded to a written-out term for it.** -/
theorem writtenOut_expand (hI : SignApplies I) {scope : List (String × α)}
    {bound : List (String × Sexp)} (h : Abbreviates p I env scope bound) (t : Sexp)
    (ht : t.Spelled p) {a : α} (ha : t.interpret I (env.extend scope) = some a) :
    WrittenOut p I env (t.expand bound) a := by
  match t with
  | .atom (.numeral n) => exact ⟨ht, .atom _, ha⟩
  | .atom (.symbol s) => exact writtenOut_symbol h ht ha
  | .list (.atom (.symbol head) :: args) =>
    by_cases hlet : head = "let"
    · subst hlet
      match args with
      | [.list entries, body] =>
        -- the bound terms are expanded in the outer scope, the body under what they stand for
        have hitems := ht.of_list
        rw [← symbol, ← app, interpret_let] at ha
        obtain ⟨inner, hinner, ha⟩ := Option.bind_eq_some_iff.1 ha
        rw [← symbol, ← app, expand_let]
        have hentries :=
          abbreviates_expandEntries hI h entries (hitems (.list entries) (by simp)).of_list
          .nil hinner
        rw [← Env.extend_append] at ha
        exact writtenOut_expand hI (hentries.append h) body (hitems body (by simp)) ha
      | [] | [_] | [.atom _, _] | [.comment _, _] | _ :: _ :: _ :: _ =>
        rw [← symbol, ← app, interpret_let_eq_none (by rintro _ _ ⟨⟩)] at ha
        cases ha
    · have hitems := ht.of_list
      have hhead : p head := by cases hitems (.atom (.symbol head)) (by simp); assumption
      rw [← symbol, ← app, interpret_app hlet] at ha
      rw [← symbol, ← app, expand_app hlet]
      cases hmagnitude : magnitude? head args with
      | some n =>
        obtain ⟨rfl, rfl⟩ := magnitude?_eq_some_iff.1 hmagnitude
        rw [hmagnitude] at ha
        exact writtenOut_negative ht ha
      | none =>
        rw [hmagnitude] at ha
        obtain ⟨as, has, ha⟩ := Option.bind_eq_some_iff.1 ha
        have hargs := writtenOut_expandAll hI h args (fun t ht => hitems t (by simp [ht])) has
        exact writtenOut_app hI hhead hlet hargs ha
  | .list [] | .list (.atom (.numeral _) :: _) | .list (.comment _ :: _) | .list (.list _ :: _)
  | .comment _ => cases ha

/-- The arguments of an application are written out one by one. -/
theorem writtenOut_expandAll (hI : SignApplies I) {scope : List (String × α)}
    {bound : List (String × Sexp)} (h : Abbreviates p I env scope bound) (ts : List Sexp)
    (hts : ∀ t ∈ ts, t.Spelled p) {as : List α}
    (has : interpretAll I (env.extend scope) ts = some as) :
    List.Forall₂ (WrittenOut p I env) (expandAll bound ts) as := by
  match ts with
  | [] =>
    cases has
    exact .nil
  | t :: ts =>
    rw [interpretAll] at has
    obtain ⟨a, ha, has⟩ := Option.bind_eq_some_iff.1 has
    obtain ⟨as, hrest, has⟩ := Option.bind_eq_some_iff.1 has
    cases has
    exact .cons (writtenOut_expand hI h t (hts t (by simp)) ha)
      (writtenOut_expandAll hI h ts (fun t' ht' => hts t' (by simp [ht'])) hrest)

/-- The entries of a let block are expanded in the environment of the block. -/
theorem abbreviates_expandEntries (hI : SignApplies I) {scope : List (String × α)}
    {bound : List (String × Sexp)} (h : Abbreviates p I env scope bound)
    (ts : List Sexp) (hts : ∀ t ∈ ts, t.Spelled p) {rows inner : List (String × α)}
    {terms : List (String × Sexp)} (hrows : Abbreviates p I env rows terms)
    (hinner : interpretEntries I (env.extend scope) rows ts = some inner) :
    Abbreviates p I env inner (expandEntries bound terms ts) := by
  match ts with
  | [] =>
    cases hinner
    exact hrows
  | .list [.atom name, t] :: ts =>
    rw [interpretEntries] at hinner
    obtain ⟨a, ha, hinner⟩ := Option.bind_eq_some_iff.1 hinner
    have ht : t.Spelled p := (hts (.list [.atom name, t]) (by simp)).of_list t (by simp)
    -- a bound term is written out in the outer scope, as it is read there
    have hrow := writtenOut_expand hI h t ht ha
    rw [expandEntries]
    exact abbreviates_expandEntries hI h ts (fun t' ht' => hts t' (by simp [ht']))
      (.cons ⟨rfl, hrow⟩ hrows) hinner

end

end

end Sexp

/-! ## Decoding expanded terms -/

/-- The magnitude of the least signed word, which the minus sign is not simply applied to, is no
formula by itself: so no name stands for it. -/
theorem signApplies_formulas : SignApplies formulas := by
  intro n e he
  obtain ⟨i, hi, rfl⟩ := Option.map_eq_some_iff.1 he
  have hn : n ≠ Word.magnitude Int64.minValue := by
    rintro rfl
    rw [Word.signed?_eq_some_iff, Word.toNat_magnitude] at hi
    have := i.toInt_lt
    rw [hi] at this
    exact absurd this (by decide)
  show (if _ then _ else _) = _
  rw [if_neg hn, hi]
  rfl

/-- **Expanding the let blocks of a term does not change what it is decoded to**, and leaves
none. -/
theorem decode_expand (declared : Registry) {t : Sexp} (h : t.Spelled Printable) {e : Expr}
    (he : decode declared t.render = .ok e) :
    (t.expand []).LetFree ∧ decode declared (t.expand []).render = .ok e := by
  have hplain : t.Spelled Decode.Plain := h.mono fun _ hs => hs.plain
  rw [← toOption_eq_some_iff, toOption_decode hplain] at he
  have hexpanded : WrittenOut Decode.Plain formulas declared.environment (t.expand []) e :=
    writtenOut_expand signApplies_formulas .nil t hplain he
  refine ⟨hexpanded.free, ?_⟩
  rw [← toOption_eq_some_iff, toOption_decode hexpanded.spelled]
  exact hexpanded.value

/-- A name for a numeral behind a minus sign, two names that hide declared variables, one of them in
the term that the other stands for, and a let block inside a bound term. -/
theorem decode_expand_hidden :
    let declared := (Registry.empty.insert ⟨"x", .integer⟩).insert ⟨"y", .integer⟩
    let t := Sexp.app "let" [
      .list [.list [.symbol "y", .app "+" [.symbol "x", .symbol "y"]],
        .list [.symbol "n", .app "let" [.list [.list [.symbol "m", .numeral 5]], .symbol "m"]]],
      .app "let" [
        .list [.list [.symbol "x", .app "-" [.symbol "n"]]],
        .app "<" [.symbol "x", .symbol "y"]]]
    let expanded := Sexp.app "<" [.app "-" [.numeral 5], .app "+" [.symbol "x", .symbol "y"]]
    let e := Expr.compare .lt (.minus (.integer 5))
      (.arith .plus (.var ⟨"x", .integer⟩) (.var ⟨"y", .integer⟩))
    t.Spelled Printable ∧ decode declared t.render = .ok e ∧ t.expand [] = expanded ∧
      decode declared expanded.render = .ok e := by
  intro declared t expanded e
  have hspelled : t.Spelled Printable := by decide +kernel
  have hdecode : decode declared t.render = .ok e := toOption_eq_some_iff.1 (by decide +kernel)
  have hexpand : t.expand [] = expanded := by decide +kernel
  refine ⟨hspelled, hdecode, hexpand, ?_⟩
  rw [← hexpand]
  exact (decode_expand declared hspelled hdecode).2

end Interpolants
