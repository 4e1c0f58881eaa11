import Interpolants.Proofs.Encoding.Session

/-!
# Interpolants — what encoding checks

Encoding checks what it meets in a formula from left to right (`Expr.encounters`) and stops at the
first fault. What is at fault depends on the types under which names are known: the declared
variables of the session, and for other names the variable that was visited first
(`Registry.known?`). The state of the session is not looked at otherwise, so everything here holds
from any state.

## The architecture

* **`fault?`** — what is wrong with one thing that is met.
* **`Faultless`** — nothing is wrong with a list of them, each seen behind those before it.
* **`outcome_meet_of_faultless`** — a faultless walk declares the new variables among those visited.
* **`faultless_iff`** — the same without an order: no obstacle, and each variable has the type under
  which its name is known.
-/

namespace Interpolants

/-! ## Faults -/

/-- The variables among what is met. -/
def visited (es : List Encounter) : List Variable :=
  es.filterMap Except.toOption

/-- What is visited in two parts is visited in the first and then in the second. -/
theorem visited_append (es es' : List Encounter) :
    visited (es ++ es') = visited es ++ visited es' :=
  List.filterMap_append

theorem mem_visited {es : List Encounter} {v : Variable} : v ∈ visited es ↔ .ok v ∈ es := by
  rw [visited, List.mem_filterMap]
  constructor
  · rintro ⟨x, hx, hv⟩
    rwa [← toOption_eq_some_iff.1 hv]
  · intro h
    exact ⟨.ok v, h, rfl⟩

/-- The variable under which a name is known: the declared one or, if there is none, the first of
some others. -/
def Registry.known? (r : Registry) (others : List Variable) (name : String) : Option Variable :=
  (r.find? name).or (others.find? (·.name == name))

/-- What is wrong with something that is met behind some variables. A name that is known under
another type is refused for that, also if the new type is no sort. -/
def fault? (r : Registry) (before : List Variable) : Encounter → Option EncodeError
  | .error e => some e
  | .ok v =>
    match r.known? before v.name with
    | some known => if known.ty = v.ty then none else some (.conflict v.name known.ty v.ty)
    | none => if v.ty.sort?.isSome then none else some (.variableType v)

/-- Nothing that is met is at fault where it is met. -/
def Faultless (r : Registry) (es : List Encounter) : Prop :=
  ∀ before x behind, es = before ++ x :: behind → fault? r (visited before) x = none

section

variable {r : Registry} {es : List Encounter}

theorem faultless_nil (r : Registry) : Faultless r [] := by
  intro before x behind h
  simp at h

/-- A visit is faultless up to some variable if it is up to the one before, and this one is not at
fault. -/
theorem faultless_concat {x : Encounter} :
    Faultless r (es ++ [x]) ↔ Faultless r es ∧ fault? r (visited es) x = none := by
  constructor
  · intro h
    refine ⟨fun before y behind heq => h before y (behind ++ [x]) ?_, h es x [] rfl⟩
    rw [heq, List.append_assoc, List.cons_append]
  · rintro ⟨hes, hx⟩ before y behind heq
    rcases List.eq_nil_or_concat behind with rfl | ⟨behind, z, rfl⟩
    · obtain ⟨rfl, hxy⟩ := List.append_inj' heq rfl
      rwa [← List.head_eq_of_cons_eq hxy]
    · rw [List.concat_eq_append, ← List.cons_append, ← List.append_assoc] at heq
      exact hes before y behind (List.append_inj' heq rfl).1

/-- What is not faultless has a first fault. -/
theorem exists_first_fault (h : ¬ Faultless r es) :
    ∃ before x behind error, es = before ++ x :: behind ∧ Faultless r before ∧
      fault? r (visited before) x = some error := by
  induction es using List.reverseRecOn with
  | nil => exact absurd (faultless_nil r) h
  | append_singleton es x ih =>
    by_cases hes : Faultless r es
    · cases hx : fault? r (visited es) x with
      | none => exact absurd (faultless_concat.2 ⟨hes, hx⟩) h
      | some error => exact ⟨es, x, [], error, rfl, hes, hx⟩
    · obtain ⟨before, y, behind, error, rfl, hbefore, hy⟩ := ih hes
      refine ⟨before, y, behind ++ [x], error, ?_, hbefore, hy⟩
      rw [List.append_assoc, List.cons_append]

/-! ## Faults without an order -/

/-- A name that is known stays known as it is when more variables are visited. -/
theorem Registry.known?_append {before : List Variable} {name : String} {v : Variable}
    (h : r.known? before name = some v) (behind : List Variable) :
    r.known? (before ++ behind) name = some v := by
  rw [known?] at h ⊢
  rw [List.find?_append, ← Option.or_assoc, h, Option.some_or]

/-- A new name is known as the first variable visited under it. -/
theorem Registry.known?_append_of_none {before : List Variable} {v : Variable}
    (h : r.known? before v.name = none) (behind : List Variable) :
    r.known? (before ++ v :: behind) v.name = some v := by
  rw [known?, List.find?_append, ← Option.or_assoc]
  rw [known?] at h
  rw [h, Option.none_or, List.find?_cons_of_pos (by simp)]

/-- The type of a variable has a sort: it is boolean or an integer. -/
theorem Ty.sort?_isSome_iff {t : Ty} : t.sort?.isSome = true ↔ t = .bool ∨ ∃ b, t = .int b := by
  cases t <;> simp [sort?]

/-- **Variables visited without a fault have sorts.** -/
theorem Faultless.sorts (h : Faultless r es) (hr : ∀ w ∈ r.entries, w.ty.sort?.isSome = true) :
    ∀ v ∈ visited es, v.ty.sort?.isSome = true := by
  induction es using List.reverseRecOn with
  | nil => nofun
  | append_singleton es x ih =>
    obtain ⟨hes, hx⟩ := faultless_concat.1 h
    intro v hv
    rw [visited_append, List.mem_append] at hv
    rcases hv with hv | hv
    · exact ih hes v hv
    · obtain rfl : .ok v = x := List.mem_singleton.1 (mem_visited.1 hv)
      rw [fault?] at hx
      split at hx
      · next known hknown =>
        -- the variable that the name is known for has a sort, and this one is of the same type
        split at hx
        · next hty =>
          rw [← hty]
          rcases Option.or_eq_some_iff.1 hknown with hdeclared | ⟨-, hbefore⟩
          · exact hr known (List.mem_of_find?_eq_some hdeclared)
          · exact ih hes known (List.mem_of_find?_eq_some hbefore)
        · cases hx
      · split at hx
        · assumption
        · cases hx

/-- **A walk is faultless** if there is no obstacle and each variable that it visits has a sort and
the type under which its name is known, be it declared or visited first. -/
theorem faultless_iff (hr : ∀ w ∈ r.entries, w.ty.sort?.isSome = true) :
    Faultless r es ↔ (∀ error, .error error ∉ es) ∧ ∀ v ∈ visited es,
      v.ty.sort?.isSome = true ∧ (r.known? (visited es) v.name).map Variable.ty = some v.ty := by
  constructor
  · refine fun h => ⟨fun error herror => ?_, fun v hv => ⟨h.sorts hr v hv, ?_⟩⟩
    · obtain ⟨before, behind, heq⟩ := List.append_of_mem herror
      cases h before _ behind heq
    · obtain ⟨before, behind, rfl⟩ := List.append_of_mem (mem_visited.1 hv)
      have hfault := h before _ behind rfl
      rw [visited_append]
      rw [fault?] at hfault
      split at hfault
      · next known hknown =>
        rw [Registry.known?_append hknown]
        split at hfault
        · next hty => exact congrArg some hty
        · cases hfault
      · next hunknown =>
        have hfirst := Registry.known?_append_of_none hunknown (visited behind)
        exact congrArg (Option.map Variable.ty) hfirst
  · rintro ⟨hclear, hall⟩ before x behind rfl
    rcases x with error | v
    · exact absurd (List.mem_append_right _ List.mem_cons_self) (hclear error)
    obtain ⟨hsort, hknown⟩ := hall v (mem_visited.2 (List.mem_append_right _ List.mem_cons_self))
    rw [fault?]
    -- a name that is known before the visit keeps its type, and one that is not needs a sort
    cases hbefore : r.known? (visited before) v.name with
    | some known =>
      rw [visited_append, Registry.known?_append hbefore] at hknown
      exact if_pos (Option.some.inj hknown)
    | none => exact if_pos hsort

end

/-! ## What a walk does to a session -/

/-- The variables among some that a registry does not know, each once. -/
def Registry.unknown (r : Registry) (vs : List Variable) : List Variable :=
  (vs.filter fun v => (r.find? v.name).isNone).eraseDups

/-- A session in which the new ones among some variables have been declared as well. -/
def Encoder.declaring (enc : Encoder) (vs : List Variable) : Encoder where
  declared := ⟨enc.declared.entries ++ enc.declared.unknown vs⟩
  sent := enc.sent ++ (enc.declared.unknown vs).flatMap Variable.commands

section

variable {enc : Encoder} {vs : List Variable} {es : List Encounter}

theorem Encoder.declaring_nil (enc : Encoder) : enc.declaring [] = enc := by
  simp [declaring, Registry.unknown]

/-- A new name is found among the unknown variables as among all. -/
theorem Registry.find?_unknown {r : Registry} {name : String} (h : r.find? name = none)
    (vs : List Variable) : (r.unknown vs).find? (·.name == name) = vs.find? (·.name == name) := by
  rw [unknown, find?_eraseDups, List.find?_filter]
  congr 1
  funext v
  by_cases hv : v.name = name
  · simp [hv, h]
  · simp [hv]

/-- What a session knows then is what was known before or visited. -/
theorem Encoder.find?_declaring (enc : Encoder) (vs : List Variable) (name : String) :
    (enc.declaring vs).declared.find? name = enc.declared.known? vs name := by
  have happend : (enc.declaring vs).declared.find? name
      = (enc.declared.find? name).or ((enc.declared.unknown vs).find? (·.name == name)) :=
    List.find?_append
  rw [happend, Registry.known?]
  cases hfind : enc.declared.find? name with
  | some known => rfl
  | none => rw [Option.none_or, Option.none_or, Registry.find?_unknown hfind]

/-- A known variable changes nothing. -/
theorem Encoder.declaring_concat_of_known {v known : Variable}
    (h : enc.declared.known? vs v.name = some known) (hty : known.ty = v.ty) :
    enc.declaring (vs ++ [v]) = enc.declaring vs := by
  have hunknown : enc.declared.unknown (vs ++ [v]) = enc.declared.unknown vs := by
    rw [Registry.unknown, List.filter_append, List.eraseDups_append]
    rcases Option.or_eq_some_iff.1 h with hdeclared | ⟨hnone, hbefore⟩
    · simp [hdeclared, List.removeAll, Registry.unknown]
    · -- a variable of this name and type was visited before
      obtain rfl : known = v := by
        obtain ⟨name, ty⟩ := known
        obtain ⟨name', ty'⟩ := v
        obtain rfl : name = name' := by simpa using List.find?_some hbefore
        cases hty
        rfl
      have hmem := List.mem_of_find?_eq_some hbefore
      simp [hnone, hmem, List.removeAll, Registry.unknown]
  rw [declaring, hunknown]
  rfl

/-- A new variable goes behind the others, and the session is told about it. -/
theorem Encoder.declaring_concat_of_new {v : Variable} {sort : String}
    (h : enc.declared.known? vs v.name = none) (hsort : v.ty.sort? = some sort) :
    (v.declaration sort).foldl send
        { enc.declaring vs with declared := (enc.declaring vs).declared.insert v }
      = enc.declaring (vs ++ [v]) := by
  have hunknown : enc.declared.unknown (vs ++ [v]) = enc.declared.unknown vs ++ [v] := by
    obtain ⟨hnone, hbefore⟩ := Option.or_eq_none_iff.1 h
    have hmem : v ∉ vs := fun hmem => by simpa using List.find?_eq_none.1 hbefore v hmem
    rw [Registry.unknown, List.filter_append, List.eraseDups_append]
    simp [hnone, hmem, List.removeAll, Registry.unknown, List.eraseDups_cons]
  -- no entry has the name, so none is forgotten
  have hkeep : (enc.declaring vs).declared.entries.filter (·.name != v.name)
      = (enc.declaring vs).declared.entries := by
    rw [← find?_declaring] at h
    exact List.filter_eq_self.2 fun w hw => by simpa using List.find?_eq_none.1 h w hw
  have hcommands : v.commands = v.declaration sort := by
    rw [Variable.commands, hsort]
    exact List.flatMap_singleton ..
  rw [foldl_send, Registry.insert, hkeep]
  simp only [declaring, hunknown, List.flatMap_append, List.flatMap_singleton, hcommands,
    List.append_assoc]

/-- **One encounter**: a fault is thrown and leaves the session as it is, and a variable without a
fault is declared if it is new. -/
theorem outcome_meet_one (enc : Encoder) (vs : List Variable) (x : Encounter) :
    outcome (meet x) (enc.declaring vs) = match fault? enc.declared vs x with
      | some error => (.error error, enc.declaring vs)
      | none => (.ok (), enc.declaring (vs ++ visited [x])) := by
  rcases x with error | v
  · rfl
  rw [meet, declare, outcome_bind_of_ok (outcome_get _)]
  simp only [Encoder.find?_declaring]
  rw [fault?]
  cases hknown : enc.declared.known? vs v.name with
  | some known =>
    -- a variable that is known is declared again under its own type only
    by_cases hty : known.ty = v.ty
    · have hsame := Encoder.declaring_concat_of_known hknown hty
      simp only [if_pos hty]
      exact Prod.ext rfl hsame.symm
    · simp only [if_neg hty]
      rfl
  | none =>
    cases hsort : v.ty.sort? with
    | none => rfl
    | some sort => exact Prod.ext rfl (Encoder.declaring_concat_of_new hknown hsort)

/-- **A faultless walk** declares the new variables among those that it visits. -/
theorem outcome_meet_of_faultless (h : Faultless enc.declared es) :
    outcome (forM es meet) enc = (.ok (), enc.declaring (visited es)) := by
  induction es using List.reverseRecOn with
  | nil =>
    have hnone : enc.declaring (visited []) = enc := enc.declaring_nil
    rw [hnone]
    rfl
  | append_singleton es x ih =>
    obtain ⟨hes, hx⟩ := faultless_concat.1 h
    rw [List.forM_append, outcome_bind_of_ok (ih hes), List.forM_cons, visited_append]
    have hmeet := outcome_meet_one enc (visited es) x
    rw [hx] at hmeet
    exact outcome_bind_of_ok hmeet _

/-- A walk stops at the first fault, in the session that the part before it leaves. -/
theorem outcome_meet_of_fault {x : Encounter} {error : EncodeError} (h : Faultless enc.declared es)
    (hx : fault? enc.declared (visited es) x = some error) (behind : List Encounter) :
    outcome (forM (es ++ x :: behind) meet) enc = (.error error, enc.declaring (visited es)) := by
  rw [List.forM_append, outcome_bind_of_ok (outcome_meet_of_faultless h), List.forM_cons]
  have hmeet := outcome_meet_one enc (visited es) x
  rw [hx] at hmeet
  exact outcome_bind_of_error hmeet _

end

/-! ## Formulas -/

/-- All variables that a session has declared have sorts. -/
theorem EncoderCall.sorts_after (calls : List EncoderCall) :
    ∀ w ∈ (after calls).declared.entries, w.ty.sort?.isSome = true := by
  intro w hw
  rw [after_eq] at hw
  obtain ⟨sort, hsort⟩ := (coherent_reached calls).sorts w (List.mem_eraseDups.1 hw)
  rw [hsort]
  rfl

/-- **What encoding accepts and how it fails**, in any session whose declared variables have sorts,
as they do after any calls (`EncoderCall.sorts_after`). A formula has a term exactly if nothing that
is met is an obstacle and each variable is boolean or an integer, of the type under which its name
is declared or, if it is not, was visited first; the new variables are then declared. Otherwise the
error is that of the first fault, and the new variables visited before it are declared. -/
theorem encode_checked (e : Expr) (enc : Encoder)
    (henc : ∀ w ∈ enc.declared.entries, w.ty.sort?.isSome = true) :
    ((∃ t, (outcome e.encode enc).1 = .ok t) ↔
      (∀ error, .error error ∉ e.encounters) ∧ ∀ v ∈ visited e.encounters,
        (v.ty = .bool ∨ ∃ b, v.ty = .int b) ∧
          (enc.declared.known? (visited e.encounters) v.name).map Variable.ty = some v.ty) ∧
    (∀ t enc', outcome e.encode enc = (.ok t, enc') →
      e.HasTerm t ∧ enc' = enc.declaring (visited e.encounters)) ∧
    ∀ error enc', outcome e.encode enc = (.error error, enc') ↔
      ∃ before x behind, e.encounters = before ++ x :: behind ∧ Faultless enc.declared before ∧
        fault? enc.declared (visited before) x = some error ∧
        enc' = enc.declaring (visited before) := by
  obtain ⟨t, hwalk⟩ := exists_encode_eq e
  -- encoding meets what the formula holds, from left to right, and only then builds the term
  have hpass : Faultless enc.declared e.encounters →
      outcome e.encode enc = (.ok t, enc.declaring (visited e.encounters)) := by
    intro h
    rw [hwalk, outcome_bind_of_ok (outcome_meet_of_faultless h)]
    rfl
  have hstop : ∀ {before x behind error}, e.encounters = before ++ x :: behind →
      Faultless enc.declared before → fault? enc.declared (visited before) x = some error →
      outcome e.encode enc = (.error error, enc.declaring (visited before)) := by
    intro before x behind error heq hbefore hx
    rw [hwalk, heq, outcome_bind_of_error (outcome_meet_of_fault hbefore hx behind)]
  have hclear : ∀ {t' enc'}, outcome e.encode enc = (.ok t', enc') →
      Faultless enc.declared e.encounters := by
    intro t' enc' h
    by_contra hfault
    obtain ⟨before, x, behind, error, heq, hbefore, hx⟩ := exists_first_fault hfault
    rw [hstop heq hbefore hx] at h
    cases h
  refine ⟨?_, fun t' enc' h => ⟨(encode_ok h).term, ?_⟩, fun error enc' => ⟨fun h => ?_, ?_⟩⟩
  · simp only [← Ty.sort?_isSome_iff]
    rw [← faultless_iff henc]
    constructor
    · rintro ⟨t', ht'⟩
      exact hclear (Prod.ext ht' rfl)
    · intro h
      exact ⟨t, congrArg Prod.fst (hpass h)⟩
  · rw [hpass (hclear h)] at h
    exact (congrArg Prod.snd h).symm
  · have hfault : ¬ Faultless enc.declared e.encounters := by
      intro hclear
      rw [hpass hclear] at h
      cases h
    obtain ⟨before, x, behind, error', heq, hbefore, hx⟩ := exists_first_fault hfault
    rw [hstop heq hbefore hx] at h
    cases h
    exact ⟨before, x, behind, heq, hbefore, hx, rfl⟩
  · rintro ⟨before, x, behind, heq, hbefore, hx, rfl⟩
    exact hstop heq hbefore hx

/-- A declared name of another type is refused for that, also where the type is no sort. The
variable in front of it stays declared. -/
theorem encode_checked_conflict :
    let x : Variable := ⟨"x", .integer⟩
    let y : Variable := ⟨"y", .int ⟨some 0, none⟩⟩
    let enc := EncoderCall.after [.encode (.var x)]
    (∀ w ∈ enc.declared.entries, w.ty.sort?.isSome = true) ∧
      outcome (Expr.compare .ne (.var y) (.var ⟨"x", .bitvec 8⟩)).encode enc
        = (.error (.conflict "x" .integer (.bitvec 8)), enc.declaring [y]) := by
  intro x y enc
  have henc := EncoderCall.sorts_after [.encode (.var x)]
  have hfaultless : Faultless enc.declared ([] ++ [.ok y]) :=
    faultless_concat.2 ⟨faultless_nil _, by decide +kernel⟩
  obtain ⟨-, -, hfail⟩ := encode_checked (.compare .ne (.var y) (.var ⟨"x", .bitvec 8⟩)) enc henc
  exact ⟨henc, (hfail _ _).2 ⟨[.ok y], .ok ⟨"x", .bitvec 8⟩, [], rfl,
    hfaultless, by decide +kernel, rfl⟩⟩

end Interpolants
