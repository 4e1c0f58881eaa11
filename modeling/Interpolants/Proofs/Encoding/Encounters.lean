import Interpolants.Proofs.Encoding.Term
import Interpolants.Proofs.Lists

/-!
# Interpolants — what encoding meets

Encoding walks over a formula from left to right, declares the variables that it meets and stops at
the first thing that it refuses. `Expr.encounters` lists what there is to meet, so that encoding is
a walk over a list (`exists_encode_eq`) and what it does to a session goes by induction on the list.

The state of a session depends on one thing only: which variables were reached, in which order. A
session that has reached the variables `vs` has declared each of them once, in the order in which
they were first reached, and reaching `ws` as well adds `commandsFor vs ws` to what it was told
(`outcome_meet`).
-/

namespace Interpolants

/-! ## Encoding as a walk -/

/-- What encoding meets in a formula: a variable, which it declares, or an obstacle, at which it
stops with an error. -/
abbrev Encounter : Type :=
  Except EncodeError Variable

/-- What encoding does with what it meets. -/
def meet : Encounter → Encode Unit
  | .ok v => declare v
  | .error e => throw e

/-- What encoding meets in a formula, from left to right. What is inside a construct without an
encoding is not met. -/
def Expr.encounters : Expr → List Encounter
  | .var v => [.ok v]
  | .const (.bitvec value width) => [.error (.constantType (.bitvec value width))]
  | .const _ => []
  | .unary .complement e => [.error (.construct .bitvector (.unary .complement e))]
  | .unary _ e => e.encounters
  | .binary (.compare _) left right | .binary (.arith _) left right =>
    left.encounters ++ right.encounters
  | .binary (.logic op) left right =>
    if op.head?.isSome then left.encounters ++ right.encounters else [.error (.connective op)]
  | .binary (.bits op) left right =>
    [.error (.construct .bitvector (.binary (.bits op) left right))]
  | .cast e target => [.error (.construct .cast (.cast e target))]
  | .quantified q bound body => [.error (.construct .quantifier (.quantified q bound body))]

/-- Two operands are encoded by meeting what is encountered in the first, and then in the second. -/
theorem exists_both_eq {left right : Expr} (build : Sexp → Sexp → Sexp)
    (hl : ∃ l, left.encode = do forM left.encounters meet; return l)
    (hr : ∃ r, right.encode = do forM right.encounters meet; return r) :
    ∃ t, (do return build (← left.encode) (← right.encode))
      = (do forM (left.encounters ++ right.encounters) meet; return t : Encode Sexp) := by
  obtain ⟨l, hl⟩ := hl
  obtain ⟨r, hr⟩ := hr
  refine ⟨build l r, ?_⟩
  rw [hl, hr, List.forM_append]
  simp only [bind_assoc, pure_bind]

/-- **Encoding is a walk.** It meets what there is in the formula and then gives a term, which does
not depend on what happened on the way. -/
theorem exists_encode_eq (e : Expr) :
    ∃ t, e.encode = do forM e.encounters meet; return t := by
  induction e with
  | var v => exact ⟨.symbol v.name, by simp [Expr.encode, Expr.encounters, meet]⟩
  | const c =>
    cases c with
    | bool b => exact ⟨_, rfl⟩
    | int i => exact ⟨_, rfl⟩
    | bitvec value width => exact ⟨.list [], rfl⟩
  | unary op e ih =>
    obtain ⟨t, ht⟩ := ih
    cases op with
    | complement => exact ⟨.list [], rfl⟩
    | not => exact ⟨.app "not" [t], by rw [Expr.encode, ht, bind_assoc]; rfl⟩
    | minus => exact ⟨.app "-" [t], by rw [Expr.encode, ht, bind_assoc]; rfl⟩
  | binary op left right ihl ihr =>
    cases op with
    | compare op => exact exists_both_eq op.term ihl ihr
    | arith op => exact exists_both_eq (fun l r => .app op.head [l, r]) ihl ihr
    | logic op =>
      rw [Expr.encode, Expr.encounters]
      -- a connective without a head is refused before its operands are visited
      cases hhead : op.head? with
      | none => exact ⟨.list [], rfl⟩
      | some head => exact exists_both_eq (fun l r => .app head [l, r]) ihl ihr
    | bits op => exact ⟨.list [], rfl⟩
  | cast | quantified => exact ⟨.list [], rfl⟩

/-- A formula that has a term encounters its variables and nothing else. -/
theorem Expr.HasTerm.encounters_eq {e : Expr} {t : Sexp} (h : e.HasTerm t) :
    e.encounters = e.vars.map .ok := by
  induction h with
  | var | literal | integer => rfl
  | negation _ ih => exact ih
  | minus _ ih => exact ih
  | compare _ _ _ ihl ihr => rw [Expr.compare, encounters, ihl, ihr, vars, List.map_append]
  | arith _ _ _ ihl ihr => rw [Expr.arith, encounters, ihl, ihr, vars, List.map_append]
  | logic hhead _ _ ihl ihr =>
    rw [Expr.logic, encounters, hhead, Option.isSome_some, if_pos rfl, ihl, ihr, vars,
      List.map_append]

/-- In a formula without obstacles all its variables are met, and otherwise those before the first
obstacle. -/
theorem Expr.encounters_cases (e : Expr) :
    e.encounters = e.vars.map .ok ∨
      ∃ part error more, part <+: e.vars ∧ e.encounters = part.map .ok ++ .error error :: more := by
  -- what follows the first obstacle does not matter, so operands are met one after the other
  have hboth : ∀ {xs ys : List Variable} {es es' : List Encounter},
      (es = xs.map .ok ∨ ∃ part error more, part <+: xs ∧
        es = part.map .ok ++ .error error :: more) →
      (es' = ys.map .ok ∨
        ∃ part error more, part <+: ys ∧ es' = part.map .ok ++ .error error :: more) →
      es ++ es' = (xs ++ ys).map .ok ∨ ∃ part error more, part <+: xs ++ ys ∧
        es ++ es' = part.map .ok ++ .error error :: more := by
    rintro xs ys es es' (rfl | ⟨part, error, more, hpart, rfl⟩) h
    · rcases h with rfl | ⟨part, error, more, hpart, rfl⟩
      · exact .inl (List.map_append ..).symm
      · exact .inr ⟨xs ++ part, error, more, (List.prefix_append_right_inj xs).2 hpart, by simp⟩
    · exact .inr ⟨part, error, more ++ es', hpart.trans (xs.prefix_append ys), by simp⟩
  have hnone : ∀ (error : EncodeError) (xs : List Variable),
      ∃ part error' more, part <+: xs ∧
        ([.error error] : List Encounter) = part.map .ok ++ .error error' :: more :=
    fun error xs => ⟨[], error, [], xs.nil_prefix, rfl⟩
  induction e with
  | var v => exact .inl rfl
  | const c =>
    cases c with
    | bool b => exact .inl rfl
    | int i => exact .inl rfl
    | bitvec value width => exact .inr (hnone _ _)
  | unary op e ih =>
    cases op with
    | complement => exact .inr (hnone _ _)
    | not => exact ih
    | minus => exact ih
  | binary op left right ihl ihr =>
    cases op with
    | compare op => exact hboth ihl ihr
    | arith op => exact hboth ihl ihr
    | logic op =>
      rw [encounters]
      split
      · exact hboth ihl ihr
      · exact .inr (hnone _ _)
    | bits op => exact .inr (hnone _ _)
  | cast e target => exact .inr (hnone _ _)
  | quantified q bound body => exact .inr (hnone _ _)

/-! ## The variables that are reached -/

/-- What a session is told about a variable. -/
def Variable.commands (v : Variable) : List Sexp :=
  v.ty.sort?.toList.flatMap v.declaration

/-- What a session that has reached the variables `vs` is told when it reaches `ws` as well. -/
def commandsFor (vs ws : List Variable) : List Sexp :=
  (ws.removeAll vs).eraseDups.flatMap Variable.commands

@[simp] theorem commandsFor_nil (vs : List Variable) : commandsFor vs [] = [] := rfl

/-- A new session is told about each variable once. -/
theorem commandsFor_of_nil (ws : List Variable) :
    commandsFor [] ws = ws.eraseDups.flatMap Variable.commands := by
  rw [commandsFor, List.removeAll, List.filter_eq_self.2 (by simp)]

/-- What it is told when it reaches two lists of variables is told part by part. -/
theorem commandsFor_append (vs ws us : List Variable) :
    commandsFor vs (ws ++ us) = commandsFor vs ws ++ commandsFor (vs ++ ws) us := by
  have hboth : (ws ++ us).removeAll vs = ws.removeAll vs ++ us.removeAll vs :=
    List.filter_append ..
  have hlater : (us.removeAll vs).removeAll (ws.removeAll vs) = us.removeAll (vs ++ ws) := by
    simp only [List.removeAll, List.filter_filter]
    refine List.filter_congr fun x _ => ?_
    simp only [List.elem_eq_mem, List.mem_filter, List.mem_append]
    grind
  rw [commandsFor, commandsFor, commandsFor, hboth, List.eraseDups_append, hlater,
    List.flatMap_append]

/-- The registry of a session that has reached some variables. -/
def Registry.reaching (vs : List Variable) : Registry :=
  ⟨vs.eraseDups⟩

/-- The registry of a session knows a name as the first variable of that name that was reached. -/
theorem Registry.find?_reaching (vs : List Variable) (name : String) :
    (reaching vs).find? name = vs.find? (·.name == name) :=
  find?_eraseDups _ _

/-- Whether a session that has reached some variables can reach another one: it has to be the
variable of its name among them, or its name is new and its type a sort of the solver. -/
def admits (vs : List Variable) (v : Variable) : Bool :=
  match vs.find? (·.name == v.name) with
  | some known => known == v
  | none => v.ty.sort?.isSome

/-- The variables that are reached: those before the first obstacle and before the first variable
that the session refuses. -/
def reach (vs : List Variable) : List Encounter → List Variable
  | .ok v :: more => if admits vs v then v :: reach (vs ++ [v]) more else []
  | _ => []

/-- Variables are reached in the order in which they are encountered. -/
theorem reach_initial (vs part : List Variable) {rest : List Encounter}
    (hrest : ∀ v more, rest ≠ .ok v :: more) : reach vs (part.map .ok ++ rest) <+: part := by
  induction part generalizing vs with
  | nil =>
    have hnil : reach vs rest = [] := by
      cases rest with
      | nil => rfl
      | cons e more =>
        cases e with
        | error e => rfl
        | ok v => exact absurd rfl (hrest v more)
    simp [hnil]
  | cons v part ih =>
    rw [List.map_cons, List.cons_append, reach]
    split
    · exact (List.prefix_cons_inj v).2 (ih _)
    · exact List.nil_prefix

/-- Whatever stops the encoding of a formula, its first variables are the ones reached. -/
theorem Expr.reach_encounters_initial (vs : List Variable) (e : Expr) :
    reach vs e.encounters <+: e.vars := by
  rcases e.encounters_cases with h | ⟨part, error, more, hpart, h⟩
  · rw [h, ← List.append_nil (e.vars.map _)]
    exact reach_initial vs e.vars (by simp)
  · rw [h]
    exact (reach_initial vs part (by simp)).trans hpart

section

variable {vs : List Variable} {v : Variable}

/-- A variable that is admitted is declared unless it has been reached before. -/
theorem outcome_declare_of_admits (h : admits vs v = true) (sent : List Sexp) :
    outcome (declare v) ⟨.reaching vs, sent⟩
      = (.ok (), ⟨.reaching (vs ++ [v]), sent ++ commandsFor vs [v]⟩) := by
  unfold admits at h
  unfold declare
  rw [outcome_bind_of_ok (outcome_get _)]
  simp only [Registry.find?_reaching]
  cases hknown : vs.find? (·.name == v.name) with
  | some known =>
    rw [hknown] at h
    obtain rfl : known = v := eq_of_beq h
    have hmem : known ∈ vs := List.mem_of_find?_eq_some hknown
    simp [Registry.reaching, commandsFor, List.removeAll, hmem, List.eraseDups_append]
  | none =>
    rw [hknown] at h
    obtain ⟨sort, hsort⟩ := Option.isSome_iff_exists.1 h
    have hother : ∀ w ∈ vs, (w.name != v.name) = true := fun w hw => by
      simpa using List.find?_eq_none.1 hknown w hw
    have hmem : v ∉ vs := fun hmem => by simpa using hother v hmem
    -- no entry has the name, so the new entry just goes behind the others
    have hkeep : vs.eraseDups.filter (·.name != v.name) = vs.eraseDups :=
      List.filter_eq_self.2 fun w hw => hother w (List.mem_eraseDups.1 hw)
    have hinsert : (Registry.reaching vs).insert v = .reaching (vs ++ [v]) := by
      simp [Registry.reaching, Registry.insert, hkeep, List.eraseDups_append, List.removeAll, hmem,
        List.eraseDups_cons]
    simp only [hsort]
    rw [outcome_set, foldl_send, hinsert]
    simp [commandsFor, List.removeAll, hmem, List.eraseDups_cons, Variable.commands, hsort]

/-- A variable that is not admitted leaves the session as it is. -/
theorem outcome_declare_of_not_admits (h : admits vs v = false) (sent : List Sexp) :
    ∃ e, outcome (declare v) ⟨.reaching vs, sent⟩ = (.error e, ⟨.reaching vs, sent⟩) := by
  unfold admits at h
  unfold declare
  rw [outcome_bind_of_ok (outcome_get _)]
  simp only [Registry.find?_reaching]
  cases hknown : vs.find? (·.name == v.name) with
  | some known =>
    rw [hknown] at h
    -- a variable of the same name and type would be admitted
    have hty : known.ty ≠ v.ty := by
      intro hty
      have hname : known.name = v.name := by simpa using List.find?_some hknown
      obtain ⟨name, ty⟩ := known
      cases hname
      cases hty
      simp at h
    simp [hty]
  | none =>
    rw [hknown] at h
    have hsort : v.ty.sort? = none := by simpa using h
    simp [hsort]

end

/-! ## What a walk does to a session -/

/-- A declared variable is not declared again. -/
theorem outcome_declare_of_find? {enc : Encoder} {v : Variable}
    (h : enc.declared.find? v.name = some v) :
    outcome (declare v) enc = (.ok (), enc) := by
  unfold declare
  rw [outcome_bind_of_ok (outcome_get enc)]
  simp [h]

/-- Meeting declared variables leaves a session as it is. -/
theorem outcome_meet_of_declared {enc : Encoder} {vs : List Variable}
    (h : ∀ v ∈ vs, enc.declared.find? v.name = some v) :
    outcome (forM (vs.map .ok) meet) enc = (.ok (), enc) := by
  induction vs with
  | nil => rfl
  | cons v vs ih =>
    obtain ⟨hv, hvs⟩ := List.forall_mem_cons.1 h
    rw [List.map_cons, List.forM_cons, meet, outcome_bind_of_ok (outcome_declare_of_find? hv)]
    exact ih hvs

/-- **A walk adds what it reaches.** Whether it stops early or not, the session has then reached the
variables before, and was told about the new ones among them. -/
theorem outcome_meet (es : List Encounter) (vs : List Variable) (sent : List Sexp) :
    ∃ result, outcome (forM es meet) ⟨.reaching vs, sent⟩
        = (result, ⟨.reaching (vs ++ reach vs es), sent ++ commandsFor vs (reach vs es)⟩) ∧
      (result = .ok () → es = (reach vs es).map .ok) := by
  induction es generalizing vs sent with
  | nil => exact ⟨.ok (), by simp [reach], fun _ => rfl⟩
  | cons e es ih =>
    rw [List.forM_cons]
    cases e with
    | error e =>
      refine ⟨.error e, ?_, nofun⟩
      rw [meet, outcome_bind_of_error (outcome_throw e _)]
      simp [reach]
    | ok v =>
      rw [reach]
      split
      · next h =>
        -- the variable is admitted, and the rest goes on behind its commands
        obtain ⟨result, hrest, hall⟩ := ih (vs ++ [v]) (sent ++ commandsFor vs [v])
        refine ⟨result, ?_, fun hok => by rw [List.map_cons, ← hall hok]⟩
        rw [meet, outcome_bind_of_ok (outcome_declare_of_admits h sent), hrest, List.append_assoc,
          List.append_assoc, ← commandsFor_append]
        rfl
      · next h =>
        -- the visit ends at a variable that is not admitted
        obtain ⟨error, herror⟩ := outcome_declare_of_not_admits (by simpa using h) sent
        refine ⟨.error error, ?_, nofun⟩
        rw [meet, outcome_bind_of_error herror]
        simp

/-- Variables that one session can reach. -/
structure Coherent (vs : List Variable) : Prop where
  sorts : ∀ x ∈ vs, ∃ sort, x.ty.sort? = some sort
  unique : ∀ x ∈ vs, ∀ y ∈ vs, x.name = y.name → x = y

theorem coherent_nil : Coherent [] :=
  ⟨nofun, nofun⟩

/-- A part of coherent variables is coherent. -/
theorem Coherent.left {vs ws : List Variable} (h : Coherent (vs ++ ws)) : Coherent vs :=
  ⟨fun x hx => h.sorts x (List.mem_append_left _ hx), fun x hx y hy =>
    h.unique x (List.mem_append_left _ hx) y (List.mem_append_left _ hy)⟩

/-- Coherent variables stay so with one more that a session admits. -/
theorem Coherent.snoc {vs : List Variable} {v : Variable} (h : Coherent vs)
    (hv : admits vs v = true) : Coherent (vs ++ [v]) := by
  unfold admits at hv
  cases hknown : vs.find? (·.name == v.name) with
  | some known =>
    rw [hknown] at hv
    obtain rfl : known = v := eq_of_beq hv
    have hmem : known ∈ vs := List.mem_of_find?_eq_some hknown
    have hsame : ∀ x ∈ vs ++ [known], x ∈ vs := by
      intro x hx
      rcases List.mem_append.1 hx with hx | hx
      · exact hx
      · rw [List.mem_singleton.1 hx]
        exact hmem
    exact ⟨fun x hx => h.sorts x (hsame x hx),
      fun x hx y hy => h.unique x (hsame x hx) y (hsame y hy)⟩
  | none =>
    rw [hknown] at hv
    -- no variable has the name, so the new one is unique
    have hother : ∀ w ∈ vs, w.name ≠ v.name := fun w hw => by
      simpa using List.find?_eq_none.1 hknown w hw
    refine ⟨?_, ?_⟩
    · intro x hx
      rcases List.mem_append.1 hx with hx | hx
      · exact h.sorts x hx
      · rw [List.mem_singleton.1 hx]
        exact Option.isSome_iff_exists.1 hv
    · intro x hx y hy hname
      rcases List.mem_append.1 hx with hx | hx <;> rcases List.mem_append.1 hy with hy | hy
      · exact h.unique x hx y hy hname
      · rw [List.mem_singleton.1 hy] at hname
        exact absurd hname (hother x hx)
      · rw [List.mem_singleton.1 hx] at hname
        exact absurd hname.symm (hother y hy)
      · rw [List.mem_singleton.1 hx, List.mem_singleton.1 hy]

/-- **What a session reaches is coherent.** -/
theorem Coherent.reach {vs : List Variable} (h : Coherent vs) (es : List Encounter) :
    Coherent (vs ++ reach vs es) := by
  induction es generalizing vs with
  | nil => simpa [Interpolants.reach] using h
  | cons e es ih =>
    cases e with
    | error e => simpa [Interpolants.reach] using h
    | ok v =>
      rw [Interpolants.reach]
      split
      · next hv => simpa using ih (h.snoc hv)
      · simpa using h

/-! ## Calls to an encoder -/

/-- A call to an encoder. -/
inductive EncoderCall where
  | encode (e : Expr)
  | encodeAssertion (e : Expr)

namespace EncoderCall

/-- The formula that is to be encoded. -/
def formula : EncoderCall → Expr
  | .encode e | .encodeAssertion e => e

/-- What the call does. -/
def step : EncoderCall → Encode Sexp
  | .encode e => e.encode
  | .encodeAssertion e => e.encodeAssertion

/-- What the call meets. An assertion that is not boolean is refused at once. -/
def encounters : EncoderCall → List Encounter
  | .encode e => e.encounters
  | .encodeAssertion e => if e.ty.isBool then e.encounters else [.error (.nonBoolean e)]

/-- A call meets what it encounters, and then gives a term or fails. -/
theorem exists_step_eq (call : EncoderCall) :
    ∃ t, call.step = do forM call.encounters meet; return t := by
  cases call with
  | encode e => exact exists_encode_eq e
  | encodeAssertion e =>
    rw [step, encounters, Expr.encodeAssertion]
    split
    · exact exists_encode_eq e
    · exact ⟨.list [], rfl⟩

/-- A call that succeeds is one for a formula that has a term. -/
theorem hasTerm_of_step {call : EncoderCall} {t : Sexp} {enc enc' : Encoder}
    (h : outcome call.step enc = (.ok t, enc')) :
    call.formula.HasTerm t ∧ call.encounters = call.formula.vars.map .ok := by
  cases call with
  | encode e =>
    have hterm := (encode_ok h).term
    exact ⟨hterm, hterm.encounters_eq⟩
  | encodeAssertion e =>
    rw [step, Expr.encodeAssertion] at h
    split at h
    · next hbool =>
      have hterm := (encode_ok h).term
      exact ⟨hterm, (if_pos hbool).trans hterm.encounters_eq⟩
    · cases h

/-- **What a call does to a session**: it reaches variables, all those of the formula if it gives a
term, and the session is told about the new ones among them. -/
theorem outcome_step (call : EncoderCall) (vs : List Variable) (sent : List Sexp) :
    ∃ result, outcome call.step ⟨.reaching vs, sent⟩
        = (result, ⟨.reaching (vs ++ reach vs call.encounters),
            sent ++ commandsFor vs (reach vs call.encounters)⟩) ∧
      ∀ t, result = .ok t →
        call.formula.HasTerm t ∧ reach vs call.encounters = call.formula.vars := by
  obtain ⟨t, hstep⟩ := call.exists_step_eq
  obtain ⟨walked, hwalk, hall⟩ := outcome_meet call.encounters vs sent
  have hrun : outcome call.step ⟨.reaching vs, sent⟩
      = (walked.map fun _ => t, ⟨.reaching (vs ++ reach vs call.encounters),
          sent ++ commandsFor vs (reach vs call.encounters)⟩) := by
    rw [hstep, outcome_bind, hwalk]
    cases walked <;> rfl
  refine ⟨_, hrun, fun t' ht' => ?_⟩
  rw [ht'] at hrun
  obtain ⟨hterm, hencounters⟩ := hasTerm_of_step hrun
  refine ⟨hterm, ?_⟩
  -- a walk without an error meets variables only, and those are the ones of the formula
  have hwalked : walked = .ok () := by
    cases walked with
    | error e => cases ht'
    | ok u => rfl
  have hmap := (hall hwalked).symm.trans hencounters
  exact (List.map_inj_right fun _ _ h => Except.ok.inj h).1 hmap

/-- A call reaches the first variables of its formula. -/
theorem reach_initial (call : EncoderCall) (vs : List Variable) :
    reach vs call.encounters <+: call.formula.vars := by
  cases call with
  | encode e => exact e.reach_encounters_initial vs
  | encodeAssertion e =>
    rw [encounters]
    split
    · exact e.reach_encounters_initial vs
    · exact List.nil_prefix

end EncoderCall

end Interpolants
