import Interpolants.Expr.Valuations
import Interpolants.Proofs.Number.Word
import Mathlib.Data.List.Nodup

/-!
# Interpolants — the list of all valuations

The valuations of some variables over a range are stated here without lists: `Valuation.InRange`
says what each variable may be given, and `Valuation.Precedes` which of two valuations comes first.
The list holds exactly the former, each once, in the latter order (`valuations_in_range`).

All of it goes by induction on the variables, along one equation (`valuations_cons`): the valuations
of one more variable give each of its values in turn to that variable in all valuations of the
others. It needs the names to be distinct, since a valuation keeps the last value of a name.
-/

namespace Interpolants

/-! ## Single variables -/

/-- A value that a variable of a type takes if integers stay between `lo` and `hi`. -/
inductive Ty.Admits (lo hi : Int64) : Ty → Value → Prop where
  | bool (b : Bool) : Admits lo hi .bool (.bool b)
  | int {bounds : Bounds} {i : Int64} (hlo : lo ≤ i) (hhi : i ≤ hi)
      (hmin : ∀ m, bounds.min = some m → m ≤ i) (hmax : ∀ m, bounds.max = some m → i ≤ m) :
      Admits lo hi (.int bounds) (.int i)

/-- The order of the values of one variable: false before true, and integers ascending. -/
inductive Value.Precedes : Value → Value → Prop where
  | bool : Precedes (.bool false) (.bool true)
  | int {i j : Int64} (h : i < j) : Precedes (.int i) (.int j)

theorem Value.Precedes.irrefl (a : Value) : ¬ a.Precedes a := by
  intro h
  cases h with
  | int h => exact Int64.lt_irrefl h

variable {lo hi : Int64}

/-- What is added to the lower end leads to no word above the upper one. -/
theorem toInt_offset {n : Nat} (h : n ∈ List.range (hi.toInt - lo.toInt + 1).toNat) :
    (Int64.ofInt (lo.toInt + n)).toInt = lo.toInt + n ∧ lo.toInt + n ≤ hi.toInt := by
  have hlow := lo.le_toInt
  have hhigh := hi.toInt_lt
  rw [List.mem_range] at h
  exact ⟨Int64.toInt_ofInt_of_le (by omega) (by omega), by omega⟩

/-- The words of a range are those between its ends, the ends included. -/
theorem mem_wordsBetween {i : Int64} : i ∈ wordsBetween lo hi ↔ lo ≤ i ∧ i ≤ hi := by
  rw [wordsBetween, List.mem_map, Int64.le_iff_toInt_le, Int64.le_iff_toInt_le]
  constructor
  · rintro ⟨n, hn, rfl⟩
    obtain ⟨hexact, hle⟩ := toInt_offset hn
    omega
  · rintro ⟨hlo, hhi⟩
    have hn : (i.toInt - lo.toInt).toNat ∈ List.range (hi.toInt - lo.toInt + 1).toNat := by
      rw [List.mem_range]
      omega
    refine ⟨_, hn, Int64.toInt_inj.1 ?_⟩
    rw [(toInt_offset hn).1]
    omega

/-- The words of a range are listed in ascending order. -/
theorem pairwise_wordsBetween (lo hi : Int64) : (wordsBetween lo hi).Pairwise (· < ·) := by
  rw [wordsBetween, List.pairwise_map]
  refine List.pairwise_lt_range.imp_of_mem fun hm hn hlt => ?_
  rw [Int64.lt_iff_toInt_lt, (toInt_offset hm).1, (toInt_offset hn).1]
  omega

/-- The values that are listed for a variable are those that its type admits. -/
theorem mem_domain {t : Ty} {a : Value} : a ∈ t.domain lo hi ↔ t.Admits lo hi a := by
  cases t with
  | bool =>
    constructor
    · intro h
      cases a with
      | bool b => exact .bool b
      | int | bitvec => simp [Ty.domain] at h
    · rintro ⟨b⟩
      cases b <;> simp [Ty.domain]
  | int bounds =>
    simp only [Ty.domain, List.mem_map, List.mem_filter, mem_wordsBetween, Bounds.contains_iff]
    constructor
    · rintro ⟨i, ⟨⟨hlo, hhi⟩, hmin, hmax⟩, rfl⟩
      exact .int hlo hhi hmin hmax
    · intro h
      cases h with
      | int hlo hhi hmin hmax => exact ⟨_, ⟨⟨hlo, hhi⟩, hmin, hmax⟩, rfl⟩
  | bitvec width =>
    constructor
    · intro h
      cases h
    · intro h
      cases h

/-- The values of a variable are listed in their order. -/
theorem pairwise_domain (t : Ty) (lo hi : Int64) : (t.domain lo hi).Pairwise Value.Precedes := by
  cases t with
  | bool => simp [Ty.domain, Value.Precedes.bool]
  | int bounds =>
    rw [Ty.domain, List.pairwise_map]
    exact ((pairwise_wordsBetween lo hi).filter _).imp fun h => .int h
  | bitvec width => exact .nil

/-! ## Valuations of some variables -/

namespace Valuation

variable {x : Variable} {xs : List Variable} {v w : Valuation}

/-- A valuation of some variables and no other names, each by a value that its type admits. -/
structure InRange (lo hi : Int64) (xs : List Variable) (v : Valuation) : Prop where
  names : ∀ name, (∃ a, v name = some a) ↔ name ∈ xs.map Variable.name
  admitted : ∀ x ∈ xs, ∃ a, v x.name = some a ∧ x.ty.Admits lo hi a

/-- The lexicographic order: the first variable that two valuations give different values
decides. -/
inductive Precedes : List Variable → Valuation → Valuation → Prop where
  | here {x : Variable} {xs : List Variable} {v w : Valuation} {a b : Value}
      (ha : v x.name = some a) (hb : w x.name = some b) (h : a.Precedes b) : Precedes (x :: xs) v w
  | later {x : Variable} {xs : List Variable} {v w : Valuation} (hx : v x.name = w x.name)
      (h : Precedes xs v w) : Precedes (x :: xs) v w

/-- No valuation stands before itself. -/
theorem Precedes.irrefl (xs : List Variable) (v : Valuation) : ¬ Precedes xs v v := by
  induction xs with
  | nil => nofun
  | cons x xs ih =>
    intro h
    cases h with
    | here ha hb h =>
      rw [ha, Option.some.injEq] at hb
      subst hb
      exact h.irrefl
    | later _ h => exact ih h

/-- What another name is given makes no difference. -/
theorem Precedes.set (h : Precedes xs v w) (hx : x.name ∉ xs.map Variable.name) (a b : Value) :
    Precedes xs (v.set x.name a) (w.set x.name b) := by
  induction h with
  | @here y xs v w a' b' ha hb h =>
    rw [List.map_cons, List.mem_cons, not_or] at hx
    refine .here (a := a') (b := b') ?_ ?_ h
    · rw [set_of_ne v a (Ne.symm hx.1), ha]
    · rw [set_of_ne w b (Ne.symm hx.1), hb]
  | @later y xs v w hy h ih =>
    rw [List.map_cons, List.mem_cons, not_or] at hx
    refine .later ?_ (ih hx.2)
    rw [set_of_ne v a (Ne.symm hx.1), set_of_ne w b (Ne.symm hx.1), hy]

/-! ### Lists of names and values -/

/-- What is given to a name before the others stays, if it is none of theirs. -/
theorem foldl_set_of_not_mem {name : String} (entries : List (String × Value))
    (hname : name ∉ entries.map Prod.fst) (v : Valuation) (a : Value) :
    entries.foldl (fun v entry => v.set entry.1 entry.2) (v.set name a)
      = (entries.foldl (fun v entry => v.set entry.1 entry.2) v).set name a := by
  induction entries generalizing v with
  | nil => rfl
  | cons entry entries ih =>
    rw [List.map_cons, List.mem_cons, not_or] at hname
    have hcomm : (v.set name a).set entry.1 entry.2 = (v.set entry.1 entry.2).set name a := by
      funext other
      simp only [set]
      split <;> split <;> simp_all
    rw [List.foldl_cons, hcomm, ih hname.2, List.foldl_cons]

/-- The first entry of a list without repeated names is given last. -/
theorem ofList_cons {name : String} {entries : List (String × Value)}
    (hname : name ∉ entries.map Prod.fst) (a : Value) :
    ofList ((name, a) :: entries) = (ofList entries).set name a :=
  foldl_set_of_not_mem entries hname empty a

/-- Takes the value of one name away and leaves the others. -/
def erase (v : Valuation) (name : String) : Valuation :=
  fun other => if other = name then none else v other

theorem erase_self (v : Valuation) (name : String) : v.erase name name = none := if_pos rfl

theorem erase_of_ne (v : Valuation) {name other : String} (h : other ≠ name) :
    v.erase name other = v other := if_neg h

/-- A value that is taken away and given again makes no difference. -/
theorem set_erase {name : String} {a : Value} (ha : v name = some a) :
    (v.erase name).set name a = v := by
  funext other
  by_cases h : other = name
  · rw [h, set_self, ha]
  · rw [set_of_ne _ a h, erase_of_ne v h]

/-- A valuation of one more variable gives it a value, and the others theirs. -/
theorem inRange_cons_iff (hx : x.name ∉ xs.map Variable.name) :
    v.InRange lo hi (x :: xs) ↔ ∃ a, x.ty.Admits lo hi a ∧ ∃ w : Valuation, w.InRange lo hi xs ∧
    w.set x.name a = v := by
  constructor
  · intro h
    obtain ⟨a, ha, hadmits⟩ := h.admitted x List.mem_cons_self
    -- without its value for the new name, the valuation is one of the others
    refine ⟨a, hadmits, v.erase x.name, ⟨fun name => ?_, fun y hy => ?_⟩, set_erase ha⟩
    · by_cases hname : name = x.name
      · rw [hname, erase_self]
        simpa using hx
      · rw [erase_of_ne v hname, h.names, List.map_cons, List.mem_cons, or_iff_right hname]
    · have hne : y.name ≠ x.name := fun heq => hx (heq ▸ List.mem_map_of_mem hy)
      rw [erase_of_ne v hne]
      exact h.admitted y (List.mem_cons_of_mem x hy)
  · rintro ⟨a, hadmits, w, hw, rfl⟩
    refine ⟨fun name => ?_, fun y hy => ?_⟩
    · by_cases hname : name = x.name
      · simp [hname, set_self]
      · rw [set_of_ne w a hname, hw.names, List.map_cons, List.mem_cons, or_iff_right hname]
    · rcases List.mem_cons.1 hy with rfl | hy
      · exact ⟨a, set_self .., hadmits⟩
      · have hne : y.name ≠ x.name := fun heq => hx (heq ▸ List.mem_map_of_mem hy)
        rw [set_of_ne w a hne]
        exact hw.admitted y hy

end Valuation

/-! ## The list -/

section

variable {x : Variable} {xs : List Variable}

theorem valuations_nil (lo hi : Int64) : valuations [] lo hi = [Valuation.empty] := rfl

/-- The valuations of one more variable: each of its values with each valuation of the others. -/
theorem valuations_cons (hx : x.name ∉ xs.map Variable.name) (lo hi : Int64) :
    valuations (x :: xs) lo hi = (x.ty.domain lo hi).flatMap fun a =>
      (valuations xs lo hi).map fun v => v.set x.name a := by
  have hchoices : choices ((x :: xs).map fun y => y.ty.domain lo hi)
      = (x.ty.domain lo hi).flatMap fun a =>
        (choices (xs.map fun y => y.ty.domain lo hi)).map (a :: ·) := rfl
  rw [valuations, valuations, hchoices, List.map_flatMap]
  congr 1
  funext a
  rw [List.map_map, List.map_map]
  refine List.map_congr_left fun values hvalues => ?_
  have hlength : (xs.map Variable.name).length ≤ values.length := Nat.le_of_eq (by
    rw [length_of_mem_choices hvalues, List.length_map, List.length_map])
  have hname : x.name ∉ ((xs.map Variable.name).zip values).map Prod.fst := by
    rw [List.map_fst_zip hlength]
    exact hx
  exact Valuation.ofList_cons hname a

variable (h : (xs.map Variable.name).Nodup)

include h

/-- **Listed is what is in range.** -/
theorem mem_valuations {v : Valuation} : v ∈ valuations xs lo hi ↔ v.InRange lo hi xs := by
  induction xs generalizing v with
  | nil =>
    rw [valuations_nil, List.mem_singleton]
    constructor
    · rintro rfl
      exact ⟨fun name => by simp [Valuation.empty], nofun⟩
    · intro hv
      funext name
      cases hname : v name with
      | none => rfl
      | some a => cases (hv.names name).1 ⟨a, hname⟩
  | cons x xs ih =>
    obtain ⟨hx, hxs⟩ := List.nodup_cons.1 h
    simp only [valuations_cons hx, Valuation.inRange_cons_iff hx, List.mem_flatMap, List.mem_map,
      mem_domain, ih hxs]

/-- **The list is in lexicographic order**, without repetitions. -/
theorem pairwise_valuations (lo hi : Int64) :
    (valuations xs lo hi).Pairwise (Valuation.Precedes xs) := by
  induction xs with
  | nil => exact List.pairwise_singleton ..
  | cons x xs ih =>
    obtain ⟨hx, hxs⟩ := List.nodup_cons.1 h
    rw [valuations_cons hx, List.pairwise_flatMap]
    constructor
    · -- with one value for the first variable, the others decide
      intro a _
      rw [List.pairwise_map]
      refine (ih hxs).imp fun hprecedes => .later ?_ (hprecedes.set hx a a)
      rw [Valuation.set_self, Valuation.set_self]
    · refine (pairwise_domain x.ty lo hi).imp fun {a b} hab v hv w hw => ?_
      obtain ⟨v', -, rfl⟩ := List.mem_map.1 hv
      obtain ⟨w', -, rfl⟩ := List.mem_map.1 hw
      exact .here (Valuation.set_self ..) (Valuation.set_self ..) hab

/-- Nothing is listed exactly if some variable can be given no value. -/
theorem valuations_eq_nil_iff :
    valuations xs lo hi = [] ↔ ∃ x ∈ xs, ∀ a, ¬ x.ty.Admits lo hi a := by
  induction xs with
  | nil => simp [valuations_nil]
  | cons x xs ih =>
    obtain ⟨hx, hxs⟩ := List.nodup_cons.1 h
    have hnone : (∀ a, ¬ x.ty.Admits lo hi a) ↔ x.ty.domain lo hi = [] := by
      simp only [List.eq_nil_iff_forall_not_mem, mem_domain]
    rw [valuations_cons hx, List.flatMap_eq_nil_iff, List.exists_mem_cons_iff, hnone, ← ih hxs]
    cases x.ty.domain lo hi with
    | nil => simp
    | cons a as => simpa using fun hxs _ _ => hxs

end

/-- **All valuations over a range, each once and in order.** For variables of distinct names,
exactly those valuations are listed that give values to these names and no others: booleans to the
boolean variables, and to the integer variables integers in the range and within their bounds. An
earlier variable decides the order before a later one, so that the last one varies fastest. Nothing
is listed exactly if some variable can be given no value, as a bitvector; without variables there is
the empty valuation. -/
theorem valuations_in_range {xs : List Variable} (h : (xs.map Variable.name).Nodup)
    (lo hi : Int64) :
    (∀ v, v ∈ valuations xs lo hi ↔ v.InRange lo hi xs) ∧
    (valuations xs lo hi).Nodup ∧ (valuations xs lo hi).Pairwise (Valuation.Precedes xs) ∧
    (valuations xs lo hi = [] ↔ ∃ x ∈ xs, ∀ a, ¬ x.ty.Admits lo hi a) ∧
    (∀ x ∈ xs, ∀ width, x.ty = .bitvec width → valuations xs lo hi = []) ∧
    valuations [] lo hi = [Valuation.empty] := by
  have hsorted := pairwise_valuations h lo hi
  refine ⟨fun v => mem_valuations h, hsorted.imp ?_, hsorted, valuations_eq_nil_iff h, ?_,
    valuations_nil lo hi⟩
  · rintro v _ hprecedes rfl
    exact hprecedes.irrefl
  · intro x hx width hwidth
    refine (valuations_eq_nil_iff h).2 ⟨x, hx, fun a ha => ?_⟩
    rw [hwidth] at ha
    cases ha

/-- A boolean and a bounded integer at the upper end of the words. -/
theorem valuations_in_range_bounded :
    let xs : List Variable := [⟨"p", .bool⟩, ⟨"x", .int ⟨some (Int64.maxValue - 1), none⟩⟩]
    let v (b : Bool) (i : Int64) := (Valuation.empty.set "p" (.bool b)).set "x" (.int i)
    let lo := Int64.maxValue - 1
    let hi := Int64.maxValue
    (xs.map Variable.name).Nodup ∧
      valuations xs (Int64.maxValue - 2) hi = [v false lo, v false hi, v true lo, v true hi] ∧
      (v true lo).InRange (Int64.maxValue - 2) hi xs := by
  intro xs v lo hi
  have hnames : (xs.map Variable.name).Nodup := by decide
  have hdomains : xs.map (fun x => x.ty.domain (Int64.maxValue - 2) hi)
      = [[.bool false, .bool true], [.int lo, .int hi]] := by decide +kernel
  have hlist : valuations xs (Int64.maxValue - 2) hi
      = [v false lo, v false hi, v true lo, v true hi] := by
    rw [valuations, hdomains]
    rfl
  exact ⟨hnames, hlist, ((valuations_in_range hnames _ hi).1 (v true lo)).1 (by rw [hlist]; simp)⟩

end Interpolants
