import Interpolants.Decoding.Application
import Interpolants.Proofs.Expr.Eval
import Interpolants.Proofs.Smt.Sorts

/-!
# Interpolants — operators on decoded operands

What decoding makes of an operator and its operands means what the operator means. `Denotes` says
that a formula belongs to a sort and to a value of that sort; each lemma takes operands that denote
values to the formula for an application of them (`applies_of_sorts` for all operators). Chains of
operators are folds on both sides, and the induction is on the operands behind the first.
-/

namespace Interpolants

/-- A formula is of a sort and has, if any, a given value of that sort under a valuation. -/
structure Denotes (v : Valuation) (τ : Smt.Srt) (e : Expr) (a : Smt.Value) : Prop where
  sort : a.srt = τ
  ty : e.ty.isBool = true ↔ τ = .bool
  value : ∀ val, e.eval v = .ok val → val.smt? = some a

namespace Denotes

variable {v : Valuation} {τ : Smt.Srt} {e left right : Expr} {a b : Smt.Value} {m n : Int}
  {p q : Bool}

theorem exists_int (h : Denotes v .int e a) : ∃ n, a = .int n := by
  obtain ⟨hsort, -, -⟩ := h
  cases a with
  | int n => exact ⟨n, rfl⟩
  | bool => cases hsort

theorem exists_bool (h : Denotes v .bool e a) : ∃ p, a = .bool p := by
  obtain ⟨hsort, -, -⟩ := h
  cases a with
  | bool p => exact ⟨p, rfl⟩
  | int => cases hsort

/-- A formula of integers that has a value has the one that it denotes. -/
theorem toInt_eq (h : Denotes v .int e (.int n)) {i : Int64} (hi : e.eval v = .ok (.int i)) :
    i.toInt = n := by
  have hvalue := h.value _ hi
  cases hvalue
  rfl

/-- So has a formula of booleans. -/
theorem eq_of_bool (h : Denotes v .bool e (.bool p)) {b : Bool} (hb : e.eval v = .ok (.bool b)) :
    b = p := by
  have hvalue := h.value _ hb
  cases hvalue
  rfl

/-! ## Operators with a fixed number of operands -/

theorem integer (i : Int64) : Denotes v .int (Expr.integer i) (.int i.toInt) := by
  refine ⟨rfl, by simp [Expr.integer, Expr.ty, Value.ty, Ty.integer, Ty.isBool], fun val hval => ?_⟩
  cases hval
  rfl

theorem literal (p : Bool) : Denotes v .bool (Expr.literal p) (.bool p) := by
  refine ⟨rfl, by simp [Expr.literal, Expr.ty, Value.ty, Ty.isBool], fun val hval => ?_⟩
  cases hval
  rfl

theorem negation (h : Denotes v .bool e (.bool p)) :
    Denotes v .bool (Expr.negation e) (.bool !p) := by
  refine ⟨rfl, by simp [Expr.negation, Expr.ty, Ty.isBool], fun val hval => ?_⟩
  obtain ⟨b, hb, rfl⟩ := Expr.eval_not_eq_ok_iff.1 hval
  rw [h.eq_of_bool hb]
  rfl

theorem minus (h : Denotes v .int e (.int n)) : Denotes v .int (Expr.minus e) (.int (-n)) := by
  refine ⟨rfl, h.ty, fun val hval => ?_⟩
  obtain ⟨i, j, hi, hj, rfl⟩ := Expr.eval_minus_eq_ok_iff.1 hval
  rw [← h.toInt_eq hi, ← narrow_eq_ok_iff.1 hj]
  rfl

/-- An integer operation denotes its exact result, whatever it is said to give for division by
zero. -/
theorem arith {op : Arith} (hl : Denotes v .int left (.int m)) (hr : Denotes v .int right (.int n))
    {k : Int} (hk : (op.divides = true → n ≠ 0) → k = op.exact m n) :
    Denotes v .int (Expr.arith op left right) (.int k) := by
  refine ⟨rfl, hl.ty, fun val hval => ?_⟩
  obtain ⟨i, j, l, hi, hj, hop, rfl⟩ := Expr.eval_arith_eq_ok_iff.1 hval
  obtain ⟨hexact, hzero⟩ := Arith.exact_of_apply hop
  rw [hl.toInt_eq hi, hr.toInt_eq hj] at hexact
  rw [hr.toInt_eq hj] at hzero
  rw [hk hzero, ← hexact]
  rfl

theorem logic (op : Connective) (hl : Denotes v .bool left (.bool p))
    (hr : Denotes v .bool right (.bool q)) :
    Denotes v .bool (Expr.logic op left right) (.bool (op.apply p q)) := by
  refine ⟨rfl, by simp [Expr.logic, Expr.ty, Ty.isBool], fun val hval => ?_⟩
  obtain ⟨b, c, hb, hc, rfl⟩ := Expr.eval_logic_eq_ok_iff.1 hval
  rw [hl.eq_of_bool hb, hr.eq_of_bool hc]
  rfl

/-- An order relation of decoded integers denotes the relation of exact ones. -/
theorem compare {op : Comparison} (hl : Denotes v .int left (.int m))
    (hr : Denotes v .int right (.int n)) (hp : ∀ i j : Int64, i.toInt = m → j.toInt = n →
      op.apply (.int i) (.int j) = .ok p) :
    Denotes v .bool (Expr.compare op left right) (.bool p) := by
  refine ⟨rfl, by simp [Expr.compare, Expr.ty, Ty.isBool], fun val hval => ?_⟩
  obtain ⟨l, r, holds, hlv, hrv, hop, rfl⟩ := Expr.eval_compare_eq_ok_iff.1 hval
  obtain ⟨i, rfl, hi⟩ := Value.smt?_eq_int_iff.1 (hl.value l hlv)
  obtain ⟨j, rfl, hj⟩ := Value.smt?_eq_int_iff.1 (hr.value r hrv)
  rw [hp i j hi hj] at hop
  cases hop
  rfl

/-! ## Equality

Whether an equality of decoded operands is an equivalence is decided by their types, which are those
of the sort that both have. -/

/-- **An equality** denotes whether the two values are the same, be they integers or booleans. -/
theorem equal (hl : Denotes v τ left a) (hr : Denotes v τ right b) :
    Denotes v .bool (Expr.equal left right) (.bool (a == b)) := by
  unfold Expr.equal
  split
  · next hbool =>
    -- both types are boolean, so the sort is, and the equality is an equivalence
    rw [Bool.and_eq_true, hl.ty] at hbool
    obtain ⟨rfl, -⟩ := hbool
    obtain ⟨p, rfl⟩ := hl.exists_bool
    obtain ⟨q, rfl⟩ := hr.exists_bool
    have hsame : (Smt.Value.bool p == .bool q) = Connective.equiv.apply p q := by
      cases p <;> cases q <;> rfl
    rw [hsame]
    exact hl.logic .equiv hr
  · refine ⟨rfl, by simp [Expr.compare, Expr.ty, Ty.isBool], fun val hval => ?_⟩
    obtain ⟨l, r, holds, hlv, hrv, hop, rfl⟩ := Expr.eval_compare_eq_ok_iff.1 hval
    cases hop
    rw [Value.smt?_beq (hl.value l hlv) (hr.value r hrv)]
    rfl

/-- **An inequality** denotes whether they differ. -/
theorem differ (hl : Denotes v τ left a) (hr : Denotes v τ right b) :
    Denotes v .bool (Expr.differ left right) (.bool (a != b)) := by
  have hequal := hl.equal hr
  unfold Expr.equal at hequal
  unfold Expr.differ
  split
  · next hbool =>
    rw [if_pos hbool] at hequal
    exact hequal.negation
  · refine ⟨rfl, by simp [Expr.compare, Expr.ty, Ty.isBool], fun val hval => ?_⟩
    obtain ⟨l, r, holds, hlv, hrv, hop, rfl⟩ := Expr.eval_compare_eq_ok_iff.1 hval
    cases hop
    show some (Smt.Value.bool !(l == r)) = some (Smt.Value.bool !(a == b))
    rw [Value.smt?_beq (hl.value l hlv) (hr.value r hrv)]

/-! ## Chains -/

theorem foldl_and (ps : List Bool) (p : Bool) :
    ps.foldl Connective.and.apply p = (p :: ps).all id := by
  induction ps generalizing p with
  | nil => simp
  | cons q ps ih =>
    rw [List.foldl_cons, ih, List.all_cons, List.all_cons, List.all_cons, ← Bool.and_assoc]
    rfl

theorem foldl_or (ps : List Bool) (p : Bool) :
    ps.foldl Connective.or.apply p = (p :: ps).any id := by
  induction ps generalizing p with
  | nil => simp
  | cons q ps ih =>
    rw [List.foldl_cons, ih, List.any_cons, List.any_cons, List.any_cons, ← Bool.or_assoc]
    rfl

/-- A chain of operations denotes the operation on integers taken from left to right. -/
theorem foldl_arith (op : Arith) {xs : List (Expr × Int)}
    (h : Denotes v .int e (.int m)) (hxs : ∀ x ∈ xs, Denotes v .int x.1 (.int x.2)) :
    Denotes v .int ((xs.map (·.1)).foldl (Expr.arith op) e)
      (.int ((xs.map (·.2)).foldl op.exact m)) := by
  induction xs generalizing e m with
  | nil => exact h
  | cons x xs ih =>
    have hfirst := h.arith (hxs x (by simp)) (fun _ => (rfl : op.exact m x.2 = _))
    exact ih hfirst fun y hy => hxs y (by simp [hy])

/-- So does a chain of connectives, on booleans. -/
theorem foldl_logic (op : Connective) {xs : List (Expr × Bool)} (h : Denotes v .bool e (.bool p))
    (hxs : ∀ x ∈ xs, Denotes v .bool x.1 (.bool x.2)) :
    Denotes v .bool ((xs.map (·.1)).foldl (Expr.logic op) e)
      (.bool ((xs.map (·.2)).foldl op.apply p)) := by
  induction xs generalizing e p with
  | nil => exact h
  | cons x xs ih =>
    have hfirst := h.logic op (hxs x (by simp))
    exact ih hfirst fun y hy => hxs y (by simp [hy])

/-- A conjunction denotes whether all its operands hold. -/
theorem conj {xs : List (Expr × Bool)} (hxs : ∀ x ∈ xs, Denotes v .bool x.1 (.bool x.2)) :
    Denotes v .bool (Expr.conj (xs.map (·.1))) (.bool ((xs.map (·.2)).all id)) := by
  cases xs with
  | nil => exact literal true
  | cons x xs =>
    obtain ⟨hx, hxs⟩ := List.forall_mem_cons.1 hxs
    have hchain := hx.foldl_logic .and hxs
    rw [foldl_and] at hchain
    exact hchain

/-- A disjunction denotes whether one of them holds. -/
theorem disj {xs : List (Expr × Bool)} (hxs : ∀ x ∈ xs, Denotes v .bool x.1 (.bool x.2)) :
    Denotes v .bool (Expr.disj (xs.map (·.1))) (.bool ((xs.map (·.2)).any id)) := by
  cases xs with
  | nil => exact literal false
  | cons x xs =>
    obtain ⟨hx, hxs⟩ := List.forall_mem_cons.1 hxs
    have hchain := hx.foldl_logic .or hxs
    rw [foldl_or] at hchain
    exact hchain

/-! ## Neighbours and pairs -/

/-- A chain of equalities denotes whether each value is equal to the next. -/
theorem chained {xs : List (Expr × Smt.Value)} (hxs : ∀ x ∈ xs, Denotes v τ x.1 x.2) :
    Denotes v .bool
      (Expr.conj ((Expr.neighbours (xs.map (·.1))).map fun p => Expr.equal p.1 p.2))
      (.bool (Smt.chained (xs.map (·.2)))) := by
  -- each link denotes the equality of its two values
  have hpairs : ∀ y ∈ (xs.zip (xs.drop 1)).map fun p => (Expr.equal p.1.1 p.2.1, p.1.2 == p.2.2),
      Denotes v .bool y.1 (.bool y.2) := by
    intro y hy
    obtain ⟨p, hp, rfl⟩ := List.mem_map.1 hy
    obtain ⟨hfirst, hsecond⟩ := List.of_mem_zip hp
    exact (hxs p.1 hfirst).equal (hxs p.2 (List.mem_of_mem_drop hsecond))
  have hneighbours : Expr.neighbours (xs.map (·.1))
      = (xs.zip (xs.drop 1)).map fun p => (p.1.1, p.2.1) := by
    rw [Expr.neighbours, ← List.map_drop, List.zip_map]
    rfl
  have hchained : Smt.chained (xs.map (·.2))
      = (xs.zip (xs.drop 1)).all fun p => p.1.2 == p.2.2 := by
    rw [Smt.chained, ← List.map_drop, List.zip_map, List.all_map]
    rfl
  have hconj := conj hpairs
  rw [List.map_map, List.map_map, List.all_map] at hconj
  rw [hneighbours, List.map_map, hchained]
  exact hconj

/-- Each element of a list with every later one. -/
def laterPairs {α : Type} : List α → List (α × α)
  | [] => []
  | x :: xs => xs.map (fun later => (x, later)) ++ laterPairs xs

/-- Both parts of a pair come from the list. -/
theorem mem_of_laterPairs {α : Type} {xs : List α} {p : α × α} (h : p ∈ laterPairs xs) :
    p.1 ∈ xs ∧ p.2 ∈ xs := by
  induction xs with
  | nil => cases h
  | cons x xs ih =>
    rcases List.mem_append.1 h with h | h
    · obtain ⟨later, hlater, rfl⟩ := List.mem_map.1 h
      exact ⟨List.mem_cons_self, List.mem_cons_of_mem x hlater⟩
    · obtain ⟨hfirst, hsecond⟩ := ih h
      exact ⟨List.mem_cons_of_mem x hfirst, List.mem_cons_of_mem x hsecond⟩

/-- The pairs that an inequality of several operands compares, seen with the values of the
operands. -/
theorem pairs_map (xs : List (Expr × Smt.Value)) :
    Expr.pairs (xs.map (·.1)) = (laterPairs xs).map fun p => (p.1.1, p.2.1) := by
  induction xs with
  | nil => rfl
  | cons x xs ih =>
    rw [List.map_cons, Expr.pairs, laterPairs, List.map_append, ih, List.map_map, List.map_map]
    rfl

/-- Values differ from each other if those of each pair do. -/
theorem nodup_map (xs : List (Expr × Smt.Value)) :
    decide (xs.map (·.2)).Nodup = (laterPairs xs).all fun p => p.1.2 != p.2.2 := by
  rw [Bool.eq_iff_iff, decide_eq_true_iff, List.all_eq_true]
  induction xs with
  | nil => simp [laterPairs]
  | cons x xs ih =>
    rw [List.map_cons, List.nodup_cons, ih, laterPairs, List.forall_mem_append]
    refine and_congr_left fun _ => ?_
    simp only [List.mem_map, bne_iff_ne]
    constructor
    · rintro hx _ ⟨later, hlater, rfl⟩ heq
      exact hx ⟨later, hlater, heq.symm⟩
    · rintro hx ⟨later, hlater, heq⟩
      exact hx _ ⟨later, hlater, rfl⟩ heq.symm

/-- The pairwise inequalities denote whether all values are different. -/
theorem distinct {xs : List (Expr × Smt.Value)} (hxs : ∀ x ∈ xs, Denotes v τ x.1 x.2) :
    Denotes v .bool (Expr.conj ((Expr.pairs (xs.map (·.1))).map fun p => Expr.differ p.1 p.2))
      (.bool (decide (xs.map (·.2)).Nodup)) := by
  -- each pair denotes that its two values differ
  have hpairs : ∀ y ∈ (laterPairs xs).map fun p => (Expr.differ p.1.1 p.2.1, p.1.2 != p.2.2),
      Denotes v .bool y.1 (.bool y.2) := by
    intro y hy
    obtain ⟨p, hp, rfl⟩ := List.mem_map.1 hy
    obtain ⟨hfirst, hsecond⟩ := mem_of_laterPairs hp
    exact (hxs p.1 hfirst).differ (hxs p.2 hsecond)
  have hconj := conj hpairs
  rw [List.map_map, List.map_map, List.all_map] at hconj
  rw [pairs_map, List.map_map, nodup_map]
  exact hconj

end Denotes

/-! ## Applications

Operands stand in rows of their sorts, their formulas and their values. -/

/-- An operator applied to the formulas of its operands gives a formula, and applied to their values
the value that this formula denotes. -/
def Applies (zero : Smt.ByZero) (v : Valuation) (head : String) (es : List Expr)
    (as : List Smt.Value) (τ : Smt.Srt) : Prop :=
  ∃ e a, (applyNamed head es).toOption = some e ∧ Smt.apply zero head as = some a ∧ Denotes v τ e a

section

variable {zero : Smt.ByZero} {v : Valuation} {head : String} {τ : Smt.Srt} {sorts : List Smt.Srt}
  {rows : List (Smt.Srt × Expr × Smt.Value)}

/-- Operands of one sort with values of one kind. -/
theorem exists_operands {β : Type} {value : β → Smt.Value}
    (hvalue : ∀ {e a}, Denotes v τ e a → ∃ b, a = value b)
    (hrows : ∀ row ∈ rows, Denotes v row.1 row.2.1 row.2.2) (hsorts : rows.map (·.1) = sorts)
    (hsort : ∀ other ∈ sorts, other = τ) :
    ∃ xs : List (Expr × β), xs.length = sorts.length ∧
      (∀ x ∈ xs, Denotes v τ x.1 (value x.2)) ∧
      rows.map (·.2.1) = xs.map (·.1) ∧ rows.map (·.2.2) = (xs.map (·.2)).map value := by
  induction rows generalizing sorts with
  | nil =>
    subst hsorts
    exact ⟨[], rfl, nofun, rfl, rfl⟩
  | cons row rows ih =>
    subst hsorts
    obtain ⟨hrow, hmore⟩ := List.forall_mem_cons.1 hrows
    obtain ⟨hfirst, hothers⟩ := List.forall_mem_cons.1 hsort
    obtain ⟨xs, hlength, hxs, hexprs, hvalues⟩ := ih hmore rfl hothers
    obtain ⟨s, e, a⟩ := row
    -- all operands have the one sort, so each value has its form
    obtain rfl : s = τ := hfirst
    obtain ⟨b, rfl⟩ := hvalue hrow
    refine ⟨(e, b) :: xs, ?_, List.forall_mem_cons.2 ⟨hrow, hxs⟩, ?_, ?_⟩
    · rw [List.length_cons, hlength]
      rfl
    · rw [List.map_cons, List.map_cons, hexprs]
    · rw [List.map_cons, List.map_cons, List.map_cons, hvalues]

/-- Two operands of integer sort denote integers. -/
theorem exists_two_ints (hrows : ∀ row ∈ rows, Denotes v row.1 row.2.1 row.2.2)
    (hsorts : rows.map (·.1) = [.int, .int]) :
    ∃ l r m n, rows.map (·.2.1) = [l, r] ∧ rows.map (·.2.2) = [.int m, .int n] ∧
      Denotes v .int l (.int m) ∧ Denotes v .int r (.int n) := by
  obtain ⟨xs, hlength, hxs, hexprs, hvalues⟩ :=
    exists_operands Denotes.exists_int hrows hsorts (by simp)
  match xs, hlength with
  | [x, y], _ => exact ⟨x.1, y.1, x.2, y.2, hexprs, hvalues, hxs x (by simp), hxs y (by simp)⟩

/-- **Comparisons** mean what the solver's operators mean, on two integers. -/
theorem applies_compare {op : Comparison} {holds : Int → Int → Bool}
    (hname : ∀ l r, (applyNamed head [l, r]).toOption = some (Expr.compare op l r))
    (hsmt : ∀ m n, Smt.apply zero head [.int m, .int n] = some (.bool (holds m n)))
    (hop : ∀ i j : Int64, op.apply (.int i) (.int j) = .ok (holds i.toInt j.toInt))
    (hrows : ∀ row ∈ rows, Denotes v row.1 row.2.1 row.2.2)
    (hsorts : rows.map (·.1) = [.int, .int]) :
    Applies zero v head (rows.map (·.2.1)) (rows.map (·.2.2)) .bool := by
  obtain ⟨l, r, m, n, hexprs, hvalues, hl, hr⟩ := exists_two_ints hrows hsorts
  rw [hexprs, hvalues]
  refine ⟨_, _, hname l r, hsmt m n, hl.compare hr ?_⟩
  rintro i j rfl rfl
  exact hop i j

/-- **Division and remainder** do so where the divisor is not zero; there the solver takes any
value. -/
theorem applies_divide {op : Arith} {byZero : Int → Int}
    (hname : ∀ l r, (applyNamed head [l, r]).toOption = some (Expr.arith op l r))
    (hsmt : ∀ m n, Smt.apply zero head [.int m, .int n]
      = some (.int (if n = 0 then byZero m else op.exact m n)))
    (hdivides : op.divides = true) (hrows : ∀ row ∈ rows, Denotes v row.1 row.2.1 row.2.2)
    (hsorts : rows.map (·.1) = [.int, .int]) :
    Applies zero v head (rows.map (·.2.1)) (rows.map (·.2.2)) .int := by
  obtain ⟨l, r, m, n, hexprs, hvalues, hl, hr⟩ := exists_two_ints hrows hsorts
  rw [hexprs, hvalues]
  exact ⟨_, _, hname l r, hsmt m n, hl.arith hr fun hzero => if_neg (hzero hdivides)⟩

/-- **Sums, differences and products** do so for any number of operands from two on. -/
theorem applies_chain {op : Arith}
    (hname : ∀ l r es, (applyNamed head (l :: r :: es)).toOption
      = some (Expr.chain op (l :: r :: es)))
    (hsmt : ∀ a b as, Smt.apply zero head (a :: b :: as) = Smt.leftAssoc op.exact (a :: b :: as))
    (hrows : ∀ row ∈ rows, Denotes v row.1 row.2.1 row.2.2) {s s' : Smt.Srt} {ss : List Smt.Srt}
    (hsorts : rows.map (·.1) = s :: s' :: ss) (hint : ∀ other ∈ s :: s' :: ss, other = .int) :
    Applies zero v head (rows.map (·.2.1)) (rows.map (·.2.2)) .int := by
  obtain ⟨xs, hlength, hxs, hexprs, hvalues⟩ :=
    exists_operands Denotes.exists_int hrows hsorts hint
  rw [hexprs, hvalues]
  match xs, hlength with
  | x :: y :: xs, _ =>
    obtain ⟨hx, hmore⟩ := List.forall_mem_cons.1 hxs
    -- the first operand starts the fold, on both sides
    have hchain := hx.foldl_arith op hmore
    exact ⟨_, _, hname _ _ _, (hsmt _ _ _).trans (Smt.leftAssoc_map _ _ _ _), hchain⟩

/-- An equality of two operands is the chain of one link. -/
theorem applyNamed_equal (l r : Expr) (es : List Expr) :
    (applyNamed "=" (l :: r :: es)).toOption
      = some (Expr.conj ((Expr.neighbours (l :: r :: es)).map fun p => Expr.equal p.1 p.2)) := by
  cases es <;> rfl

/-- Operands that are all boolean, and at least one of them. -/
theorem applies_junction {formula : List Expr → Expr} {holds : List Bool → Bool}
    (hname : ∀ e es, (applyNamed head (e :: es)).toOption = some (formula (e :: es)))
    (hsmt : ∀ a as, Smt.apply zero head (a :: as)
      = (Smt.bools? (a :: as)).map fun bs => .bool (holds bs))
    (hformula : ∀ {xs : List (Expr × Bool)}, (∀ x ∈ xs, Denotes v .bool x.1 (.bool x.2)) →
      Denotes v .bool (formula (xs.map (·.1))) (.bool (holds (xs.map (·.2)))))
    (hrows : ∀ row ∈ rows, Denotes v row.1 row.2.1 row.2.2) {s : Smt.Srt} {ss : List Smt.Srt}
    (hsorts : rows.map (·.1) = s :: ss) (hbool : ∀ other ∈ s :: ss, other = .bool) :
    Applies zero v head (rows.map (·.2.1)) (rows.map (·.2.2)) .bool := by
  obtain ⟨xs, hlength, hxs, hexprs, hvalues⟩ :=
    exists_operands Denotes.exists_bool hrows hsorts hbool
  rw [hexprs, hvalues]
  match xs, hlength with
  | x :: xs, _ =>
    have hbools := congrArg (Option.map fun bs => Smt.Value.bool (holds bs))
      (Smt.bools?_map ((x :: xs).map (·.2)))
    exact ⟨_, _, hname _ _, (hsmt _ _).trans hbools, hformula hxs⟩

/-- A relation that compares all operands, of whatever sort they are. -/
theorem applies_relation (formula : List Expr → Expr) (holds : List Smt.Value → Bool)
    (hname : ∀ l r es, (applyNamed head (l :: r :: es)).toOption = some (formula (l :: r :: es)))
    (hsmt : ∀ a b as, Smt.apply zero head (a :: b :: as) = some (.bool (holds (a :: b :: as))))
    (hformula : ∀ {s : Smt.Srt} {xs : List (Expr × Smt.Value)}, (∀ x ∈ xs, Denotes v s x.1 x.2) →
      Denotes v .bool (formula (xs.map (·.1))) (.bool (holds (xs.map (·.2)))))
    (hrows : ∀ row ∈ rows, Denotes v row.1 row.2.1 row.2.2) {s s' : Smt.Srt} {ss : List Smt.Srt}
    (hsorts : rows.map (·.1) = s :: s' :: ss) (hsame : ∀ other ∈ s' :: ss, other = s) :
    Applies zero v head (rows.map (·.2.1)) (rows.map (·.2.2)) .bool := by
  have hsort : ∀ other ∈ s :: s' :: ss, other = s := List.forall_mem_cons.2 ⟨rfl, hsame⟩
  obtain ⟨xs, hlength, hxs, hexprs, hvalues⟩ :=
    exists_operands (fun {_ a} _ => ⟨a, rfl⟩) hrows hsorts hsort
  rw [List.map_id'] at hvalues
  rw [hexprs, hvalues]
  match xs, hlength with
  | x :: y :: xs, _ => exact ⟨_, _, hname _ _ _, hsmt _ _ _, hformula hxs⟩

/-- **An operator on decoded operands means what the operator means on terms.** -/
theorem applies_of_sorts (zero : Smt.ByZero) (hrows : ∀ row ∈ rows, Denotes v row.1 row.2.1 row.2.2)
    (h : Smt.Srt.apply head (rows.map (·.1)) = some τ) :
    Applies zero v head (rows.map (·.2.1)) (rows.map (·.2.2)) τ := by
  generalize hsorts : rows.map (·.1) = sorts at h
  unfold Smt.Srt.apply at h
  -- one case for each way in which an operator takes sorts
  split at h
  case h_1 =>
    -- equality: neighbours are compared
    obtain ⟨hsame, ⟨⟩⟩ := Option.ite_none_right_eq_some.1 h
    exact applies_relation (fun es => .conj ((Expr.neighbours es).map fun p => .equal p.1 p.2))
      Smt.chained applyNamed_equal (fun _ _ _ => rfl) Denotes.chained hrows hsorts hsame
  case h_2 =>
    -- distinctness: all pairs are compared
    obtain ⟨hsame, ⟨⟩⟩ := Option.ite_none_right_eq_some.1 h
    exact applies_relation (fun es => .conj ((Expr.pairs es).map fun p => .differ p.1 p.2))
      (fun as => decide as.Nodup) (fun _ _ _ => rfl) (fun _ _ _ => rfl) Denotes.distinct hrows
      hsorts hsame
  case h_3 | h_4 | h_5 | h_6 =>
    cases h
    refine applies_compare (fun _ _ => rfl) (fun _ _ => rfl) (fun i j => ?_) hrows hsorts
    simp only [Comparison.apply, Int64.le_iff_toInt_le, Int64.lt_iff_toInt_lt]
    rfl
  case h_7 =>
    -- a minus sign before a single operand is a sign
    cases h
    obtain ⟨xs, hlength, hxs, hexprs, hvalues⟩ :=
      exists_operands Denotes.exists_int hrows hsorts (by simp)
    rw [hexprs, hvalues]
    match xs, hlength with
    | [x], _ => exact ⟨_, _, rfl, rfl, (hxs x List.mem_cons_self).minus⟩
  case h_8 | h_9 | h_10 =>
    obtain ⟨hint, ⟨⟩⟩ := Option.ite_none_right_eq_some.1 h
    exact applies_chain (fun _ _ _ => rfl) (fun a _ _ => by cases a <;> rfl) hrows hsorts hint
  case h_11 | h_12 =>
    cases h
    exact applies_divide (fun _ _ => rfl) (fun _ _ => rfl) rfl hrows hsorts
  case h_13 =>
    obtain ⟨hbool, ⟨⟩⟩ := Option.ite_none_right_eq_some.1 h
    exact applies_junction (fun _ _ => rfl) (fun _ _ => rfl) Denotes.conj hrows hsorts hbool
  case h_14 =>
    obtain ⟨hbool, ⟨⟩⟩ := Option.ite_none_right_eq_some.1 h
    exact applies_junction (fun _ _ => rfl) (fun _ _ => rfl) Denotes.disj hrows hsorts hbool
  case h_15 =>
    cases h
    obtain ⟨xs, hlength, hxs, hexprs, hvalues⟩ :=
      exists_operands Denotes.exists_bool hrows hsorts (by simp)
    rw [hexprs, hvalues]
    match xs, hlength with
    | [x], _ => exact ⟨_, _, rfl, rfl, (hxs x List.mem_cons_self).negation⟩
  case h_16 => cases h

end

end Interpolants
