import Interpolants.Sexp.Basic

/-!
# Interpolants — the order of s-expressions

Atoms come before comments and comments before lists. Numerals come before symbols, texts are
ordered by code points and lists lexicographically.
-/

namespace Interpolants

/-- Numerals by value, then symbols by code points. -/
def Atom.order : Atom → Atom → Ordering
  | .numeral m, .numeral n => Ord.compare m.toNat n.toNat
  | .numeral _, .symbol _ => .lt
  | .symbol _, .numeral _ => .gt
  | .symbol s, .symbol t => Ord.compare s t

namespace Sexp

mutual

/-- Which of two s-expressions comes first. -/
def order : Sexp → Sexp → Ordering
  | .atom a, .atom b => a.order b
  | .atom _, _ => .lt
  | .comment _, .atom _ => .gt
  | .comment s, .comment t => Ord.compare s t
  | .comment _, .list _ => .lt
  | .list as, .list bs => orderItems as bs
  | .list _, _ => .gt

/-- Which of two lists comes first: the one whose first differing element does, or the shorter. -/
def orderItems : List Sexp → List Sexp → Ordering
  | [], [] => .eq
  | [], _ :: _ => .lt
  | _ :: _, [] => .gt
  | a :: as, b :: bs => (order a b).then (orderItems as bs)

end

/-- Keeps one of each run of equal neighbours. -/
def mergeEqual : List Sexp → List Sexp
  | [] => []
  | a :: rest =>
    match mergeEqual rest with
    | [] => [a]
    | b :: kept => if a = b then b :: kept else a :: b :: kept

/-- The different s-expressions among some, in order. -/
def sorted (ts : List Sexp) : List Sexp :=
  mergeEqual (ts.mergeSort fun a b => (order a b).isLE)

end Sexp

end Interpolants
