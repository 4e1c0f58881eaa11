import Interpolants.Proofs.Decoding.Scoping

/-!
# Interpolants — decoding several terms

The terms of one answer are decoded one after the other and share the table of let blocks. What one
of them leaves in the table is never in the way of the next: each is decoded as if it were alone.
-/

namespace Interpolants

open Sexp

variable {declared : Registry} {ts : List Sexp} {es : List Expr}

/-- Whatever was decoded before, each term is decoded to the formula that it stands for. -/
theorem map_decodeEachFrom (h : ∀ t ∈ ts, t.Spelled Decode.Plain) {blocks : Bindings}
    (hblocks : Decode.Numbered blocks) :
    (decodeEachFrom declared blocks (ts.map render)).map Except.toOption
      = ts.map fun t => t.formula? declared [] := by
  induction ts generalizing blocks with
  | nil => rfl
  | cons t ts ih =>
    obtain ⟨ht, hts⟩ := List.forall_mem_cons.1 h
    have hgrown : Decode.Numbered (Decode.run declared blocks t.render).2 :=
      (Decode.grows_inScope declared [] t.render.toList blocks hblocks).1
    rw [List.map_cons, decodeEachFrom, List.map_cons, List.map_cons, toOption_run ht hblocks,
      ih hts hgrown]

/-- **All terms of an answer are decoded to the formulas that they stand for.** -/
theorem formulas_of_decodeEach (h : ∀ t ∈ ts, t.Spelled Decode.Plain)
    (hdecode : (decodeEach declared (ts.map render)).mapM id = .ok es) :
    ts.map (fun t => t.formula? declared []) = es.map some := by
  rw [← map_decodeEachFrom h Decode.numbered_nil]
  have hresults : decodeEachFrom declared [] (ts.map render) = es.map .ok :=
    mapM_id_eq_ok_iff.1 hdecode
  rw [hresults, List.map_map]
  rfl

end Interpolants
