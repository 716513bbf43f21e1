import SourceChunks.Span

/-!
# Greedy packing

A range is cut into pieces at given places so that each piece is as long as the bound allows. A
piece for which even the first cut is too far ends at that cut all the same. What a piece measures
is a parameter.
-/

namespace SourceChunks.Packing

/-- The last pieces, once no cut is left. -/
def close (size : Nat → Nat → Nat) (max stop start : Nat) : Option Nat → List ByteRange
  | none => [⟨start, stop⟩]
  | some fit => if max < size start stop then [⟨start, fit⟩, ⟨fit, stop⟩] else [⟨start, stop⟩]

/-- The pieces from `start` on; `fit` is the last cut that still fitted the piece being made. -/
def packFrom (size : Nat → Nat → Nat) (max stop : Nat) :
    Nat → Option Nat → List Nat → List ByteRange
  | start, fit, [] => close size max stop start fit
  | start, fit, cut :: cuts =>
    if cut ≤ start then packFrom size max stop start fit cuts
    else if size start cut ≤ max then packFrom size max stop start (some cut) cuts
    else match fit with
      | none => ⟨start, cut⟩ :: packFrom size max stop cut none cuts
      | some fit =>
        ⟨start, fit⟩ ::
          if cut ≤ fit then packFrom size max stop fit none cuts
          else if size fit cut ≤ max then packFrom size max stop fit (some cut) cuts
          else ⟨fit, cut⟩ :: packFrom size max stop cut none cuts

/-- The pieces of a range with increasing cuts inside it. -/
def pack (size : Nat → Nat → Nat) (max start stop : Nat) (cuts : List Nat) : List ByteRange :=
  packFrom size max stop start none cuts

end SourceChunks.Packing
