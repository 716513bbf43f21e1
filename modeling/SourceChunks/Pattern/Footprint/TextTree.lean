import SourceChunks.Pattern.Footprint

/-!
# The footprint of a choice between texts

Texts are read by a tree in which what texts begin with in common stands once. Of two texts the
earlier one is preferred, so a node at which a text ends is cut there: texts that come later go on
from a part of their own.
-/

namespace SourceChunks.Pattern

/-- Cuts a list of texts at those that are used up. -/
def segments : List (List UInt8) → List (List (List UInt8))
  | [] => [[]]
  | [] :: ts => [] :: segments ts
  | t :: ts =>
    match segments ts with
    | [] => [[t]]
    | s :: ss => (t :: s) :: ss

/-- The texts of a segment by their first bytes. -/
def branches (ts : List (List UInt8)) : List (List (List UInt8)) :=
  (ts.filterMap List.head?).eraseDups.map fun b =>
    ts.filterMap fun
      | c :: t => if c == b then some t else none
      | [] => none

/-- How much a choice between texts grows a footprint: a tree that reads what texts have in common
only once. A node where a text ends is cut there, so that earlier texts go first; texts that end
there before anything goes on count once. No text is longer than `depth`. -/
def treeSize : (depth : Nat) → List (List UInt8) → Nat × Nat
  | 0, _ => (0, 0)
  | depth + 1, ts =>
    if ts.all List.isEmpty then (0, 0)
    else
      let cuts := segments ts
      let leading := (cuts.takeWhile List.isEmpty).length
      let ends := cuts.length - 1 - (leading - 1)
      let full := cuts.filter fun s => !s.isEmpty
      let own := full.foldl (fun (n, b) s =>
        let width := (branches s).length
        (n + 1, b + if width == 1 then 0 else 8 * width)) (1, 4 * (full.length + ends))
      full.foldl (fun size s =>
        (branches s).foldl (fun (n, b) t =>
          let (n', b') := treeSize depth t
          (n + n', b + b')) size) own

end SourceChunks.Pattern
