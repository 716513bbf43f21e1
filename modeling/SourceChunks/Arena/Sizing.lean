import SourceChunks.Arena
import SourceChunks.Chunk.Packing
import SourceChunks.Measure

/-!
# Slots within the size bounds

Trivial roots are merged into new slots, and oversized chunks are cut into new slots. Both leave the
old slots in the table. What can be reached is listed before the first chunk is cut, so a chunk is
looked at where it has come to hang by then, and fragments are not looked at again.
-/

namespace SourceChunks.Arena

/-! ## Merging -/

def isTrivial (cfg : Config) (src : Source) (a : Arena) (i : Nat) : Bool :=
  (a.slot i).origin == .gap && (a.slot i).children.isEmpty
    && src.measure cfg.sizeUnit (a.slot i).span < cfg.minUnitSize

/-- Ends a run of trivial roots: it becomes one chunk if it opens the file or has at least two
members. Comes with the roots up to the run. -/
def flushRun (lines : LineIndex) (leading : Bool) (run : List Nat) (a : Arena) (roots : List Nat) :
    Arena × List Nat :=
  match run with
  | [] => (a, roots)
  | first :: rest =>
    if !leading && rest.isEmpty then (a, roots ++ [first])
    else
      let start := (a.slot first).span.start
      let stop := (a.slot (rest.getLastD first)).span.stop
      let name := if leading then "<preamble>" else "<module@" ++ lines.place start ++ ">"
      let merged := Slot.new a.filePath .moduleDef name (lines.span start stop) 0 .synthetic
      (a.insert merged none, roots ++ [a.next])

/-- Goes through the roots with the run that is open and the roots that are done. -/
def mergeRoots (cfg : Config) (src : Source) :
    Bool → List Nat → List Nat → Arena → List Nat → Arena × List Nat
  | leading, [], run, a, roots => flushRun src.lines leading run a roots
  | leading, i :: rest, run, a, roots =>
    if isTrivial cfg src a i then
      match run with
      | [] => mergeRoots cfg src leading rest [i] a roots
      | first :: more =>
        let joined := src.lines.span (a.slot first).span.start (a.slot i).span.stop
        if cfg.maxUnitSize < src.measure cfg.sizeUnit joined then
          let (a, roots) := flushRun src.lines leading run a roots
          mergeRoots cfg src false rest [i] a roots
        else mergeRoots cfg src leading rest (first :: more ++ [i]) a roots
    else
      let (a, roots) := flushRun src.lines leading run a roots
      mergeRoots cfg src false rest [] a (roots ++ [i])

/-- Merges the trivial roots. -/
def mergeTrivial (cfg : Config) (src : Source) (a : Arena) : Arena :=
  let (b, roots) := mergeRoots cfg src true a.roots [] a []
  { b with roots := roots }

/-! ## Splitting -/

/-- The places strictly inside a chunk where it may be cut, in order. -/
def cuts (lines : LineIndex) (a : Arena) (s : Slot) : List Nat :=
  let places :=
    if s.children.isEmpty then lines.startsWithin s.span.start s.span.stop
    else (s.children.flatMap fun i => [(a.slot i).span.start, (a.slot i).span.stop]).filter
      fun o => s.span.start < o && o < s.span.stop
  (Sorting.sortOn (fun (n : Nat) => n) places).eraseReps

/-- A fragment of a chunk over a piece. The first one carries what was known about the chunk. -/
def fragmentSlot (path : String) (lines : LineIndex) (s : Slot) (isFirst : Bool)
    (piece : ByteRange) : Slot :=
  let made := Slot.new path s.kind s.name (lines.span piece.start piece.stop) s.depth .synthetic
  let fragment := { made with splitFrom := some s.id }
  if isFirst then
    { fragment with
      docstring := s.docstring
      decorators := s.decorators
      signature := s.signature
      bases := s.bases
      diagnostics := s.diagnostics }
  else fragment

/-- Adds the fragments of a chunk below its parent; also their positions. -/
def addFragments (lines : LineIndex) (s : Slot) : Bool → List ByteRange → Arena → Arena × List Nat
  | _, [], a => (a, [])
  | isFirst, piece :: pieces, a =>
    let (b, more) := addFragments lines s false pieces
      (a.insert (fragmentSlot a.filePath lines s isFirst piece) s.parent)
    (b, a.next :: more)

/-- Hands a child to the first fragment that contains it, or else to the first of all. -/
def handOver (fragments : List Nat) (a : Arena) (child : Nat) : Arena :=
  let span := (a.slot child).span
  let owner := (fragments.find? fun f => (a.slot f).span.contains span.toByteRange).getD
    (fragments.headD 0)
  (a.modifyChildren (some owner) fun children => children ++ [child]).modifySlot child
    fun s => { s with parent := some owner }

/-- Replaces a chunk by fragments that tile it, unless there is no place to cut it. -/
def split (cfg : Config) (src : Source) (a : Arena) (i : Nat) : Arena :=
  let original := a.slot i
  let pieces := Packing.pack (src.measureRange cfg.sizeUnit) cfg.maxUnitSize original.span.start
    original.span.stop (cuts src.lines a original)
  if pieces.length < 2 then a
  else
    let (b, fragments) := addFragments src.lines original true pieces a
    let handed := original.children.foldl (handOver fragments) b
    (handed.modifyChildren (some i) fun _ => []).modifyChildren original.parent
      fun children => children.filter fun c => c != i

/-- Splits a chunk if it measures more than the upper bound. -/
def splitIfOversized (cfg : Config) (src : Source) (a : Arena) (i : Nat) : Arena :=
  if cfg.maxUnitSize < src.measure cfg.sizeUnit (a.slot i).span then split cfg src a i else a

/-- Splits the oversized ones of the chunks that could be reached at first. -/
def splitOversized (cfg : Config) (src : Source) (a : Arena) : Arena :=
  a.preorder.foldl (splitIfOversized cfg src) a

/-! ## Both -/

def withinBounds (cfg : Config) (src : Source) (a : Arena) : Arena :=
  let merged := if cfg.mergeAdjacentTrivial then mergeTrivial cfg src a else a
  (splitOversized cfg src merged).sortChildren

end SourceChunks.Arena
