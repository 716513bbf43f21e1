import SourceChunks.Chunk.Packing
import SourceChunks.Chunk
import SourceChunks.Measure

/-!
# Splitting oversized chunks

A chunk that measures more than the upper bound is replaced by fragments that tile it. It is cut
only where one of its children starts or ends or, if it has none, where a line starts. The first
fragment keeps what was known about the chunk. Each child goes to the first fragment that contains
it, and is split in turn if it is too large itself.
-/

namespace SourceChunks.Split

/-! ## Where to cut -/

/-- The places strictly inside a chunk where it may be cut, in order. -/
def cuts (lines : LineIndex) (c : Chunk) (children : ChunkForest) : List Nat :=
  let start := c.span.start
  let stop := c.span.stop
  if children.isEmpty then lines.startsWithin start stop
  else
    let ends := children.flatMap fun t => [t.label.span.start, t.label.span.stop]
    (Sorting.sortOn (fun (n : Nat) => n) (ends.filter fun o => start < o && o < stop)).eraseReps

/-- The pieces that a chunk is to be split into; a single one leaves it whole. -/
def pieces (cfg : Config) (src : Source) (c : Chunk) (children : ChunkForest) : List ByteRange :=
  if cfg.maxUnitSize < src.measure cfg.sizeUnit c.span then
    Packing.pack (src.measureRange cfg.sizeUnit) cfg.maxUnitSize c.span.start c.span.stop
      (cuts src.lines c children)
  else [c.span.toByteRange]

/-! ## Fragments -/

/-- The fragment of a chunk over a piece; it knows nothing but kind, name and place. -/
def fragment (lines : LineIndex) (c : Chunk) (index : Nat) (piece : ByteRange) : Chunk where
  index := index
  kind := c.kind
  name := c.name
  span := lines.span piece.start piece.stop
  depth := c.depth
  origin := .synthetic
  splitFrom := some c.span

/-- The first fragment, which carries what was known about the chunk. -/
def firstFragment (lines : LineIndex) (c : Chunk) (index : Nat) (piece : ByteRange) : Chunk :=
  { fragment lines c index piece with
    docstring := c.docstring
    decorators := c.decorators
    signature := c.signature
    bases := c.bases
    diagnostics := c.diagnostics }

/-- Fragments numbered from `next` on. -/
def fragmentsFrom (lines : LineIndex) (c : Chunk) (next : Nat) : List ByteRange → List Chunk
  | [] => []
  | piece :: rest => fragment lines c next piece :: fragmentsFrom lines c (next + 1) rest

def fragments (lines : LineIndex) (c : Chunk) (next : Nat) : List ByteRange → List Chunk
  | [] => []
  | piece :: rest =>
    firstFragment lines c next piece :: fragmentsFrom lines c (next + 1) rest

/-! ## Children -/

/-- A former child: the span it had and what has become of it. -/
abbrev Placed := Span × ChunkForest

/-- Whether a fragment is the first to contain a span; the first fragment of all takes what none
contains. -/
def owns (frags : List Chunk) (f : Chunk) (span : Span) : Bool :=
  match frags.find? (·.span.contains span.toByteRange) with
  | some g => g.index == f.index
  | none => frags.head?.any (·.index == f.index)

/-- Hands the former children to the fragments. -/
def distribute (frags : List Chunk) (placed : List Placed) : ChunkForest :=
  frags.map fun f =>
    .node f (placed.flatMap fun p => if owns frags f p.1 then p.2 else [])

/-! ## The whole forest -/

mutual

/-- What becomes of a tree, and the number for the next chunk. The fragments of a chunk are
numbered before those of its children. -/
def splitTree (cfg : Config) (src : Source) (next : Nat) : RoseTree Chunk → ChunkForest × Nat
  | .node c children =>
    match pieces cfg src c children with
    | first :: second :: rest =>
      let ranges := first :: second :: rest
      let (placed, next') := splitEach cfg src (next + ranges.length) children
      (distribute (fragments src.lines c next ranges) placed, next')
    | _ =>
      let (placed, next') := splitEach cfg src next children
      ([.node c (placed.flatMap Prod.snd)], next')

/-- What becomes of each tree of a forest, in order. -/
def splitEach (cfg : Config) (src : Source) (next : Nat) : ChunkForest → List Placed × Nat
  | [] => ([], next)
  | tree :: forest =>
    let (trees, next) := splitTree cfg src next tree
    let (placed, next) := splitEach cfg src next forest
    ((tree.label.span, trees) :: placed, next)

end

end SourceChunks.Split

namespace SourceChunks.ChunkTree

/-- Splits every oversized chunk of a tree. -/
def splitOversized (cfg : Config) (src : Source) (t : ChunkTree) : ChunkTree :=
  let (placed, made) := Split.splitEach cfg src t.made t.roots
  { t with roots := placed.flatMap Prod.snd, made := made }

end SourceChunks.ChunkTree
