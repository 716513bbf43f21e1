import SourceChunks.Chunk
import SourceChunks.Measure

/-!
# Merging trivial gaps

A root is trivial when it is a gap without children that measures less than the lower bound. The
roots are cut into blocks: a root that is not trivial stands alone, and neighbouring trivial roots
form runs that stay within the upper bound. A run becomes one chunk if it opens the file or has at
least two members.
-/

namespace SourceChunks

/-- A root kept as it is, or a run of trivial roots; a run is leading when it opens the file. -/
inductive Block
  | kept (root : RoseTree Chunk)
  | run (leading : Bool) (first : RoseTree Chunk) (rest : ChunkForest)

namespace Block

def members : Block → ChunkForest
  | kept root => [root]
  | run _ first rest => first :: rest

end Block

namespace Merge

def isTrivial (cfg : Config) (src : Source) (root : RoseTree Chunk) : Bool :=
  root.label.isGap && root.children.isEmpty
    && src.measure cfg.sizeUnit root.label.span < cfg.minUnitSize

/-- Whether a run from `first` can take in `last` and stay within the upper bound. -/
def fits (cfg : Config) (src : Source) (first last : RoseTree Chunk) : Bool :=
  src.measureRange cfg.sizeUnit first.label.span.start last.label.span.stop ≤ cfg.maxUnitSize

/-- The blocks of a list of roots, given the run that is open before it. -/
def blocksFrom (cfg : Config) (src : Source) (leading : Bool) :
    Option (RoseTree Chunk × ChunkForest) → ChunkForest → List Block
  | none, [] => []
  | some (first, rest), [] => [.run leading first rest]
  | none, root :: roots =>
    if isTrivial cfg src root then blocksFrom cfg src leading (some (root, [])) roots
    else .kept root :: blocksFrom cfg src false none roots
  | some (first, rest), root :: roots =>
    if isTrivial cfg src root then
      if fits cfg src first root then
        blocksFrom cfg src leading (some (first, rest ++ [root])) roots
      else .run leading first rest :: blocksFrom cfg src false (some (root, [])) roots
    else .run leading first rest :: .kept root :: blocksFrom cfg src false none roots

def blocks (cfg : Config) (src : Source) (roots : ChunkForest) : List Block :=
  blocksFrom cfg src true none roots

/-- Nothing is lost or moved: the members of the blocks are the roots in order. -/
theorem flatMap_members_blocksFrom (cfg : Config) (src : Source) (leading : Bool)
    (open? : Option (RoseTree Chunk × ChunkForest)) (roots : ChunkForest) :
    (blocksFrom cfg src leading open? roots).flatMap Block.members
      = (open?.elim [] fun run => run.1 :: run.2) ++ roots := by
  fun_induction blocksFrom cfg src leading open? roots <;>
    simp_all [Block.members]

/-- The chunk that stands for a run. -/
def merged (src : Source) (index : Nat) (leading : Bool) (start stop : Nat) : Chunk where
  index := index
  kind := .moduleDef
  name := if leading then "<preamble>" else "<module@" ++ src.lines.place start ++ ">"
  span := src.span start stop
  depth := 0
  origin := .synthetic

/-- The roots that a block leaves, and the number for the next chunk. -/
def emit (src : Source) (next : Nat) : Block → ChunkForest × Nat
  | .kept root => ([root], next)
  | .run leading first rest =>
    if leading || !rest.isEmpty then
      let stop := (rest.getLastD first).label.span.stop
      ([.node (merged src next leading first.label.span.start stop) []], next + 1)
    else ([first], next)

def emitAll (src : Source) (next : Nat) : List Block → ChunkForest × Nat
  | [] => ([], next)
  | b :: bs =>
    let (roots, next) := emit src next b
    let (more, next) := emitAll src next bs
    (roots ++ more, next)

end Merge

/-- Merges the trivial roots of a tree. -/
def ChunkTree.mergeTrivial (cfg : Config) (src : Source) (t : ChunkTree) : ChunkTree :=
  let (roots, made) := Merge.emitAll src t.made (Merge.blocks cfg src t.roots)
  { t with roots := roots, made := made }

end SourceChunks
