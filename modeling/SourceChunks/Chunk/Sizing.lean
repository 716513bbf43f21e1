import SourceChunks.Chunk.Merge
import SourceChunks.Chunk.Split

/-!
# Chunks within the size bounds

Trivial gaps are merged if that is asked for, oversized chunks are split, and siblings are put in
order again.
-/

namespace SourceChunks.ChunkTree

/-- Siblings in order at every level. -/
def inOrder (t : ChunkTree) : ChunkTree := { t with roots := t.roots.sorted }

def withinBounds (cfg : Config) (src : Source) (t : ChunkTree) : ChunkTree :=
  let merged := if cfg.mergeAdjacentTrivial then t.mergeTrivial cfg src else t
  (merged.splitOversized cfg src).inOrder

end SourceChunks.ChunkTree
