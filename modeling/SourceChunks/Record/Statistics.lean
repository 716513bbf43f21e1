import SourceChunks.Record

/-!
# Statistics of a list of records
-/

namespace SourceChunks

structure Statistics where
  totalChunks : Nat
  topLevelChunks : Nat
  /-- The lines of the top-level records; a line that two of them share counts twice. -/
  totalLines : Nat
  maxDepth : Nat
  syntheticChunks : Nat
  splitFragments : Nat
  diagnostics : Nat
deriving DecidableEq, Repr

namespace Statistics

def ofRecords (records : List Record) : Statistics :=
  let topLevel := records.filter fun r => r.parentId.isNone
  { totalChunks := records.length
    topLevelChunks := topLevel.length
    totalLines := (topLevel.map Record.lineCount).foldl (· + ·) 0
    maxDepth := (records.map Record.depth).foldl max 0
    syntheticChunks := records.countP Record.synthetic
    splitFragments := records.countP fun r => r.splitFrom.isSome
    diagnostics := (records.map fun r => r.diagnostics.length).foldl (· + ·) 0 }

/-- The statistics on one line. -/
def display (s : Statistics) : String :=
  "Chunks: " ++ toString s.totalChunks ++ " (" ++ toString s.topLevelChunks
    ++ " top-level) | Lines: " ++ toString s.totalLines ++ " | Max depth: " ++ toString s.maxDepth
    ++ " | Synthetic: " ++ toString s.syntheticChunks ++ " | Fragments: "
    ++ toString s.splitFragments ++ " | Diagnostics: " ++ toString s.diagnostics

end Statistics

end SourceChunks
