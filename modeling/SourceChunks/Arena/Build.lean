import SourceChunks.Arena.Sizing
import SourceChunks.Arena.Walk
import SourceChunks.Chunker

/-!
# Chunking a file in a table

The three steps on a table of slots, and the records that are read off it at the end.
-/

namespace SourceChunks.Chunker

/-- The table of a file, given its syntax tree. -/
def buildArena (k : Chunker) (path : String) (language : Language) (src : Source)
    (tree : SyntaxTree) : Arena :=
  ((Arena.walk path k.config language src tree).described k.rules tree src).withinBounds k.config
    src

/-- The table of a file in a language without a grammar. -/
def buildArenaWithoutTree (k : Chunker) (path : String) (language : Language) (src : Source) :
    Arena :=
  (Arena.fallback path language src.lines (.unsupportedLanguage language.name)).withinBounds
    k.config src

/-- The records of a file whose concrete tree is given, read off its table. -/
def chunkFileInArena (k : Chunker) (path : String) (language : Language) (src : Source)
    (cst : Cst) : Except Error (List Record) := do
  k.allow language
  match Grammar.ofLanguage? language with
  | none => pure (k.buildArenaWithoutTree path language src).records
  | some g => pure (k.buildArena path language src (SyntaxTree.ofCst g src cst)).records

end SourceChunks.Chunker
