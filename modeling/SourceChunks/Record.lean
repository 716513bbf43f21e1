import SourceChunks.Chunk.Identity
import SourceChunks.Source

/-!
# Records

The flat form of a file's chunks: a list in pre-order in which every record names its parent by
its id and carries what it shares with the other records of the file.
-/

namespace SourceChunks

structure Record where
  id : String
  parentId : Option String
  filePath : String
  language : String
  kind : ChunkKind
  name : String
  signature : String
  docstring : String
  decorators : List Decorator
  bases : List String := []
  packageName : Option String := none
  imports : List String := []
  span : Span
  depth : Nat
  synthetic : Bool
  splitFrom : Option String := none
  diagnostics : List Diagnostic := []
deriving DecidableEq, Repr

namespace Record

/-- The text that a record covers. -/
def text (r : Record) (src : Source) : String := src.slice r.span.toByteRange

def lineCount (r : Record) : Nat := r.span.lineCount

/-- The record of a chunk of a file. -/
def ofChunk (path : String) (t : ChunkTree) (parentId : Option String) (c : Chunk) : Record where
  id := c.id path
  parentId := parentId
  filePath := path
  language := t.language.name
  kind := c.kind
  name := c.name
  signature := c.signature
  docstring := c.docstring
  decorators := c.decorators
  bases := c.bases
  packageName := t.packageName
  imports := t.imports
  span := c.span
  depth := c.depth
  synthetic := c.isSynthetic
  splitFrom := c.splitFromId path
  diagnostics := c.diagnostics

end Record

namespace ChunkTree

mutual

/-- The records of a tree of chunks below a parent. -/
def treeRecords (t : ChunkTree) (path : String) (parentId : Option String) :
    RoseTree Chunk → List Record
  | .node c forest =>
    Record.ofChunk path t parentId c :: forestRecords t path (some (c.id path)) forest

def forestRecords (t : ChunkTree) (path : String) (parentId : Option String) :
    ChunkForest → List Record
  | [] => []
  | tree :: forest => treeRecords t path parentId tree ++ forestRecords t path parentId forest

end

/-- The records of a file, parents before children and siblings in order. -/
def records (t : ChunkTree) (path : String) : List Record := t.forestRecords path none t.roots

end ChunkTree

end SourceChunks
