import SourceChunks.Chunk.Metadata
import SourceChunks.Chunk.Sizing
import SourceChunks.Chunk.Units
import SourceChunks.Grammar.OfLanguage
import SourceChunks.Record
import SourceChunks.SyntaxTree.OfCst

/-!
# Chunking a file

A chunker is a configuration that has been accepted together with its rules. It turns a source
text and its syntax tree into chunks in three steps: the units of the tree, their metadata, and
their sizes. A language without a grammar gives one chunk for the file, cut at lines if it is too
large.
-/

namespace SourceChunks

structure Chunker where
  config : Config
  rules : Rules

namespace Chunker

/-- A chunker for a configuration, unless something is wrong with it. -/
def new (config : Config) : Except Error Chunker :=
  match config.problem? with
  | some cause => .error (.invalidConfig cause)
  | none => (Rules.ofConfig config.decoratorRules).map fun rules => ⟨config, rules⟩

/-- The chunks after each of the three steps. -/
structure Stages where
  units : ChunkTree
  described : ChunkTree
  sized : ChunkTree

def stages (k : Chunker) (language : Language) (src : Source) (tree : SyntaxTree) : Stages :=
  let units := ChunkTree.ofSyntaxTree k.config language src tree
  let described := units.described k.rules tree src
  ⟨units, described, described.withinBounds k.config src⟩

/-- The chunks of a file, given its syntax tree. -/
def build (k : Chunker) (language : Language) (src : Source) (tree : SyntaxTree) : ChunkTree :=
  (k.stages language src tree).sized

/-- The chunks of a file in a language without a grammar. -/
def buildWithoutTree (k : Chunker) (language : Language) (src : Source) : ChunkTree :=
  (ChunkTree.fallback language src.lines (.unsupportedLanguage language.name)).withinBounds
    k.config src

/-- Refuses a language that the configuration does not list. -/
def allow (k : Chunker) (language : Language) : Except Error Unit :=
  if k.config.accepts language.name then .ok () else .error (.unsupportedLanguage language.name)

/-- The records of a file whose syntax tree is given. -/
def chunkTree (k : Chunker) (path : String) (language : Language) (src : Source)
    (tree : SyntaxTree) : Except Error (List Record) := do
  k.allow language
  pure ((k.build language src tree).records path)

/-- The records of a file whose concrete tree is given. The tree is not looked at where the
language has no grammar. -/
def chunkFile (k : Chunker) (path : String) (language : Language) (src : Source) (cst : Cst) :
    Except Error (List Record) := do
  k.allow language
  match Grammar.ofLanguage? language with
  | none => pure ((k.buildWithoutTree language src).records path)
  | some g => k.chunkTree path language src (SyntaxTree.ofCst g src cst)

end Chunker

end SourceChunks
