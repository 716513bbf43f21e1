import SourceChunks.Decorator
import SourceChunks.Error
import SourceChunks.Text.Blank

/-!
# Configuration

How large chunks may be and in what unit, which statements get a chunk of their own, and which
patterns name decorators. `problem?` says what is wrong with a configuration that cannot be used.
-/

namespace SourceChunks

/-- The unit in which sizes are counted. -/
inductive SizeUnit
  /-- Grapheme clusters. -/
  | chars
  /-- Lines touched. -/
  | lines
deriving DecidableEq, Repr

/-- Whether a special top-level statement is a chunk of its own or ordinary gap text. -/
inductive StatementPolicy
  | chunk
  | fold
deriving DecidableEq, Repr

/-- Modifiers whose name matches the pattern get the tag. -/
structure RuleConfig where
  pattern : String
  tag : Tag
deriving DecidableEq, Repr

structure Config where
  /-- Top-level gaps smaller than this are merged. -/
  minUnitSize : Nat := 64
  /-- Chunks larger than this are split. -/
  maxUnitSize : Nat := 4096
  sizeUnit : SizeUnit := .chars
  mergeAdjacentTrivial : Bool := true
  /-- Anonymous functions become chunks. -/
  chunkAnonymousLiterals : Bool := false
  guardedBlocks : StatementPolicy := .chunk
  lambdaAssignments : StatementPolicy := .chunk
  /-- Rules that go before the built-in ones. -/
  decoratorRules : List RuleConfig := []
  /-- The languages to accept; none listed means all. -/
  supportedLanguages : List String := []
deriving DecidableEq, Repr

namespace Config

/-- Small chunks for embeddings. -/
def forEmbeddings : Config := { minUnitSize := 48, maxUnitSize := 2048 }

/-- Large chunks for the context of a language model. -/
def forLlmContext : Config := { minUnitSize := 128, maxUnitSize := 8192 }

def preset? : String → Option Config
  | "default" => some {}
  | "embeddings" => some forEmbeddings
  | "llm" => some forLlmContext
  | _ => none

/-- The first thing wrong with the bounds or the rules, patterns taken as mere text. -/
def problem? (c : Config) : Option ConfigError :=
  if c.maxUnitSize == 0 then some .zeroMaximum
  else if c.maxUnitSize < c.minUnitSize then some (.invertedBounds c.minUnitSize c.maxUnitSize)
  else if c.decoratorRules.any fun r => r.pattern.toList.all Text.isBlank then some .blankPattern
  else none

/-- Whether a language is to be accepted. -/
def accepts (c : Config) (language : String) : Bool :=
  c.supportedLanguages.isEmpty || c.supportedLanguages.contains language

end Config

end SourceChunks
