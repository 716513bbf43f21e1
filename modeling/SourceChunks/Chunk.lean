import SourceChunks.Decorator
import SourceChunks.Diagnostic
import SourceChunks.Language
import SourceChunks.RoseTree
import SourceChunks.Sorting
import SourceChunks.Span

/-!
# Chunks

A chunk is a unit of source text with what is known about it. The chunks of a file form a forest:
the roots tile the file, and a chunk's children lie inside it. Every chunk has a number that says
when it was made; a chunk that is merged or split away takes its number with it.
-/

namespace SourceChunks

/-! ## Kinds and origins -/

inductive ChunkKind
  | moduleDef
  | classDef
  | function
  | method
  | property
  | staticMethod
  | classMethod
  | generator
  | asyncFunction
  | lambda
  | dataHolder
  | other
deriving DecidableEq, Repr

namespace ChunkKind

def all : List ChunkKind :=
  [moduleDef, classDef, function, method, property, staticMethod, classMethod, generator,
   asyncFunction, lambda, dataHolder, other]

def name : ChunkKind → String
  | moduleDef => "module"
  | classDef => "class"
  | function => "function"
  | method => "method"
  | property => "property"
  | staticMethod => "static_method"
  | classMethod => "class_method"
  | generator => "generator"
  | asyncFunction => "async_function"
  | lambda => "lambda"
  | dataHolder => "data_holder"
  | other => "other"

def ofName? (s : String) : Option ChunkKind := all.find? (·.name == s)

theorem ofName?_name (k : ChunkKind) : ofName? k.name = some k := by
  cases k <;> decide

/-- Anything that can be called. -/
def isCallable : ChunkKind → Bool
  | function | method | property | staticMethod | classMethod | generator | asyncFunction
  | lambda => true
  | moduleDef | classDef | dataHolder | other => false

end ChunkKind

/-- How a chunk came into being. -/
inductive Origin
  | definition
  /-- An anonymous function. -/
  | literal
  /-- A top-level statement that is none of the others. -/
  | gap
  /-- A top-level statement that runs only when the file is the program. -/
  | guarded
  /-- A top-level statement that names an anonymous function. -/
  | lambdaAssignment
  /-- The whole file, where its tree cannot be used. -/
  | fallback
  /-- Made by merging or splitting. -/
  | synthetic
deriving DecidableEq, Repr

/-! ## Chunks -/

structure Chunk where
  index : Nat
  kind : ChunkKind
  name : String
  span : Span
  /-- Nesting level; roots have depth 0. -/
  depth : Nat
  origin : Origin
  /-- The syntax node it was made from. -/
  node : Option Nat := none
  signature : String := ""
  docstring : String := ""
  decorators : List Decorator := []
  /-- The types a definition builds on. -/
  bases : List String := []
  /-- For a fragment, the span of the chunk it was cut from; the depth is the same. -/
  splitFrom : Option Span := none
  diagnostics : List Diagnostic := []
deriving DecidableEq, Repr

namespace Chunk

def isSynthetic (c : Chunk) : Bool := c.origin == .synthetic

def isGap (c : Chunk) : Bool := c.origin == .gap

def hasTag (c : Chunk) (t : Tag) : Bool := c.decorators.contains (.tag t)

/-- Siblings are ordered by their start; of two that start together the longer comes first. -/
def precedes (a b : Chunk) : Bool :=
  a.span.start < b.span.start || (a.span.start == b.span.start && b.span.stop ≤ a.span.stop)

theorem precedes_total (a b : Chunk) : a.precedes b ∨ b.precedes a := by
  simp only [precedes, Bool.or_eq_true, Bool.and_eq_true, decide_eq_true_eq, beq_iff_eq]
  omega

theorem precedes_trans (a b c : Chunk) (h : a.precedes b) (k : b.precedes c) :
    a.precedes c := by
  simp only [precedes, Bool.or_eq_true, Bool.and_eq_true, decide_eq_true_eq, beq_iff_eq] at *
  omega

end Chunk

abbrev ChunkForest := List (RoseTree Chunk)

/-- All siblings in order, at every level. -/
def ChunkForest.sorted (forest : ChunkForest) : ChunkForest :=
  let sortSiblings := Sorting.sortBy fun (a b : RoseTree Chunk) => a.label.precedes b.label
  sortSiblings (RoseTree.arrangeAll sortSiblings forest)

/-- The chunks of one file. -/
structure ChunkTree where
  language : Language
  packageName : Option String := none
  imports : List String := []
  roots : ChunkForest := []
  /-- How many chunks have been made so far. -/
  made : Nat := 0

namespace ChunkTree

/-- All chunks, parents before children and siblings in order. -/
def chunks (t : ChunkTree) : List Chunk := RoseTree.forestPreorder t.roots

end ChunkTree

end SourceChunks
