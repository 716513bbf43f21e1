import SourceChunks.Record

/-!
# Chunks in a table

While a file is chunked, its chunks stand in a table that only grows. Slots name their parent and
their children by position; a slot that is merged or split away stays where it is and is only no
longer reached. The id of a chunk is made once, when its slot is, from the path, span and depth that
are given there; what refers to a chunk by its id copies the id out of its slot. Nothing in the type
keeps the links from running in circles, so reading a table is bounded by its length.
-/

namespace SourceChunks

/-! ## Slots -/

/-- A chunk with its id and its links. -/
structure Slot where
  id : String
  kind : ChunkKind
  name : String
  span : Span
  /-- Nesting level; roots have depth 0. -/
  depth : Nat
  origin : Origin
  synthetic : Bool
  signature : String := ""
  docstring : String := ""
  decorators : List Decorator := []
  /-- The types a definition builds on. -/
  bases : List String := []
  parent : Option Nat := none
  children : List Nat := []
  /-- For a fragment, the id of the chunk it was cut from. -/
  splitFrom : Option String := none
  diagnostics : List Diagnostic := []
  /-- The syntax node it was made from. -/
  node : Option Nat := none
deriving DecidableEq, Repr

namespace Slot

/-- A chunk that is not linked to any other. -/
def new (path : String) (kind : ChunkKind) (name : String) (span : Span) (depth : Nat)
    (origin : Origin) : Slot where
  id := chunkId path span.toByteRange depth
  kind := kind
  name := name
  span := span
  depth := depth
  origin := origin
  synthetic := origin == .synthetic

instance : Inhabited Slot where
  default := new "" .other "" ⟨⟨0, 0⟩, 0, 0⟩ 0 .gap

end Slot

/-! ## The table -/

/-- The chunks of one file. -/
structure Arena where
  filePath : String
  language : Language
  packageName : Option String := none
  imports : List String := []
  slots : Array Slot := #[]
  roots : List Nat := []

namespace Arena

/-- The position of the next slot. -/
def next (a : Arena) : Nat := a.slots.size

def slot (a : Arena) (i : Nat) : Slot := a.slots.getD i default

def modifySlot (a : Arena) (i : Nat) (f : Slot → Slot) : Arena :=
  { a with slots := a.slots.modify i f }

/-- Changes the list of children of a slot, or that of the roots. -/
def modifyChildren (a : Arena) (parent : Option Nat) (f : List Nat → List Nat) : Arena :=
  match parent with
  | some p => a.modifySlot p fun s => { s with children := f s.children }
  | none => { a with roots := f a.roots }

/-- Adds a chunk as the last child of another, or as the last root. -/
def insert (a : Arena) (s : Slot) (parent : Option Nat) : Arena :=
  ({ a with slots := a.slots.push { s with parent := parent } } : Arena).modifyChildren parent
    fun children => children ++ [a.next]

/-! ## Readings -/

/-- What is reached from a stack, parents before children, in a bounded number of turns. -/
def preorderFrom (a : Arena) : Nat → List Nat → List Nat
  | 0, _ => []
  | _, [] => []
  | turns + 1, i :: stack => i :: a.preorderFrom turns ((a.slot i).children ++ stack)

/-- The chunks that can be reached, parents before children and siblings in order. -/
def preorder (a : Arena) : List Nat := a.preorderFrom a.next a.roots

/-- Siblings are ordered by their start; of two that start together the longer comes first. -/
def precedes (a : Arena) (i j : Nat) : Bool :=
  let s := (a.slot i).span
  let r := (a.slot j).span
  s.start < r.start || (s.start == r.start && r.stop ≤ s.stop)

/-- Puts the roots and the children of every slot in order. -/
def sortChildren (a : Arena) : Arena :=
  { a with
    roots := Sorting.sortBy a.precedes a.roots
    slots := a.slots.map fun s => { s with children := Sorting.sortBy a.precedes s.children } }

def parentId (a : Arena) (i : Nat) : Option String :=
  (a.slot i).parent.map fun p => (a.slot p).id

/-- The record of a slot. -/
def record (a : Arena) (i : Nat) : Record :=
  let s := a.slot i
  { id := s.id
    parentId := a.parentId i
    filePath := a.filePath
    language := a.language.name
    kind := s.kind
    name := s.name
    signature := s.signature
    docstring := s.docstring
    decorators := s.decorators
    bases := s.bases
    packageName := a.packageName
    imports := a.imports
    span := s.span
    depth := s.depth
    synthetic := s.synthetic
    splitFrom := s.splitFrom
    diagnostics := s.diagnostics }

/-- The records of a file, parents before children and siblings in order. -/
def records (a : Arena) : List Record := a.preorder.map a.record

end Arena

end SourceChunks
