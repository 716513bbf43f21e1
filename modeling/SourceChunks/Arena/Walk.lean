import SourceChunks.Arena
import SourceChunks.Chunk.Metadata
import SourceChunks.Chunk.Units

/-!
# From a syntax tree to slots

The units of a file are added first, one after another, and the nodes below each are put on a stack
with the position of the unit. A node that is taken from the stack gets a chunk below the one it
came with, or none; in either case its children go on the stack. Afterwards the chunks that can be
reached are described where they stand.
-/

namespace SourceChunks.Arena

/-! ## Units -/

/-- The top-level nodes that start a unit, with its origin. -/
def units (t : SyntaxTree) (cfg : Config) : List (Nat × Origin) :=
  (t.children 0).filterMap fun id =>
    (SyntaxTree.unitOrigin? cfg (t.node id)).map fun origin => (id, origin)

/-- The chunk of a node over a given range. -/
def nodeSlot (path : String) (t : SyntaxTree) (lines : LineIndex) (depth : Nat) (origin : Origin)
    (start stop : Nat) (id : Nat) : Slot :=
  { Slot.new path (SyntaxTree.structuralKind (t.node id) origin)
      (t.chunkName lines (t.node id) origin) (lines.span start stop) depth origin with
    node := some id }

/-- The children of a node. In the place of the one that is skipped stand its own. -/
def pushed (t : SyntaxTree) (id : Nat) (skip : Option Nat) : List Nat :=
  (t.children id).flatMap fun c => if some c == skip then t.children c else [c]

/-- Adds units up to `stop` and puts what lies below them on the stack. The first starts where the
file does. -/
def addUnits (path : String) (t : SyntaxTree) (lines : LineIndex) (stop : Nat) :
    Bool → List (Nat × Origin) → List (Nat × Nat) → Arena → List (Nat × Nat) × Arena
  | _, [], stack, a => (stack, a)
  | first, (id, origin) :: units, stack, a =>
    let start := if first then 0 else t.outerStart (t.node id)
    let next := units.head?.elim stop fun u => t.outerStart (t.node u.1)
    let skip := if origin == .lambdaAssignment then (t.node id).literal else none
    addUnits path t lines stop false units ((pushed t id skip).map (·, a.next) ++ stack)
      (a.insert (nodeSlot path t lines 0 origin start next id) none)

/-! ## Below the units -/

/-- Adds the chunks of nodes below those they come with, in a bounded number of turns. -/
def addNested (path : String) (t : SyntaxTree) (cfg : Config) (lines : LineIndex) :
    Nat → List (Nat × Nat) → Arena → Arena
  | 0, _, a => a
  | _, [], a => a
  | turns + 1, (id, enclosing) :: stack, a =>
    match SyntaxTree.nestedOrigin? cfg (t.node id) with
    | none => addNested path t cfg lines turns ((t.children id).map (·, enclosing) ++ stack) a
    | some origin =>
      let outer := t.outerRange (t.node id)
      let depth := (a.slot enclosing).depth + 1
      addNested path t cfg lines turns ((t.children id).map (·, a.next) ++ stack)
        (a.insert (nodeSlot path t lines depth origin outer.start outer.stop id) (some enclosing))

/-- The whole file as one chunk with a diagnostic; nothing for an empty file. -/
def fallback (path : String) (language : Language) (lines : LineIndex) (diagnostic : Diagnostic) :
    Arena :=
  let empty : Arena := { filePath := path, language := language }
  if lines.length == 0 then empty
  else
    let whole := Slot.new path .moduleDef "<module>" (lines.span 0 lines.length) 0 .fallback
    empty.insert { whole with diagnostics := [diagnostic] } none

/-- The chunks of a file, given its syntax tree. A tree that has passed its check is left after no
more turns than it has nodes. -/
def walk (path : String) (cfg : Config) (language : Language) (src : Source) (t : SyntaxTree) :
    Arena :=
  match t.problem? src with
  | some reason => fallback path language src.lines (.malformedTree reason)
  | none =>
    let empty : Arena :=
      { filePath := path, language := language, packageName := t.packageName, imports := t.imports }
    if src.isEmpty then empty
    else match units t cfg with
      | [] =>
        empty.insert (Slot.new path .other (gapName src.lines 0) (src.lines.span 0 src.size) 0 .gap)
          none
      | us =>
        let (stack, a) := addUnits path t src.lines src.size true us [] empty
        (addNested path t cfg src.lines t.size stack a).sortChildren

end SourceChunks.Arena

namespace SourceChunks

/-! ## Metadata -/

namespace Slot

/-- The chunk that a description looks at. -/
def chunk (s : Slot) : Chunk where
  index := 0
  kind := s.kind
  name := s.name
  span := s.span
  depth := s.depth
  origin := s.origin
  node := s.node
  signature := s.signature
  docstring := s.docstring
  decorators := s.decorators
  bases := s.bases
  diagnostics := s.diagnostics

/-- A slot with the metadata of its node. -/
def described (rules : Rules) (t : SyntaxTree) (src : Source) (inClass : Bool) (s : Slot) : Slot :=
  let c := Metadata.describe rules t src inClass s.chunk
  { s with
    kind := c.kind
    signature := c.signature
    docstring := c.docstring
    decorators := c.decorators
    bases := c.bases }

end Slot

namespace Arena

/-- Whether the chunk around a slot is that of a class. -/
def inClass (t : SyntaxTree) (a : Arena) (i : Nat) : Bool :=
  ((a.slot i).parent.bind fun p => (a.slot p).node).any fun id => (t.node id).kind == .classDef

def describeSlot (rules : Rules) (t : SyntaxTree) (src : Source) (a : Arena) (i : Nat) : Arena :=
  a.modifySlot i (Slot.described rules t src (a.inClass t i))

/-- Describes every chunk that can be reached, one after another. -/
def described (rules : Rules) (t : SyntaxTree) (src : Source) (a : Arena) : Arena :=
  a.preorder.foldl (describeSlot rules t src) a

end Arena

end SourceChunks
