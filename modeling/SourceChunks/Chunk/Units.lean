import SourceChunks.Chunk
import SourceChunks.Config
import SourceChunks.SyntaxTree.Consistency

/-!
# From a syntax tree to chunks

Every top-level node of a file starts a unit, and the units are widened so that they tile the
file: the first begins at its start and each ends where the next begins. Below a unit only
definitions, and anonymous functions if they are asked for, become chunks; what lies between them
belongs to the chunk around it.

The tree is first checked against the text. If it cannot be trusted the whole file is one chunk.
-/

namespace SourceChunks

/-! ## Names of chunks that have none -/

def anonymousName (lines : LineIndex) (offset : Nat) : String :=
  "<anonymous@" ++ lines.place offset ++ ">"

def gapName (lines : LineIndex) (offset : Nat) : String := "<gap@" ++ lines.place offset ++ ">"

namespace SyntaxTree

/-! ## Which nodes become chunks -/

/-- The origin of the unit that a top-level node starts. A loose modifier starts none. -/
def unitOrigin? (cfg : Config) (n : Node) : Option Origin :=
  match n.kind with
  | .modifier => none
  | .moduleDef | .functionDef | .classDef => some .definition
  | .statement =>
    if n.flags.guardedEntry && cfg.guardedBlocks == .chunk then some .guarded
    else if n.literal.isSome && cfg.lambdaAssignments == .chunk then some .lambdaAssignment
    else some .gap
  | .expression =>
    if n.flags.callableLiteral && cfg.chunkAnonymousLiterals then some .literal else some .gap

/-- The origin of the chunk of a node below the top level, if it has one. -/
def nestedOrigin? (cfg : Config) (n : Node) : Option Origin :=
  if n.kind.isDefinition then some .definition
  else if n.flags.callableLiteral && cfg.chunkAnonymousLiterals then some .literal
  else none

/-- The kind of a chunk as far as the node's own kind tells it. -/
def structuralKind (n : Node) : Origin → ChunkKind
  | .definition =>
    match n.kind with
    | .classDef => .classDef
    | .moduleDef => .moduleDef
    | _ => .function
  | .literal | .lambdaAssignment => .lambda
  | .guarded => .moduleDef
  | .gap | .fallback | .synthetic => .other

def chunkName (t : SyntaxTree) (lines : LineIndex) (n : Node) : Origin → String
  | .definition | .literal | .lambdaAssignment =>
    n.name.getD (anonymousName lines n.range.start)
  | .guarded => "__main__"
  | .gap | .fallback | .synthetic => gapName lines (t.outerStart n)

/-- The chunk of a node over a given range. It gets its number later. -/
def chunkOf (t : SyntaxTree) (lines : LineIndex) (depth : Nat) (origin : Origin)
    (start stop : Nat) (id : Nat) : Chunk where
  index := 0
  kind := structuralKind (t.node id) origin
  name := t.chunkName lines (t.node id) origin
  span := lines.span start stop
  depth := depth
  origin := origin
  node := some id

/-! ## Nested chunks -/

mutual

/-- The chunks of a branch of the tree at a depth. -/
def nested (t : SyntaxTree) (cfg : Config) (lines : LineIndex) (depth : Nat) :
    RoseTree Nat → ChunkForest
  | .node id branches =>
    match nestedOrigin? cfg (t.node id) with
    | none => nestedAll t cfg lines depth branches
    | some origin =>
      let outer := t.outerRange (t.node id)
      [.node (t.chunkOf lines depth origin outer.start outer.stop id)
        (nestedAll t cfg lines (depth + 1) branches)]

/-- The chunks of the branches of the tree at a depth, in order. -/
def nestedAll (t : SyntaxTree) (cfg : Config) (lines : LineIndex) (depth : Nat) :
    List (RoseTree Nat) → ChunkForest
  | [] => []
  | branch :: branches => nested t cfg lines depth branch ++ nestedAll t cfg lines depth branches

end

/-! ## Units -/

/-- A top-level node with its branch and the origin of its unit. -/
structure TopUnit where
  branch : RoseTree Nat
  origin : Origin

def TopUnit.id (u : TopUnit) : Nat := u.branch.label

def topUnits (t : SyntaxTree) (cfg : Config) : List TopUnit :=
  t.root.children.filterMap fun b => (unitOrigin? cfg (t.node b.label)).map fun o => ⟨b, o⟩

/-- The chunks inside a unit. Where the unit names an anonymous function, that function is the
unit itself and only what lies inside it counts. -/
def unitChildren (t : SyntaxTree) (cfg : Config) (lines : LineIndex) (u : TopUnit) :
    ChunkForest :=
  let skipped := if u.origin == .lambdaAssignment then (t.node u.id).literal else none
  u.branch.children.flatMap fun b =>
    if some b.label == skipped then t.nestedAll cfg lines 1 b.children
    else t.nested cfg lines 1 b

/-- The units from one on, the first beginning at `start` and the last ending at `stop`. -/
def tile (t : SyntaxTree) (cfg : Config) (lines : LineIndex) (stop : Nat) :
    Nat → List TopUnit → ChunkForest
  | _, [] => []
  | start, u :: us =>
    let next := us.head?.elim stop fun v => t.outerStart (t.node v.id)
    .node (t.chunkOf lines 0 u.origin start next u.id) (t.unitChildren cfg lines u)
      :: tile t cfg lines stop next us

end SyntaxTree

/-! ## Numbers -/

mutual

/-- Numbers the chunks of a tree in pre-order; also the number after the last. -/
def numberTree (next : Nat) : RoseTree Chunk → RoseTree Chunk × Nat
  | .node c forest =>
    let (forest, after) := numberForest (next + 1) forest
    (.node { c with index := next } forest, after)

/-- Numbers the chunks of a forest in pre-order; also the number after the last. -/
def numberForest (next : Nat) : ChunkForest → ChunkForest × Nat
  | [] => ([], next)
  | tree :: forest =>
    let (tree, next) := numberTree next tree
    let (forest, next) := numberForest next forest
    (tree :: forest, next)

end

/-- Numbers roots from `index` on, and after `next` the chunks inside them, those of the last root
first. -/
def numberBelow (next : Nat) : Nat → ChunkForest → ChunkForest × Nat
  | _, [] => ([], next)
  | index, tree :: forest =>
    let (forest, after) := numberBelow next (index + 1) forest
    let (children, after) := numberForest after tree.children
    (.node { tree.label with index := index } children :: forest, after)

/-- Numbers the roots from 0 on, then the chunks inside the last root, and so on to the first. -/
def numberRoots (forest : ChunkForest) : ChunkForest × Nat := numberBelow forest.length 0 forest

namespace ChunkTree

/-- The whole file as one chunk with a diagnostic; nothing for an empty file. -/
def fallback (language : Language) (lines : LineIndex) (diagnostic : Diagnostic) : ChunkTree :=
  if lines.length == 0 then { language := language }
  else {
    language := language
    roots := [.node {
      index := 0
      kind := .moduleDef
      name := "<module>"
      span := lines.span 0 lines.length
      depth := 0
      origin := .fallback
      diagnostics := [diagnostic] } []]
    made := 1 }

/-- The chunk of a file in which nothing starts a unit. -/
def wholeGap (lines : LineIndex) (length : Nat) : Chunk where
  index := 0
  kind := .other
  name := gapName lines 0
  span := lines.span 0 length
  depth := 0
  origin := .gap

/-- The chunks of a tree that fits the text. -/
def ofSoundTree (cfg : Config) (language : Language) (src : Source) (t : SyntaxTree) :
    ChunkTree :=
  let empty : ChunkTree :=
    { language := language, packageName := t.packageName, imports := t.imports }
  if src.isEmpty then empty
  else match t.topUnits cfg with
    | [] => { empty with roots := [.node (wholeGap src.lines src.size) []], made := 1 }
    | units =>
      let (forest, made) := numberRoots (t.tile cfg src.lines src.size 0 units)
      { empty with roots := forest.sorted, made := made }

/-- The chunks of a file, given its syntax tree. -/
def ofSyntaxTree (cfg : Config) (language : Language) (src : Source) (t : SyntaxTree) :
    ChunkTree :=
  match t.problem? src with
  | some reason => fallback language src.lines (.malformedTree reason)
  | none => ofSoundTree cfg language src t

end ChunkTree

end SourceChunks
