import SourceChunks.Chunk
import SourceChunks.Docstring
import SourceChunks.Modifier
import SourceChunks.Signature
import SourceChunks.SyntaxTree.Yields

/-!
# What is known about a chunk

Chunks of definitions and of anonymous functions get their documentation, decorators, signature
and base types from the syntax tree, and their kind is made precise. All other chunks stay as they
are. A chunk's metadata depends on nothing but its own node and on whether the chunk around it is
that of a class.
-/

namespace SourceChunks

namespace Metadata

/-- The node that a chunk's metadata come from: its own or, for a statement that names an
anonymous function, that function. -/
def subject? (t : SyntaxTree) (origin : Origin) (id : Nat) : Option Nat :=
  match origin with
  | .definition | .literal => some id
  | .lambdaAssignment => (t.node id).literal
  | .gap | .guarded | .fallback | .synthetic => none

/-- The nodes whose comments and modifiers count: the chunk's own, then its subject. -/
def carriers (t : SyntaxTree) (id subject : Nat) : List Node :=
  if id == subject then [t.node id] else [t.node id, t.node subject]

def docstring (t : SyntaxTree) (src : Source) (carriers : List Node) (subject : Node) : String :=
  String.ofList (match subject.docstring with
    | some doc => Docstring.ofLiteral (src.chars (t.node doc).range)
    | none => Docstring.ofComments ((carriers.flatMap Node.comments).map src.chars))

/-- Adds a decorator at the end unless it is there already. -/
def addDecorator (ds : List Decorator) (d : Decorator) : List Decorator :=
  if ds.contains d then ds else ds ++ [d]

/-- The decorator of a modifier node. -/
def modifierDecorator (rules : Rules) (t : SyntaxTree) (src : Source) (id : Nat) : Decorator :=
  rules.decorator (String.ofList (Text.trim (src.chars (t.node id).range)))

/-- The decorators of the modifiers in order, each once, then the tags that the body shows. -/
def decorators (rules : Rules) (t : SyntaxTree) (src : Source) (carriers : List Node)
    (asynchronous yields : Bool) : List Decorator :=
  let written := (carriers.flatMap Node.modifiers).map (modifierDecorator rules t src)
  let shown := (if asynchronous then [.tag .asynchronous] else [])
    ++ (if yields then [.tag .generator] else [])
  (written ++ shown).foldl addDecorator []

def signature (src : Source) (n : Node) : String :=
  String.ofList (Signature.ofTexts ((n.parameters.map src.chars).getD [])
    (n.returns.map src.chars))

/-- The kind of a function defined in a class, by the first of its decorators that tells. -/
def memberKind (ds : List Decorator) : ChunkKind :=
  (ds.findSome? fun d =>
    match d with
    | .tag .property => some ChunkKind.property
    | .tag .static => some ChunkKind.staticMethod
    | .tag .classScoped => some ChunkKind.classMethod
    | _ => none).getD .method

/-- The kind of a function outside classes. -/
def functionKind (asynchronous yields : Bool) : ChunkKind :=
  if asynchronous then .asyncFunction else if yields then .generator else .function

def kind (c : Chunk) (subject : Node) (inClass yields : Bool) (ds : List Decorator) :
    ChunkKind :=
  match c.origin with
  | .literal | .lambdaAssignment => .lambda
  | _ =>
    match subject.kind with
    | .classDef => if ds.contains (.tag .dataHolder) then .dataHolder else .classDef
    | .moduleDef => .moduleDef
    | .functionDef =>
      if inClass then memberKind ds else functionKind subject.flags.asynchronous yields
    | _ => c.kind

/-- A chunk with the metadata of its subject. -/
def describeWith (rules : Rules) (t : SyntaxTree) (src : Source) (inClass : Bool) (c : Chunk)
    (id subjectId : Nat) : Chunk :=
  let subject := t.node subjectId
  let carriers := carriers t id subjectId
  let callable := subject.kind == .functionDef || subject.flags.callableLiteral
  let yields := callable && t.yieldsWithin subjectId
  let ds := decorators rules t src carriers (callable && subject.flags.asynchronous) yields
  { c with
    docstring := docstring t src carriers subject
    decorators := ds
    signature := if callable then signature src subject else c.signature
    bases := subject.bases
    kind := kind c subject inClass yields ds }

def describe (rules : Rules) (t : SyntaxTree) (src : Source) (inClass : Bool) (c : Chunk) :
    Chunk :=
  match c.node with
  | none => c
  | some id =>
    match subject? t c.origin id with
    | none => c
    | some subject => describeWith rules t src inClass c id subject

/-- Whether a chunk is that of a class. -/
def isClass (t : SyntaxTree) (c : Chunk) : Bool :=
  c.node.any fun id => (t.node id).kind == .classDef

mutual

/-- Describes the chunks of a tree, given whether the chunk around it is that of a class. -/
def describeTree (rules : Rules) (t : SyntaxTree) (src : Source) (inClass : Bool) :
    RoseTree Chunk → RoseTree Chunk
  | .node c forest =>
    .node (describe rules t src inClass c) (describeForest rules t src (isClass t c) forest)

def describeForest (rules : Rules) (t : SyntaxTree) (src : Source) (inClass : Bool) :
    ChunkForest → ChunkForest
  | [] => []
  | tree :: forest =>
    describeTree rules t src inClass tree :: describeForest rules t src inClass forest

end

end Metadata

/-- The chunks of a tree with what is known about them. -/
def ChunkTree.described (rules : Rules) (t : SyntaxTree) (src : Source) (chunks : ChunkTree) :
    ChunkTree :=
  { chunks with roots := Metadata.describeForest rules t src false chunks.roots }

end SourceChunks
