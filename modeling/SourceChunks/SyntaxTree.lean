import SourceChunks.Language
import SourceChunks.RoseTree
import SourceChunks.Source

/-!
# Syntax trees

What is kept of a file's syntax, in terms that do not depend on the language: modules, functions,
classes, statements, a few expressions and the modifiers applied to definitions. Nodes stand in a
table and name each other by their position in it; node 0 is the file. Nothing in the type keeps
the links from running in circles, so every reading of a tree is bounded (`root`).
-/

namespace SourceChunks

/-! ## Nodes -/

inductive NodeKind
  /-- The file, or a module or namespace inside it. -/
  | moduleDef
  | functionDef
  | classDef
  | statement
  | expression
  /-- A decorator, annotation or attribute of a definition. -/
  | modifier
deriving DecidableEq, Repr

namespace NodeKind

def isDefinition : NodeKind → Bool
  | moduleDef | functionDef | classDef => true
  | _ => false

def name : NodeKind → String
  | moduleDef => "module"
  | functionDef => "function"
  | classDef => "class"
  | statement => "statement"
  | expression => "expression"
  | modifier => "modifier"

def all : List NodeKind := [moduleDef, functionDef, classDef, statement, expression, modifier]

def ofName? (s : String) : Option NodeKind := all.find? (·.name == s)

theorem ofName?_name (k : NodeKind) : ofName? k.name = some k := by
  cases k <;> decide

end NodeKind

/-- Facts about a node that its kind does not tell. -/
structure NodeFlags where
  /-- A definition declared asynchronous. -/
  asynchronous : Bool := false
  /-- An expression that yields. -/
  yields : Bool := false
  /-- An anonymous function. -/
  callableLiteral : Bool := false
  /-- A statement that runs only when the file is the program. -/
  guardedEntry : Bool := false
  /-- A statement that is a single string literal. -/
  stringLiteral : Bool := false
deriving DecidableEq, Repr

structure Node where
  kind : NodeKind
  /-- The node itself, without detached modifiers and leading comments. -/
  range : ByteRange
  name : Option String := none
  children : List Nat := []
  /-- Modifiers of a definition. -/
  modifiers : List Nat := []
  /-- Documentation comments right above the node. -/
  comments : List ByteRange := []
  /-- The string literal that opens the body and documents it. -/
  docstring : Option Nat := none
  parameters : Option ByteRange := none
  returns : Option ByteRange := none
  /-- The types a definition builds on. -/
  bases : List String := []
  flags : NodeFlags := {}
  /-- The anonymous function that a statement gives a name. -/
  literal : Option Nat := none
deriving DecidableEq, Repr

instance : Inhabited Node where
  default := { kind := .modifier, range := ⟨0, 0⟩ }

/-! ## The table -/

structure SyntaxTree where
  nodes : Array Node
  language : Language
  /-- The length of the text that the tree was made for. -/
  length : Nat
  /-- Why the tree is only part of what the text holds. -/
  malformed : Option String := none
  packageName : Option String := none
  /-- Imported modules in order, each once. -/
  imports : List String := []

namespace SyntaxTree

/-- A tree that holds the file and nothing else. -/
def ofLength (language : Language) (length : Nat) : SyntaxTree where
  nodes := #[{ kind := .moduleDef, range := ⟨0, length⟩ }]
  language := language
  length := length

def size (t : SyntaxTree) : Nat := t.nodes.size

def node (t : SyntaxTree) (id : Nat) : Node := t.nodes.getD id default

def children (t : SyntaxTree) (id : Nat) : List Nat := (t.node id).children

def modifyNode (t : SyntaxTree) (id : Nat) (f : Node → Node) : SyntaxTree :=
  { t with nodes := t.nodes.modify id f }

/-- Adds a node as the last child of another. -/
def push (t : SyntaxTree) (parent : Nat) (n : Node) : SyntaxTree :=
  { t with nodes := (t.nodes.push n).modify parent fun p =>
      { p with children := p.children ++ [t.size] } }

/-- Adds a modifier of a node. -/
def pushModifier (t : SyntaxTree) (owner : Nat) (range : ByteRange) : SyntaxTree :=
  { t with nodes := (t.nodes.push { kind := .modifier, range := range }).modify owner fun o =>
      { o with modifiers := o.modifiers ++ [t.size] } }

/-- Records an imported module unless it has no name or is there already. -/
def pushImport (t : SyntaxTree) (name : String) : SyntaxTree :=
  if name.isEmpty || t.imports.contains name then t
  else { t with imports := t.imports ++ [name] }

/-! ## Readings -/

/-- The first byte of a node together with its modifiers and leading comments. -/
def outerStart (t : SyntaxTree) (n : Node) : Nat :=
  (n.modifiers.map fun id => (t.node id).range.start).foldl min
    ((n.comments.map ByteRange.start).foldl min n.range.start)

/-- A node together with its modifiers and leading comments. -/
def outerRange (t : SyntaxTree) (n : Node) : ByteRange := ⟨t.outerStart n, n.range.stop⟩

/-- The ordered tree below a node, cut off at a depth. -/
def branch (t : SyntaxTree) : Nat → Nat → RoseTree Nat
  | 0, id => .node id []
  | depth + 1, id => .node id ((t.children id).map (t.branch depth))

/-- The ordered tree of a file. No path without a repetition is longer than the table. -/
def root (t : SyntaxTree) : RoseTree Nat := t.branch t.size 0

/-! ### What the operations do to the table -/

@[simp]
theorem size_ofLength (language : Language) (length : Nat) :
    (ofLength language length).size = 1 := rfl

@[simp]
theorem size_push (t : SyntaxTree) (parent : Nat) (n : Node) :
    (t.push parent n).size = t.size + 1 := by
  simp [push, size]

@[simp]
theorem size_pushModifier (t : SyntaxTree) (owner : Nat) (range : ByteRange) :
    (t.pushModifier owner range).size = t.size + 1 := by
  simp [pushModifier, size]

@[simp]
theorem size_modifyNode (t : SyntaxTree) (id : Nat) (f : Node → Node) :
    (t.modifyNode id f).size = t.size := by
  simp [modifyNode, size]

end SyntaxTree

end SourceChunks
