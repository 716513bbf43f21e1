import SourceChunks.Outline
import SourceChunks.Sorting

/-!
# The syntax tree of a concrete tree

The outline of a concrete tree is written into a table. The kept nodes of one list of siblings get
their numbers first, each followed by its modifiers; then what lies below the last of them is
written, and so on to the first. Kept nodes that come from dissolved ones are children of the
nearest kept node, so children are put in order at the end. References to docstrings and anonymous
functions are resolved once every node has its number.
-/

namespace SourceChunks

/-- A table in the making. -/
structure Layout where
  tree : SyntaxTree
  /-- The number that each kept definition of the concrete tree has got. -/
  placed : List (Nat × Nat) := []
  /-- Nodes and the place of their docstring in the concrete tree. -/
  docstrings : List (Nat × Nat) := []
  /-- Nodes and the place of the anonymous function they name. -/
  literals : List (Nat × Nat) := []

namespace Layout

/-- Writes a node below a parent, then its modifiers. -/
def place (l : Layout) (parent : Nat) (d : Draft) : Layout :=
  let id := l.tree.size
  let tree := d.modifiers.foldl (fun t range => t.pushModifier id range) (l.tree.push parent d.node)
  { tree := tree
    placed := (d.definition, id) :: l.placed
    docstrings := (d.docstring.map fun doc => (id, doc)).toList ++ l.docstrings
    literals := (d.literal.map fun lit => (id, lit)).toList ++ l.literals }

/-- Writes the kept nodes of a list of siblings. Also, for each sibling, the node below which its
inner nodes belong. -/
def placeAll (l : Layout) (parent : Nat) : List Outline → Layout × List Nat
  | [] => (l, [])
  | .kept d _ :: rest =>
    let (after, owners) := (l.place parent d).placeAll parent rest
    (after, l.tree.size :: owners)
  | .spliced _ :: rest =>
    let (after, owners) := l.placeAll parent rest
    (after, parent :: owners)

mutual

/-- Writes what lies below a sibling whose inner nodes belong to `owner`. -/
def descend (l : Layout) (owner : Nat) : Outline → Layout
  | .kept _ inner =>
    let (l, owners) := l.placeAll owner inner
    l.descendAll owners inner
  | .spliced inner =>
    let (l, owners) := l.placeAll owner inner
    l.descendAll owners inner

/-- Writes what lies below siblings, the last one first. -/
def descendAll (l : Layout) : List Nat → List Outline → Layout
  | owner :: owners, o :: os => (l.descendAll owners os).descend owner o
  | _, _ => l

end

/-- Writes the outlines of the file's children. -/
def write (l : Layout) (outlines : List Outline) : Layout :=
  let (l, owners) := l.placeAll 0 outlines
  l.descendAll owners outlines

/-- Fills in a docstring, if it is a string literal. -/
def resolveDocstring (placed : List (Nat × Nat)) (t : SyntaxTree) (ref : Nat × Nat) :
    SyntaxTree :=
  match placed.lookup ref.2 with
  | some doc =>
    if (t.node doc).flags.stringLiteral then
      t.modifyNode ref.1 fun n => { n with docstring := some doc }
    else t
  | none => t

def resolveLiteral (placed : List (Nat × Nat)) (t : SyntaxTree) (ref : Nat × Nat) : SyntaxTree :=
  t.modifyNode ref.1 fun n => { n with literal := placed.lookup ref.2 }

/-- The table with its references. -/
def resolve (l : Layout) : SyntaxTree :=
  l.literals.foldl (resolveLiteral l.placed)
    (l.docstrings.foldl (resolveDocstring l.placed) l.tree)

end Layout

namespace SyntaxTree

/-- Puts the children of every node in the order of their starts. -/
def sortChildren (t : SyntaxTree) : SyntaxTree :=
  { t with nodes := t.nodes.map fun n =>
      { n with children := Sorting.sortOn (fun id => (t.node id).range.start) n.children } }

/-- Records what a top-level node says about the file. -/
def addFileFacts (g : Grammar) (src : Source) (t : SyntaxTree) (c : Cst) : SyntaxTree :=
  (g.imports src c).foldl pushImport { t with packageName := (g.packageName src c).or t.packageName }

/-- A tree with the file, what is wrong with it, its package and its imports. -/
def header (g : Grammar) (src : Source) (root : Cst) : SyntaxTree :=
  root.namedChildren.foldl (addFileFacts g src)
    { ofLength g.language src.size with malformed := root.fault? src.lines }

/-- The syntax tree of a concrete tree. -/
def ofCst (g : Grammar) (src : Source) (root : Cst) : SyntaxTree :=
  ((Layout.mk (header g src root) [] [] []).write (g.outline src root)).resolve.sortChildren

end SyntaxTree

end SourceChunks
