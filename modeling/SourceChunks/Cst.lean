import SourceChunks.RoseTree
import SourceChunks.Source
import SourceChunks.Text.Occurrence

/-!
# Concrete syntax trees

The full tree that a parser makes of a text, every token included. Nodes are told apart by their
kind; a child may carry the name of a field of its parent. The trees come from outside, as a list
of rows in pre-order.
-/

namespace SourceChunks

structure CstLabel where
  /-- The position of the node in pre-order. -/
  id : Nat
  kind : String
  /-- Tokens such as brackets and keywords are not named. -/
  named : Bool := true
  /-- May stand anywhere, such as a comment. -/
  extra : Bool := false
  error : Bool := false
  /-- Not in the text; put there by the parser. -/
  missing : Bool := false
  /-- Something at or below the node is wrong. -/
  hasError : Bool := false
  range : ByteRange
  /-- The field of the parent that the node fills. -/
  field : Option String := none
deriving DecidableEq, Repr

abbrev Cst := RoseTree CstLabel

namespace Cst

def kind (c : Cst) : String := c.label.kind

def range (c : Cst) : ByteRange := c.label.range

def text (src : Source) (c : Cst) : String := src.slice c.label.range

def namedChildren (c : Cst) : List Cst := c.children.filter fun d => d.label.named

/-- The first child in a field. -/
def field? (c : Cst) (name : String) : Option Cst :=
  c.children.find? fun d => d.label.field == some name

/-- All children in a field. -/
def inField (c : Cst) (name : String) : List Cst :=
  c.children.filter fun d => d.label.field == some name

/-- Whether a child, named or not, has a kind. -/
def hasChild (c : Cst) (kind : String) : Bool := c.children.any fun d => d.label.kind == kind

def isComment (c : Cst) : Bool :=
  c.label.extra || Text.occurs "comment".toList c.label.kind.toList

theorem field?_mem {c d : Cst} {name : String} (h : c.field? name = some d) : d ∈ c.children :=
  List.mem_of_find?_eq_some h

theorem namedChildren_subset {c d : Cst} (h : d ∈ c.namedChildren) : d ∈ c.children :=
  (List.mem_filter.1 h).1

/-! ## From rows -/

/-- A node as it is listed: its own data and the number of its children, which follow. -/
structure Row where
  kind : String
  named : Bool
  extra : Bool
  error : Bool
  missing : Bool
  hasError : Bool
  range : ByteRange
  childCount : Nat
  field : Option String

/-- Reads the rows from the last to the first: the children of a row are then the first trees
made so far. -/
def forestOfRows (id : Nat) : List Row → List Cst
  | [] => []
  | r :: rows =>
    let after := forestOfRows (id + 1) rows
    .node {
      id := id, kind := r.kind, named := r.named, extra := r.extra, error := r.error,
      missing := r.missing, hasError := r.hasError, range := r.range, field := r.field }
      (after.take r.childCount) :: after.drop r.childCount

/-- The tree of a list of rows; the first row is its root. -/
def ofRows? (rows : List Row) : Option Cst := (forestOfRows 0 rows).head?

/-! ## Faults -/

mutual

/-- Where the first node that is wrong or missing starts, in pre-order. Only branches in which
something is wrong are searched. -/
def firstFault : Cst → Option Nat
  | .node l children =>
    if l.error || l.missing then some l.range.start else firstFaultIn children

def firstFaultIn : List Cst → Option Nat
  | [] => none
  | c :: cs =>
    if c.label.hasError || c.label.missing then (firstFault c).or (firstFaultIn cs)
    else firstFaultIn cs

end

/-- What is wrong with a tree, if anything is. -/
def fault? (lines : LineIndex) (c : Cst) : Option String :=
  if c.label.hasError then
    match firstFault c with
    | some start =>
      some ("syntax error at line " ++ toString (lines.lineOf start) ++ ", column "
        ++ toString (lines.columnOf start))
    | none => some "syntax tree contains errors"
  else none

end Cst

end SourceChunks
