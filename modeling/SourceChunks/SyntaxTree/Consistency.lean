import SourceChunks.SyntaxTree

/-!
# Consistency of a syntax tree with its text

Before a tree is trusted it is checked against the text: lengths agree, every node lies in the
text on character boundaries, every child lies in its parent, and siblings follow one another. The
check walks from the file down, last child first, and reports the first problem it meets. It takes
at most as many steps as the table has nodes; more steps mean that the links run in a circle or
that nodes are shared.
-/

namespace SourceChunks

inductive Inconsistency
  | length (tree source : Nat)
  | cycle
  | outOfBounds (id : Nat) (range : ByteRange)
  | splitsCharacter (id : Nat)
  /-- A child, its outer start and its end, and the parent that does not contain it. -/
  | escapes (child parent : Nat) (outer within : ByteRange)
  | overlaps (child : Nat)
deriving DecidableEq, Repr

namespace Inconsistency

def rangeText (r : ByteRange) : String := toString r.start ++ ".." ++ toString r.stop

def message : Inconsistency → String
  | length tree source =>
    "tree covers " ++ toString tree ++ " bytes but source has " ++ toString source
  | cycle => "node graph contains a cycle"
  | outOfBounds id range =>
    "node " ++ toString id ++ " span " ++ rangeText range ++ " is out of bounds"
  | splitsCharacter id => "node " ++ toString id ++ " span splits a character"
  | escapes child parent outer within =>
    "node " ++ toString child ++ " escapes parent " ++ toString parent ++ " (" ++ rangeText outer
      ++ " not in " ++ rangeText within ++ ")"
  | overlaps child => "node " ++ toString child ++ " overlaps or precedes its previous sibling"

end Inconsistency

namespace SyntaxTree

/-- The first problem among the children of a node, given where the last of them ended. -/
def siblingProblem (t : SyntaxTree) (parent : Nat) (within : ByteRange) :
    Nat → List Nat → Option Inconsistency
  | _, [] => none
  | previousEnd, id :: ids =>
    let child := t.node id
    let outer := t.outerRange child
    if !within.contains child.range || outer.start < within.start then
      some (.escapes id parent outer within)
    else if outer.start < previousEnd then some (.overlaps id)
    else siblingProblem t parent within child.range.stop ids

/-- The first problem of a node itself or of the places of its children. -/
def nodeProblem (t : SyntaxTree) (src : Source) (id : Nat) : Option Inconsistency :=
  let range := (t.node id).range
  if range.stop < range.start || src.size < range.stop then some (.outOfBounds id range)
  else if !src.isBoundary range.start || !src.isBoundary range.stop then
    some (.splitsCharacter id)
  else t.siblingProblem id range range.start (t.children id)

/-- Checks the nodes on a stack and what lies below them, with a number of steps left. -/
def visit (t : SyntaxTree) (src : Source) : Nat → List Nat → Option Inconsistency
  | _, [] => none
  | 0, _ :: _ => some .cycle
  | steps + 1, id :: stack =>
    match t.nodeProblem src id with
    | some problem => some problem
    | none => visit t src steps ((t.children id).reverse ++ stack)

/-- The first inconsistency of a tree with a text. -/
def inconsistency? (t : SyntaxTree) (src : Source) : Option Inconsistency :=
  if t.length != src.size then some (.length t.length src.size)
  else t.visit src t.size [0]

/-- Why a tree cannot be trusted for a text. -/
def problem? (t : SyntaxTree) (src : Source) : Option String :=
  t.malformed.or ((t.inconsistency? src).map Inconsistency.message)

end SyntaxTree

end SourceChunks
