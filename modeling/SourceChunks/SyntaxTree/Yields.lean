import SourceChunks.SyntaxTree

/-!
# Which callables yield

A callable is a generator when a yielding expression lies in its own body: below it without a
definition or an anonymous function in between.
-/

namespace SourceChunks

namespace Node

/-- Definitions and anonymous functions have a body of their own. -/
def hasOwnBody (n : Node) : Bool := n.kind.isDefinition || n.flags.callableLiteral

end Node

namespace SyntaxTree

/-- Whether a yielding expression lies at most `depth` links below a node, in its own body. -/
def yieldsBelow (t : SyntaxTree) : Nat → Nat → Bool
  | 0, _ => false
  | depth + 1, id =>
    (t.children id).reverse.any fun c =>
      (t.node c).flags.yields || (!(t.node c).hasOwnBody && t.yieldsBelow depth c)

/-- Whether a yielding expression lies in a node's own body. -/
def yieldsWithin (t : SyntaxTree) (id : Nat) : Bool := t.yieldsBelow t.size id

end SyntaxTree

end SourceChunks
