import SourceChunks.Cst
import SourceChunks.SyntaxTree
import SourceChunks.Text.Blank

/-!
# Grammars

What a language says about the nodes of its concrete trees. A grammar answers questions about
single nodes; it never looks further than a node's children and its neighbours.
-/

namespace SourceChunks

structure Grammar where
  language : Language
  /-- The kind of a node with a meaning of its own. -/
  classify : Cst → Option NodeKind
  /-- Kinds whose named children are statements. -/
  isBody : String → Bool
  /-- Whether a comment, between the sibling before it and the next named sibling, documents what
  follows. -/
  isDocComment : Source → Option Cst → Cst → Option Cst → Bool := fun _ _ _ _ => false
  /-- Siblings that belong to the next definition. -/
  isDetachedModifier : Cst → Bool := fun _ => false
  /-- The definition inside a wrapper. -/
  wrapped : Cst → Option Cst := fun _ => none
  wrapped_mem : ∀ c d, wrapped c = some d → d ∈ c.children := by simp
  /-- The modifiers of a definition, given its wrapper. -/
  modifiers : Cst → Option Cst → List Cst := fun _ _ => []
  name : Source → Cst → Option String :=
    fun src c => ((c.field? "name").map (Cst.text src)).filter fun s => !s.isEmpty
  flags : Source → NodeKind → Cst → NodeFlags
  parameters : Cst → Option Cst := fun c => c.field? "parameters"
  returns : Cst → Option Cst := fun c => c.field? "return_type"
  bases : Source → Cst → List String := fun _ _ => []
  /-- The string literal that opens a definition's body. -/
  docstring : Cst → Option Cst := fun _ => none
  /-- The name and the anonymous function of a statement that joins the two. -/
  namedLiteral : Source → Cst → Option (String × Cst) := fun _ _ => none
  /-- The package that a top-level node declares. -/
  packageName : Source → Cst → Option String := fun _ _ => none
  /-- The modules that a top-level node imports. -/
  imports : Source → Cst → List String := fun _ _ => []

namespace Grammar

/-- The text of a node without blanks at its ends, unless nothing is left. -/
def trimmedText? (src : Source) (range : ByteRange) : Option String :=
  let cs := Text.trim (src.chars range)
  if cs.isEmpty then none else some (String.ofList cs)

/-- A text without the quotes around it. -/
def unquoted (text : String) : String :=
  let isQuote (c : Char) : Bool := c == '"' || c == '\x27' || c == '\x60'
  let cs := (Text.trim text.toList).dropWhile isQuote
  String.ofList (cs.reverse.dropWhile isQuote).reverse

end Grammar

end SourceChunks
