import SourceChunks.Grammar
import SourceChunks.Pattern

/-!
# The grammar of Python

Decorated definitions wrap the definition they decorate. A body that opens with a string statement
is documented by it. `if __name__ == "__main__"` guards what runs only when the file is the
program.
-/

namespace SourceChunks.Grammar.Python

open Pattern

/-! ## The main guard -/

def blanks : Pattern := star (.set .blank)

/-- `"__main__"` in either kind of quotes. -/
def mainName : Pattern :=
  let quote : Pattern := .set (.union (.single '\x27') (.single '"'))
  concat [quote, text "__main__", quote]

/-- The comparison of the module's name with that of the program, either way round. -/
def mainGuard : Pattern :=
  let equals := concat [blanks, text "==", blanks]
  whole (concat [blanks,
    .alt (concat [text "__name__", equals, mainName]) (concat [mainName, equals, text "__name__"]),
    blanks])

def isMainGuard (src : Source) (c : Cst) : Bool :=
  c.kind == "if_statement"
    && (c.field? "condition").any fun condition => mainGuard.search (src.chars condition.range)

/-! ## Nodes -/

def classify (c : Cst) : Option NodeKind :=
  match c.kind with
  | "function_definition" => some .functionDef
  | "class_definition" => some .classDef
  | "lambda" | "yield" => some .expression
  | _ => none

def isStringStatement (c : Cst) : Bool :=
  c.kind == "expression_statement"
    && match c.namedChildren with
      | [only] => ["string", "concatenated_string"].contains only.kind
      | _ => false

def flags (src : Source) (kind : NodeKind) (c : Cst) : NodeFlags :=
  match kind with
  | .functionDef => { asynchronous := c.hasChild "async" }
  | .expression => { yields := c.kind == "yield", callableLiteral := c.kind == "lambda" }
  | .statement => { stringLiteral := isStringStatement c, guardedEntry := isMainGuard src c }
  | _ => {}

def wrapped (c : Cst) : Option Cst :=
  if c.kind == "decorated_definition" then c.field? "definition" else none

theorem wrapped_mem (c d : Cst) (h : wrapped c = some d) : d ∈ c.children := by
  unfold wrapped at h
  split at h
  · exact Cst.field?_mem h
  · cases h

/-- The decorators stand in the wrapper. -/
def modifiers (_ : Cst) (wrapper : Option Cst) : List Cst :=
  wrapper.elim [] fun w => w.namedChildren.filter fun d => d.label.kind == "decorator"

def bases (src : Source) (c : Cst) : List String :=
  (c.field? "superclasses").elim [] fun list =>
    (list.namedChildren.filter fun b => !(["keyword_argument", "comment"].contains b.label.kind)).map
      (Cst.text src)

def docstring (c : Cst) : Option Cst := do
  let body ← c.field? "body"
  let first ← body.namedChildren.find? fun d => d.label.kind != "comment"
  if isStringStatement first then some first else none

/-- `name = lambda …` -/
def namedLiteral (src : Source) (c : Cst) : Option (String × Cst) :=
  if c.kind != "expression_statement" then none
  else match c.namedChildren with
    | [assignment] => do
      if assignment.label.kind != "assignment" then none
      let left ← Cst.field? assignment "left"
      let right ← Cst.field? assignment "right"
      if left.kind == "identifier" && right.kind == "lambda" then some (left.text src, right)
      else none
    | _ => none

def imports (src : Source) (c : Cst) : List String :=
  match c.kind with
  | "import_statement" =>
    (c.inField "name").filterMap fun (n : Cst) =>
      (if n.kind == "aliased_import" then n.field? "name" else some n).map (Cst.text src)
  | "import_from_statement" => ((c.field? "module_name").map (Cst.text src)).toList
  | "future_import_statement" => ["__future__"]
  | _ => []

end SourceChunks.Grammar.Python

namespace SourceChunks.Grammar

def python : Grammar where
  language := .python
  classify := Python.classify
  isBody kind := ["module", "block"].contains kind
  wrapped := Python.wrapped
  wrapped_mem := Python.wrapped_mem
  modifiers := Python.modifiers
  flags := Python.flags
  bases := Python.bases
  docstring := Python.docstring
  namedLiteral := Python.namedLiteral
  imports := Python.imports

end SourceChunks.Grammar
