import SourceChunks.Grammar
import SourceChunks.Sorting

/-!
# The grammar of JavaScript and TypeScript

The two share one grammar; TypeScript adds interfaces, enumerations, abstract classes and
namespaces. An export wraps the declaration it exports. Decorators, and the words `static`, `get`
and `set` before a method, are modifiers.
-/

namespace SourceChunks.Grammar.JavaScript

def callableLiterals : List String :=
  ["arrow_function", "function_expression", "function", "generator_function"]

/-- Words before a method that count as modifiers. -/
def methodKeywords : List String := ["static", "get", "set"]

def classify (typed : Bool) (c : Cst) : Option NodeKind :=
  match c.kind with
  | "function_declaration" | "generator_function_declaration" | "method_definition" =>
    some .functionDef
  | "class_declaration" => some .classDef
  | "yield_expression" => some .expression
  | kind =>
    if callableLiterals.contains kind then some .expression
    else if !typed then none
    else match kind with
      | "abstract_class_declaration" | "interface_declaration" | "enum_declaration" =>
        some .classDef
      | "internal_module" | "module" => some .moduleDef
      | _ => none

def isDocComment (src : Source) (_ : Option Cst) (c : Cst) (_ : Option Cst) : Bool :=
  let text := src.chars c.range
  "/**".toList.isPrefixOf text && text != "/**/".toList

def wrapped (c : Cst) : Option Cst :=
  if c.kind == "export_statement" then c.field? "declaration" else none

theorem wrapped_mem (c d : Cst) (h : wrapped c = some d) : d ∈ c.children := by
  unfold wrapped at h
  split at h
  · exact Cst.field?_mem h
  · cases h

/-- The modifiers among the children of a wrapper or of a definition. -/
def ownModifiers (owner : Cst) : List Cst :=
  owner.children.filter fun d =>
    d.label.kind == "decorator"
      || (owner.kind == "method_definition" && !d.label.named
        && methodKeywords.contains d.label.kind)

def modifiers (definition : Cst) (wrapper : Option Cst) : List Cst :=
  Sorting.sortOn (fun (d : Cst) => d.label.range.start)
    (wrapper.elim [] ownModifiers ++ ownModifiers definition)

def flags (_ : Source) (kind : NodeKind) (c : Cst) : NodeFlags :=
  match kind with
  | .functionDef => { asynchronous := c.hasChild "async" }
  | .expression =>
    let callable := callableLiterals.contains c.kind
    { yields := c.kind == "yield_expression"
      callableLiteral := callable
      asynchronous := callable && c.hasChild "async" }
  | .statement =>
    { stringLiteral := c.kind == "expression_statement" && c.namedChildren.head?.any fun d =>
        ["string", "template_string"].contains d.label.kind }
  | _ => {}

/-- Type arguments and comments name no base type. -/
def isBaseType (d : Cst) : Bool := !(["type_arguments", "comment"].contains d.label.kind)

/-- The base types in one part of a heritage clause. -/
def clauseBases (src : Source) (c : Cst) : List String :=
  if ["extends_clause", "implements_clause"].contains c.kind then
    (c.namedChildren.filter isBaseType).map (Cst.text src)
  else if isBaseType c then [c.text src]
  else []

def bases (src : Source) (c : Cst) : List String :=
  let heritage? := c.children.find? fun d =>
    ["class_heritage", "extends_type_clause"].contains d.label.kind
  heritage?.elim [] fun heritage => (Cst.namedChildren heritage).flatMap (clauseBases src)

/-- `const name = (…) => …` with a single declarator. -/
def namedLiteral (src : Source) (c : Cst) : Option (String × Cst) :=
  if !(["lexical_declaration", "variable_declaration"].contains c.kind) then none
  else match c.namedChildren.filter fun d => d.label.kind == "variable_declarator" with
    | [declarator] => do
      let name ← Cst.field? declarator "name"
      let value ← Cst.field? declarator "value"
      if name.kind == "identifier" && callableLiterals.contains value.kind then
        some (name.text src, value)
      else none
    | _ => none

def imports (src : Source) (c : Cst) : List String :=
  if c.kind != "import_statement" then []
  else ((c.field? "source").map fun path => unquoted (path.text src)).toList

end SourceChunks.Grammar.JavaScript

namespace SourceChunks.Grammar

/-- The shared grammar for a language, with or without the additions for types. -/
def scripted (language : Language) (typed : Bool) : Grammar where
  language := language
  classify := JavaScript.classify typed
  isBody kind := ["program", "statement_block", "class_body", "interface_body"].contains kind
  isDocComment := JavaScript.isDocComment
  isDetachedModifier c := c.kind == "decorator"
  wrapped := JavaScript.wrapped
  wrapped_mem := JavaScript.wrapped_mem
  modifiers := JavaScript.modifiers
  flags := JavaScript.flags
  parameters c := (c.field? "parameters").or (c.field? "parameter")
  bases := JavaScript.bases
  namedLiteral := JavaScript.namedLiteral
  imports := JavaScript.imports

def javaScript : Grammar := scripted .javaScript false

def typeScript : Grammar := scripted .typeScript true

def tsx : Grammar := scripted .tsx true

end SourceChunks.Grammar
