import SourceChunks.Grammar

/-!
# The grammar of Rust

Structures, enumerations, unions, traits and implementations are all classes. Attributes and
documentation comments stand before the item they belong to.
-/

namespace SourceChunks.Grammar.Rust

mutual

/-- The identifier that a type is built on: `Vec` of `Vec<T>`, `B` of `a::B`. -/
def baseName (src : Source) : Cst → Option String
  | .node l children =>
    match l.kind with
    | "type_identifier" | "identifier" | "primitive_type" => some (src.slice l.range)
    | "generic_type" | "reference_type" => baseNameOfField src "type" children
    | "scoped_type_identifier" | "scoped_identifier" =>
      (Cst.field? (.node l children) "name").map (Cst.text src)
    | _ => trimmedText? src l.range

/-- The base name of the first node in a field. -/
def baseNameOfField (src : Source) (field : String) : List Cst → Option String
  | [] => none
  | c :: cs => if c.label.field == some field then baseName src c else baseNameOfField src field cs

end

def classify (c : Cst) : Option NodeKind :=
  match c.kind with
  | "function_item" | "function_signature_item" => some .functionDef
  | "struct_item" | "enum_item" | "union_item" | "trait_item" | "impl_item" => some .classDef
  | "mod_item" => some .moduleDef
  | "closure_expression" | "yield_expression" => some .expression
  | _ => none

/-- A comment of exactly three slashes, or one that opens with two stars and is not empty. -/
def isDocComment (src : Source) (_ : Option Cst) (c : Cst) (_ : Option Cst) : Bool :=
  let text := src.chars c.range
  let opens (s : String) : Bool := s.toList.isPrefixOf text
  (opens "///" && !opens "////") || (opens "/**" && !opens "/***" && text != "/**/".toList)

/-- An implementation is named for its type. -/
def name (src : Source) (c : Cst) : Option String :=
  if c.kind == "impl_item" then (c.field? "type").bind (baseName src)
  else (c.field? "name").map (Cst.text src)

def flags (_ : Source) (kind : NodeKind) (c : Cst) : NodeFlags :=
  match kind with
  | .functionDef =>
    { asynchronous := c.children.any fun d =>
        d.label.kind == "function_modifiers" && Cst.hasChild d "async" }
  | .expression =>
    { callableLiteral := c.kind == "closure_expression", yields := c.kind == "yield_expression" }
  | .statement =>
    { stringLiteral := c.kind == "expression_statement" && c.namedChildren.head?.any fun d =>
        ["string_literal", "raw_string_literal"].contains d.label.kind }
  | _ => {}

/-- The trait that is implemented, or the bounds of a trait. -/
def bases (src : Source) (c : Cst) : List String :=
  match c.kind with
  | "impl_item" => ((c.field? "trait").bind (baseName src)).toList
  | "trait_item" =>
    (c.field? "bounds").elim [] fun bounds => bounds.namedChildren.filterMap (baseName src)
  | _ => []

def imports (src : Source) (c : Cst) : List String :=
  match c.kind with
  | "use_declaration" =>
    ((c.field? "argument").map fun a =>
      String.ofList ((src.chars a.range).filter fun ch => !Text.isBlank ch)).toList
  | "extern_crate_declaration" => ((c.field? "name").map (Cst.text src)).toList
  | _ => []

end SourceChunks.Grammar.Rust

namespace SourceChunks.Grammar

def rust : Grammar where
  language := .rust
  classify := Rust.classify
  isBody kind := ["source_file", "declaration_list", "block"].contains kind
  isDocComment := Rust.isDocComment
  isDetachedModifier c := c.kind == "attribute_item"
  name := Rust.name
  flags := Rust.flags
  bases := Rust.bases
  imports := Rust.imports

end SourceChunks.Grammar
