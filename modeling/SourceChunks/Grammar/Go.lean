import SourceChunks.Grammar

/-!
# The grammar of Go

Structure and interface types are classes; a declaration of a single type wraps it. A method's
base type is that of its receiver. A comment documents what follows when it has its line to itself
and no blank line comes after it.
-/

namespace SourceChunks.Grammar.Go

mutual

/-- The identifier that a type is built on: `Server` of `*pkg.Server[T]`. -/
def baseName (src : Source) : Cst → Option String
  | .node l children =>
    match l.kind with
    | "type_identifier" => some (src.slice l.range)
    | "pointer_type" | "parenthesized_type" => baseNameOfNamed src children
    | "generic_type" => baseNameOfField src "type" children
    | "qualified_type" => (Cst.field? (.node l children) "name").map (Cst.text src)
    | _ => trimmedText? src l.range

/-- The base name of the first named node. -/
def baseNameOfNamed (src : Source) : List Cst → Option String
  | [] => none
  | c :: cs => if c.label.named then baseName src c else baseNameOfNamed src cs

/-- The base name of the first node in a field. -/
def baseNameOfField (src : Source) (field : String) : List Cst → Option String
  | [] => none
  | c :: cs => if c.label.field == some field then baseName src c else baseNameOfField src field cs

end

mutual

/-- The types embedded in a structure or interface type, in order. -/
def embedded (src : Source) : Cst → List String
  | .node l children =>
    match l.kind with
    | "field_declaration" =>
      if (Cst.field? (.node l children) "name").isNone then
        (baseNameOfField src "type" children).toList
      else []
    | "struct_type" | "interface_type" | "field_declaration_list" => embeddedIn src children
    | "type_elem" => (children.filter fun d => d.label.named).filterMap (baseName src)
    | _ => []

def embeddedIn (src : Source) : List Cst → List String
  | [] => []
  | c :: cs => (if c.label.named then embedded src c else []) ++ embeddedIn src cs

end

def classify (c : Cst) : Option NodeKind :=
  match c.kind with
  | "function_declaration" | "method_declaration" => some .functionDef
  | "type_spec" =>
    if (c.field? "type").any fun t => ["struct_type", "interface_type"].contains t.kind then
      some .classDef
    else none
  | "func_literal" => some .expression
  | _ => none

/-- A comment on a line of its own, with the next named sibling on its last line or the one
after. -/
def isDocComment (src : Source) (before : Option Cst) (c : Cst) (after : Option Cst) : Bool :=
  let line := src.lines.lineOf
  (before.all fun b => line b.label.range.stop < line c.label.range.start)
    && after.any fun a => line a.label.range.start ≤ line c.label.range.stop + 1

def wrapped (c : Cst) : Option Cst :=
  if c.kind != "type_declaration" then none
  else match c.namedChildren.filter fun d => d.label.kind != "comment" with
    | [spec] => if spec.label.kind == "type_spec" then some spec else none
    | _ => none

theorem wrapped_mem (c d : Cst) (h : wrapped c = some d) : d ∈ c.children := by
  unfold wrapped at h
  split at h
  · cases h
  · split at h
    · next spec hs =>
      split at h
      · cases h
        have : d ∈ c.namedChildren.filter fun x => x.label.kind != "comment" := by simp [hs]
        exact Cst.namedChildren_subset (List.mem_filter.1 this).1
      · cases h
    · cases h

def flags (_ : Source) (kind : NodeKind) (c : Cst) : NodeFlags :=
  { callableLiteral := kind == .expression && c.kind == "func_literal" }

/-- The type of a method's receiver, or the types embedded in a type. -/
def bases (src : Source) (c : Cst) : List String :=
  match c.kind with
  | "method_declaration" =>
    (do
      let receiver ← c.field? "receiver"
      let param ← receiver.namedChildren.find? fun p => p.label.kind == "parameter_declaration"
      let type ← Cst.field? param "type"
      baseName src type : Option String).toList
  | "type_spec" => (c.field? "type").elim [] (embedded src)
  | _ => []

/-- `var name = func(…) …` -/
def namedLiteral (src : Source) (c : Cst) : Option (String × Cst) :=
  if c.kind != "var_declaration" then none
  else match c.namedChildren with
    | [spec] => do
      if spec.label.kind != "var_spec" then none
      let values ← Cst.field? spec "value"
      match Cst.inField spec "name", values.namedChildren with
      | [name], [literal] =>
        if literal.label.kind == "func_literal" then some (Cst.text src name, literal) else none
      | _, _ => none
    | _ => none

def packageName (src : Source) (c : Cst) : Option String :=
  if c.kind != "package_clause" then none
  else (c.namedChildren.find? fun d => d.label.kind == "package_identifier").map (Cst.text src)

/-- The specifications of an import, single or in a list. -/
def importSpecs (c : Cst) : List Cst :=
  c.namedChildren.flatMap fun (d : Cst) =>
    match d.kind with
    | "import_spec" => [d]
    | "import_spec_list" => d.namedChildren.filter fun s => s.label.kind == "import_spec"
    | _ => []

def imports (src : Source) (c : Cst) : List String :=
  if c.kind != "import_declaration" then []
  else (importSpecs c).filterMap fun (s : Cst) =>
    (s.field? "path").map fun path => unquoted (path.text src)

end SourceChunks.Grammar.Go

namespace SourceChunks.Grammar

def go : Grammar where
  language := .go
  classify := Go.classify
  isBody kind := ["source_file", "statement_list"].contains kind
  isDocComment := Go.isDocComment
  wrapped := Go.wrapped
  wrapped_mem := Go.wrapped_mem
  flags := Go.flags
  returns c := c.field? "result"
  bases := Go.bases
  namedLiteral := Go.namedLiteral
  packageName := Go.packageName
  imports := Go.imports

end SourceChunks.Grammar
