import SourceChunks.Json.Printer
import SourceChunks.Json.Reader
import SourceChunks.Record
import SourceChunks.Text.Blank

/-!
# Records as JSON

A record is an object with its keys in a fixed order. Base types, package, imports, the chunk a
fragment comes from, and diagnostics are left out when there are none. A list of records is
printed as an indented array or with one object a line.
-/

namespace SourceChunks

/-! ## Parts of a record -/

namespace Span

def toJson (s : Span) : Json :=
  .obj [("start_byte", .ofNat s.start), ("end_byte", .ofNat s.stop),
    ("start_line", .ofNat s.startLine), ("end_line", .ofNat s.endLine)]

def ofJson? (v : Json) : Option Span := do
  let ms ← v.members? ["start_byte", "end_byte", "start_line", "end_line"]
  pure {
    start := ← Json.field? ms "start_byte" Json.nat?
    stop := ← Json.field? ms "end_byte" Json.nat?
    startLine := ← Json.field? ms "start_line" Json.nat?
    endLine := ← Json.field? ms "end_line" Json.nat? }

end Span

namespace Diagnostic

def toJson (d : Diagnostic) : Json :=
  .obj [("code", .str d.code.name), ("message", .str d.message)]

def ofJson? (v : Json) : Option Diagnostic := do
  let ms ← v.members? ["code", "message"]
  pure {
    code := ← Json.field? ms "code" (Json.case? (DiagnosticCode.all.map fun c => (c.name, c)))
    message := ← Json.field? ms "message" Json.str? }

end Diagnostic

namespace Record

/-! ## Members -/

/-- A list under a key, left out when empty. -/
def optionalList (key : String) (items : List Json) : List (String × Json) :=
  if items.isEmpty then [] else [(key, .arr items)]

/-- A text under a key, left out when there is none. -/
def optionalText (key : String) : Option String → List (String × Json)
  | none => []
  | some s => [(key, .str s)]

def toJson (r : Record) : Json :=
  .obj ([
    ("id", .str r.id),
    ("parent_id", .ofOption .str r.parentId),
    ("file_path", .str r.filePath),
    ("language", .str r.language),
    ("kind", .str r.kind.name),
    ("name", .str r.name),
    ("signature", .str r.signature),
    ("docstring", .str r.docstring),
    ("decorators", .strs (r.decorators.map Decorator.text))]
    ++ optionalList "extends" (r.bases.map .str)
    ++ optionalText "package" r.packageName
    ++ optionalList "imports" (r.imports.map .str)
    ++ [
    ("span", r.span.toJson),
    ("depth", .ofNat r.depth),
    ("synthetic", .bool r.synthetic)]
    ++ optionalText "split_from" r.splitFrom
    ++ optionalList "diagnostics" (r.diagnostics.map Diagnostic.toJson))

/-- The keys in their order. -/
def keys : List String :=
  ["id", "parent_id", "file_path", "language", "kind", "name", "signature", "docstring",
   "decorators", "extends", "package", "imports", "span", "depth", "synthetic", "split_from",
   "diagnostics"]

def ofJson? (v : Json) : Option Record := do
  let ms ← v.members? keys
  pure {
    id := ← Json.field? ms "id" Json.str?
    parentId := ← Json.fieldD? ms "parent_id" none (Json.orNull? Json.str?)
    filePath := ← Json.field? ms "file_path" Json.str?
    language := ← Json.field? ms "language" Json.str?
    kind := ← Json.field? ms "kind" (Json.case? (ChunkKind.all.map fun k => (k.name, k)))
    name := ← Json.field? ms "name" Json.str?
    signature := ← Json.field? ms "signature" Json.str?
    docstring := ← Json.field? ms "docstring" Json.str?
    decorators :=
      (← Json.field? ms "decorators" (Json.list? Json.str?)).map Decorator.ofText
    bases := ← Json.fieldD? ms "extends" [] (Json.list? Json.str?)
    packageName := ← Json.fieldD? ms "package" none (Json.orNull? Json.str?)
    imports := ← Json.fieldD? ms "imports" [] (Json.list? Json.str?)
    span := ← Json.field? ms "span" Span.ofJson?
    depth := ← Json.field? ms "depth" Json.nat?
    synthetic := ← Json.field? ms "synthetic" Json.bool?
    splitFrom := ← Json.fieldD? ms "split_from" none (Json.orNull? Json.str?)
    diagnostics := ← Json.fieldD? ms "diagnostics" [] (Json.list? Diagnostic.ofJson?) }

/-! ## Lists of records -/

/-- Records from a JSON array. -/
def listOfJson? (v : Json) : Option (List Record) := v.list? ofJson?

/-- An indented JSON array. -/
def printJson (records : List Record) : String := (Json.arr (records.map toJson)).pretty

def parseJson? (text : String) : Option (List Record) := (Json.parse? text).bind listOfJson?

/-- One object a line, each line ended by a line feed. -/
def printJsonLines (records : List Record) : String :=
  String.ofList (records.flatMap fun r => Json.render .compact 0 r.toJson ++ ['\n'])

def parseJsonLines? (text : String) : Option (List Record) :=
  (Text.lines text.toList).mapM fun l => (Json.parse? (String.ofList l)).bind ofJson?

end Record

end SourceChunks
