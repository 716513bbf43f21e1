import SourceChunks.Json

/-!
# TOML documents

A document is a table of keys. A header opens a table, or a further element of an array of tables,
and the keys after it go there. A dotted key goes into a table inside the open one. A table can be
defined only once: by a header, by dotted keys, or as a value.
-/

namespace SourceChunks.Toml

/-- What a key stands for. -/
inductive Item
  | value (v : Json)
  /-- A table. It is implicit until a header defines it; dotted if dotted keys made it. -/
  | table (implicit dotted : Bool) (entries : List (String × Item))
  /-- The elements of an array of tables, the last first. -/
  | tables (elements : List (List (String × Item)))

abbrev Entries := List (String × Item)

/-! ## Values -/

mutual

def Item.toJson : Item → Json
  | .value v => v
  | .table _ _ es => .obj (entriesToJson es)
  | .tables elements => .arr (elementsToJson elements).reverse

def entriesToJson : Entries → List (String × Json)
  | [] => []
  | (k, i) :: es => (k, i.toJson) :: entriesToJson es

def elementsToJson : List Entries → List Json
  | [] => []
  | es :: rest => .obj (entriesToJson es) :: elementsToJson rest

end

/-! ## Growing a document -/

/-- Replaces the item of a key that is there. -/
def replace (key : String) (item : Item) : Entries → Entries
  | [] => []
  | (k, i) :: es => if k == key then (k, item) :: es else (k, i) :: replace key item es

/-- Goes down a path and changes the table at its end; tables that are not there yet are made.
`change` is told whether dotted keys made the table. A dotted path stops at a table that a header
has defined. -/
def descend (viaDots : Bool) (change : Bool → Entries → Option Entries) :
    List String → Bool → Entries → Option Entries
  | [], dotted, es => change dotted es
  | key :: path, _, es =>
    match es.lookup key with
    | none => (descend viaDots change path viaDots []).map fun sub =>
      es ++ [(key, .table true viaDots sub)]
    | some (.value _) => none
    | some (.tables []) => none
    | some (.tables (last :: elements)) =>
      (descend viaDots change path false last).map fun sub =>
        replace key (.tables (sub :: elements)) es
    | some (.table implicit dotted sub) =>
      if viaDots && !implicit then none
      else (descend viaDots change path dotted sub).map fun sub =>
        replace key (.table implicit dotted sub) es

/-- Adds a value under a key, a dotted one if there is a path before it. -/
def addValue (path : List String) (key : String) (v : Json) (es : Entries) : Option Entries :=
  descend true (fun dotted es =>
    if dotted == path.isEmpty || (es.lookup key).isSome then none
    else some (es ++ [(key, .value v)])) path false es

/-- Opens a table by its header. -/
def openTable (path : List String) (key : String) (es : Entries) : Option Entries :=
  descend false (fun _ es =>
    match es.lookup key with
    | none => some (es ++ [(key, .table false false [])])
    | some (.table true false sub) => some (replace key (.table false false sub) es)
    | some _ => none) path false es

/-- Opens a further element of an array of tables. -/
def openElement (path : List String) (key : String) (es : Entries) : Option Entries :=
  descend false (fun _ es =>
    match es.lookup key with
    | none => some (es ++ [(key, .tables [[]])])
    | some (.tables elements) => some (replace key (.tables ([] :: elements)) es)
    | some _ => none) path false es

/-- Adds a value to the table that a header has opened. -/
def addUnder (header path : List String) (key : String) (v : Json) (es : Entries) :
    Option Entries :=
  descend false (fun _ es => addValue path key v es) header false es

end SourceChunks.Toml
