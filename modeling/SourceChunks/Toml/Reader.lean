import SourceChunks.Toml
import SourceChunks.Toml.Scalar

/-!
# Reading TOML

Readers take something off the front of a list of characters. Nested values count down a budget
that the length of the text bounds.
-/

namespace SourceChunks.Toml

open Text

/-! ## Blanks and comments -/

def skipSpace (cs : List Char) : List Char := cs.dropWhile isSpace

/-- Takes the rest of a comment off the front, up to the line end. -/
def comment? : List Char → Option (List Char)
  | [] => some []
  | c :: cs =>
    if (newline? (c :: cs)).isSome then some (c :: cs)
    else if isForbidden c then none
    else comment? cs

/-- Takes blanks, and a comment if there is one, off the front. -/
def skipComment? (cs : List Char) : Option (List Char) :=
  match skipSpace cs with
  | '#' :: cs => comment? cs
  | cs => some cs

/-- Takes blanks, comments and line ends off the front. -/
def skipLines? : Nat → List Char → Option (List Char)
  | 0, cs => some cs
  | budget + 1, cs => do
    let cs ← skipComment? cs
    match newline? cs with
    | some rest => skipLines? budget rest
    | none => pure cs

/-! ## Keys -/

def isBareKeyChar (c : Char) : Bool := isAsciiAlpha c || isAsciiDigit c || c == '_' || c == '-'

/-- One part of a key: a name, or a string on one line. -/
def keyPart? (cs : List Char) : Option (String × List Char) :=
  match openQuote? cs with
  | some (q, _) => if q.multiLine then none else quoted? cs
  | none =>
    let name := cs.takeWhile isBareKeyChar
    if name.isEmpty then none else some (String.ofList name, cs.dropWhile isBareKeyChar)

/-- A key of one or more parts: all but the last, the last, and the rest. -/
def key? : Nat → List Char → Option (List String × String × List Char)
  | 0, _ => none
  | budget + 1, cs => do
    let (part, cs) ← keyPart? (skipSpace cs)
    match skipSpace cs with
    | '.' :: cs =>
      let (path, last, cs) ← key? budget cs
      pure (part :: path, last, cs)
    | cs => pure ([], part, cs)

/-! ## Values -/

mutual

def value? : Nat → List Char → Option (Json × List Char)
  | 0, _ => none
  | budget + 1, cs =>
    match cs with
    | '[' :: cs => (items? budget cs).map fun (vs, cs) => (.arr vs, cs)
    | '\x7b' :: cs =>
      match skipSpace cs with
      | '\x7d' :: cs => some (.obj [], cs)
      | cs => (pairs? budget [] cs).map fun (es, cs) => (.obj (entriesToJson es), cs)
    | cs =>
      match openQuote? cs with
      | some _ => (quoted? cs).map fun (s, cs) => (.str s, cs)
      | none => bare? cs

/-- The items of an array up to its closing bracket; lines may end between them. -/
def items? : Nat → List Char → Option (List Json × List Char)
  | 0, _ => none
  | budget + 1, cs =>
    match skipLines? cs.length cs with
    | some (']' :: cs) => some ([], cs)
    | some cs =>
      match value? budget cs with
      | none => none
      | some (v, cs) =>
        match skipLines? cs.length cs with
        | some (',' :: cs) => (items? budget cs).map fun (vs, cs) => (v :: vs, cs)
        | some (']' :: cs) => some ([v], cs)
        | _ => none
    | none => none

/-- The pairs of a table on one line up to its closing brace, at least one. -/
def pairs? : Nat → Entries → List Char → Option (Entries × List Char)
  | 0, _, _ => none
  | budget + 1, es, cs =>
    match key? (cs.length + 1) cs with
    | some (path, key, '=' :: cs) =>
      match value? budget (skipSpace cs) with
      | none => none
      | some (v, cs) =>
        match addValue path key v es, skipSpace cs with
        | some es, ',' :: cs => pairs? budget es cs
        | some es, '\x7d' :: cs => some (es, cs)
        | _, _ => none
    | _ => none

end

/-! ## Documents -/

/-- A document in the making and the header that is open. -/
structure Document where
  entries : Entries := []
  header : List String := []

/-- A header after its opening bracket. -/
def header? (d : Document) (cs : List Char) : Option (Document × List Char) :=
  match cs with
  | '[' :: cs =>
    match key? (cs.length + 1) cs with
    | some (path, key, ']' :: ']' :: cs) =>
      (openElement path key d.entries).map fun es => (⟨es, path ++ [key]⟩, cs)
    | _ => none
  | cs =>
    match key? (cs.length + 1) cs with
    | some (path, key, ']' :: cs) =>
      (openTable path key d.entries).map fun es => (⟨es, path ++ [key]⟩, cs)
    | _ => none

/-- A key and its value. -/
def pair? (d : Document) (cs : List Char) : Option (Document × List Char) :=
  match key? (cs.length + 1) cs with
  | some (path, key, '=' :: cs) => do
    let cs := skipSpace cs
    let (v, cs) ← value? (cs.length + 1) cs
    pure ({ d with entries := ← addUnder d.header path key v d.entries }, cs)
  | _ => none

/-- One line at a time. -/
def document? : Nat → Document → List Char → Option Entries
  | 0, _, _ => none
  | budget + 1, d, cs =>
    match skipLines? cs.length cs with
    | none => none
    | some [] => some d.entries
    | some cs => do
      let (d, cs) ← match cs with
        | '[' :: cs => header? d cs
        | cs => pair? d cs
      match ← skipComment? cs with
      | [] => pure d.entries
      | cs => document? budget d (← newline? cs)

/-- The table that a text denotes. -/
def parse? (text : String) : Option Json :=
  let cs := match text.toList with
    | '\uFEFF' :: cs => cs
    | cs => cs
  (document? (cs.length + 1) {} cs).map fun es => .obj (entriesToJson es)

end SourceChunks.Toml
