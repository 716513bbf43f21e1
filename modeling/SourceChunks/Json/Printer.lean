import SourceChunks.Json

/-!
# Printing JSON

Two layouts: everything on one line without blanks, or each item on a line of its own, indented by
two spaces a level. Quotes, backslashes and the characters below U+0020 are escaped; everything
else is written as it is.
-/

namespace SourceChunks.Json

/-! ## Strings -/

def lowerHexDigit (n : Nat) : Char :=
  if n < 10 then Char.ofNat (0x30 + n) else Char.ofNat (0x57 + n)

/-- The written form of a character inside quotes. -/
def escape (c : Char) : List Char :=
  if c == '"' then ['\\', '"']
  else if c == '\\' then ['\\', '\\']
  else if c == '\x08' then ['\\', 'b']
  else if c == '\t' then ['\\', 't']
  else if c == '\n' then ['\\', 'n']
  else if c == '\x0c' then ['\\', 'f']
  else if c == '\r' then ['\\', 'r']
  else if c.toNat < 0x20 then
    ['\\', 'u', '0', '0', lowerHexDigit (c.toNat / 16), lowerHexDigit (c.toNat % 16)]
  else [c]

def quote (cs : List Char) : List Char := '"' :: cs.flatMap escape ++ ['"']

/-! ## Layouts -/

structure Layout where
  /-- What stands before an item at a depth, and before the bracket that closes that depth. -/
  lineBreak : Nat → List Char
  /-- What stands between a colon and the value after it. -/
  gap : List Char

namespace Layout

def compact : Layout where
  lineBreak _ := []
  gap := []

def indented : Layout where
  lineBreak depth := '\n' :: List.replicate (2 * depth) ' '
  gap := [' ']

end Layout

/-! ## Values -/

mutual

/-- The text of a value that stands at a depth. -/
def render (lay : Layout) (depth : Nat) : Json → List Char
  | null => ['n', 'u', 'l', 'l']
  | bool true => ['t', 'r', 'u', 'e']
  | bool false => ['f', 'a', 'l', 's', 'e']
  | int n => (toString n).toList
  | real literal => literal.toList
  | str s => quote s.toList
  | arr [] => ['[', ']']
  | arr (item :: items) =>
    '[' :: lay.lineBreak (depth + 1) ++ render lay (depth + 1) item
      ++ renderItems lay (depth + 1) items ++ lay.lineBreak depth ++ [']']
  | obj [] => ['\x7b', '\x7d']
  | obj ((key, value) :: members) =>
    '\x7b' :: lay.lineBreak (depth + 1) ++ quote key.toList ++ ':' :: lay.gap
      ++ render lay (depth + 1) value ++ renderMembers lay (depth + 1) members
      ++ lay.lineBreak depth ++ ['\x7d']

/-- The items after the first, each with its comma. -/
def renderItems (lay : Layout) (depth : Nat) : List Json → List Char
  | [] => []
  | item :: items =>
    ',' :: lay.lineBreak depth ++ render lay depth item ++ renderItems lay depth items

/-- The members after the first, each with its comma. -/
def renderMembers (lay : Layout) (depth : Nat) : List (String × Json) → List Char
  | [] => []
  | (key, value) :: members =>
    ',' :: lay.lineBreak depth ++ quote key.toList ++ ':' :: lay.gap ++ render lay depth value
      ++ renderMembers lay depth members

end

def compact (v : Json) : String := String.ofList (render .compact 0 v)

def pretty (v : Json) : String := String.ofList (render .indented 0 v)

end SourceChunks.Json
