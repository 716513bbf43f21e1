import SourceChunks.Json

/-!
# Reading JSON

A reader takes a value off the front of a list of characters and returns the rest. The readers of
nested values count down a budget that the length of the text bounds: every nested value and every
item takes at least one character.
-/

namespace SourceChunks.Json

/-! ## Blanks and numbers -/

def isSpace (c : Char) : Bool := c == ' ' || c == '\t' || c == '\n' || c == '\r'

def skipSpace (cs : List Char) : List Char := cs.dropWhile isSpace

def isDecimalDigit (c : Char) : Bool := '0' ≤ c && c ≤ '9'

def digitsValue (ds : List Char) : Nat := ds.foldl (fun n d => 10 * n + (d.toNat - 0x30)) 0

/-- The fraction of a number, with its point; the rest follows. -/
def fraction? : List Char → Option (List Char × List Char)
  | '.' :: cs =>
    let ds := cs.takeWhile isDecimalDigit
    if ds.isEmpty then none else some ('.' :: ds, cs.dropWhile isDecimalDigit)
  | cs => some ([], cs)

/-- The sign of an exponent. -/
def exponentSign : List Char → List Char × List Char
  | '+' :: cs => (['+'], cs)
  | '-' :: cs => (['-'], cs)
  | cs => ([], cs)

/-- The exponent of a number, with its mark; the rest follows. -/
def exponent? : List Char → Option (List Char × List Char)
  | [] => some ([], [])
  | c :: cs =>
    if c == 'e' || c == 'E' then
      let (sign, cs) := exponentSign cs
      let ds := cs.takeWhile isDecimalDigit
      if ds.isEmpty then none else some (c :: sign ++ ds, cs.dropWhile isDecimalDigit)
    else some ([], c :: cs)

/-- The sign of a number. -/
def numberSign : List Char → Bool × List Char
  | '-' :: cs => (true, cs)
  | cs => (false, cs)

/-- A number: an integer unless it has a fraction or an exponent or is a negative zero. -/
def number? (cs : List Char) : Option (Json × List Char) := do
  let (negative, cs) := numberSign cs
  let ds := cs.takeWhile isDecimalDigit
  if ds.isEmpty || (ds.length > 1 && ds.head? == some '0') then none
  let (frac, cs) ← fraction? (cs.dropWhile isDecimalDigit)
  let (exp, cs) ← exponent? cs
  let value := digitsValue ds
  if frac.isEmpty && exp.isEmpty && !(negative && value == 0) then
    pure (int (if negative then -(value : Int) else value), cs)
  else
    pure (real (String.ofList ((if negative then ['-'] else []) ++ ds ++ frac ++ exp)), cs)

/-! ## Strings -/

def hexValue? (c : Char) : Option Nat :=
  let n := c.toNat
  if 0x30 ≤ n && n ≤ 0x39 then some (n - 0x30)
  else if 0x61 ≤ n && n ≤ 0x66 then some (n - 0x57)
  else if 0x41 ≤ n && n ≤ 0x46 then some (n - 0x37)
  else none

/-- The value of four hexadecimal digits. -/
def hex4? (a b c d : Char) : Option Nat := do
  pure (((← hexValue? a) * 16 + (← hexValue? b)) * 256 + (← hexValue? c) * 16 + (← hexValue? d))

/-- The character of an escape by one letter. -/
def unescape? : Char → Option Char
  | '"' => some '"'
  | '\\' => some '\\'
  | '/' => some '/'
  | 'b' => some '\x08'
  | 'f' => some '\x0c'
  | 'n' => some '\n'
  | 'r' => some '\r'
  | 't' => some '\t'
  | _ => none

/-- The characters of a string up to its closing quote; `\u` escapes of characters beyond the
basic plane come in pairs. -/
def string? : List Char → Option (List Char × List Char)
  | '"' :: cs => some ([], cs)
  | '\\' :: 'u' :: a :: b :: c :: d :: cs => do
    let n ← hex4? a b c d
    if 0xD800 ≤ n && n ≤ 0xDBFF then
      match cs with
      | '\\' :: 'u' :: a' :: b' :: c' :: d' :: cs => do
        let m ← hex4? a' b' c' d'
        if 0xDC00 ≤ m && m ≤ 0xDFFF then
          let (s, rest) ← string? cs
          pure (Char.ofNat (0x10000 + (n - 0xD800) * 0x400 + (m - 0xDC00)) :: s, rest)
        else none
      | _ => none
    else if 0xDC00 ≤ n && n ≤ 0xDFFF then none
    else
      let (s, rest) ← string? cs
      pure (Char.ofNat n :: s, rest)
  | '\\' :: c :: cs => do
    let e ← unescape? c
    let (s, rest) ← string? cs
    pure (e :: s, rest)
  | c :: cs => do
    if c.toNat < 0x20 then none
    let (s, rest) ← string? cs
    pure (c :: s, rest)
  | [] => none

/-! ## Values -/

mutual

/-- A value after blanks. -/
def value? : Nat → List Char → Option (Json × List Char)
  | 0, _ => none
  | budget + 1, cs =>
    match skipSpace cs with
    | 'n' :: 'u' :: 'l' :: 'l' :: cs => some (null, cs)
    | 't' :: 'r' :: 'u' :: 'e' :: cs => some (bool true, cs)
    | 'f' :: 'a' :: 'l' :: 's' :: 'e' :: cs => some (bool false, cs)
    | '"' :: cs => (string? cs).map fun (s, cs) => (str (String.ofList s), cs)
    | '[' :: cs =>
      match skipSpace cs with
      | ']' :: cs => some (arr [], cs)
      | cs => (items? budget cs).map fun (items, cs) => (arr items, cs)
    | '\x7b' :: cs =>
      match skipSpace cs with
      | '\x7d' :: cs => some (obj [], cs)
      | cs => (keyed? budget cs).map fun (ms, cs) => (obj ms, cs)
    | cs => number? cs

/-- The items of a list, at least one, with the closing bracket. -/
def items? : Nat → List Char → Option (List Json × List Char)
  | 0, _ => none
  | budget + 1, cs =>
    match value? budget cs with
    | none => none
    | some (v, cs) =>
      match skipSpace cs with
      | ',' :: cs => (items? budget cs).map fun (vs, cs) => (v :: vs, cs)
      | ']' :: cs => some ([v], cs)
      | _ => none

/-- The members of an object, at least one, with the closing brace. -/
def keyed? : Nat → List Char → Option (List (String × Json) × List Char)
  | 0, _ => none
  | budget + 1, cs =>
    match skipSpace cs with
    | '"' :: cs =>
      match string? cs with
      | none => none
      | some (key, cs) =>
        match skipSpace cs with
        | ':' :: cs =>
          match value? budget cs with
          | none => none
          | some (v, cs) =>
            match skipSpace cs with
            | ',' :: cs =>
              (keyed? budget cs).map fun (ms, cs) => ((String.ofList key, v) :: ms, cs)
            | '\x7d' :: cs => some ([(String.ofList key, v)], cs)
            | _ => none
        | _ => none
    | _ => none

end

/-- The value that a text holds, blanks around it apart. -/
def parse? (text : String) : Option Json :=
  let cs := text.toList
  match value? (cs.length + 1) cs with
  | some (v, rest) => if (skipSpace rest).isEmpty then some v else none
  | none => none

end SourceChunks.Json
