import SourceChunks.Json.Reader
import SourceChunks.Text.Word

/-!
# Scalars of TOML

Integers of 64 bits in four bases, floating numbers, dates and times, and strings in four kinds of
quotes. Numbers that are not integers, and dates and times, are kept by their text.
-/

namespace SourceChunks.Toml

open Text

/-! ## Numbers -/

/-- Digits with single underscores between them. -/
def digits? (isDigit : Char → Bool) : Bool → List Char → Option (List Char)
  | afterDigit, [] => if afterDigit then some [] else none
  | afterDigit, c :: cs =>
    if c == '_' then if afterDigit then digits? isDigit false cs else none
    else if isDigit c then (digits? isDigit true cs).map (c :: ·)
    else none

/-- A number in a base from its digits. -/
def numberIn (base : Nat) (ds : List Char) : Nat :=
  ds.foldl (fun n d => base * n + (Json.hexValue? d).getD 0) 0

/-- The sign before a number. -/
def sign : List Char → Bool × List Char
  | '+' :: cs => (false, cs)
  | '-' :: cs => (true, cs)
  | cs => (false, cs)

/-- Decimal digits without a needless zero in front. -/
def decimal? (cs : List Char) : Option (List Char) := do
  let ds ← digits? isAsciiDigit false cs
  if ds.length > 1 && ds.head? == some '0' then none
  pure ds

def inRange? (n : Int) : Option Int :=
  if Int64.minValue.toInt ≤ n && n ≤ Int64.maxValue.toInt then some n else none

def integer? (cs : List Char) : Option Int :=
  match cs with
  | '0' :: 'x' :: cs =>
    (digits? (fun c => (Json.hexValue? c).isSome) false cs).bind fun ds => inRange? (numberIn 16 ds)
  | '0' :: 'o' :: cs =>
    (digits? (fun c => '0' ≤ c && c ≤ '7') false cs).bind fun ds => inRange? (numberIn 8 ds)
  | '0' :: 'b' :: cs =>
    (digits? (fun c => c == '0' || c == '1') false cs).bind fun ds => inRange? (numberIn 2 ds)
  | cs => do
    let (negative, cs) := sign cs
    let n := numberIn 10 (← decimal? cs)
    inRange? (if negative then -(n : Int) else n)

def isExponentMark (c : Char) : Bool := c == 'e' || c == 'E'

/-- An exponent after its mark. -/
def isExponent (cs : List Char) : Bool := (digits? isAsciiDigit false (sign cs).2).isSome

/-- A number with a fraction, an exponent or both, or one of the special numbers. -/
def isFloat (cs : List Char) : Bool :=
  let cs := (sign cs).2
  if cs == ['i', 'n', 'f'] || cs == ['n', 'a', 'n'] then true
  else
    let isBreak (c : Char) : Bool := c == '.' || isExponentMark c
    let whole := cs.takeWhile fun c => !isBreak c
    (decimal? whole).isSome && match cs.dropWhile fun c => !isBreak c with
      | '.' :: rest =>
        let fraction := rest.takeWhile fun c => !isExponentMark c
        (digits? isAsciiDigit false fraction).isSome
          && match rest.dropWhile fun c => !isExponentMark c with
            | [] => true
            | _ :: exponent => isExponent exponent
      | _ :: exponent => isExponent exponent
      | [] => false

/-! ## Dates and times -/

/-- A number of exactly `count` digits and the rest. -/
def fixed? (count : Nat) (cs : List Char) : Option (Nat × List Char) :=
  let ds := cs.take count
  if ds.length == count && ds.all isAsciiDigit then some (numberIn 10 ds, cs.drop count) else none

def skipChar? (c : Char) : List Char → Option (List Char)
  | d :: cs => if c == d then some cs else none
  | [] => none

def isLeapYear (y : Nat) : Bool := y % 4 == 0 && (y % 100 != 0 || y % 400 == 0)

def daysIn (year month : Nat) : Nat :=
  if month == 2 then if isLeapYear year then 29 else 28
  else if [4, 6, 9, 11].contains month then 30
  else 31

/-- Takes a date off the front. -/
def date? (cs : List Char) : Option (List Char) := do
  let (year, cs) ← fixed? 4 cs
  let (month, cs) ← fixed? 2 (← skipChar? '-' cs)
  let (day, cs) ← fixed? 2 (← skipChar? '-' cs)
  if 1 ≤ month && month ≤ 12 && 1 ≤ day && day ≤ daysIn year month then some cs else none

/-- Takes a time off the front. -/
def time? (cs : List Char) : Option (List Char) := do
  let (hour, cs) ← fixed? 2 cs
  let (minute, cs) ← fixed? 2 (← skipChar? ':' cs)
  let (second, cs) ← fixed? 2 (← skipChar? ':' cs)
  if 24 ≤ hour || 60 ≤ minute || 61 ≤ second then none
  match cs with
  | '.' :: rest =>
    let fraction := rest.takeWhile isAsciiDigit
    if fraction.isEmpty then none else some (rest.drop fraction.length)
  | cs => some cs

/-- Whether a text is nothing or the offset of a time zone. -/
def isZone : List Char → Bool
  | [] => true
  | ['Z'] | ['z'] => true
  | c :: cs =>
    (c == '+' || c == '-') && (do
      let (hour, cs) ← fixed? 2 cs
      let (minute, cs) ← fixed? 2 (← skipChar? ':' cs)
      some (hour < 24 && minute < 60 && cs.isEmpty)) == some true

/-- A date, a time, or both with or without a zone. -/
def isDateTime (cs : List Char) : Bool :=
  match date? cs with
  | some [] => true
  | some (mark :: rest) =>
    (mark == 'T' || mark == 't' || mark == ' ') && (time? rest).any isZone
  | none => time? cs == some []

/-! ## Words -/

/-- Characters of numbers, dates and the words for truth. -/
def isBareChar (c : Char) : Bool :=
  isAsciiAlpha c || isAsciiDigit c || c == '+' || c == '-' || c == '_' || c == '.' || c == ':'

/-- The text of an unquoted value and the rest. A date may be joined by one space to a time. -/
def bareText (cs : List Char) : List Char × List Char :=
  let first := cs.takeWhile isBareChar
  let rest := cs.dropWhile isBareChar
  match date? first, rest with
  | some [], ' ' :: more =>
    if (time? more).isSome then
      (first ++ ' ' :: more.takeWhile isBareChar, more.dropWhile isBareChar)
    else (first, rest)
  | _, _ => (first, rest)

/-- An unquoted value. -/
def bare? (cs : List Char) : Option (Json × List Char) :=
  let (text, rest) := bareText cs
  if text == ['t', 'r', 'u', 'e'] then some (.bool true, rest)
  else if text == ['f', 'a', 'l', 's', 'e'] then some (.bool false, rest)
  else match integer? text with
    | some n => some (.int n, rest)
    | none =>
      if isFloat text || isDateTime text then some (.real (String.ofList text), rest) else none

/-! ## Strings -/

/-- Characters that may not stand in a text; line ends are judged apart. -/
def isForbidden (c : Char) : Bool := (c.toNat < 0x20 && c != '\t') || c.toNat == 0x7F

def isSpace (c : Char) : Bool := c == ' ' || c == '\t'

/-- The character of an escape by one letter. -/
def unescape? : Char → Option Char
  | 'b' => some '\x08'
  | 't' => some '\t'
  | 'n' => some '\n'
  | 'f' => some '\x0c'
  | 'r' => some '\r'
  | '"' => some '"'
  | '\\' => some '\\'
  | _ => none

/-- The character with a number of exactly `count` hexadecimal digits. -/
def codePoint? (count : Nat) (cs : List Char) : Option Char :=
  let ds := cs.take count
  let n := numberIn 16 ds
  if ds.length == count && ds.all (fun c => (Json.hexValue? c).isSome)
    && (n < 0xD800 || (0xDFFF < n && n < 0x110000)) then some (Char.ofNat n)
  else none

/-- Takes a line end off the front. -/
def newline? : List Char → Option (List Char)
  | '\n' :: cs => some cs
  | '\r' :: '\n' :: cs => some cs
  | _ => none

/-- The kinds of strings. -/
structure Quote where
  mark : Char
  /-- Backslashes escape. -/
  escapes : Bool
  /-- Three marks on each side, and lines may end inside. -/
  multiLine : Bool

/-- Drops blanks and line ends. -/
def dropBlankLines : List Char → List Char
  | [] => []
  | '\r' :: '\n' :: cs => dropBlankLines cs
  | c :: cs => if isSpace c || c == '\n' then dropBlankLines cs else c :: cs

/-- What is left after the marks that close a text of several lines. Up to two more marks belong
to the text. -/
def closing? (mark : Char) (cs : List Char) : Option (List Char × List Char) :=
  let run := (cs.takeWhile (· == mark)).length
  if run < 3 then none
  else
    let extra := min (run - 3) 2
    some (List.replicate extra mark, cs.drop (extra + 3))

/-- The characters of a string after its opening marks, and the rest. -/
def string? (q : Quote) : Nat → List Char → Option (List Char × List Char)
  | 0, _ => none
  | _, [] => none
  | budget + 1, c :: cs =>
    let go (d : Char) (rest : List Char) : Option (List Char × List Char) :=
      (string? q budget rest).map fun (s, rest) => (d :: s, rest)
    if c == q.mark && !q.multiLine then some ([], cs)
    else if c == q.mark && (closing? q.mark (c :: cs)).isSome then closing? q.mark (c :: cs)
    else if c == '\\' && q.escapes then
      match cs with
      | 'u' :: cs => do go (← codePoint? 4 cs) (cs.drop 4)
      | 'U' :: cs => do go (← codePoint? 8 cs) (cs.drop 8)
      | d :: rest =>
        match unescape? d with
        | some e => go e rest
        | none =>
          if q.multiLine then
            match newline? ((d :: rest).dropWhile isSpace) with
            | some after => string? q budget (dropBlankLines after)
            | none => none
          else none
      | [] => none
    else match newline? (c :: cs) with
      | some after => if q.multiLine then go '\n' after else none
      | none => if isForbidden c then none else go c cs

/-- The kind of string that opens a text, and what follows its opening marks. A line end right
after three marks is dropped. -/
def openQuote? : List Char → Option (Quote × List Char)
  | '"' :: '"' :: '"' :: cs => some (⟨'"', true, true⟩, (newline? cs).getD cs)
  | '\x27' :: '\x27' :: '\x27' :: cs => some (⟨'\x27', false, true⟩, (newline? cs).getD cs)
  | '"' :: cs => some (⟨'"', true, false⟩, cs)
  | '\x27' :: cs => some (⟨'\x27', false, false⟩, cs)
  | _ => none

/-- A string in any quotes. -/
def quoted? (cs : List Char) : Option (String × List Char) := do
  let (q, inner) ← openQuote? cs
  let (s, rest) ← string? q (inner.length + 1) inner
  pure (String.ofList s, rest)

end SourceChunks.Toml
