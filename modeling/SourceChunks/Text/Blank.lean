/-!
# Blank characters, words and lines

Text is handled as a list of characters. This module says which characters are blank and cuts a
text at its ends, at its blanks and at its line ends.

* `words` are the maximal runs without a blank character.
* `lines` end at a line feed; one carriage return right before the line feed goes with it.

Everything is structural recursion on the list.
-/

namespace SourceChunks.Text

/-! ## Blank characters -/

/-- The characters with the Unicode property White_Space. -/
def isBlank (c : Char) : Bool :=
  let n := c.toNat
  (9 ≤ n && n ≤ 13) || n == 0x20 || n == 0x85 || n == 0xA0 || n == 0x1680
    || (0x2000 ≤ n && n ≤ 0x200A) || n == 0x2028 || n == 0x2029 || n == 0x202F || n == 0x205F
    || n == 0x3000

/-! ## Trimming -/

def trimStart (cs : List Char) : List Char := cs.dropWhile isBlank

def trimEnd (cs : List Char) : List Char := (cs.reverse.dropWhile isBlank).reverse

def trim (cs : List Char) : List Char := trimEnd (trimStart cs)

/-! ## Words -/

/-- Puts a word in front of others unless it is empty. -/
def consWord (w : List Char) (ws : List (List Char)) : List (List Char) :=
  if w.isEmpty then ws else w :: ws

/-- The run of characters before the first blank, and the words after it. -/
def splitWord : List Char → List Char × List (List Char)
  | [] => ([], [])
  | c :: cs =>
    let (w, ws) := splitWord cs
    if isBlank c then ([], consWord w ws) else (c :: w, ws)

/-- The maximal runs without a blank character, in order. -/
def words (cs : List Char) : List (List Char) :=
  let (w, ws) := splitWord cs
  consWord w ws

/-- The words with one space between neighbours. -/
def collapse (cs : List Char) : List Char := [' '].intercalate (words cs)

/-! ## Lines -/

/-- The lines without their ends. A final line feed opens no further line. -/
def lines : List Char → List (List Char)
  | [] => []
  | '\n' :: cs => [] :: lines cs
  | '\r' :: '\n' :: cs => [] :: lines cs
  | c :: cs =>
    match lines cs with
    | [] => [[c]]
    | l :: ls => (c :: l) :: ls

/-- Lines joined by line feeds. -/
def unlines (ls : List (List Char)) : List Char := ['\n'].intercalate ls

/-- Drops the empty lines at both ends. -/
def dropEmptyEnds (ls : List (List Char)) : List (List Char) :=
  ((ls.dropWhile List.isEmpty).reverse.dropWhile List.isEmpty).reverse

/-! ## Bytes of a text -/

/-- How many bytes the text takes in UTF-8. -/
def byteLength (cs : List Char) : Nat := cs.foldr (fun c n => c.utf8Size + n) 0

theorem byteLength_append (xs ys : List Char) :
    byteLength (xs ++ ys) = byteLength xs + byteLength ys := by
  induction xs with
  | nil => simp [byteLength]
  | cons x xs ih => simpa [byteLength, Nat.add_assoc] using ih

/-- The text after its first `n` bytes, if that is a place between two characters. -/
def dropBytes? : Nat → List Char → Option (List Char)
  | 0, cs => some cs
  | _ + 1, [] => none
  | n + 1, c :: cs => if c.utf8Size ≤ n + 1 then dropBytes? (n + 1 - c.utf8Size) cs else none

end SourceChunks.Text
