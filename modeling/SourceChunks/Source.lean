import SourceChunks.Span
import SourceChunks.Text.Bytes

/-!
# Source text and its lines

`LineIndex` lists the byte offsets at which lines start. The line of an offset is the number of
lines that start at or before it, so offsets beyond the end belong to the last line. `Source` is a
text together with its line index.
-/

namespace SourceChunks

structure LineIndex where
  /-- Offsets at which a line starts, in increasing order; the first is 0. -/
  starts : List Nat
  /-- The length of the text in bytes. -/
  length : Nat
deriving DecidableEq, Repr

namespace LineIndex

/-- The offsets right after each line feed, for bytes that begin at `offset`. -/
def startsFrom (offset : Nat) : List UInt8 → List Nat
  | [] => []
  | b :: bs =>
    if b == 10 then (offset + 1) :: startsFrom (offset + 1) bs else startsFrom (offset + 1) bs

def ofText (text : String) : LineIndex where
  starts := 0 :: startsFrom 0 text.toUTF8.data.toList
  length := text.utf8ByteSize

/-- The line, counted from 1, that holds the byte at an offset. -/
def lineOf (ix : LineIndex) (offset : Nat) : Nat := ix.starts.countP (· ≤ offset)

/-- Where the line of an offset starts. -/
def lineStart (ix : LineIndex) (offset : Nat) : Nat :=
  (ix.starts.filter (· ≤ offset)).getLastD 0

/-- The column, counted from 1 in bytes. -/
def columnOf (ix : LineIndex) (offset : Nat) : Nat := offset - ix.lineStart offset + 1

/-- The offsets strictly between two others at which a line starts. -/
def startsWithin (ix : LineIndex) (a b : Nat) : List Nat :=
  ix.starts.filter fun o => a < o && o < b

/-- The span of a byte range. An empty range lies on the line of its start. -/
def span (ix : LineIndex) (a b : Nat) : Span where
  start := a
  stop := b
  startLine := ix.lineOf a
  endLine := if a < b then ix.lineOf (b - 1) else ix.lineOf a

/-- A place in the text as it appears in names, line and column. -/
def place (ix : LineIndex) (offset : Nat) : String :=
  toString (ix.lineOf offset) ++ ":" ++ toString (ix.columnOf offset)

@[simp]
theorem span_start (ix : LineIndex) (a b : Nat) : (ix.span a b).start = a := rfl

@[simp]
theorem span_stop (ix : LineIndex) (a b : Nat) : (ix.span a b).stop = b := rfl

end LineIndex

/-- A text and the index of its lines. -/
structure Source where
  text : String
  lines : LineIndex := LineIndex.ofText text
  lines_eq : lines = LineIndex.ofText text := by rfl

namespace Source

def size (src : Source) : Nat := src.text.utf8ByteSize

def isEmpty (src : Source) : Bool := src.size == 0

def isBoundary (src : Source) (i : Nat) : Bool := Text.isBoundary src.text i

/-- The text of a byte range, if its ends cut no character. -/
def slice? (src : Source) (r : ByteRange) : Option String := Text.slice? src.text r.start r.stop

/-- The text of a byte range, empty where the range cuts no text. -/
def slice (src : Source) (r : ByteRange) : String := (src.slice? r).getD ""

/-- The characters of a byte range. -/
def chars (src : Source) (r : ByteRange) : List Char := (src.slice r).toList

def span (src : Source) (a b : Nat) : Span := src.lines.span a b

end Source

end SourceChunks
