import SourceChunks.Text.CodePoints

/-!
# Characters as runs of byte ranges

A character is encoded in one to four bytes. The characters from one to another are covered by
runs of byte ranges: a run stands for every encoding whose bytes lie in its ranges, one by one.
The runs of a range are disjoint and in increasing order.
-/

namespace SourceChunks.Pattern

/-- The bytes from `lo` to `hi`. -/
structure ByteRange where
  lo : Nat
  hi : Nat
deriving DecidableEq, Repr

/-- Byte ranges that follow each other. -/
abbrev ByteRun := List ByteRange

namespace ByteRun

/-- Every byte that may follow the first of a character. -/
def continuation : ByteRange := ⟨0x80, 0xBF⟩

/-- The runs for the numbers from `lo` to `hi`, written with `base` added to the first digit and
`more` further digits to the base of 64. Numbers that share their first digit are split further
down; otherwise the first digits that are used up fully make one run, and what is left at either
end is split further down. -/
def between (base : Nat) : (more lo hi : Nat) → List ByteRun
  | 0, lo, hi => [[⟨base + lo, base + hi⟩]]
  | more + 1, lo, hi =>
    let unit := Nat.pow 64 (more + 1)
    let first := lo / unit
    let final := hi / unit
    let under (digit : Nat) (runs : List ByteRun) :=
      runs.map fun run => ⟨base + digit, base + digit⟩ :: run
    if first == final then under first (between 0x80 more (lo % unit) (hi % unit))
    else
      let low := lo % unit == 0
      let high := hi % unit == unit - 1
      let start := if low then first else first + 1
      let stop := if high then final + 1 else final
      (if low then [] else under first (between 0x80 more (lo % unit) (unit - 1)))
        ++ (if start < stop then
            [⟨base + start, base + stop - 1⟩ :: List.replicate (more + 1) continuation] else [])
        ++ (if high then [] else under final (between 0x80 more 0 (hi % unit)))

/-- Characters that are encoded in the same number of bytes. -/
structure Width where
  first : Nat
  last : Nat
  /-- What is added to the first digit. -/
  base : Nat
  /-- How many bytes follow the first. -/
  more : Nat

/-- All widths. Numbers between the third and the fourth stand for no character. -/
def widths : List Width :=
  [⟨0, 0x7F, 0, 0⟩, ⟨0x80, 0x7FF, 0xC0, 1⟩, ⟨0x800, 0xD7FF, 0xE0, 2⟩, ⟨0xE000, 0xFFFF, 0xE0, 2⟩,
   ⟨0x10000, 0x10FFFF, 0xF0, 3⟩]

/-- The runs of the characters from `lo` to `hi`. -/
def ofRange (lo hi : Nat) : List ByteRun :=
  widths.flatMap fun w =>
    let lo := max lo w.first
    let hi := min hi w.last
    if lo ≤ hi then between w.base w.more lo hi else []

def ofPoints (s : Text.CodePoints) : List ByteRun := s.ranges.flatMap fun r => ofRange r.1 r.2

end ByteRun

end SourceChunks.Pattern
