/-!
# Byte ranges and spans

A byte range is half-open, `[start, stop)`. A span adds the lines that the range touches: the line
of its first byte and the line of its last, both counted from 1.
-/

namespace SourceChunks

structure ByteRange where
  start : Nat
  stop : Nat
deriving DecidableEq, Repr

namespace ByteRange

/-- Range `b` lies inside range `a`; equal ranges count. -/
def contains (a b : ByteRange) : Bool := a.start ≤ b.start && b.stop ≤ a.stop

def disjoint (a b : ByteRange) : Bool := a.stop ≤ b.start || b.stop ≤ a.start

def length (a : ByteRange) : Nat := a.stop - a.start

def isEmpty (a : ByteRange) : Bool := a.length == 0

theorem contains_iff {a b : ByteRange} : a.contains b ↔ a.start ≤ b.start ∧ b.stop ≤ a.stop := by
  simp [contains]

theorem disjoint_comm (a b : ByteRange) : a.disjoint b = b.disjoint a := by
  simp [disjoint, Bool.or_comm]

end ByteRange

structure Span extends ByteRange where
  startLine : Nat
  endLine : Nat
deriving DecidableEq, Repr

/-- The number of lines touched; at least one. -/
def Span.lineCount (s : Span) : Nat := s.endLine - s.startLine + 1

end SourceChunks
