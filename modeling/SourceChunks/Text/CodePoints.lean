/-!
# Sets of code points

A set is given by the code points at which membership changes, in increasing order: the first
entry opens a range, the second closes it (and is itself outside), and so on. A range that is not
closed goes up to the last code point. The set operations walk the edges of both sets at once.
-/

namespace SourceChunks.Text

structure CodePoints where
  edges : List Nat
deriving DecidableEq, Repr

namespace CodePoints

/-- The greatest code point. -/
def last : Nat := 0x10FFFF

/-- Walks the edges up to `n`, switching at each. -/
def insideFrom (n : Nat) (inside : Bool) : List Nat → Bool
  | [] => inside
  | e :: es => if e ≤ n then insideFrom n (!inside) es else inside

def has (s : CodePoints) (n : Nat) : Bool := insideFrom n false s.edges

def contains (s : CodePoints) (c : Char) : Bool := s.has c.toNat

/-! ## Building -/

/-- The code points from `lo` to `hi`. -/
def between (lo hi : Nat) : CodePoints where
  edges := if hi < lo then [] else if hi < last then [lo, hi + 1] else [lo]

/-- Adds a point to edges that begin at it or further on. -/
def addBefore (n : Nat) : List Nat → List Nat
  | [] => [n, n + 1]
  | e :: es => if e == n then e :: es else if e == n + 1 then n :: es else n :: (n + 1) :: e :: es

def ofList (ns : List Nat) : CodePoints := ⟨ns.mergeSort.foldr addBefore []⟩

/-- The ranges of the set, each by its first and its last code point. -/
def rangesFrom : List Nat → List (Nat × Nat)
  | [] => []
  | [lo] => [(lo, last)]
  | lo :: hi :: es => (lo, hi - 1) :: rangesFrom es

def ranges (s : CodePoints) : List (Nat × Nat) := rangesFrom s.edges

/-! ## Operations -/

/-- Keeps an edge at which joint membership changes. -/
def edgeIf (before after : Bool) (e : Nat) (es : List Nat) : List Nat :=
  if before == after then es else e :: es

/-- The edges of a joint set; `a` and `b` say whether the walk is inside the one and the other. -/
def joinFrom (f : Bool → Bool → Bool) (a b : Bool) : List Nat → List Nat → List Nat
  | [], [] => []
  | x :: xs, [] => edgeIf (f a b) (f (!a) b) x (joinFrom f (!a) b xs [])
  | [], y :: ys => edgeIf (f a b) (f a (!b)) y (joinFrom f a (!b) [] ys)
  | x :: xs, y :: ys =>
    if x < y then edgeIf (f a b) (f (!a) b) x (joinFrom f (!a) b xs (y :: ys))
    else if y < x then edgeIf (f a b) (f a (!b)) y (joinFrom f a (!b) (x :: xs) ys)
    else edgeIf (f a b) (f (!a) (!b)) x (joinFrom f (!a) (!b) xs ys)
termination_by xs ys => xs.length + ys.length

def union (s t : CodePoints) : CodePoints := ⟨joinFrom (· || ·) false false s.edges t.edges⟩

def inter (s t : CodePoints) : CodePoints := ⟨joinFrom (· && ·) false false s.edges t.edges⟩

/-- What is in exactly one of the two sets. -/
def symmetricDifference (s t : CodePoints) : CodePoints :=
  ⟨joinFrom (· != ·) false false s.edges t.edges⟩

def compl (s : CodePoints) : CodePoints :=
  match s.edges with
  | 0 :: es => ⟨es⟩
  | es => ⟨0 :: es⟩

end CodePoints

end SourceChunks.Text
