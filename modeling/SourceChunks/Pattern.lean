import Std.Data.HashSet
import SourceChunks.Pattern.CharSet

/-!
# Patterns

Regular expressions with conditions on the place they are tried at. A pattern is searched for
anywhere in a text. The search keeps the list of what is left to match, one pattern for every way
the matching may go on: reading a character replaces each by its partial derivatives. Only whether
there is a match is asked, so greediness and groups play no part. A repetition keeps its bounds as
numbers, so that reading a character costs no more for great bounds than for small ones.
-/

namespace SourceChunks

/-- A condition on the characters before and after a place. -/
inductive Look
  | textStart
  | textEnd
  | lineStart
  | lineEnd
  /-- Lines that may also end in a carriage return or in both. -/
  | anyLineStart
  | anyLineEnd
  | wordEdge
  | noWordEdge
  | wordStart
  | wordEnd
  | wordStartHalf
  | wordEndHalf
deriving DecidableEq, Repr, Hashable

namespace Look

def holds (before after : Option Char) : Look → Bool
  | textStart => before.isNone
  | textEnd => after.isNone
  | lineStart => before.all (· == '\n')
  | lineEnd => after.all (· == '\n')
  | anyLineStart => before.all fun b => b == '\n' || (b == '\r' && after != some '\n')
  | anyLineEnd => after.all fun a => a == '\r' || (a == '\n' && before != some '\r')
  | wordEdge => before.any Text.isWord != after.any Text.isWord
  | noWordEdge => before.any Text.isWord == after.any Text.isWord
  | wordStart => !before.any Text.isWord && after.any Text.isWord
  | wordEnd => before.any Text.isWord && !after.any Text.isWord
  | wordStartHalf => !before.any Text.isWord
  | wordEndHalf => !after.any Text.isWord

end Look

inductive Pattern
  | empty
  | set (s : CharSet)
  | look (l : Look)
  | seq (p q : Pattern)
  | alt (p q : Pattern)
  /-- Between `min` and `max` times; without a maximum as often as one likes. -/
  | repeated (p : Pattern) (min : Nat) (max : Option Nat)
deriving DecidableEq, Repr, Hashable

namespace Pattern

/-! ## Building -/

/-- One after the other; an empty first part is left out. -/
def andThen (p q : Pattern) : Pattern :=
  match p with
  | empty => q
  | p => seq p q

def concat (ps : List Pattern) : Pattern := ps.foldr seq empty

/-- A choice of at least one. -/
def choice (first : Pattern) : List Pattern → Pattern
  | [] => first
  | second :: rest => alt first (choice second rest)

/-- As often as one likes. -/
def star (p : Pattern) : Pattern := repeated p 0 none

/-- At least once. -/
def plus (p : Pattern) : Pattern := repeated p 1 none

/-- A repetition of a pattern. Repetitions without a maximum that are nested come to one: `min` runs
of at least `m` each are any number from `m * min` on, and any number of runs of at least one each
are any number at all. -/
def again (p : Pattern) (min : Nat) (max : Option Nat) : Pattern :=
  match p, max with
  | repeated q m none, none =>
    if 0 < min then repeated q (m * min) none
    else if m ≤ 1 then repeated q 0 none
    else repeated p min max
  | p, max => repeated p min max

/-- A text, letter by letter. -/
def text (s : String) : Pattern := concat (s.toList.map fun c => set (.single c))

/-- One of several texts. -/
def oneOf (first : String) (others : List String) : Pattern :=
  choice (text first) (others.map text)

/-- A match of the whole text. -/
def whole (p : Pattern) : Pattern := seq (look .textStart) (seq p (look .textEnd))

/-! ## Matching -/

/-- Whether the pattern matches nothing at all at a place. -/
def matchesEmpty (before after : Option Char) : Pattern → Bool
  | empty => true
  | set _ => false
  | look l => l.holds before after
  | seq p q => p.matchesEmpty before after && q.matchesEmpty before after
  | alt p q => p.matchesEmpty before after || q.matchesEmpty before after
  | repeated p min _ => min == 0 || p.matchesEmpty before after

/-- What may be left to match after reading `c`. Where the body of a repetition matches nothing, the
repetitions that are owed may all be empty. -/
def derivatives (before : Option Char) (c : Char) : Pattern → List Pattern
  | empty => []
  | set s => if s.mem c then [empty] else []
  | look _ => []
  | seq p q =>
    (p.derivatives before c).map (fun d => d.andThen q)
      ++ if p.matchesEmpty before (some c) then q.derivatives before c else []
  | alt p q => p.derivatives before c ++ q.derivatives before c
  | repeated p min max =>
    if max == some 0 then []
    else
      let owed := if p.matchesEmpty before (some c) then 0 else min - 1
      (p.derivatives before c).map fun d => d.andThen (repeated p owed (max.map (· - 1)))

/-- The patterns of a list, each once. -/
def distinct (ps : List Pattern) : List Pattern := (Std.HashSet.ofList ps).toList

theorem mem_distinct {p : Pattern} {ps : List Pattern} : p ∈ distinct ps ↔ p ∈ ps := by
  simp [distinct]

/-- Whether one of the patterns left, or the whole pattern from here on, matches. -/
def searchFrom (p : Pattern) (before : Option Char) : List Pattern → List Char → Bool
  | left, [] => (p :: left).any fun q => q.matchesEmpty before none
  | left, c :: cs =>
    let left := p :: left
    (left.any fun q => q.matchesEmpty before (some c))
      || searchFrom p (some c) (distinct (left.flatMap fun q => q.derivatives before c)) cs

/-- Whether the pattern matches somewhere in a text. -/
def search (p : Pattern) (text : List Char) : Bool := searchFrom p none [] text

end Pattern

end SourceChunks
