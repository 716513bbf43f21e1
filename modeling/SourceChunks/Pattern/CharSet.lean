import SourceChunks.Text.Blank
import SourceChunks.Text.Folding
import SourceChunks.Text.Word

/-!
# Character classes of patterns

A class is built from ranges and a few named classes by the set operations. `anyCase` adds to a
class every character that differs from one of its members only in case. `mem` decides membership
of one character; `points` works the whole class out.
-/

namespace SourceChunks

inductive CharSet
  | empty
  | range (lo hi : Char)
  | word
  | digit
  | blank
  | union (a b : CharSet)
  | inter (a b : CharSet)
  | compl (a : CharSet)
  /-- What is in exactly one of the two. -/
  | symmetricDifference (a b : CharSet)
  | anyCase (a : CharSet)
deriving DecidableEq, Repr, Hashable

namespace CharSet

def mem : CharSet → Char → Bool
  | empty, _ => false
  | range lo hi, c => lo ≤ c && c ≤ hi
  | word, c => Text.isWord c
  | digit, c => Text.isDigit c
  | blank, c => Text.isBlank c
  | union a b, c => a.mem c || b.mem c
  | inter a b, c => a.mem c && b.mem c
  | compl a, c => !a.mem c
  | symmetricDifference a b, c => a.mem c != b.mem c
  | anyCase a, c => (Text.caseVariants c).any fun d => a.mem d

def single (c : Char) : CharSet := range c c

/-- Everything but the listed characters. -/
def except (cs : List Char) : CharSet :=
  compl (cs.foldr (fun c s => union (single c) s) empty)

def difference (a b : CharSet) : CharSet := inter a (compl b)

/-- The complement if asked for. -/
def negateIf (negate : Bool) (a : CharSet) : CharSet := if negate then compl a else a

/-- The case closure if asked for. -/
def foldIf (fold : Bool) (a : CharSet) : CharSet := if fold then anyCase a else a

/-! ## The characters of a class -/

/-- The blank characters as a set. -/
def blankPoints : Text.CodePoints := Text.CodePoints.mk
  [0x9, 0xE, 0x20, 0x21, 0x85, 0x86, 0xA0, 0xA1, 0x1680, 0x1681, 0x2000, 0x200B, 0x2028, 0x202A,
   0x202F, 0x2030, 0x205F, 0x2060, 0x3000, 0x3001]

def points : CharSet → Text.CodePoints
  | empty => ⟨[]⟩
  | range lo hi => .between lo.toNat hi.toNat
  | word => Text.wordPoints
  | digit => Text.digitPoints
  | blank => blankPoints
  | union a b => a.points.union b.points
  | inter a b => a.points.inter b.points
  | compl a => a.points.compl
  | symmetricDifference a b => a.points.symmetricDifference b.points
  | anyCase a => Text.caseClosure a.points

/-! ## Classes of ASCII characters with a name -/

def ofRanges (rs : List (Char × Char)) : CharSet :=
  rs.foldr (fun r s => union (range r.1 r.2) s) empty

/-- The class that is written `[:name:]`. -/
def ascii? : String → Option CharSet
  | "alnum" => some (ofRanges [('0', '9'), ('A', 'Z'), ('a', 'z')])
  | "alpha" => some (ofRanges [('A', 'Z'), ('a', 'z')])
  | "ascii" => some (ofRanges [('\x00', '\x7f')])
  | "blank" => some (ofRanges [('\t', '\t'), (' ', ' ')])
  | "cntrl" => some (ofRanges [('\x00', '\x1f'), ('\x7f', '\x7f')])
  | "digit" => some (ofRanges [('0', '9')])
  | "graph" => some (ofRanges [('!', '~')])
  | "lower" => some (ofRanges [('a', 'z')])
  | "print" => some (ofRanges [(' ', '~')])
  | "punct" => some (ofRanges [('!', '/'), (':', '@'), ('[', '\x60'), ('\x7b', '~')])
  | "space" => some (ofRanges [('\t', '\r'), (' ', ' ')])
  | "upper" => some (ofRanges [('A', 'Z')])
  | "word" => some (ofRanges [('0', '9'), ('A', 'Z'), ('_', '_'), ('a', 'z')])
  | "xdigit" => some (ofRanges [('0', '9'), ('A', 'F'), ('a', 'f')])
  | _ => none

end CharSet

end SourceChunks
