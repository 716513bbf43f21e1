import SourceChunks.Text.Grapheme.Property

/-!
# Counting extended grapheme clusters

A text is read from left to right. The state keeps what the rules look back at: the last break
class, how many regional indicators stand in a row, whether a pictograph is waiting behind a
joiner, and how far an Indic conjunct has come. Each character either joins the cluster before it
or opens a new one.
-/

namespace SourceChunks.Text.Grapheme

/-- A pictograph followed by extending characters, then by a joiner. -/
inductive PictureRun
  | none
  | picture
  | joined
deriving DecidableEq, Repr

/-- A conjunct consonant followed by extending characters, among them a linker or not yet. -/
inductive ConjunctRun
  | none
  | consonant
  | linked
deriving DecidableEq, Repr

/-- What is remembered of the text before a position. -/
structure State where
  last : BreakClass
  /-- The number of regional indicators right before the position is odd. -/
  oddRegional : Bool
  picture : PictureRun
  conjunct : ConjunctRun

def PictureRun.next (p : PictureRun) (c : Char) : PictureRun :=
  if isPictographic c then .picture
  else match p, breakClass c with
    | .picture, .extend => .picture
    | .picture, .joiner => .joined
    | _, _ => .none

def ConjunctRun.next (r : ConjunctRun) (c : Char) : ConjunctRun :=
  if isConjunctConsonant c then .consonant
  else match r with
    | .none => .none
    | r => if isConjunctLinker c then .linked else if isConjunctExtend c then r else .none

/-- The state at the start of a cluster that begins with `c`. -/
def State.start (c : Char) : State where
  last := breakClass c
  oddRegional := breakClass c == .regional
  picture := PictureRun.none.next c
  conjunct := ConjunctRun.none.next c

def State.next (s : State) (c : Char) : State where
  last := breakClass c
  oddRegional := breakClass c == .regional && !(s.last == .regional && s.oddRegional)
  picture := s.picture.next c
  conjunct := s.conjunct.next c

/-- Whether two neighbours of these classes stay together whatever stands around them: a line end
of two characters, the parts of a Hangul syllable, and characters that extend or prepare another.
`none` leaves the decision to what came before. -/
def classesJoin? : BreakClass → BreakClass → Option Bool
  | .cr, .lf => some true
  | .cr, _ | .lf, _ | .control, _ => some false
  | _, .cr | _, .lf | _, .control => some false
  | .leading, .leading | .leading, .vowel | .leading, .leadingVowel
  | .leading, .leadingVowelTrailing => some true
  | .leadingVowel, .vowel | .leadingVowel, .trailing => some true
  | .vowel, .vowel | .vowel, .trailing => some true
  | .leadingVowelTrailing, .trailing | .trailing, .trailing => some true
  | _, .extend | _, .joiner | _, .spacing => some true
  | .prepended, _ => some true
  | _, _ => none

/-- Whether `c` joins the cluster that the state describes. -/
def State.joins (s : State) (c : Char) : Bool :=
  match classesJoin? s.last (breakClass c) with
  | some b => b
  | none =>
    (s.conjunct == .linked && isConjunctConsonant c)
      || (s.picture == .joined && isPictographic c)
      || (s.last == .regional && s.oddRegional && breakClass c == .regional)

/-- How many clusters begin in a text that follows the state. -/
def countFrom (s : State) : List Char → Nat
  | [] => 0
  | c :: cs => (if s.joins c then 0 else 1) + countFrom (s.next c) cs

/-- The number of extended grapheme clusters of a text. -/
def count : List Char → Nat
  | [] => 0
  | c :: cs => 1 + countFrom (State.start c) cs

end SourceChunks.Text.Grapheme
