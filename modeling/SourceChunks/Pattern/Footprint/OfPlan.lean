import SourceChunks.Pattern.Footprint.Class
import SourceChunks.Pattern.Footprint.TextTree
import SourceChunks.Pattern.Plan

/-!
# The footprint of a plan

A part is a piece of an automaton: how it grows the footprint, and whether it ends in a fork, which
is then led on to whatever comes next. Parts are put together as plans are; a plan fits if its
automata, forwards and backwards, both find room.
-/

namespace SourceChunks.Pattern

/-! ## Parts -/

/-- A piece of an automaton. -/
structure Part where
  grow : Footprint → Option Footprint
  /-- Whether it ends in a fork. -/
  forks : Bool

namespace Part

def states (count extra : Nat) : Part := ⟨Footprint.grow count extra, false⟩

/-- What it takes to lead on from the end of a part. -/
def link (p : Part) : Nat := if p.forks then 4 else 0

/-- One part after the other. -/
def append (p q : Part) : Part where
  grow f := do (← q.grow (← p.grow f)).grow 0 p.link
  forks := q.forks

/-- A part several times, with more bytes and states before each. -/
def growTimes (p : Part) (states extra : Nat) : Nat → Footprint → Option Footprint
  | 0, f => some f
  | n + 1, f =>
    match (f.grow states extra).bind p.grow with
    | some f => growTimes p states extra n f
    | none => none

/-- Exactly `n` times. -/
def exactly (p : Part) : Nat → Part
  | 0 => states 1 0
  | n + 1 => ⟨fun f => do (← p.growTimes 0 0 (n + 1) f).grow 0 (n * p.link), p.forks⟩

/-- At least `n` times. A part that may match nothing is left through a state of its own if it need
not be taken at all. -/
def atLeast (p : Part) (consumes : Bool) : Nat → Part
  | 0 =>
    if consumes then ⟨fun f => do (← p.grow (← f.grow 1 4)).grow 0 p.link, true⟩
    else ⟨fun f => do (← p.grow f).grow 3 (16 + p.link), false⟩
  | 1 => ⟨fun f => do (← p.grow f).grow 1 (4 + p.link), true⟩
  | n + 2 => ⟨fun f => do (← (p.exactly (n + 2)).grow f).grow 1 (4 + p.link), true⟩

/-- Between `min` and `max` times, where `max` is greater. -/
def between (p : Part) (min max : Nat) : Part where
  grow f := do
    let required := p.exactly min
    let f ← required.grow f
    let f ← f.grow 1 (required.link + (max - min) * p.link)
    p.growTimes 1 8 (max - min) f
  forks := false

/-- At most once. -/
def optional (p : Part) : Part where
  grow f := do
    let f ← f.grow 1 8
    (← p.grow f).grow 1 p.link
  forks := false

def repeated (p : Part) (consumes : Bool) (min : Nat) : Option Nat → Part
  | none => p.atLeast consumes min
  | some max =>
    if min == 0 && max == 1 then p.optional
    else if min == max then p.exactly min
    else p.between min max

/-- A choice. The fork and the state where the ways meet come after the second way. -/
def choose : List Part → Part
  | [] => states 1 0
  | [p] => p
  | p :: q :: ps =>
    let all := p :: q :: ps
    { grow := fun f => do
        let f ← p.grow f
        let f ← q.grow f
        let f ← f.grow 2 (4 * all.length + (all.map link).foldl (· + ·) 0)
        ps.foldlM (fun f p => p.grow f) f
      forks := false }

/-- A class. -/
def ofSet (d : Direction) (s : Text.CodePoints) : Part :=
  let ranges := s.ranges
  if ranges.all fun r => r.2 < 0x80 then states 2 (8 * ranges.length)
  else
    let runs := ByteRun.ofPoints s
    match d with
    | .forwards => ⟨forwardSet? runs, false⟩
    | .backwards => ⟨backwardSet? runs, false⟩

def bytesOf (d : Direction) (cs : List Char) : List UInt8 :=
  let bytes := cs.flatMap String.utf8EncodeChar
  match d with
  | .forwards => bytes
  | .backwards => bytes.reverse

/-- A choice between texts. -/
def ofTexts (d : Direction) (texts : List (List Char)) : Part :=
  let ts := texts.map (bytesOf d)
  let depth := (ts.map List.length).foldl max 0
  let (count, extra) := treeSize (depth + 1) ts
  states (count + 1) extra

end Part

namespace Plan

/-- The texts of a choice between nothing else. -/
def texts? : Plan → Option (List (List Char))
  | text cs => some [cs]
  | alt (text cs) q => q.texts?.map (cs :: ·)
  | _ => none

/-- The part of a plan whose ways have these parts. -/
def partOf (d : Direction) (p : Plan) (parts : List Part) : Part :=
  match p.texts? with
  | some (t :: u :: ts) => .ofTexts d (t :: u :: ts)
  | _ => .choose parts

/-- The parts of the ways of a choice. -/
def parts (d : Direction) : Plan → List Part
  | empty | look _ => [.states 1 0]
  | text cs => [.states (Text.byteLength cs) 0]
  | set s => [.ofSet d s]
  | capture _ p =>
    let part := p.partOf d (p.parts d)
    match d with
    | .forwards => [((Part.states 1 0).append part).append (.states 1 0)]
    | .backwards => [part]
  | repeated p min max _ =>
    [(p.partOf d (p.parts d)).repeated (p.minLength.any (0 < ·)) min max]
  | seq p q =>
    let first := p.partOf d (p.parts d)
    let second := q.partOf d (q.parts d)
    match d with
    | .forwards => [first.append second]
    | .backwards => [second.append first]
  | alt p q => p.partOf d (p.parts d) :: q.parts d

def part (d : Direction) (p : Plan) : Part := p.partOf d (p.parts d)

/-- The automaton of a plan. Unless all matches are where reading begins, it starts with a loop
over any bytes; forwards, the whole match is captured; at last comes the state that accepts. -/
def footprint? (d : Direction) (p : Plan) : Option Footprint := do
  let anchored := match d with
    | .forwards => p.startsAnchored
    | .backwards => p.endsAnchored
  let start : Footprint := ⟨0, 0⟩
  let f ← if anchored then start.grow 1 0 else start.grow 3 16
  let whole := match d with
    | .forwards => ((Part.states 1 0).append (p.part d)).append (.states 1 0)
    | .backwards => p.part d
  (whole.append (.states 1 0)).grow f

/-- Whether both automata fit. -/
def fits (p : Plan) : Bool :=
  (p.footprint? .forwards).isSome && (p.footprint? .backwards).isSome

end Plan

end SourceChunks.Pattern
