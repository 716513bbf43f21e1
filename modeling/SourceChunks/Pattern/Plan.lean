import SourceChunks.Pattern.Expression

/-!
# Plans

A plan is what an automaton is built from: an expression with its groups resolved and brought into
a simple shape. Neighbouring characters form one text, a class of one character is a text, a choice
between single characters or between classes is a class, and what all ways of a choice begin with
stands before the choice. Sequences and choices lean to the right, and neither is the first part of
its own kind.
-/

namespace SourceChunks.Pattern

inductive Plan
  | empty
  /-- At least one character. -/
  | text (cs : List Char)
  /-- Any number of characters but one. -/
  | set (s : Text.CodePoints)
  | look (l : Look)
  | capture (index : Nat) (p : Plan)
  | repeated (p : Plan) (min : Nat) (max : Option Nat) (lazy : Bool)
  | seq (p q : Plan)
  | alt (p q : Plan)
deriving DecidableEq, Repr

namespace Plan

/-! ## Lengths -/

/-- How many bytes encode a code point. -/
def width (n : Nat) : Nat := (Char.ofNat n).utf8Size

/-- The length of the shortest match in bytes, unless part of the plan never matches. -/
def minLength : Plan → Option Nat
  | empty | look _ => some 0
  | text cs => some (Text.byteLength cs)
  | set s => s.ranges.head?.map fun r => width r.1
  | capture _ p => p.minLength
  | repeated p min _ _ => p.minLength.map (· * min)
  | seq p q => do pure ((← p.minLength) + (← q.minLength))
  | alt p q => do pure (min (← p.minLength) (← q.minLength))

/-- Whether the plan matches at places only, without reading anything. -/
def isStill : Plan → Bool
  | empty | look _ => true
  | text _ | set _ => false
  | capture _ p => p.isStill
  | repeated p _ max _ => max.isSome && p.isStill
  | seq p q | alt p q => p.isStill && q.isStill

/-- Whether every match is at the start of the text. -/
def startsAnchored : Plan → Bool
  | look l => l == .textStart
  | capture _ p => p.startsAnchored
  | repeated p min _ _ => 0 < min && p.startsAnchored
  | seq p q => p.startsAnchored || (p.isStill && q.startsAnchored)
  | alt p q => p.startsAnchored && q.startsAnchored
  | _ => false

/-- Whether every match is at the end of the text. -/
def endsAnchored : Plan → Bool
  | look l => l == .textEnd
  | capture _ p => p.endsAnchored
  | repeated p min _ _ => 0 < min && p.endsAnchored
  | seq p q => q.endsAnchored || (q.isStill && p.endsAnchored)
  | alt p q => p.endsAnchored && q.endsAnchored
  | _ => false

/-! ## Building -/

/-- The code points that are characters. -/
def characters : Text.CodePoints := ⟨[0, 0xD800, 0xE000]⟩

def ofPoints (s : Text.CodePoints) : Plan :=
  let s := s.inter characters
  match s.ranges with
  | [(lo, hi)] => if lo == hi then text [Char.ofNat lo] else set s
  | _ => set s

/-- Puts a part that is no sequence before a plan. -/
def prepend : Plan → Plan → Plan
  | empty, q => q
  | p, empty => p
  | text cs, text ds => text (cs ++ ds)
  | text cs, seq (text ds) q => seq (text (cs ++ ds)) q
  | p, q => seq p q

/-- One plan after the other. -/
def append : Plan → Plan → Plan
  | seq p q, r => p.prepend (append q r)
  | p, r => p.prepend r

def concat (ps : List Plan) : Plan := ps.foldr append empty

/-- The parts of a sequence. -/
def factors : Plan → List Plan
  | seq p q => p :: q.factors
  | p => [p]

/-- The ways of a choice. -/
def options : Plan → List Plan
  | alt p q => p :: q.options
  | p => [p]

/-- A repetition. What reads nothing is repeated at most once; repeating once is no repetition. -/
def times (p : Plan) (min : Nat) (max : Option Nat) (lazy : Bool) : Plan :=
  let min := if p.isStill then Nat.min min 1 else min
  let max := if p.isStill then some (Nat.min (max.getD 1) 1) else max
  if min == 0 && max == some 0 then empty
  else if min == 1 && max == some 1 then p
  else repeated p min max lazy

/-! ## Choices -/

/-- The character of a text of one. -/
def single? : Plan → Option Char
  | text [c] => some c
  | _ => none

def set? : Plan → Option Text.CodePoints
  | set s => some s
  | _ => none

/-- What two lists begin with. -/
def commonPrefix : List Plan → List Plan → List Plan
  | p :: ps, q :: qs => if p = q then p :: commonPrefix ps qs else []
  | _, _ => []

/-- What all lists begin with. -/
def sharedPrefix : List (List Plan) → List Plan
  | [] => []
  | ps :: pss => pss.foldl commonPrefix ps

/-- A choice as it stands; between nothing at all it never matches. -/
def either : List Plan → Plan
  | [] => set ⟨[]⟩
  | [p] => p
  | p :: q :: ps => alt p (either (q :: ps))

/-- Simplifies a choice. Every round that moves shared parts before the choice makes its ways
shorter, so as many rounds as there are parts are enough. -/
def chooseWithin : Nat → List Plan → Plan
  | 0, ps => either ps
  | rounds + 1, ps =>
    let ps := ps.flatMap options
    match ps.mapM single?, ps.mapM set? with
    | some cs, _ => ofPoints (.ofList (cs.map Char.toNat))
    | _, some ss => ofPoints (ss.foldl Text.CodePoints.union ⟨[]⟩)
    | none, none =>
      let ways := ps.map factors
      let shared := sharedPrefix ways
      if shared.isEmpty || ways.any (·.length < 2) then either ps
      else
        let rests := ways.map fun way => concat (way.drop shared.length)
        (concat shared).append (chooseWithin rounds rests)

/-- How many parts a plan has, in sequences inside choices too. -/
def size : Plan → Nat
  | seq p q | alt p q => p.size + q.size + 1
  | _ => 1

/-- A choice between plans. -/
def choose : List Plan → Plan
  | [p] => p
  | ps => chooseWithin ((ps.map size).foldl (· + ·) 0 + 1) ps

end Plan

/-- The plans of the ways of a choice. -/
def Expression.plans : Expression → List Plan
  | empty => [.empty]
  | char c anyCase =>
    [if anyCase then .ofPoints (.ofList ((Text.caseVariants c).map Char.toNat)) else .text [c]]
  | set s _ => [.ofPoints s.points]
  | look l => [.look l]
  | group e => [.choose e.plans]
  | capture index e => [.capture index (.choose e.plans)]
  | repeated e min max lazy => [(Plan.choose e.plans).times min max lazy]
  | seq e f => [(Plan.choose e.plans).append (.choose f.plans)]
  | alt e f => .choose e.plans :: f.plans

def Expression.plan (e : Expression) : Plan := .choose e.plans

end SourceChunks.Pattern
