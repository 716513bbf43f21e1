import Std.Data.HashMap
import SourceChunks.Pattern.ByteRun
import SourceChunks.Pattern.Footprint

/-!
# The footprint of a class

A class of ASCII characters takes one state for its ranges and one behind them. Other classes are
read byte by byte, and their states are shared: forwards, a state that leads on in the same way as
an earlier one is taken again; backwards, a state is taken again that reads the same bytes before
the same state.

States are found again through a table with a limited number of places. A hash says which place a
state has, and a state that comes later takes the place of one that was there.
-/

namespace SourceChunks.Pattern

/-! ## Tables of shared states -/

/-- The hash of a list of numbers. -/
def hashOf (ns : List Nat) : UInt64 :=
  ns.foldl (fun h n => (h ^^^ n.toUInt64) * 1099511628211) 14695981039346656037

/-- Keys and the states they stand for, by place. -/
structure Shared (κ : Type) where
  places : Nat
  entries : Std.HashMap Nat (κ × Nat) := ∅

namespace Shared

variable {κ : Type} [BEq κ]

def get? (t : Shared κ) (place : Nat) (key : κ) : Option Nat :=
  match t.entries[place]? with
  | some (k, state) => if k == key then some state else none
  | none => none

def put (t : Shared κ) (place : Nat) (key : κ) (state : Nat) : Shared κ :=
  { t with entries := t.entries.insert place (key, state) }

end Shared

/-- A footprint and the states of a class that may be shared. -/
structure Sharing (κ : Type) where
  footprint : Footprint
  table : Shared κ

/-- The state of a key: one that is in the table, or else a new one. -/
def Sharing.state? {κ : Type} [BEq κ] (s : Sharing κ) (key : κ) (hash : UInt64) (extra : Nat) :
    Option (Nat × Sharing κ) :=
  let place := hash.toNat % s.table.places
  match s.table.get? place key with
  | some state => some (state, s)
  | none => do
    let footprint ← s.footprint.grow 1 extra
    let state := s.footprint.states
    some (state, ⟨footprint, s.table.put place key state⟩)

/-! ## Classes beyond ASCII -/

/-- The bytes of a range lead to a state. -/
structure Transition where
  bytes : ByteRange
  target : Nat
deriving BEq

/-- The states behind the first bytes of runs, the ones further on before those that lead to them.
`final` is the state after the last byte; no run is longer than `depth`. -/
def forwardState? (final : Nat) : (depth : Nat) → List ByteRun → Sharing (List Transition) →
    Option (Nat × Sharing (List Transition))
  | 0, _, s => some (final, s)
  | depth + 1, runs, s => do
    let groups := runs.splitBy fun a b => a.head? == b.head?
    let (transitions, s) ← groups.foldlM (fun (ts, s) group => do
      match group with
      | (bytes :: rest) :: _ =>
        let (target, s) ←
          if rest.isEmpty then some (final, s)
          else forwardState? final depth (group.map List.tail) s
        some (⟨bytes, target⟩ :: ts, s)
      | _ => some (ts, s)) ([], s)
    let transitions := transitions.reverse
    let hash := hashOf (transitions.flatMap fun t => [t.bytes.lo, t.bytes.hi, t.target])
    s.state? transitions hash (8 * transitions.length)

def forwardSet? (runs : List ByteRun) (f : Footprint) : Option Footprint := do
  let final := f.states
  let f ← f.grow 1 0
  let (_, s) ← forwardState? final 4 runs ⟨f, { places := 10000 }⟩
  some s.footprint

/-- A state that reads the bytes of a range before another state. -/
structure Arrival where
  target : Nat
  bytes : ByteRange
deriving BEq

/-- The states of one run, from its first byte on, which is read last. -/
def backwardRun? : ByteRun → (target : Nat) → Sharing Arrival → Option (Sharing Arrival)
  | [], _, s => some s
  | bytes :: run, target, s =>
    match s.state? ⟨target, bytes⟩ (hashOf [target, bytes.lo, bytes.hi]) 0 with
    | some (state, s) => backwardRun? run state s
    | none => none

def backwardSet? (runs : List ByteRun) (f : Footprint) : Option Footprint := do
  let f ← f.grow 2 (4 * runs.length)
  let s ← runs.foldlM (fun s run => backwardRun? run (f.states - 1) s) ⟨f, { places := 1000 }⟩
  some s.footprint

end SourceChunks.Pattern
