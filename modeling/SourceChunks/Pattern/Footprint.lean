/-!
# The footprint of a pattern

A pattern is accepted only if the byte automata that look for it, one reading forwards and one
backwards, take up no more than a fixed amount of memory. Searching does not need the automata, so
they are not built: only their states and bytes are counted, in the order in which the states are
numbered. Every state takes 32 bytes; a state with a list of transitions takes 8 more for each, and
a fork takes 4 more for each state it leads to.
-/

namespace SourceChunks.Pattern

/-- States and bytes of an automaton so far. -/
structure Footprint where
  states : Nat
  bytes : Nat

namespace Footprint

/-- The greatest number of bytes. -/
def maxBytes : Nat := 10 * 1024 * 1024

/-- Adds states, and bytes beside those that every state takes, as long as there is room. -/
def grow (states extra : Nat) (f : Footprint) : Option Footprint :=
  let bytes := f.bytes + 32 * states + extra
  if bytes ≤ maxBytes then some ⟨f.states + states, bytes⟩ else none

end Footprint

/-- The way in which an automaton reads. -/
inductive Direction
  | forwards
  | backwards
deriving DecidableEq

end SourceChunks.Pattern
