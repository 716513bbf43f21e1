import SourceChunks.Pattern

/-!
# Pattern expressions

An expression is a pattern as it is written: it keeps groups, the mark for laziness and how deep
classes are nested, none of which a search can tell but all of which count when a pattern is
weighed. `pattern` is what an expression searches for.

A sequence of several parts leans to the right, as does a choice; a part of a sequence that is
itself a sequence stands in a group.
-/

namespace SourceChunks.Pattern

inductive Expression
  /-- Nothing, or a change of flags. -/
  | empty
  | char (c : Char) (anyCase : Bool)
  /-- A class; `depth` counts the brackets and operations nested in it. -/
  | set (s : CharSet) (depth : Nat)
  | look (l : Look)
  | group (e : Expression)
  /-- A group with a number of its own. -/
  | capture (index : Nat) (e : Expression)
  | repeated (e : Expression) (min : Nat) (max : Option Nat) (lazy : Bool)
  | seq (e f : Expression)
  | alt (e f : Expression)

namespace Expression

/-- One part after the other. -/
def concat : List Expression → Expression
  | [] => empty
  | [e] => e
  | e :: f :: es => seq e (concat (f :: es))

/-- A choice of at least one. -/
def choice (first : Expression) : List Expression → Expression
  | [] => first
  | second :: rest => alt first (choice second rest)

/-- What the expression searches for. -/
def pattern : Expression → Pattern
  | empty => .empty
  | char c anyCase => .set ((CharSet.single c).foldIf anyCase)
  | set s _ => .set s
  | look l => .look l
  | group e => e.pattern
  | capture _ e => e.pattern
  | repeated e min max _ => e.pattern.again min max
  | seq e f => .seq e.pattern f.pattern
  | alt e f => .alt e.pattern f.pattern

def isSeq : Expression → Bool
  | seq _ _ => true
  | _ => false

def isAlt : Expression → Bool
  | alt _ _ => true
  | _ => false

/-- How deep the expression is nested. A group, a repetition, a sequence and a choice are each one
deeper than the deepest of their parts. -/
def depth : Expression → Nat
  | empty | char _ _ | look _ => 0
  | set _ depth => depth
  | group e => e.depth + 1
  | capture _ e => e.depth + 1
  | repeated e _ _ _ => e.depth + 1
  | seq e f => max (e.depth + 1) (if f.isSeq then f.depth else f.depth + 1)
  | alt e f => max (e.depth + 1) (if f.isAlt then f.depth else f.depth + 1)

/-- The greatest depth that can be read. -/
def maxDepth : Nat := 250

/-- The expression unless it is nested too deep. -/
def shallow? (e : Expression) : Option Expression := if e.depth ≤ maxDepth then some e else none

end Expression

end SourceChunks.Pattern
