import SourceChunks.Text.Blank

/-!
# Signatures

The signature of a callable is its parameter list in parentheses and, after an arrow, what it
returns. Blanks are collapsed; blanks inside the parentheses and a trailing comma are removed.
-/

namespace SourceChunks.Signature

open Text

/-- Replaces every pair of neighbours `a b`, from left to right, by one character. -/
def contract (a b out : Char) : List Char → List Char
  | [] => []
  | [c] => [c]
  | c :: d :: cs =>
    if c == a && d == b then out :: contract a b out cs else c :: contract a b out (d :: cs)

/-- The layout inside parentheses: no blank after the opening or before the closing one, and no
comma before the closing one. -/
def tighten (cs : List Char) : List Char :=
  contract ',' ')' ')' (contract ' ' ')' ')' (contract '(' ' ' '(' (collapse cs)))

/-- The text between a pair of bars. -/
def betweenBars? (cs : List Char) : Option (List Char) :=
  (['|'].isPrefixOf? cs).bind (['|'].isSuffixOf? ·)

/-- A parameter list in parentheses. -/
def parameters (cs : List Char) : List Char :=
  let cs := tighten cs
  if cs.head? == some '(' then cs
  else match betweenBars? cs with
    | some inner => '(' :: trim inner ++ [')']
    | none => '(' :: cs ++ [')']

/-- What is returned, without the arrow or colon before it. -/
def returned (cs : List Char) : List Char :=
  let cs := trim cs
  collapse (((['-', '>'].isPrefixOf? cs).or ([':'].isPrefixOf? cs)).getD cs)

/-- The signature from the texts of the parameters and of what is returned. -/
def ofTexts (params : List Char) (returns : Option (List Char)) : List Char :=
  match returns.map returned with
  | none | some [] => parameters params
  | some r => parameters params ++ [' ', '-', '>', ' '] ++ r

end SourceChunks.Signature
