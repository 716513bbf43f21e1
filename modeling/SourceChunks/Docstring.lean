import SourceChunks.Text.Blank

/-!
# Documentation texts

Documentation is either a string literal at the start of a body or the comments above a
definition. From a literal the marks before it, the quotes and the common indentation are removed;
adjacent literals are joined first. From a comment the markers at the ends of its lines are
removed.
-/

namespace SourceChunks.Docstring

open Text

/-! ## String literals -/

/-- The quotes that open and close a literal; a longer one is tried before a shorter. -/
def quotes : List (List Char) :=
  [['"', '"', '"'], ['\x27', '\x27', '\x27'], ['"'], ['\x27'], ['\x60']]

/-- Letters that may stand before a quote. -/
def isMark (c : Char) : Bool := ['r', 'R', 'b', 'B', 'u', 'U', 'f', 'F'].contains c

/-- The body of a literal before the first closing quote that no backslash escapes, and what
follows that quote. -/
def closing? (quote : List Char) : Bool → List Char → Option (List Char × List Char)
  | _, [] => none
  | true, c :: cs => (closing? quote false cs).map fun (body, rest) => (c :: body, rest)
  | false, c :: cs =>
    if c == '\\' then (closing? quote true cs).map fun (body, rest) => (c :: body, rest)
    else match quote.isPrefixOf? (c :: cs) with
      | some rest => some ([], rest)
      | none => (closing? quote false cs).map fun (body, rest) => (c :: body, rest)

/-- The body of the literal at the front of a text, and what follows it. -/
def literal? (cs : List Char) : Option (List Char × List Char) :=
  let cs := cs.dropWhile isMark
  quotes.findSome? (fun q => (q.isPrefixOf? cs).map fun inner => (q, inner))
    |>.bind fun (q, inner) => closing? q false inner

/-- The bodies of adjacent literals, if the text is nothing else. Every literal takes at least one
character. -/
def bodies? : Nat → List Char → Option (List (List Char))
  | _, [] => some []
  | 0, _ :: _ => none
  | budget + 1, cs =>
    match literal? cs with
    | none => none
    | some (body, rest) => (bodies? budget (trimStart rest)).map (body :: ·)

/-- The bodies of a run of adjacent literals; none unless the text is only literals. -/
def bodies (cs : List Char) : List (List Char) := (bodies? cs.length cs).getD []

/-! ## Indentation -/

/-- How many bytes of blanks a line starts with. -/
def indentation (line : List Char) : Nat := byteLength (line.takeWhile isBlank)

/-- The least indentation of the lines that are not blank. -/
def margin (ls : List (List Char)) : Nat :=
  (((ls.filter fun l => !l.all isBlank).map indentation).min?).getD 0

/-- A line without its margin and without blanks at its end. -/
def dedentLine (margin : Nat) (line : List Char) : List Char :=
  let line := trimEnd line
  (dropBytes? margin line).getD (trimStart line)

/-- A text whose first line is trimmed and whose other lines lose their common indentation. -/
def dedent (cs : List Char) : List Char :=
  match lines cs with
  | [] => []
  | first :: rest => unlines (dropEmptyEnds (trim first :: rest.map (dedentLine (margin rest))))

/-- Drops quotes around a text where they match. -/
def unquote (cs : List Char) : List Char :=
  (quotes.findSome? fun q => (q.isPrefixOf? cs).bind q.isSuffixOf?).getD cs

/-- The documentation in a string literal or in adjacent ones. -/
def ofLiteral (cs : List Char) : List Char :=
  let cs := trim cs
  match bodies cs with
  | [] => dedent (unquote (cs.dropWhile isMark))
  | parts => dedent parts.flatten

/-! ## Comments -/

/-- What may open a line of a comment; the first that fits is removed. -/
def commentMarkers : List (List Char) :=
  [['/', '/', '/'], ['/', '/', '!'], ['/', '*', '*'], ['/', '*', '!'], ['/', '/'], ['#'], ['*']]

/-- Removes the first of some openings that fits. -/
def stripAny (openings : List (List Char)) (cs : List Char) : List Char :=
  (openings.findSome? fun o => o.isPrefixOf? cs).getD cs

/-- A line of a comment without its markers. -/
def commentLine (line : List Char) : List Char :=
  let line := trim line
  let line := (['*', '/'].isSuffixOf? line).getD line
  trimEnd (stripAny [[' ']] (stripAny commentMarkers line))

/-- The documentation in a comment. -/
def ofComment (cs : List Char) : List Char :=
  unlines (dropEmptyEnds ((lines cs).map commentLine))

/-- The documentation in several comments; empty ones are left out. -/
def ofComments (comments : List (List Char)) : List Char :=
  unlines ((comments.map ofComment).filter fun c => !c.isEmpty)

end SourceChunks.Docstring
