import SourceChunks.Json.Reader
import SourceChunks.Pattern.Footprint.OfPlan
import SourceChunks.Text.Letter

/-!
# The notation of patterns

Literals, `.`, `^`, `$`, classes, escapes, groups with and without a name, alternation, counted
and uncounted repetition, and flags. Look-around and back-references are refused, and so is what is
nested too deep or takes up too much memory. The reader is a machine with a stack of open groups
that takes at least one character a step.
-/

namespace SourceChunks.Pattern

/-! ## Flags -/

structure Flags where
  /-- `i`: letters match in any case. -/
  ignoreCase : Bool := false
  /-- `m`: `^` and `$` match at lines. -/
  multiLine : Bool := false
  /-- `s`: `.` matches a line feed too. -/
  dotAll : Bool := false
  /-- `R`: a carriage return ends a line as well. -/
  crlf : Bool := false
  /-- `x`: blanks and comments between parts are skipped. -/
  verbose : Bool := false
  /-- `U`: repetitions are lazy unless they are marked. -/
  swapLazy : Bool := false
deriving DecidableEq

/-- Sets a flag by its letter. `u` is always on and cannot be turned off. -/
def Flags.set? (f : Flags) (letter : Char) (on : Bool) : Option Flags :=
  match letter with
  | 'i' => some { f with ignoreCase := on }
  | 'm' => some { f with multiLine := on }
  | 's' => some { f with dotAll := on }
  | 'R' => some { f with crlf := on }
  | 'x' => some { f with verbose := on }
  | 'U' => some { f with swapLazy := on }
  | 'u' => if on then some f else none
  | _ => none

/-- Flags up to a closing bracket or a colon, which is returned with the rest. A letter may come
once, and so may the minus sign, which turns off the letters after it. -/
def flags? (f : Flags) (on : Bool) (seen : List Char) :
    List Char → Option (Flags × Bool × Char × List Char)
  | [] => none
  | c :: cs =>
    if c == ')' || c == ':' then
      if seen.head? == some '-' then none else some (f, seen.isEmpty, c, cs)
    else if seen.contains c then none
    else if c == '-' then flags? f false (c :: seen) cs
    else do flags? (← f.set? c on) on (c :: seen) cs

/-! ## Blanks in verbose patterns -/

/-- Skips blanks and comments; `comment` says that a comment is being skipped. -/
def skipVerbose (comment : Bool) : List Char → List Char
  | [] => []
  | c :: cs =>
    if comment then skipVerbose (c != '\n') cs
    else if Text.isBlank c then skipVerbose false cs
    else if c == '#' then skipVerbose true cs
    else c :: cs

def Flags.skip (f : Flags) (cs : List Char) : List Char :=
  if f.verbose then skipVerbose false cs else cs

/-- At most `count` characters of a kind, without what is skipped after each. -/
def Flags.takeRun (f : Flags) (kind : Char → Bool) : (count : Nat) → List Char →
    List Char × List Char
  | 0, cs => ([], cs)
  | _, [] => ([], [])
  | count + 1, c :: cs =>
    if kind c then
      let (run, rest) := f.takeRun kind count (f.skip cs)
      (c :: run, rest)
    else ([], c :: cs)

/-! ## Escapes -/

/-- What an escape stands for. -/
inductive Escape
  | char (c : Char)
  | set (s : CharSet)
  | look (l : Look)

/-- Characters with a meaning of their own. -/
def isMeta (c : Char) : Bool :=
  ['\\', '.', '+', '*', '?', '(', ')', '|', '[', ']', '\x7b', '\x7d', '^', '$', '#', '&', '-',
    '~'].contains c

/-- Characters that stand for themselves after a backslash. -/
def isEscapable (c : Char) : Bool :=
  isMeta c || (c.toNat < 0x80 && !Text.isAsciiAlpha c && !Text.isAsciiDigit c && c != '<'
    && c != '>')

def scalar? (n : Nat) : Option Char :=
  if n < 0xD800 || (0xDFFF < n && n < 0x110000) then some (Char.ofNat n) else none

/-- The value of hexadecimal digits, at least one. -/
def hexNumber? : List Char → Option Nat
  | [] => none
  | ds => ds.foldlM (fun n d => (Json.hexValue? d).map (16 * n + ·)) 0

/-- A character by its number: in braces, or with a fixed count of digits. -/
def hexEscape? (f : Flags) (count : Nat) (cs : List Char) : Option (Char × List Char) := do
  match f.skip cs with
  | '\x7b' :: cs =>
    match f.takeRun (· != '\x7d') cs.length (f.skip cs) with
    | (ds, _ :: rest) => pure (← scalar? (← hexNumber? ds), rest)
    | (_, []) => none
  | cs =>
    let (ds, rest) := f.takeRun (fun _ => true) count cs
    if ds.length < count then none
    pure (← scalar? (← hexNumber? ds), rest)

/-- The edge of a word that has a name. -/
def wordEdgeNamed? : String → Option Look
  | "start" => some .wordStart
  | "end" => some .wordEnd
  | "start-half" => some .wordStartHalf
  | "end-half" => some .wordEndHalf
  | _ => none

/-- A word edge that a name in braces makes more precise. Braces without a name are bounds. -/
def wordEdge? (f : Flags) : List Char → Option (Look × List Char)
  | '\x7b' :: cs =>
    match f.takeRun (fun c => Text.isAsciiAlpha c || c == '-') cs.length (f.skip cs) with
    | ([], _) => some (.wordEdge, '\x7b' :: cs)
    | (name, '\x7d' :: rest) => (wordEdgeNamed? (String.ofList name)).map fun l => (l, rest)
    | _ => none
  | cs => some (.wordEdge, cs)

/-- What follows a backslash. -/
def escape? (f : Flags) : List Char → Option (Escape × List Char)
  | [] => none
  | c :: cs =>
    match c with
    | 'x' => (hexEscape? f 2 cs).map fun (d, cs) => (.char d, cs)
    | 'u' => (hexEscape? f 4 cs).map fun (d, cs) => (.char d, cs)
    | 'U' => (hexEscape? f 8 cs).map fun (d, cs) => (.char d, cs)
    | 'd' => some (.set .digit, cs)
    | 'D' => some (.set (.compl .digit), cs)
    | 's' => some (.set .blank, cs)
    | 'S' => some (.set (.compl .blank), cs)
    | 'w' => some (.set .word, cs)
    | 'W' => some (.set (.compl .word), cs)
    | 'a' => some (.char '\x07', cs)
    | 'f' => some (.char '\x0c', cs)
    | 't' => some (.char '\t', cs)
    | 'n' => some (.char '\n', cs)
    | 'r' => some (.char '\r', cs)
    | 'v' => some (.char '\x0b', cs)
    | 'A' => some (.look .textStart, cs)
    | 'z' => some (.look .textEnd, cs)
    | 'b' => (wordEdge? f cs).map fun (l, cs) => (.look l, cs)
    | 'B' => some (.look .noWordEdge, cs)
    | '<' => some (.look .wordStart, cs)
    | '>' => some (.look .wordEnd, cs)
    | c => if isEscapable c then some (.char c, cs) else none

/-! ## Classes -/

/-- A set operation inside a class. -/
inductive SetOp
  | inter
  | difference
  | symmetricDifference

def SetOp.apply : SetOp → CharSet → CharSet → CharSet
  | inter, a, b => .inter a b
  | difference, a, b => a.difference b
  | symmetricDifference, a, b => .symmetricDifference a b

/-- The items of a class read so far, together, with their number and the depth of the deepest. If
case is to be ignored, that has been done for every item. -/
structure ClassItems where
  set : CharSet := .empty
  count : Nat := 0
  deepest : Nat := 0

namespace ClassItems

def add (k : ClassItems) (s : CharSet) (depth : Nat) : ClassItems :=
  ⟨.union k.set s, k.count + 1, max k.deepest depth⟩

/-- Several items together are one deeper than the deepest of them. -/
def depth (k : ClassItems) : Nat := if 1 < k.count then k.deepest + 1 else k.deepest

end ClassItems

/-- The left side of a set operation that waits for its right side. -/
structure PendingOp where
  left : CharSet
  depth : Nat
  op : SetOp

/-- A class that is open: what has been read of it, and the operation that waits for it. -/
structure OpenClass where
  negated : Bool
  pending : Option PendingOp := none
  items : ClassItems

namespace OpenClass

/-- The operands joined so far. -/
def joined (k : OpenClass) : CharSet :=
  match k.pending with
  | none => k.items.set
  | some p => p.op.apply p.left k.items.set

def depth (k : OpenClass) : Nat :=
  match k.pending with
  | none => k.items.depth
  | some p => max p.depth k.items.depth + 1

def close (k : OpenClass) : CharSet := k.joined.negateIf k.negated

def add (k : OpenClass) (s : CharSet) (depth : Nat) : OpenClass :=
  { k with items := k.items.add s depth }

/-- Everything read so far becomes the left side of an operation. -/
def operate (k : OpenClass) (op : SetOp) : OpenClass :=
  { k with pending := some ⟨k.joined, k.depth, op⟩, items := {} }

end OpenClass

/-- Reads the opening of a class after its bracket: a negation, literal minus signs, and a closing
bracket that stands for itself because it is first. -/
def openClass? (f : Flags) (cs : List Char) : Option (OpenClass × List Char) :=
  let cs := f.skip cs
  let negated := cs.head? == some '^'
  let cs := if negated then f.skip cs.tail else cs
  let (dashes, cs) := f.takeRun (· == '-') cs.length cs
  let items : ClassItems := dashes.foldl (fun k c => k.add (.single c) 0) {}
  match cs with
  | [] => none
  | ']' :: rest =>
    if dashes.isEmpty then some ({ negated, items := items.add (.single ']') 0 }, rest)
    else some ({ negated, items }, cs)
  | cs => some ({ negated, items }, cs)

/-- A named class after `[`, as in `[:alpha:]` or `[:^alpha:]`. Case is ignored before the class is
negated. -/
def namedClass? (fold : Bool) : List Char → Option (CharSet × List Char)
  | ':' :: cs =>
    let negated := cs.head? == some '^'
    let cs := if negated then cs.tail else cs
    match cs.dropWhile (· != ':') with
    | ':' :: ']' :: rest =>
      (CharSet.ascii? (String.ofList (cs.takeWhile (· != ':')))).map fun s =>
        ((s.foldIf fold).negateIf negated, rest)
    | _ => none
  | _ => none

/-- One end of a range: a character or a named class. -/
def classItem? (f : Flags) : List Char → Option ((Char ⊕ CharSet) × List Char)
  | [] => none
  | '\\' :: cs =>
    match escape? f cs with
    | some (.char c, cs) => some (.inl c, cs)
    | some (.set s, cs) => some (.inr s, cs)
    | _ => none
  | c :: cs => some (.inl c, cs)

/-- An item of a class or a range between two characters. -/
def classRange? (f : Flags) (cs : List Char) : Option (CharSet × List Char) := do
  let (first, cs) ← classItem? f cs
  let alone : CharSet := match first with
    | .inl c => .single c
    | .inr s => s
  let cs := f.skip cs
  match cs with
  | [] => none
  | '-' :: rest =>
    let rest := f.skip rest
    match rest with
    | [] => none
    | ']' :: _ | '-' :: _ => pure (alone, cs)
    | rest =>
      match first, ← classItem? f rest with
      | .inl lo, (.inl hi, rest) => if lo ≤ hi then pure (.range lo hi, rest) else none
      | _, _ => none
  | cs => pure (alone, cs)

/-- Reads a class and those nested in it up to the bracket that closes the outermost. The depth of
the class is returned with it. -/
def classFrom? (f : Flags) : Nat → List OpenClass → List Char →
    Option (CharSet × Nat × List Char)
  | 0, _, _ => none
  | _, [], _ => none
  | budget + 1, k :: outer, cs =>
    match f.skip cs with
    | [] => none
    | '[' :: cs =>
      match namedClass? f.ignoreCase cs with
      | some (s, cs) => classFrom? f budget (k.add s 0 :: outer) cs
      | none => do
        let (inner, cs) ← openClass? f cs
        classFrom? f budget (inner :: k :: outer) cs
    | ']' :: cs =>
      let s := k.close
      let depth := k.depth + 1
      match outer with
      | [] => some (s, depth, cs)
      | o :: outer => classFrom? f budget (o.add s depth :: outer) cs
    | '&' :: '&' :: cs => classFrom? f budget (k.operate .inter :: outer) cs
    | '-' :: '-' :: cs => classFrom? f budget (k.operate .difference :: outer) cs
    | '~' :: '~' :: cs => classFrom? f budget (k.operate .symmetricDifference :: outer) cs
    | cs => do
      let (s, cs) ← classRange? f cs
      classFrom? f budget (k.add (s.foldIf f.ignoreCase) 0 :: outer) cs

/-- A class after its opening bracket, with its depth. -/
def class? (f : Flags) (cs : List Char) : Option (CharSet × Nat × List Char) := do
  let (k, rest) ← openClass? f cs
  classFrom? f (rest.length + 1) [k] rest

/-! ## Repetition -/

/-- A decimal number with blanks around it. -/
def decimal? (f : Flags) (cs : List Char) : Option (Nat × List Char) :=
  let (ds, rest) := f.takeRun Text.isAsciiDigit cs.length (Text.trimStart cs)
  let value := Json.digitsValue ds
  if ds.isEmpty || UInt32.size ≤ value then none else some (value, f.skip (Text.trimStart rest))

/-- The bounds of a repetition after its opening brace. Blanks may stand around a number. -/
def bounds? (f : Flags) (cs : List Char) : Option (Nat × Option Nat × List Char) := do
  let (min, cs) ← decimal? f (f.skip cs)
  match cs with
  | '\x7d' :: cs => pure (min, some min, cs)
  | ',' :: cs =>
    match f.skip cs with
    | '\x7d' :: cs => pure (min, none, cs)
    | cs => do
      let (max, cs) ← decimal? f cs
      match cs with
      | '\x7d' :: cs => if min ≤ max then pure (min, some max, cs) else none
      | _ => none
  | _ => none

/-- Whether a repetition is marked as lazy. -/
def lazy? : List Char → Bool × List Char
  | '?' :: cs => (true, cs)
  | cs => (false, cs)

/-! ## Groups -/

/-- A group that is open. -/
structure Group where
  /-- The number of a group that captures. -/
  index : Option Nat := none
  /-- The flags to go back to when it is closed. -/
  outerFlags : Flags
  /-- The alternatives before the current one, the last first. -/
  alternatives : List Expression := []
  /-- The parts of the current alternative, the last first; a change of flags counts as an empty
  part, which cannot be repeated. -/
  parts : List Expression := []

namespace Group

def current (g : Group) : Expression := .concat g.parts.reverse

def add (g : Group) (e : Expression) : Group := { g with parts := e :: g.parts }

def nextAlternative (g : Group) : Group :=
  { g with alternatives := g.current :: g.alternatives, parts := [] }

/-- What stands in the group. -/
def content (g : Group) : Expression :=
  match (g.current :: g.alternatives).reverse with
  | [] => .empty
  | first :: rest => .choice first rest

/-- The whole group. -/
def close (g : Group) : Expression :=
  match g.index with
  | some index => .capture index g.content
  | none => .group g.content

/-- Repeats the last part. -/
def repeatLast? (g : Group) (min : Nat) (max : Option Nat) (lazy : Bool) : Option Group :=
  match g.parts with
  | [] | .empty :: _ => none
  | e :: parts =>
    (Expression.repeated e min max lazy).shallow?.map fun e => { g with parts := e :: parts }

end Group

/-- A letter that may open the name of a group. -/
def isNameStart (c : Char) : Bool := c == '_' || Text.isLetter c

def isNameChar (c : Char) : Bool :=
  ['_', '.', '[', ']'].contains c || Text.isLetter c || Text.isNumber c

/-- The name of a group up to its closing angle. -/
def groupName? (cs : List Char) : Option (List Char × List Char) :=
  let name := cs.takeWhile (· != '>')
  match cs.dropWhile (· != '>') with
  | [] => none
  | _ :: rest =>
    if name.head?.any isNameStart && name.all isNameChar then some (name, rest) else none

/-! ## The machine -/

structure Machine where
  flags : Flags := {}
  /-- The innermost group. -/
  group : Group
  /-- The groups around it, the innermost first. -/
  outer : List Group := []
  /-- How many groups that capture have been opened. -/
  captures : Nat := 0
  names : List (List Char) := []

namespace Machine

def add (m : Machine) (e : Expression) : Machine := { m with group := m.group.add e }

def addChar (m : Machine) (c : Char) : Machine := m.add (.char c m.flags.ignoreCase)

def openGroup (m : Machine) (inner : Flags) : Machine :=
  { m with flags := inner, group := { outerFlags := m.flags }, outer := m.group :: m.outer }

def openCapture (m : Machine) : Machine :=
  { m with
    group := { index := some (m.captures + 1), outerFlags := m.flags }
    outer := m.group :: m.outer
    captures := m.captures + 1 }

def openNamed? (m : Machine) (cs : List Char) : Option (Machine × List Char) := do
  let (name, rest) ← groupName? cs
  if m.names.contains name then none
  pure ({ m.openCapture with names := name :: m.names }, rest)

/-- What follows an opening parenthesis. -/
def openParenthesis? (m : Machine) : List Char → Option (Machine × List Char)
  | '?' :: '=' :: _ | '?' :: '!' :: _ | '?' :: '<' :: '=' :: _ | '?' :: '<' :: '!' :: _ => none
  | '?' :: 'P' :: '<' :: cs => m.openNamed? cs
  | '?' :: '<' :: cs => m.openNamed? cs
  | '?' :: cs => do
    let (flags, noFlags, mark, rest) ← flags? m.flags true [] cs
    if mark == ':' then pure (m.openGroup flags, rest)
    else if noFlags then none
    else pure ({ m.add .empty with flags := flags }, rest)
  | cs => some (m.openCapture, cs)

def dot (f : Flags) : CharSet :=
  if f.dotAll then .except [] else if f.crlf then .except ['\n', '\r'] else .except ['\n']

def caret (f : Flags) : Look :=
  if f.multiLine then if f.crlf then .anyLineStart else .lineStart else .textStart

def dollar (f : Flags) : Look :=
  if f.multiLine then if f.crlf then .anyLineEnd else .lineEnd else .textEnd

/-- Repeats the last part, lazily if it is marked so. -/
def repeatLast? (m : Machine) (min : Nat) (max : Option Nat) (cs : List Char) :
    Option (Machine × List Char) :=
  let (marked, cs) := lazy? cs
  (m.group.repeatLast? min max (marked != m.flags.swapLazy)).map fun g =>
    ({ m with group := g }, cs)

/-- Closes the innermost group. -/
def closeGroup? (m : Machine) : Option Machine :=
  match m.outer with
  | [] => none
  | g :: outer =>
    m.group.close.shallow?.map fun e =>
      { m with flags := m.group.outerFlags, group := g.add e, outer := outer }

/-- Takes the next part off the front. -/
def step? (m : Machine) : Char → List Char → Option (Machine × List Char)
  | '(', cs => m.openParenthesis? (m.flags.skip cs)
  | ')', cs => m.closeGroup?.map fun m => (m, cs)
  | '|', cs => some ({ m with group := m.group.nextAlternative }, cs)
  | '[', cs => (class? m.flags cs).map fun (s, depth, cs) => (m.add (.set s depth), cs)
  | '*', cs => m.repeatLast? 0 none cs
  | '+', cs => m.repeatLast? 1 none cs
  | '?', cs => m.repeatLast? 0 (some 1) cs
  | '\x7b', cs => do
    let (min, max, cs) ← bounds? m.flags cs
    m.repeatLast? min max (m.flags.skip cs)
  | '.', cs => some (m.add (.set (dot m.flags) 0), cs)
  | '^', cs => some (m.add (.look (caret m.flags)), cs)
  | '$', cs => some (m.add (.look (dollar m.flags)), cs)
  | '\\', cs =>
    (escape? m.flags cs).map fun (e, cs) =>
      match e with
      | .char c => (m.addChar c, cs)
      | .set s => (m.add (.set s 0), cs)
      | .look l => (m.add (.look l), cs)
  | c, cs => some (m.addChar c, cs)

/-- Runs until the text is used up; every group has to be closed then. -/
def run? : Nat → Machine → List Char → Option Expression
  | 0, _, _ => none
  | budget + 1, m, cs =>
    match m.flags.skip cs with
    | [] => if m.outer.isEmpty then m.group.content.shallow? else none
    | c :: cs => do
      let (m, cs) ← m.step? c cs
      run? budget m cs

end Machine

/-- The expression that a text denotes. -/
def Expression.parse? (text : String) : Option Expression :=
  let cs := text.toList
  Machine.run? (cs.length + 1) { group := { outerFlags := {} } } cs

/-- The pattern that a text denotes. -/
def parse? (text : String) : Option Pattern := do
  let e ← Expression.parse? text
  if e.plan.fits then some e.pattern else none

end SourceChunks.Pattern
