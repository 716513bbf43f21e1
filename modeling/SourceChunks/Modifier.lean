import SourceChunks.Config
import SourceChunks.Pattern.Parser

/-!
# Modifiers and rules

A modifier is classified by its surface name: the path it calls, without marker and arguments. A
rule gives a tag to the names that its pattern matches; of several rules the first counts.
Configured rules go before the built-in ones.
-/

namespace SourceChunks

namespace Modifier

open Text

/-- The text inside an attribute's brackets, or after a decorator's sign. -/
def unmarked (cs : List Char) : List Char :=
  match (['#', '!', '['].isPrefixOf? cs).or (['#', '['].isPrefixOf? cs) with
  | some inner => ([']'].isSuffixOf? inner).getD inner
  | none => (['@'].isPrefixOf? cs).getD cs

/-- Characters that end the path of a modifier. -/
def endsPath (c : Char) : Bool := c == '(' || c == '[' || c == '=' || isBlank c

/-- The path that a modifier calls, `functools.lru_cache` for `@functools.lru_cache(1)`. -/
def surfaceName (cs : List Char) : List Char :=
  (unmarked (trim cs)).takeWhile fun c => !endsPath c

end Modifier

structure Rule where
  pattern : Pattern
  tag : Tag

namespace Rule

open Pattern

/-- A component of a path with the dot after it. -/
def component : Pattern := .seq (plus (.set .word)) (.set (.single '.'))

/-- Names of properties and of their accessors. -/
def propertyPattern : Pattern :=
  whole (choice
    (oneOf "property" ["cached_property", "functools.cached_property", "abc.abstractproperty"])
    [.seq (plus component) (oneOf "setter" ["getter", "deleter"])])

def accessorPattern : Pattern := whole (oneOf "get" ["set"])

def staticPattern : Pattern := whole (oneOf "staticmethod" ["static", "abc.abstractstaticmethod"])

def classScopedPattern : Pattern := whole (oneOf "classmethod" ["abc.abstractclassmethod"])

def dataHolderPattern : Pattern :=
  whole (choice (.seq (star component) (text "dataclass"))
    [oneOf "attr.s" ["attr.attrs"],
     .seq (oneOf "attr" ["attrs"]) (.seq (text ".") (oneOf "define" ["frozen", "mutable"]))])

def builtin : List Rule :=
  [⟨propertyPattern, .property⟩, ⟨accessorPattern, .property⟩, ⟨staticPattern, .static⟩,
   ⟨classScopedPattern, .classScoped⟩, ⟨dataHolderPattern, .dataHolder⟩]

/-- The rule that a configuration describes, if its pattern can be read. -/
def ofConfig? (r : RuleConfig) : Option Rule :=
  (Pattern.parse? r.pattern).map fun p => ⟨p, r.tag⟩

end Rule

/-- Rules in the order in which they are tried. -/
abbrev Rules := List Rule

namespace Rules

/-- Configured rules, then the built-in ones. -/
def ofConfig (rules : List RuleConfig) : Except Error Rules :=
  match rules.mapM Rule.ofConfig? with
  | some configured => .ok (configured ++ Rule.builtin)
  | none => .error (.invalidConfig .invalidPattern)

/-- The tag of a modifier's text. -/
def classify (rules : Rules) (text : String) : Option Tag :=
  let name := Modifier.surfaceName text.toList
  if name.isEmpty then none else (rules.find? fun r => r.pattern.search name).map Rule.tag

/-- The decorator of a modifier's text: its tag or, without one, the text. -/
def decorator (rules : Rules) (text : String) : Decorator :=
  match rules.classify text with
  | some t => .tag t
  | none => .verbatim text

end Rules

end SourceChunks
