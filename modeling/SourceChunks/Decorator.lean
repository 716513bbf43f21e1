/-!
# Decorators

A decorator of a chunk is one of six tags or, where no rule knows it, the text of the modifier.
Both are written as a string: the tag's name or the text itself.
-/

namespace SourceChunks

inductive Tag
  | property
  | static
  | classScoped
  | generator
  | asynchronous
  | dataHolder
deriving DecidableEq, Repr

namespace Tag

def all : List Tag := [property, static, classScoped, generator, asynchronous, dataHolder]

def name : Tag → String
  | property => "property"
  | static => "static"
  | classScoped => "class_scoped"
  | generator => "generator"
  | asynchronous => "asynchronous"
  | dataHolder => "data_holder"

def ofName? (s : String) : Option Tag := all.find? (·.name == s)

theorem ofName?_name (t : Tag) : ofName? t.name = some t := by
  cases t <;> decide

end Tag

inductive Decorator
  | tag (t : Tag)
  | verbatim (text : String)
deriving DecidableEq, Repr

namespace Decorator

def tag? : Decorator → Option Tag
  | tag t => some t
  | verbatim _ => none

/-- The written form. -/
def text : Decorator → String
  | tag t => t.name
  | verbatim s => s

/-- The decorator of a written form: a tag where the form is the name of one. -/
def ofText (s : String) : Decorator :=
  match Tag.ofName? s with
  | some t => tag t
  | none => verbatim s

/-- Reading a written form gives the decorator back, unless its text is the name of a tag. -/
theorem ofText_text {d : Decorator} (h : ∀ s, d = verbatim s → Tag.ofName? s = none) :
    ofText d.text = d := by
  cases d with
  | tag t => simp [ofText, text, Tag.ofName?_name]
  | verbatim s => simp [ofText, text, h s rfl]

end Decorator

end SourceChunks
