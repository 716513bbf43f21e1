import SourceChunks.PathName
import SourceChunks.Text.Folding

/-!
# Source languages

The languages a file can be in, their names, and how a file's path tells its language: by the
extension of the last component, in any case. Six of them have a grammar.
-/

namespace SourceChunks

inductive Language
  | rust
  | python
  | javaScript
  | typeScript
  | tsx
  | go
  | java
  | c
  | cpp
  | cSharp
  | ruby
  | php
  | scala
  | swift
  | kotlin
  | unknown
deriving DecidableEq, Repr

namespace Language

def all : List Language :=
  [rust, python, javaScript, typeScript, tsx, go, java, c, cpp, cSharp, ruby, php, scala, swift,
   kotlin, unknown]

def name : Language → String
  | rust => "rust"
  | python => "python"
  | javaScript => "javascript"
  | typeScript => "typescript"
  | tsx => "tsx"
  | go => "go"
  | java => "java"
  | c => "c"
  | cpp => "cpp"
  | cSharp => "csharp"
  | ruby => "ruby"
  | php => "php"
  | scala => "scala"
  | swift => "swift"
  | kotlin => "kotlin"
  | unknown => "unknown"

def ofName? (s : String) : Option Language := all.find? (·.name == s)

theorem ofName?_name (l : Language) : ofName? l.name = some l := by
  cases l <;> decide

/-- The languages whose concrete syntax is understood. -/
def hasGrammar : Language → Bool
  | rust | python | javaScript | typeScript | tsx | go => true
  | _ => false

/-! ## Detection -/

/-- File name extensions in lower case. -/
def extensions : Language → List String
  | rust => ["rs"]
  | python => ["py", "pyw", "pyi"]
  | javaScript => ["js", "jsx", "mjs", "cjs"]
  | typeScript => ["ts", "mts", "cts"]
  | tsx => ["tsx"]
  | go => ["go"]
  | java => ["java"]
  | c => ["c"]
  | cpp => ["cpp", "cc", "cxx", "h", "hpp", "hh", "hxx"]
  | cSharp => ["cs"]
  | ruby => ["rb"]
  | php => ["php"]
  | scala => ["scala"]
  | swift => ["swift"]
  | kotlin => ["kt", "kts"]
  | unknown => []

/-- The language of an extension, in any case. -/
def ofExtension (ext : String) : Language :=
  let lower := String.ofList (ext.toList.map Text.toLowerAscii)
  (all.find? (·.extensions.contains lower)).getD unknown

def ofPath (path : String) : Language :=
  match (PathName.fileName? path.toList).bind PathName.extension? with
  | some ext => ofExtension (String.ofList ext)
  | none => unknown

end Language

end SourceChunks
