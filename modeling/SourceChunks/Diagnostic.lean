/-!
# Diagnostics

A condition that is recorded on a chunk instead of failing the run: in both cases the whole file
became one chunk.
-/

namespace SourceChunks

inductive DiagnosticCode
  | malformedTree
  | unsupportedLanguage
deriving DecidableEq, Repr

namespace DiagnosticCode

def all : List DiagnosticCode := [malformedTree, unsupportedLanguage]

def name : DiagnosticCode → String
  | malformedTree => "malformed_tree"
  | unsupportedLanguage => "unsupported_language"

def ofName? (s : String) : Option DiagnosticCode := all.find? (·.name == s)

theorem ofName?_name (c : DiagnosticCode) : ofName? c.name = some c := by
  cases c <;> decide

end DiagnosticCode

structure Diagnostic where
  code : DiagnosticCode
  message : String
deriving DecidableEq, Repr

namespace Diagnostic

/-- The tree does not fit the text. -/
def malformedTree (reason : String) : Diagnostic := ⟨.malformedTree, reason⟩

/-- No grammar is known for the language. -/
def unsupportedLanguage (language : String) : Diagnostic :=
  ⟨.unsupportedLanguage, "no syntax adapter for language '" ++ language ++ "'"⟩

end Diagnostic

end SourceChunks
