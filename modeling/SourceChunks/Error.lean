/-!
# Errors

Why a request fails. The wording of every cause is in `message`; some causes have none.
-/

namespace SourceChunks

/-- Why a configuration is refused. -/
inductive ConfigError
  | zeroMaximum
  | invertedBounds (min max : Nat)
  | blankPattern
  /-- A pattern that is no regular expression. -/
  | invalidPattern
  /-- A text that cannot be read as a configuration. -/
  | unreadable
deriving DecidableEq, Repr

namespace ConfigError

def detail? : ConfigError → Option String
  | zeroMaximum => some "max_unit_size must be > 0"
  | invertedBounds min max =>
    some ("min_unit_size (" ++ toString min ++ ") cannot exceed max_unit_size (" ++ toString max
      ++ ")")
  | blankPattern => some "decorator rule pattern must not be empty"
  | invalidPattern => some "invalid decorator rule"
  | unreadable => none

end ConfigError

inductive Error
  /-- No grammar for the language, or the configuration does not list it. -/
  | unsupportedLanguage (name : String)
  | invalidConfig (cause : ConfigError)
  /-- A configuration value of the wrong shape. -/
  | malformedConfig
  /-- Records or spans of the wrong shape. -/
  | malformedRecords
  /-- A node number that the table does not have. -/
  | noSuchNode
deriving DecidableEq, Repr

namespace Error

def message? : Error → Option String
  | unsupportedLanguage name => some ("Unsupported language: " ++ name)
  | invalidConfig cause => cause.detail?.map ("Invalid configuration: " ++ ·)
  | malformedConfig | malformedRecords | noSuchNode => none

end Error

end SourceChunks
