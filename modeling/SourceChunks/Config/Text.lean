import SourceChunks.Config.Reader
import SourceChunks.Toml.Reader

/-!
# Configurations as TOML text
-/

namespace SourceChunks.Config

/-- The configuration in a text, which has to be usable as well as readable. -/
def ofToml (text : String) : Except Error Config :=
  match (Toml.parse? text).bind ofJson? with
  | none => .error (.invalidConfig .unreadable)
  | some c =>
    match c.problem? with
    | some cause => .error (.invalidConfig cause)
    | none => .ok c

end SourceChunks.Config
