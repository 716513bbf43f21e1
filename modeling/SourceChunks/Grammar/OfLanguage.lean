import SourceChunks.Grammar.Go
import SourceChunks.Grammar.JavaScript
import SourceChunks.Grammar.Python
import SourceChunks.Grammar.Rust

/-!
# The grammar of a language
-/

namespace SourceChunks.Grammar

def ofLanguage? : Language → Option Grammar
  | .python => some python
  | .rust => some rust
  | .javaScript => some javaScript
  | .typeScript => some typeScript
  | .tsx => some tsx
  | .go => some go
  | _ => none

end SourceChunks.Grammar
