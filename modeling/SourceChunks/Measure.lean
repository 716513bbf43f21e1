import SourceChunks.Config
import SourceChunks.Source
import SourceChunks.Text.Grapheme

/-!
# The size of a span

Sizes are counted in grapheme clusters of the text or in lines touched. A range that cuts a
character has no text and size 0, and so has an empty range.
-/

namespace SourceChunks

def Source.measure (src : Source) (unit : SizeUnit) (span : Span) : Nat :=
  match unit with
  | .chars =>
    match src.slice? span.toByteRange with
    | some text => Text.Grapheme.count text.toList
    | none => 0
  | .lines => if span.isEmpty then 0 else span.lineCount

/-- The size of a byte range. -/
def Source.measureRange (src : Source) (unit : SizeUnit) (start stop : Nat) : Nat :=
  src.measure unit (src.span start stop)

end SourceChunks
