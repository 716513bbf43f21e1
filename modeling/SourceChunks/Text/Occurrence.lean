/-!
# Occurrences of one text in another
-/

namespace SourceChunks.Text

/-- Whether a text occurs somewhere in another. -/
def occurs (needle : List Char) : List Char → Bool
  | [] => needle.isEmpty
  | c :: cs => needle.isPrefixOf (c :: cs) || occurs needle cs

end SourceChunks.Text
