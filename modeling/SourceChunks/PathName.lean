/-!
# Path names

A path is a list of components between slashes. Its extension is what follows the last dot of the
last component, unless that dot is the component's first character.
-/

namespace SourceChunks.PathName

/-- The components between slashes; there is always at least one, perhaps empty. -/
def components : List Char → List (List Char)
  | [] => [[]]
  | ch :: rest =>
    if ch == '/' then [] :: components rest
    else match components rest with
      | [] => [[ch]]
      | p :: ps => (ch :: p) :: ps

/-- The last component of a path that names something, `.` and empty components apart. A path to
a parent names no file. -/
def fileName? (path : List Char) : Option (List Char) :=
  match ((components path).filter fun p => !p.isEmpty && p != ['.']).getLast? with
  | some ['.', '.'] => none
  | other => other

/-- What follows the last dot of a file name, unless that dot opens the name. -/
def extension? (name : List Char) : Option (List Char) :=
  let stem := name.reverse.dropWhile (· != '.')
  if stem.length ≤ 1 then none else some (name.drop stem.length)

end SourceChunks.PathName
