/-!
# Interpolants — file paths as text

Paths are text with parts between slashes. A slash or a part `.` at the end of a path does not
change what it names.
-/

namespace Interpolants.Text

/-- A reversed path without the slashes and parts `.` that it starts with. -/
def dropReversedTail : List Char → List Char
  | '/' :: rest => dropReversedTail rest
  | '.' :: '/' :: rest => dropReversedTail ('/' :: rest)
  | path => path

/-- A path without the slashes and parts `.` at its end. -/
def trimTail (path : List Char) : List Char :=
  (dropReversedTail path.reverse).reverse

/-- Splits a path before the name of its last part, if that part is a name: an empty part, `.` and
`..` are none. What comes behind the name is dropped. -/
def splitFileName (path : List Char) : Option (List Char × List Char) :=
  let shown := (trimTail path).reverse
  let name := (shown.takeWhile (· != '/')).reverse
  if name = [] ∨ name = ['.'] ∨ name = ['.', '.'] then none
  else some ((shown.dropWhile (· != '/')).reverse, name)

/-- Splits a file name at its last dot. A name has no extension if it has no dot or starts with its
only one. -/
def splitExtension (name : List Char) : Option (List Char × List Char) :=
  let extension := (name.reverse.takeWhile (· != '.')).reverse
  let stem := (name.reverse.dropWhile (· != '.')).drop 1
  if name.contains '.' && !stem.isEmpty then some (stem.reverse, extension) else none

/-- A path without the extension of its file name. First the extension goes and then the dot, unless
what is left of the name stands for the parent folder. -/
def withoutExtension (path : List Char) : List Char :=
  match splitFileName path with
  | none => path
  | some (folder, name) =>
    match splitExtension name with
    | none => folder ++ name
    | some (stem, _) =>
      if stem = ['.'] && (folder ++ name == path) then folder ++ ['.', '.'] else folder ++ stem

/-- Whether a path starts at the root folder. -/
def isAbsolute (path : List Char) : Bool :=
  path.head? == some '/'

/-- A path taken from within a folder. An absolute path stays as it is. -/
def within (folder path : List Char) : List Char :=
  if isAbsolute path then path else trimTail (folder ++ '/' :: path)

end Interpolants.Text
