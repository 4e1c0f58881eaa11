import Interpolants.Solver.Answer
import Interpolants.Text.Lines
import Interpolants.Text.Path
import Interpolants.Text.Utf8

/-!
# Interpolants — where paths lead

A path is followed part by part, from the root if it is absolute and from the working folder if not.
Every machine has a root, a folder `dev` in it, and the null device in that. Nothing else is known
to exist, apart from the folders between the root and the working folder, which are known by their
distance from the root only.
-/

namespace Interpolants

open Text

/-- What a path can lead to. -/
inductive Place where
  /-- The folder so many steps below the root on the way to the working folder. -/
  | folder (depth : Nat)
  | devices
  | nullDevice
deriving DecidableEq, Repr

namespace Place

/-- The root is no step below itself. -/
def root : Place :=
  .folder 0

/-- The folder that relative paths start from. -/
def working : Place :=
  .folder 3

/-- The most bytes that a path has. -/
def maxPathSize : Nat :=
  4095

/-- The most bytes that a part of a path has. -/
def maxPartSize : Nat :=
  255

/-- The folder above a place. The root has none above it and is its own. -/
def parent : Place → Place
  | .folder depth => .folder (depth - 1)
  | .devices => root
  | .nullDevice => .devices

/-- Follows one part of a path. Nothing leads on from what is no folder, not even an empty part. -/
def follow (here : Place) (part : List Char) : Except IoFault Place :=
  if here = nullDevice then .error .notFolder
  else if part = [] ∨ part = ['.'] then .ok here
  else if part = ['.', '.'] then .ok here.parent
  else if maxPartSize < (utf8 part).length then .error .nameTooLong
  else if here = root ∧ part = "dev".toList then .ok .devices
  else if here = devices ∧ part = "null".toList then .ok .nullDevice
  else .error .notFound

/-- Where a path leads, or why it leads nowhere. -/
def ofPath (path : String) : Except IoFault Place :=
  if path = "" then .error .notFound
  else if maxPathSize < (utf8 path.toList).length then .error .nameTooLong
  else
    (pieces '/' path.toList).foldlM follow (if isAbsolute path.toList then root else working)

end Place

end Interpolants
