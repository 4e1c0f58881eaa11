import Interpolants.Sexp.Printer
import Interpolants.Text.Lines

/-!
# Interpolants — transcripts

The commands of a session, with comments, as a file that can be run again by hand.
-/

namespace Interpolants

open Text

/-- What a session was sent, oldest first. -/
structure Transcript where
  entries : List Sexp
deriving DecidableEq

namespace Transcript

/-- Records a command or a comment. -/
def add (t : Transcript) (entry : Sexp) : Transcript :=
  ⟨t.entries ++ [entry]⟩

/-- The line for an entry. An empty comment leaves an empty line. -/
def line : Sexp → List Char
  | .comment text => if text = "" then [] else ';' :: ';' :: ' ' :: text.toList
  | command => command.chars

/-- The text of the file: a line for each entry. -/
def fileText (t : Transcript) : String :=
  String.ofList (unlines (t.entries.map line) ++ ['\n'])

end Transcript

/-- A folder for transcripts. Files are named after their contents, so that equal transcripts are
one file. -/
structure Folder where
  creatable : Bool
  files : List String
deriving DecidableEq

/-- Saves a transcript, if the folder can be created. -/
def Folder.save? (folder : Folder) (t : Transcript) : Option Folder :=
  if !folder.creatable then none
  else if folder.files.contains t.fileText then some folder
  else some { folder with files := folder.files ++ [t.fileText] }

end Interpolants
