/-!
# Interpolants — what a solver session gives

Answers to a satisfiability check, and the ways in which a session fails to answer.
-/

namespace Interpolants

/-- The answer to a satisfiability check. -/
inductive SatAnswer where
  | sat
  | unsat
  /-- The solver gave up, for a reason. -/
  | unknown (reason : String)
deriving DecidableEq, Repr

/-- Why reading, writing or launching fails. -/
inductive IoFault where
  | notFound
  /-- A part of a path that should be a folder is none. -/
  | notFolder
  /-- A path or a part of it has too many bytes. -/
  | nameTooLong
  | notPermitted
  /-- A text for the system has a null character, which would end it. -/
  | nullCharacter
  | invalidUtf8
  /-- Another cause, in its own words. -/
  | other (text : String)
deriving DecidableEq, Repr

/-- The wording of a fault. -/
def IoFault.message : IoFault → String
  | .notFound => "No such file or directory (os error 2)"
  | .notFolder => "Not a directory (os error 20)"
  | .nameTooLong => "File name too long (os error 36)"
  | .notPermitted => "Permission denied (os error 13)"
  | .nullCharacter => "nul byte found in provided data"
  | .invalidUtf8 => "stream did not contain valid UTF-8"
  | .other text => text

/-- Why a session gives no answer. -/
inductive SolverError where
  /-- Reading, writing or launching failed. -/
  | io (fault : IoFault)
  /-- The solver reported an error or stopped responding. -/
  | stopped (text : String)
  /-- The reply does not have the shape that the command calls for. -/
  | unreadable (reply : String)
deriving DecidableEq, Repr

/-- The wording of a session's error. -/
def SolverError.message : SolverError → String
  | .io fault => "solver I/O failed: " ++ fault.message
  | .stopped text => "solver returned an error:\n" ++ text
  | .unreadable reply => "could not understand solver response:\n" ++ reply

end Interpolants
