/-!
# Evaluation of array dimensions

A dimension that is not a single constant is handed, as text, to an *evaluator*:
in a real run the host's C compiler, elsewhere any function from texts to values.
The errors are those of the steps that a host takes.
-/

namespace TypeLayout

/-- Why a dimension could not be evaluated. -/
inductive HostError where
  /-- The command for the compiler is empty. -/
  | noCompiler
  | sourcePath (path reason : String)
  | tempFile (reason : String)
  | spawn (command reason : String)
  /-- The compiler refused the generated program; what it wrote to its error
  channel. -/
  | compileFailed (expr output : String)
  | runFailed (expr : String)
  | readResult (reason : String)
  | invalidOutput (text : String)
deriving DecidableEq, Repr

/-- The text of an error. -/
def HostError.message : HostError → String
  | noCompiler => "No host compiler command was given"
  | sourcePath path reason => "Could not resolve " ++ path ++ ": " ++ reason
  | tempFile reason => "Could not create temporary file: " ++ reason
  | spawn command reason => "Could not run `" ++ command ++ "`: " ++ reason
  | compileFailed expr output =>
    "Host compiler rejected dimension `" ++ expr ++ "`:\n" ++ output
  | runFailed expr => "Evaluation program for `" ++ expr ++ "` failed"
  | readResult reason => "Could not read evaluation result: " ++ reason
  | invalidOutput text => "Evaluation program produced `" ++ text ++ "`, not an integer"

/-- What gives the texts of dimensions their values. -/
abbrev Evaluator := String → Except HostError Int

end TypeLayout
