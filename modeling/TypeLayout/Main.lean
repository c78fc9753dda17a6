import TypeLayout.Program

/-!
# The executable

Reads the arguments and the files, does the work, prints the log and the report, and
writes the results. It starts no programs, so that a dimension that needs the host's
compiler is an error.
-/

namespace TypeLayout

/-- The error of a file operation. -/
def fileError : IO.Error → FileError
  | .noFileOrDirectory .. => .notFound
  | .permissionDenied .. => .permission
  | .inappropriateType _ 20 _ => .notFolder
  | .inappropriateType _ 21 _ => .isFolder
  | .otherError code details => .system details code.toNat
  | e => .system (toString e) 0

/-- Reads a file. -/
def readInput (path : String) : IO (Except Report String) := do
  try
    let bytes ← IO.FS.readBinFile path
    match Text.decodeUtf8? bytes.toList with
    | some text => return .ok text
    | none => return .error (.ofFile path .notText)
  catch e => return .error (.ofFile path (fileError e))

/-- Prints the entries of the log that are to be shown. -/
def printLog (s : Settings) (log : List Notice) : IO Unit :=
  (s.shown log).forM fun n => IO.eprintln n.logLine

/-- Ends a run with a report. -/
def giveUp (r : Report) : IO UInt32 := do
  IO.eprintln r.text
  return r.exitCode.toNat.toUInt32

/-- Writes the results in order, up to the first that cannot be written. -/
def writeOutputs (s : Settings) : List OutputFile → IO UInt32
  | [] => return 0
  | file :: more => do
    let failed : Option Report ←
      try
        IO.FS.writeFile file.path file.text
        pure none
      catch e => pure (some (.ofFile file.path (fileError e)))
    match failed with
    | some r => giveUp r
    | none =>
      printLog s [.fileWritten file.path]
      writeOutputs s more

/-- Carries out what a command line asks for. -/
def carryOut (s : Settings) : IO UInt32 := do
  match ← readInput s.input with
  | .error r => giveUp r
  | .ok source =>
    printLog s [.fileRead s.input source.utf8ByteSize]
    match ← readInput s.keys with
    | .error r => giveUp r
    | .ok keys =>
      printLog s [.fileRead s.keys keys.utf8ByteSize]
      let evaluate := Host.evaluator Host.noPrograms {} s.compiler s.input
      let done := s.work source keys evaluate
      printLog s done.log
      match done.result with
      | .error r => giveUp r
      | .ok outputs => writeOutputs s outputs

end TypeLayout

open TypeLayout in
/-- The executable. -/
def main (args : List String) : IO UInt32 := do
  match Settings.parse args with
  | .ok s => carryOut s
  | .error e =>
    let text := e.message
    if e.exitCode = .success then IO.println text else IO.eprintln text
    return e.exitCode.toNat.toUInt32
