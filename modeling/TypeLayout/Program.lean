import TypeLayout.CommandLine
import TypeLayout.Host.Toolchain
import TypeLayout.Table.CText
import TypeLayout.Table.Dump

/-!
# The program

What a run of the program does, from its arguments and the files it finds to its exit
code, what it shows to the user, and the files it leaves. Reading and writing are kept
apart from the work between them: `Settings.work` turns two texts into the files to
write, and `run` puts it between the files of a tree.
-/

namespace TypeLayout

/-- A file to be written. -/
structure OutputFile where
  path : String
  text : String
deriving DecidableEq, Inhabited, Repr

/-- What is shown to the user about a run that failed. -/
structure Report where
  text : String
  exitCode : ExitCode
deriving DecidableEq, Inhabited, Repr

namespace Report

/-- The report of a failure. -/
def ofFailure (names : Names) (f : Failure) : Report :=
  ⟨f.render names, f.diagnostic.problem.exitCode⟩

/-- The report of a problem that is not in the source. -/
def ofProblem (line : Nat) (p : Problem) : Report := ofFailure {} ⟨⟨line, p⟩, []⟩

/-- The report of a file that could not be read or written. -/
def ofFile (path : String) (e : FileError) : Report := ofProblem 0 (.io path e.message)

end Report

/-- The result of a part of a run, with what it has to say in the log. -/
structure Logged (α : Type) where
  log : List Notice := []
  result : Except Report α

namespace Settings

/-- The files to write for a table. -/
def outputs (s : Settings) (table : DescriptorTable) : Except EmitError (List OutputFile) :=
  let names := CNames.make s.lead s.headerFile
  match table.toC names with
  | .error e => .error e
  | .ok source =>
    let files := [⟨s.tablePath, source⟩, ⟨s.headerPath, table.toHeader names⟩]
    match s.emitJson with
    | none => .ok files
    | some path => (table.toJson Text.Json.serialize).map fun dump => files ++ [⟨path, dump⟩]

/-- Compiles a source for a key list into the files to write; none if the compilation is
to stop early. -/
def work (s : Settings) (source keyText : String) (eval : Evaluator) :
    Logged (List OutputFile) :=
  match KeyList.parse {} keyText with
  | .error (line, e) => { result := .error (.ofProblem line (.keys e)) }
  | .ok (keys, names) =>
    let done := compile source names keys s.options eval s.stopAfter
    let log := .keysRead keys.keys.length
      :: (if keys.keys.isEmpty then [.noKeys s.keys] else []) ++ done.session.notices.toList
    match done.result with
    | .error failure => { log, result := .error (.ofFailure done.session.names failure) }
    | .ok { table := none, .. } => { log, result := .ok [] }
    | .ok { table := some table, .. } =>
      match s.outputs table with
      | .error e => { log, result := .error (.ofProblem 0 (.emit e)) }
      | .ok files => { log, result := .ok files }

/-- The notices of a log that are shown. -/
def shown (s : Settings) (log : List Notice) : List Notice :=
  log.filter fun n => n.level.rank ≤ s.level.rank

end Settings

/-! ### A run over a tree of files -/

namespace FileTree

/-- Reads a text file, or reports that it cannot be read. -/
def load (t : FileTree) (path : String) : Except Report String :=
  match t.readText path with
  | .ok text => .ok text
  | .error e => .error (.ofFile path e)

/-- Writes files in order, up to the first that cannot be written. -/
def writeAll (t : FileTree) : List OutputFile → FileTree × Option Report
  | [] => (t, none)
  | file :: more =>
    match t.writeText file.path file.text with
    | .error e => (t, some (.ofFile file.path e))
    | .ok t => t.writeAll more

end FileTree

/-- How a run ends: what it leaves. -/
structure Exit where
  files : FileTree
  exitCode : ExitCode := .success
  /-- What the user is shown, if the run failed over its input. -/
  report : Option String := none

/-- A run that ends with a report. -/
def Report.exit (r : Report) (files : FileTree) : Exit :=
  { files, exitCode := r.exitCode, report := some r.text }

/-- Carries out what a command line asks for. -/
def Settings.run (s : Settings) (spawn : Host.Spawn) (files : FileTree) : Exit :=
  match files.load s.input with
  | .error r => r.exit files
  | .ok source =>
    match files.load s.keys with
    | .error r => r.exit files
    | .ok keys =>
      match (s.work source keys (Host.evaluator spawn files s.compiler s.input)).result with
      | .error r => r.exit files
      | .ok outputs =>
        match files.writeAll outputs with
        | (files, none) => { files }
        | (files, some r) => r.exit files

/-- Runs the program with its arguments. -/
def run (spawn : Host.Spawn) (files : FileTree) (args : List String) : Exit :=
  match Settings.parse args with
  | .error e => { files, exitCode := e.exitCode }
  | .ok s => s.run spawn files

end TypeLayout
