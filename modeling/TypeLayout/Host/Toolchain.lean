import TypeLayout.Evaluator
import TypeLayout.Files
import TypeLayout.Token.Number

/-!
# Evaluation by the host's compiler

A dimension is evaluated in steps: a program that prints its value is written into a
folder of its own, compiled, and run with the path of a file for the result, which is
then read back. Each step has its error.

The programs of the host are not modelled. Starting one of them is a parameter of the
evaluator, of type `Spawn`: what holds of a run holds for all that a host can do.
-/

namespace TypeLayout.Host

/-! ### Programs of the host -/

/-- A program that is to be run, by its name or path. -/
structure Call where
  program : String
  args : List String := []
deriving DecidableEq, Inhabited, Repr

/-- What a program leaves when it ends. What it prints, other than errors, is not read. -/
structure Outcome where
  files : FileTree
  /-- Zero if all went well. -/
  status : Nat := 0
  /-- What it wrote to its error channel. -/
  errors : List UInt8 := []
deriving DecidableEq, Inhabited, Repr

/-- Starts a program. -/
abbrev Spawn := FileTree → Call → Except FileError Outcome

/-- Starts programs where there are none. -/
def noPrograms : Spawn := fun _ _ => .error .notFound

/-! ### The evaluator -/

/-- The folder in which the program is compiled. -/
def workFolder : Location := ["tmp", "dimension"]

/-- The path of a file in that folder. -/
def workPath (name : String) : String := "/" ++ String.intercalate "/" (workFolder ++ [name])

/-- A C program that writes the value of an expression, which can refer to the types of a
source file, to the file named by its argument. -/
def dimensionProgram (source expr : String) : String :=
  "#include <stdio.h>\n"
    ++ "#include \"" ++ source ++ "\"\n"
    ++ "int main(int argc, char **argv) \x7b\n"
    ++ "    FILE *out;\n"
    ++ "    if (argc < 2 || (out = fopen(argv[1], \"w\")) == 0) return 1;\n"
    ++ "    fprintf(out, \"%lld\\n\", (long long)(" ++ expr ++ "));\n"
    ++ "    return fclose(out) != 0;\n"
    ++ "\x7d\n"

/-- The number that a row of decimal digits spells. -/
def decimal? (cs : List Char) : Option Nat :=
  if !cs.isEmpty && cs.all isDigit then some (digitsValue 10 cs) else none

/-- Reads a signed number of 64 bits: digits, with a sign in front of them or not. -/
def readInt64? (cs : List Char) : Option Int :=
  let negative := cs.head? = some '-'
  let digits := if negative || cs.head? = some '+' then cs.drop 1 else cs
  (decimal? digits).bind fun n =>
    if negative then if n ≤ 0x8000000000000000 then some (-(n : Int)) else none
    else if n < 0x8000000000000000 then some (n : Int)
    else none

/-- Reads the result that a program has written. -/
def readResult (files : FileTree) : Except HostError Int :=
  match files.readText (workPath "dimension.out") with
  | .error e => .error (.readResult e.message)
  | .ok text =>
    let result := Text.trim text.toList
    match readInt64? result with
    | some n => .ok n
    | none => .error (.invalidOutput (String.ofList result))

/-- Evaluates dimensions with the compiler that a command names, for the types of a
source file. -/
def evaluator (spawn : Spawn) (files : FileTree) (command source : String) : Evaluator :=
  fun expr =>
    match (Text.words command.toList).map String.ofList with
    | [] => .error .noCompiler
    | program :: args =>
      let files := (files.addFolder workFolder).put (workFolder ++ ["dimension.c"])
        { content := Text.encodeUtf8 (dimensionProgram (files.absolute source) expr) }
      let paths := ["-o", workPath "dimension", workPath "dimension.c"]
      match spawn files { program, args := args ++ paths } with
      | .error e => .error (.spawn program e.message)
      | .ok compiled =>
        if compiled.status ≠ 0 then
          .error (.compileFailed expr (Text.decodeUtf8Lossy compiled.errors))
        else
          match spawn compiled.files
              { program := workPath "dimension", args := [workPath "dimension.out"] } with
          | .error e => .error (.spawn "dimension" e.message)
          | .ok ran =>
            if ran.status ≠ 0 then .error (.runFailed expr) else readResult ran.files

end TypeLayout.Host
