import TypeLayout.Declaration.Error
import TypeLayout.Evaluator
import TypeLayout.Key
import TypeLayout.Layout.Error
import TypeLayout.Table
import TypeLayout.Token.Scanner

/-!
# Diagnostics

An error that ends a compilation, with the pass that found it, its line, its text and
the exit code it is reported with. An error in the source is shown with the lines
that lead up to it.
-/

namespace TypeLayout

/-- The exit codes of the program. -/
inductive ExitCode where
  | success
  | io
  | lexical
  | grammar
  | semantic
  | toolchain
  | internal
  | usage
deriving DecidableEq, Inhabited, Repr

/-- The number of an exit code. -/
def ExitCode.toNat : ExitCode → Nat
  | success => 0
  | io => 1
  | lexical => 2
  | grammar => 3
  | semantic => 4
  | toolchain => 5
  | internal => 6
  | usage => 7

/-- What can end a compilation. -/
inductive Problem where
  /-- A file could not be read or written. -/
  | io (path reason : String)
  | keys (e : KeyError)
  | lexer (e : LexError)
  | parser (e : ParseError NameId)
  | toolchain (e : HostError)
  | layout (e : LayoutError)
  | emit (e : EmitError)
deriving DecidableEq, Repr

namespace Problem

/-- The text of a problem, if its names can be spelled. -/
def message? (names : Names) : Problem → Option String
  | io path reason => some (path ++ ": " ++ reason)
  | keys e => some e.message
  | lexer e => some e.message
  | parser e => e.message? names.get?
  | toolchain e => some e.message
  | layout e => some e.message
  | emit e => some e.message

/-- The exit code a problem is reported with. -/
def exitCode : Problem → ExitCode
  | io .. => .io
  | keys (.invalidEntry _) => .grammar
  | keys (.duplicate _) => .semantic
  | lexer _ => .lexical
  | parser e => if e.isSemantic then .semantic else .grammar
  | toolchain _ => .toolchain
  | layout _ => .semantic
  | emit e => if e.isInternal then .internal else .semantic

/-- Whether a problem was found while the source was read, and is shown with it. -/
def showsContext : Problem → Bool
  | lexer _ | parser _ => true
  | _ => false

end Problem

/-- A problem with the line it was found on; line zero stands for no line. -/
structure Diagnostic where
  line : Nat
  problem : Problem
deriving DecidableEq, Repr

namespace Diagnostic

/-- What stands for the text of a diagnostic whose names cannot be spelled. -/
def unspelled : String := "(could not format error: StringId not found)"

/-- The text of a diagnostic: what it is about, its line, and what is wrong. A file has
no lines. -/
def message? (names : Names) (d : Diagnostic) : Option String :=
  (d.problem.message? names).map fun text =>
    let located := if d.line = 0 then text else s!"L{d.line}: {text}"
    match d.problem with
    | .io .. => text
    | .keys _ => "Key list: " ++ located
    | _ => located

/-- The text of a diagnostic for the user. -/
def message (names : Names) (d : Diagnostic) : String := (d.message? names).getD unspelled

end Diagnostic

/-- A failed compilation: the diagnostic and the lines read just before it. -/
structure Failure where
  diagnostic : Diagnostic
  context : List SourceLine := []
deriving DecidableEq, Repr

namespace Failure

/-- A text with blanks in front of it up to a width. -/
def padLeft (width : Nat) (s : String) : String :=
  String.ofList (List.replicate (width - s.length) ' ') ++ s

/-- Numbered lines with the last one marked. -/
def renderContext (lines : List SourceLine) : String :=
  let width := (lines.map fun l => (toString l.number).length).foldl max 0
  let rendered := lines.zipIdx.map fun (l, i) =>
    let mark := if i + 1 = lines.length then ">" else " "
    s!"{mark} {padLeft width (toString l.number)} | {l.text}"
  String.intercalate "\n" rendered

/-- A failure as it is shown to the user. -/
def render (names : Names) (f : Failure) : String :=
  let text := "error: " ++ f.diagnostic.message names
  if f.diagnostic.problem.showsContext && !f.context.isEmpty then
    text ++ "\n" ++ renderContext f.context
  else
    text

end Failure

end TypeLayout
