import TypeLayout.Table
import TypeLayout.Text.Quoted

/-!
# The table as C source

Two texts: a source file that holds the packed cells and the jump table, and a header
that holds one constant for each exported name.
-/

namespace TypeLayout

/-- The C names that the generated files define and use. -/
structure CNames where
  /-- What stands in front of every generated name. -/
  lead : String
  table : String
  jump : String
  convertFn : String
  /-- The file name under which the source includes the header. -/
  headerFile : String
deriving DecidableEq, Repr

namespace CNames

/-- The names for a lead and a header file. -/
def make (lead headerFile : String) : CNames where
  lead
  table := lead ++ "desc_table"
  jump := lead ++ "desc_jump"
  convertFn := lead ++ "convert_fn"
  headerFile

/-- The function that converts a union. -/
def converter (names : CNames) (union : String) : String := names.lead ++ "convert_" ++ union

/-- The name that guards the header against being included twice. -/
def guardName (names : CNames) : String :=
  names.headerFile.map fun c => if c.isAlphanum then c.toUpper else '_'

end CNames

namespace DescriptorTable

/-- The lines of cells that stand from an index on. The name of a node stands in front
of its first cell, as long as the starts are in order. -/
def cellLines : Nat → List (Nat × String) → List (Cell × Nat) → List String
  | _, _, [] => []
  | i, starts, (c, value) :: cells =>
    let line := s!"    0x{Text.hexDigits value}u, /* {c.describe} */\n"
    match starts with
    | (offset, name) :: more =>
      if offset = i then s!"    /* {i}: {name} */\n" :: line :: cellLines (i + 1) more cells
      else line :: cellLines (i + 1) starts cells
    | [] => line :: cellLines (i + 1) [] cells

/-- The C source of the table, unless a cell does not fit. -/
def toC (t : DescriptorTable) (names : CNames) : Except EmitError String :=
  t.packed.map fun packed =>
    let cells := cellLines 0 t.starts (t.cells.zip packed)
    let slots := t.jumpSlots.map fun s => s!"    {names.converter s.union}, /* {s.index} */\n"
    let externs := t.jumpSlots.map fun s => s!"extern int {names.converter s.union}();\n"
    let orZero (lines : List String) : String :=
      if lines.isEmpty then "    0\n" else String.join lines
    "/* Descriptor table generated by typedescc.  Do not edit. */\n"
      ++ s!"#include \"{names.headerFile}\"\n\n"
      ++ s!"const {t.target.cellType} {names.table}[] = \x7b\n"
      ++ orZero cells
      ++ "\x7d;\n\n"
      ++ "#ifdef TYPEDESC_MESSAGING\n"
      ++ String.join externs
      ++ s!"{names.convertFn} {names.jump}[] = \x7b\n"
      ++ orZero slots
      ++ "\x7d;\n#else\n"
      ++ s!"{names.convertFn} {names.jump}[] = \x7b 0 \x7d;\n"
      ++ "#endif\n"

/-- The C header of the table. -/
def toHeader (t : DescriptorTable) (names : CNames) : String :=
  let guardName := names.guardName
  let constants := t.symbols.map fun s =>
    s!"#define {names.lead}{s.name} (TYPEDESC_OFFSET_MARK | {s.offset}u)\n"
  s!"/* Offsets into {names.table} generated by typedescc.  Do not edit. */\n"
    ++ s!"#ifndef {guardName}\n#define {guardName}\n\n"
    ++ s!"#define TYPEDESC_OFFSET_MARK 0x{Text.hexDigits offsetMark}u\n\n"
    ++ String.join constants
    ++ s!"\ntypedef int (*{names.convertFn})();\n\n"
    ++ s!"extern const {t.target.cellType} {names.table}[];\n"
    ++ s!"extern {names.convertFn} {names.jump}[];\n"
    ++ s!"\n#endif /* {guardName} */\n"

end DescriptorTable

end TypeLayout
