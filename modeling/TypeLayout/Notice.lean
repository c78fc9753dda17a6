import TypeLayout.Element

/-!
# Notices

What a compilation has to say about its work, apart from errors: an entry of the
log for each thing done, with the level at which it is logged.
-/

namespace TypeLayout

/-- How much a notice matters. -/
inductive Level where
  | error
  | warn
  | info
  | debug
  | trace
deriving DecidableEq, Inhabited, Repr

/-- The name of a level in a log. -/
def Level.name : Level → String
  | error => "ERROR"
  | warn => "WARN"
  | info => "INFO"
  | debug => "DEBUG"
  | trace => "TRACE"

/-- How far down the list of levels a level stands. -/
def Level.rank : Level → Nat
  | error => 0
  | warn => 1
  | info => 2
  | debug => 3
  | trace => 4

/-- One entry of the log. -/
inductive Notice where
  /-- A file was read. -/
  | fileRead (path : String) (bytes : Nat)
  /-- The key list names this many types. -/
  | keysRead (count : Nat)
  /-- The key list names no types. -/
  | noKeys (path : String)
  /-- The source consists of this many tokens. -/
  | lexed (tokens : Nat)
  /-- A body was closed. -/
  | defined (line : Nat) (what : String) (node : NodeId) (length align parts : Nat)
  /-- A type without a name and without a use. -/
  | declaresNothing (line : Nat) (what : String)
  /-- A typedef name for an existing node. -/
  | namesNode (line : Nat) (name : String) (node : NodeId)
  /-- A typedef name for a derived type. -/
  | derives (line : Nat) (name : String) (item : Item)
  /-- A dimension is handed to the evaluator. -/
  | needsHost (line : Nat) (text : String)
  /-- All declarations of a source were read. -/
  | declarations (count nodes : Nat)
  /-- The type graph of a source is complete. -/
  | parsed (nodes : Nat)
  /-- The requested names were found. -/
  | resolved (keys : Nat)
  /-- A struct stays apart because merging it would move a field. -/
  | wouldMove (target container : NodeId)
  /-- A struct is merged into the one that holds it. -/
  | inlined (target container : NodeId) (index : Nat)
  /-- A struct becomes the union that is its only field. -/
  | adopted (container union : NodeId)
  /-- How often the optimizer did each of the three. -/
  | optimized (structs unions kept : Nat)
  /-- Offsets were assigned. -/
  | laidOut (cells jumps : Nat)
  /-- The table was written. -/
  | emitted (cells constants jumps : Nat)
  /-- A file was written. -/
  | fileWritten (path : String)
deriving DecidableEq, Repr

namespace Notice

/-- The level at which a notice is logged. -/
def level : Notice → Level
  | fileRead .. | lexed _ | parsed _ | optimized .. | fileWritten _ => .info
  | noKeys _ | declaresNothing .. => .warn
  | _ => .debug

/-- The text of a notice. -/
def message : Notice → String
  | fileRead path bytes => s!"Read {path} ({bytes} bytes)"
  | keysRead count => s!"Read {count} key names"
  | noKeys path => s!"{path} names no types, the tables will be empty"
  | lexed tokens => s!"Lexed {tokens} tokens"
  | defined line what node length align parts =>
    s!"L{line}: defined {what} as {node.label}: {length} bytes, align {align}, {parts} items"
  | declaresNothing line what => s!"L{line}: anonymous {what} declares nothing"
  | namesNode line name node => s!"L{line}: typedef {name} names {node.label}"
  | derives line name item => s!"L{line}: typedef {name} is {item.count}x{item.kind.label}"
  | needsHost line text => s!"L{line}: dimension `{text}` needs the host compiler"
  | declarations count nodes => s!"Parsed {count} declarations into {nodes} type nodes"
  | parsed nodes => s!"Parsed {nodes} type nodes"
  | resolved keys => s!"Resolved {keys} keys"
  | wouldMove target container =>
    s!"Not inlining {target.label} into {container.label}: fields would move"
  | inlined target container index =>
    s!"Inlining {target.label} into {container.label} at item {index}"
  | adopted container union => s!"{container.label} adopts the members of {union.label}"
  | optimized structs unions kept =>
    s!"Optimizer inlined {structs} structs, adopted {unions} unions, "
      ++ s!"kept {kept} splices that would move fields"
  | laidOut cells jumps => s!"Descriptor table holds {cells} cells and {jumps} jump slots"
  | emitted cells constants jumps =>
    s!"Emitted {cells} cells, {constants} constants, {jumps} jump slots"
  | fileWritten path => s!"Wrote {path}"

/-- A notice as a line of the log. -/
def logLine (n : Notice) : String := n.level.name ++ " " ++ n.message

/-- The text that a notice says was handed to the evaluator. -/
def asked? : Notice → Option String
  | needsHost _ text => some text
  | _ => none

end Notice

end TypeLayout
