import TypeLayout.Declaration.Listening
import TypeLayout.Declaration.Meaning
import TypeLayout.Diagnostic
import TypeLayout.Inlining
import TypeLayout.Layout.Offsets
import TypeLayout.Layout.Resolution
import TypeLayout.Table.Emission

/-!
# Compiling declarations into a descriptor table

The passes in order: read the declarations into the type graph, resolve the requested
names, merge structs into their only users, assign offsets, write the table. A
compilation can stop after any of four stages. Each pass takes the session that the
pass before it left.
-/

namespace TypeLayout

/-- What a compilation is asked to do, apart from its input. -/
structure Options where
  target : Target := .standard
  /-- What stands in front of every generated C name. -/
  lead : String := ""
  /-- Merge structs that only one field uses. -/
  optimize : Bool := true
  /-- How many lines are shown with an error in the source. -/
  contextLines : Nat := defaultContextLines
deriving DecidableEq, Repr

/-- The last pass of a compilation. -/
inductive Stage where
  | lexer
  | parser
  | layout
  | emit
deriving DecidableEq, Inhabited, Repr

namespace Stage

/-- Reads the name of a stage. -/
def parse? : String → Option Stage
  | "lexer" => some lexer
  | "parser" => some parser
  | "layout" => some layout
  | "emit" => some emit
  | _ => none

/-- The name of a stage in dumps. -/
def name : Stage → String
  | lexer => "Lexer"
  | parser => "Parser"
  | layout => "Layout"
  | emit => "Emit"

end Stage

/-! ### Failures -/

namespace Session

/-- Reports an error in the declarations. The name in it is a word of the source, and is carried
over to the names of the session. A word that cannot be spelled stays as it is, and then leads
nowhere. -/
def reportGrammar (s : Session) (words : Names) (line : Nat) (e : ParseError NameId)
    (seen : Cursor) : Session × Failure :=
  if e.name?.all fun id => (words.get? id).isSome then
    let (e, names) := (e.map words.spell).intern s.names
    ({ s with names }, ⟨⟨line, .parser e⟩, seen.context⟩)
  else
    (s, ⟨⟨line, .parser e⟩, seen.context⟩)

/-- Reports a refused clause, with the word of the clause. A name that is in no clause has been
made up, and is interned then. -/
def reportStop (s : Session) (words : Names) (stop : Stop) (word : Option NameId) :
    Session × Failure :=
  match stop.refusal with
  | ⟨line, .grammar e⟩ =>
    match word with
    | some id => s.reportGrammar words line (e.map fun _ => id) stop.seen
    | none => s.reportGrammar (e.intern words).2 line (e.intern words).1 stop.seen
  | ⟨line, .host e⟩ => (s, ⟨⟨line, .toolchain e⟩, stop.seen.context⟩)

/-- Reports declarations that could not be read. -/
def reportRead (s : Session) (words : Names) (fault : Fault NameId) : Session × Failure :=
  match fault.error with
  | .lexical e => (s, ⟨⟨fault.line, .lexer e⟩, fault.seen.context⟩)
  | .grammar e => s.reportGrammar words fault.line e fault.seen

/-! ### Passes -/

/-- Acts on clauses in order until one is refused, and then gives its word, too. -/
def actTold (eval : Evaluator) (s : Session) (scope : Scope) :
    List Told → Session × Except (Stop × Option NameId) Scope
  | [] => (s, .ok scope)
  | x :: xs =>
    match s.act eval scope x.heard.clause with
    | (s, .error refusal) => (s, .error (⟨refusal, x.heard.seen⟩, x.word))
    | (s, .ok scope) => s.actTold eval scope xs

/-- Reads declarations into a session, with some way to join the tokens of a dimension whose
place is not known. -/
def readSourceJoining (join : Joining) (eval : Evaluator) (s : Session) (source : String)
    (contextLines : Nat) : Session × Except Failure Unit :=
  let start := Cursor.start source.toList contextLines
  let lexed := lex start
  let heard := (TokenStream.ofLexed lexed start).readFrom join .declaration []
  match s.actTold eval {} heard.told with
  | (s, .error (stop, word)) =>
    let (s, failure) := s.reportStop lexed.words stop word
    (s, .error failure)
  | (s, .ok _) =>
    match heard.outcome with
    | .error fault =>
      let (s, failure) := s.reportRead lexed.words fault
      (s, .error failure)
    | .ok count => (s.note (.declarations count s.graph.size), .ok ())

/-- Reads declarations into a session. -/
def readSource (eval : Evaluator) (s : Session) (source : String) (contextLines : Nat) :
    Session × Except Failure Unit :=
  s.readSourceJoining joinSpellings eval source contextLines

/-- Merges structs into their only users. -/
def inlineStructs (s : Session) : Session × InliningStats :=
  let done := s.graph.inlineStructs
  ({ s with graph := done.graph }.noteAll done.notices.toList, done.stats)

end Session

/-! ### The compilation -/

/-- What a successful compilation leaves: the session, unless it stopped before there
was a type graph, and the table, if it came so far. -/
structure Compilation where
  session : Option Session := none
  table : Option DescriptorTable := none

/-- A compilation that has ended: the last session, which spells the names of a
diagnostic and holds the log, and the result. -/
structure Run where
  session : Session
  result : Except Failure Compilation

/-- Resolves names, merges structs, and assigns offsets. -/
def Session.layOut (s : Session) (optimize : Bool) : Session × Except Failure Unit :=
  match s.resolveKeys with
  | (s, .error e) => (s, .error ⟨⟨0, .layout e⟩, []⟩)
  | (s, .ok ()) =>
    let s := if optimize then s.inlineStructs.1 else s
    match s.assignOffsets with
    | (s, .error (line, e)) => (s, .error ⟨⟨line, .layout e⟩, []⟩)
    | (s, .ok ()) => (s, .ok ())

/-- Checks that a source can be divided into tokens. -/
def Session.scanOnly (s : Session) (source : String) (contextLines : Nat) : Run :=
  let scanned := scan (Cursor.start source.toList contextLines)
  match scanned.ending with
  | .error f => ⟨s, .error ⟨⟨f.line, .lexer f.error⟩, f.after.context⟩⟩
  | .ok _ => ⟨s.note (.lexed scanned.tokens.length), .ok {}⟩

/-- Compiles a source up to and including a stage. -/
def compile (source : String) (names : Names) (keys : KeyList) (options : Options)
    (eval : Evaluator) (stopAfter : Stage) : Run :=
  let s := Session.start names keys options.target
  if stopAfter = .lexer then s.scanOnly source options.contextLines
  else
    match s.readSource eval source options.contextLines with
    | (s, .error failure) => ⟨s, .error failure⟩
    | (s, .ok ()) =>
      let s := s.note (.parsed s.graph.size)
      if stopAfter = .parser then ⟨s, .ok { session := some s }⟩
      else
        match s.layOut options.optimize with
        | (s, .error failure) => ⟨s, .error failure⟩
        | (s, .ok ()) =>
          if stopAfter = .layout then ⟨s, .ok { session := some s }⟩
          else
            match s.emitTable with
            | (s, .error (line, e)) => ⟨s, .error ⟨⟨line, .emit e⟩, []⟩⟩
            | (s, .ok table) => ⟨s, .ok { session := some s, table := some table }⟩

end TypeLayout
