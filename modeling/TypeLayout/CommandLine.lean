import TypeLayout.Compile

/-!
# The command line

The arguments of the program are options, which take a value, and flags, which do not.
An option is written `--input v`, `--input=v`, `-i v`, `-iv` or `-i=v`; short flags can
be written together, and an option can end such a cluster. Reading happens in two steps:
`readUses` lists the arguments used, with their values, and `Settings.ofUses` checks
that list against what every argument allows.
-/

namespace TypeLayout

/-- What can be given on the command line. -/
inductive Arg where
  | input
  | keys
  | compiler
  | table
  | header
  | target
  | lead
  | verbose
  | logLevel
  | noOptimize
  | emitJson
  | stopAfter
  | help
  | version
deriving DecidableEq, Inhabited, Repr

namespace Arg

/-- All arguments, in the order in which they are described and checked. -/
def all : List Arg :=
  [input, keys, compiler, table, header, target, lead, verbose, logLevel, noOptimize,
    emitJson, stopAfter, help, version]

/-- The spelling after two dashes. -/
def long : Arg → String
  | input => "input"
  | keys => "keys"
  | compiler => "cc"
  | table => "table"
  | header => "header"
  | target => "target"
  | lead => "prefix"
  | verbose => "verbose"
  | logLevel => "log-level"
  | noOptimize => "no-optimize"
  | emitJson => "emit-json"
  | stopAfter => "stop-after"
  | help => "help"
  | version => "version"

/-- The letter after one dash. -/
def short? : Arg → Option Char
  | input => some 'i'
  | keys => some 'k'
  | compiler => some 'c'
  | table => some 't'
  | header => some 'H'
  | lead => some 'p'
  | verbose => some 'v'
  | help => some 'h'
  | version => some 'V'
  | target | logLevel | noOptimize | emitJson | stopAfter => none

/-- Whether an argument is an option, which takes a value. -/
def takesValue : Arg → Bool
  | verbose | noOptimize | help | version => false
  | _ => true

/-- Whether an argument has to be given. -/
def required : Arg → Bool
  | input | keys | compiler => true
  | _ => false

/-- Whether an argument can be given more than once. -/
def repeatable : Arg → Bool
  | verbose => true
  | _ => false

/-- The value of an option that is not given one. -/
def standard? : Arg → Option String
  | table => some "desc_table"
  | header => some "desc_offsets"
  | target => some "64"
  | _ => none

/-- The values an option can have, if not every text is one. -/
def allowed? : Arg → Option (List String)
  | target => some ["32", "64"]
  | logLevel => some ["error", "warn", "info", "debug", "trace"]
  | stopAfter => some ["lexer", "parser", "layout"]
  | _ => none

/-- The argument with a long spelling. -/
def ofLong? (s : String) : Option Arg := all.find? (·.long == s)

/-- The argument with a short spelling. -/
def ofShort? (c : Char) : Option Arg := all.find? (·.short? == some c)

end Arg

/-- Why a command line starts no compilation. -/
inductive UsageError where
  /-- The user asked for the help text. -/
  | helpDisplayed
  /-- The user asked for the version. -/
  | versionDisplayed
  | unknownArgument
  | missingRequired
  /-- An option without a value. -/
  | emptyValue
  | invalidValue
  | repeated
deriving DecidableEq, Inhabited, Repr

/-- What the user is shown. -/
def UsageError.message : UsageError → String
  | helpDisplayed => "usage: typedescc -i <input> -k <keys> -c <cc> [options]\noptions:"
      ++ String.join (Arg.all.map fun arg => "\n  --" ++ arg.long)
  | versionDisplayed => "Type Descriptor Compiler 0.3.0"
  | unknownArgument => "error: Found an argument that was not expected"
  | missingRequired => "error: A required argument was not provided"
  | emptyValue => "error: An argument requires a value but none was supplied"
  | invalidValue => "error: A value is not one of those the argument can have"
  | repeated => "error: An argument was provided more than once"

/-- Help and version end the program well. -/
def UsageError.exitCode : UsageError → ExitCode
  | helpDisplayed | versionDisplayed => .success
  | _ => .usage

/-- An argument as it was given. -/
structure Use where
  arg : Arg
  value : Option String := none
deriving DecidableEq, Inhabited, Repr

/-! ### Reading the arguments -/

/-- Whether a text that stands where a value could stand is an argument instead: it
starts with a dash and is more than that dash. -/
def startsArg : List Char → Bool
  | ['-'] => false
  | '-' :: _ => true
  | _ => false

/-- A value without the signs that divide it from its option. -/
def afterEquals (cs : List Char) : String := String.ofList (cs.dropWhile (· == '='))

/-- Takes note of a flag; the flags for help and version end the reading. -/
def useFlag (given : List Use) (arg : Arg) : Except UsageError (List Use) :=
  match arg with
  | .help => .error .helpDisplayed
  | .version => .error .versionDisplayed
  | _ => .ok (⟨arg, none⟩ :: given)

/-- Reads an argument after its two dashes, or more. A value given to a flag is
dropped. -/
def readLong (given : List Use) (body : List Char) : Except UsageError (List Use) :=
  let name := String.ofList (body.takeWhile (· != '='))
  match Arg.ofLong? name with
  | none => .error .unknownArgument
  | some arg =>
    if arg.takesValue then
      match body.dropWhile (· != '=') with
      | [] => .ok (⟨arg, none⟩ :: given)
      | value => .ok (⟨arg, some (afterEquals value)⟩ :: given)
    else
      useFlag given arg

/-- Reads the letters of a cluster. The first option among them takes what follows it as
its value. -/
def readCluster (given : List Use) : List Char → Except UsageError (List Use)
  | [] => .ok given
  | c :: cs =>
    match Arg.ofShort? c with
    | none => .error .unknownArgument
    | some arg =>
      if arg.takesValue then
        .ok (⟨arg, if cs.isEmpty then none else some (afterEquals cs)⟩ :: given)
      else
        match useFlag given arg with
        | .error e => .error e
        | .ok given => readCluster given cs

/-- The option that waits for its value: the latest one, if it has none yet. -/
def waiting? : List Use → Option Arg
  | ⟨arg, none⟩ :: _ => if arg.takesValue then some arg else none
  | _ => none

/-- Reads one argument after those already given, latest first. -/
def readArg (given : List Use) (text : String) : Except UsageError (List Use) :=
  let cs := text.toList
  if startsArg cs then
    match cs with
    | '-' :: '-' :: _ => readLong given (cs.dropWhile (· == '-'))
    | _ => readCluster given (cs.drop 1)
  else
    match waiting? given with
    | some arg => .ok (⟨arg, some text⟩ :: given.drop 1)
    | none => .error .unknownArgument

/-- Reads arguments after those already given, latest first. Two dashes alone end the
arguments, and nothing can follow them. -/
def readUses (given : List Use) : List String → Except UsageError (List Use)
  | [] => .ok given
  | text :: more =>
    if text = "--" then
      if more.isEmpty then .ok given else .error .unknownArgument
    else
      match readArg given text with
      | .error e => .error e
      | .ok given => readUses given more

/-! ### Settings -/

/-- Reads the name of a level. -/
def Level.parse? : String → Option Level
  | "error" => some error
  | "warn" => some warn
  | "info" => some info
  | "debug" => some debug
  | "trace" => some trace
  | _ => none

/-- The level for the number of times that more detail was asked for. -/
def Level.ofVerbosity : Nat → Level
  | 0 => warn
  | 1 => info
  | 2 => debug
  | _ => trace

/-- What a command line asks for. -/
structure Settings where
  /-- The file with the declarations. -/
  input : String
  /-- The file that lists the requested names. -/
  keys : String
  /-- The command that runs the host compiler. -/
  compiler : String
  /-- The path of the C source, less its ending. -/
  table : String
  /-- The path of the C header, less its ending. -/
  header : String
  /-- Where the table is dumped as JSON. -/
  emitJson : Option String
  target : Target
  stopAfter : Stage
  /-- What stands in front of every generated C name. -/
  lead : String
  level : Level
  optimize : Bool
deriving DecidableEq, Repr

namespace Settings

/-- The values of an option: all that were given to it, else its standard value. -/
def values (uses : List Use) (arg : Arg) : List String :=
  let given := (uses.filter (·.arg = arg)).filterMap (·.value)
  if given.isEmpty then arg.standard?.toList else given

/-- The value of an option that counts: the first one. -/
def value? (uses : List Use) (arg : Arg) : Option String := (values uses arg).head?

/-- How often an argument was given. -/
def count (uses : List Use) (arg : Arg) : Nat := uses.countP (·.arg = arg)

/-- What is wrong with the use of one argument. Every value has to be an allowed one, also
those that do not count. -/
def fault? (uses : List Use) (arg : Arg) : Option UsageError :=
  let values := values uses arg
  if arg.takesValue && 0 < count uses arg && values.isEmpty then some .emptyValue
  else if values.any fun v => arg.allowed?.any fun allowed => !allowed.contains v then
    some .invalidValue
  else if 1 < count uses arg && !arg.repeatable then some .repeated
  else none

/-- Checks the arguments given, first one first: the required ones are there, an option
at the end has its value, and each use is allowed. -/
def check (uses : List Use) : Except UsageError Unit :=
  if Arg.all.any fun arg => arg.required && count uses arg == 0 then .error .missingRequired
  else if (waiting? uses.reverse).any fun arg => (value? uses arg).isNone then
    .error .emptyValue
  else
    match Arg.all.findSome? (fault? uses) with
    | some e => .error e
    | none => .ok ()

/-- The settings for checked arguments. -/
def ofUses (uses : List Use) : Settings :=
  let value := value? uses
  let text arg := (value arg).getD ""
  { input := text .input
    keys := text .keys
    compiler := text .compiler
    table := text .table
    header := text .header
    emitJson := value .emitJson
    target := ((value .target).bind Target.parse?).getD .standard
    stopAfter := ((value .stopAfter).bind Stage.parse?).getD .emit
    lead := text .lead
    level := ((value .logLevel).bind Level.parse?).getD (.ofVerbosity (count uses .verbose))
    optimize := count uses .noOptimize == 0 }

/-- Reads a command line, less the name of the program. -/
def parse (args : List String) : Except UsageError Settings :=
  match readUses [] args with
  | .error e => .error e
  | .ok given =>
    let uses := given.reverse
    match check uses with
    | .error e => .error e
    | .ok () => .ok (ofUses uses)

/-- What the compilation is asked to do. -/
def options (s : Settings) : Options where
  target := s.target
  lead := s.lead
  optimize := s.optimize

/-- The path of the C source. -/
def tablePath (s : Settings) : String := s.table ++ ".c"

/-- The path of the C header. -/
def headerPath (s : Settings) : String := s.header ++ ".h"

/-- The file name of the C header, by which the C source includes it. -/
def headerFile (s : Settings) : String :=
  String.ofList (s.headerPath.toList.reverse.takeWhile (· != '/')).reverse

end Settings

end TypeLayout
