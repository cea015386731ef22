import Transclusion.Config
import Transclusion.Decimal.Numeral

namespace Transclusion

/-- Why a command line is not carried out: it asks for help or the version, or it is not one. -/
inductive Usage
  | help
  | version
  | helpOnMissingCommand
  | missingCommand
  | invalidCommand
  | unknownArgument
  | missingArgument
  | invalidValue
  | valueValidation
  | tooManyValues
  | conflict
deriving DecidableEq, Repr

inductive OutputFormat
  | text
  | json
  | tree
deriving DecidableEq, Repr

structure CompileArguments where
  path : Spelling
  output : Option Spelling
  write : Bool
  noDedup : Bool
  headingMode : Option HeadingMode
  extensions : List Text
  maxDepth : Option Nat
  exclude : List Text
  format : OutputFormat

structure ValidateArguments where
  path : Spelling
  format : OutputFormat
  strict : Bool

structure GraphArguments where
  dir : Spelling
  format : OutputFormat
  exclude : List Text

structure RefsArguments where
  file : Spelling
  format : OutputFormat

inductive Command
  | compile (arguments : CompileArguments)
  | validate (arguments : ValidateArguments)
  | graph (arguments : GraphArguments)
  | refs (arguments : RefsArguments)

/-- A command and what was said besides. -/
structure Invocation where
  command : Command
  verbose : Bool
  quiet : Bool
  config : Option Spelling
  noProgress : Bool

/-- The events that are logged, if the command line says which. -/
def Invocation.logLevel? (i : Invocation) : Option String :=
  if i.verbose then some "debug" else if i.quiet then some "error" else none

/-- Only asking for help or the version is no mistake. -/
def Usage.exitCode : Usage → Nat
  | help => 0
  | version => 0
  | _ => 2

namespace CommandLine

/-- What an argument sets: the one that needs no name, or one of the options. -/
inductive Slot
  | subject
  | verbose
  | quiet
  | config
  | noProgress
  | help
  | version
  | output
  | write
  | noDedup
  | headingMode
  | extension
  | maxDepth
  | exclude
  | format
  | strict
deriving DecidableEq, Repr

/-- What a value may be. -/
inductive ValueKind
  | path
  | any
  | number
  | choice (names : List String)

/-- An option. Without `value` it is a flag. -/
structure Rule where
  slot : Slot
  long : String
  short : Option Char
  value : Option ValueKind
  repeatable : Bool

/-- The options that every command has. -/
def commonRules : List Rule :=
  [⟨.verbose, "verbose", some 'v', none, false⟩, ⟨.quiet, "quiet", some 'q', none, false⟩,
    ⟨.config, "config", some 'c', some .path, false⟩, ⟨.noProgress, "no-progress", none, none, false⟩,
    ⟨.help, "help", some 'h', none, false⟩]

def mainRules : List Rule := commonRules ++ [⟨.version, "version", some 'V', none, false⟩]

def excludeRule : Rule := ⟨.exclude, "exclude", none, some .any, true⟩

def formatRule (names : List String) : Rule := ⟨.format, "format", none, some (.choice names), false⟩

def compileRules : List Rule :=
  commonRules ++
  [⟨.output, "output", some 'o', some .path, false⟩, ⟨.write, "write", none, none, false⟩,
    ⟨.noDedup, "no-dedup", none, none, false⟩,
    ⟨.headingMode, "heading-mode", none, some (.choice ["normalize", "additive"]), false⟩,
    ⟨.extension, "ext", none, some .any, true⟩,
    ⟨.maxDepth, "max-depth", none, some .number, false⟩, excludeRule,
    formatRule ["text", "json"]]

def validateRules : List Rule :=
  commonRules ++ [formatRule ["text", "json"], ⟨.strict, "strict", none, none, false⟩]

def graphRules : List Rule := commonRules ++ [formatRule ["text", "json", "tree"], excludeRule]

def refsRules : List Rule := commonRules ++ [formatRule ["text", "json"]]

def commands : List (String × List Rule) :=
  [("compile", compileRules), ("validate", validateRules), ("graph", graphRules), ("refs", refsRules)]

/-- Pairs of options of which only one may be given. -/
def exclusive : List (Slot × Slot) := [(.verbose, .quiet), (.write, .output)]

/-- What was read so far: the slots that are settled, in order, and the one that is not checked yet,
perhaps still without its value. -/
structure Reading where
  settled : List (Slot × Text)
  pending : Option (Slot × ValueKind × Bool × Option Text)

namespace Reading

def empty : Reading := ⟨[], none⟩

def has (r : Reading) (slot : Slot) : Bool := r.settled.any (·.1 = slot)

def value? (r : Reading) (slot : Slot) : Option Text := r.settled.lookup slot

def values (r : Reading) (slot : Slot) : List Text := (r.settled.filter (·.1 = slot)).map (·.2)

/-- An unsigned number of 64 bits, perhaps with a plus. -/
def number? (t : Text) : Option Nat := do
  let digits := match t with
    | '+' :: rest => rest
    | _ => t
  let n ← Numeral.natural? 10 digits
  guard (n < Nat.pow 2 64)
  return n

def check (kind : ValueKind) (t : Text) : Except Usage Unit :=
  match kind with
  | .any => .ok ()
  | .path => if t.isEmpty then .error .invalidValue else .ok ()
  | .number => if (number? t).isSome then .ok () else .error .valueValidation
  | .choice names => if names.contains (String.ofList t) then .ok () else .error .invalidValue

def settle (r : Reading) (slot : Slot) (repeatable : Bool) (t : Text) : Except Usage Reading :=
  if !repeatable && r.has slot then .error .conflict else .ok { r with settled := r.settled ++ [(slot, t)] }

/-- Checks and settles what is pending. -/
def resolve (r : Reading) : Except Usage Reading :=
  match r.pending with
  | none => .ok r
  | some (_, _, _, none) => .error .invalidValue
  | some (slot, kind, repeatable, some t) => do
    let r ← settle { r with pending := none } slot repeatable t
    check kind t
    return r

/-- Takes an option, with the value attached to it if there is one. -/
def take (r : Reading) (rule : Rule) (attached : Option Text) : Except Usage Reading := do
  let r ← r.resolve
  match rule.value, rule.slot with
  | none, .help => throw .help
  | none, .version => throw .version
  | none, slot => settle r slot rule.repeatable []
  | some kind, slot =>
    let r := { r with pending := some (slot, kind, rule.repeatable, attached) }
    if attached.isSome then r.resolve else return r

/-- The letters behind a single dash: flags, the last of which may be an option with a value. -/
def takeShort (rules : List Rule) (r : Reading) : Text → Except Usage Reading
  | [] => .ok r
  | c :: rest =>
    match rules.find? (·.short = some c) with
    | none => .error .unknownArgument
    | some rule =>
      if rule.value.isNone then do takeShort rules (← r.take rule none) rest
      else match rest with
        | [] => r.take rule none
        | '=' :: value => r.take rule (some value)
        | value => r.take rule (some value)

/-- What follows two dashes. -/
def takeLong (rules : List Rule) (r : Reading) (t : Text) : Except Usage Reading :=
  let name := t.takeWhile (· ≠ '=')
  let attached := if name.length < t.length then some (t.drop (name.length + 1)) else none
  match rules.find? fun rule => rule.long.toList = name with
  | none => .error .unknownArgument
  | some rule =>
    if rule.value.isNone && attached.isSome then .error .tooManyValues else r.take rule attached

/-- An option waits for its value. -/
def waits (r : Reading) : Bool :=
  match r.pending with
  | some (_, _, _, none) => true
  | _ => false

/-- An argument that is no option and no value. -/
def takeSubject (r : Reading) (t : Text) : Except Usage Reading := do
  let taken := r.has .subject || match r.pending with
    | some (.subject, _) => true
    | _ => false
  if taken then throw .unknownArgument
  return { (← r.resolve) with pending := some (.subject, .path, false, some t) }

/-- Reads the arguments of a command. Behind `--` none is an option. -/
def readCommand (rules : List Rule) (onlySubjects : Bool) (r : Reading) : List Text → Except Usage Reading
  | [] => r.resolve
  | t :: rest => do
    if onlySubjects then readCommand rules true (← r.takeSubject t) rest
    else match t with
      | ['-', '-'] => readCommand rules true r rest
      | '-' :: '-' :: name => readCommand rules false (← r.takeLong rules name) rest
      | '-' :: c :: more => readCommand rules false (← r.takeShort rules (c :: more)) rest
      | _ =>
        match r.pending with
        | some (slot, kind, repeatable, none) =>
          readCommand rules false { r with pending := some (slot, kind, repeatable, some t) } rest
        | _ => readCommand rules false (← r.takeSubject t) rest

/-- Reads up to the name of a command, and gives the command's rules and arguments. -/
def readMain (r : Reading) : List Text → Except Usage (Reading × Option (String × List Rule × List Text))
  | [] => return (← r.resolve, none)
  | t :: rest => do
    let name := String.ofList t
    match r.waits, commands.lookup name with
    | false, some rules => return (r, some (name, rules, rest))
    | _, _ =>
      if !r.waits && name = "help" then throw (help rest)
      match t with
      | ['-', '-'] =>
        match rest with
        | [] => return (← r.resolve, none)
        | next :: _ =>
          let isName := next = "help".toList || (commands.lookup (String.ofList next)).isSome
          throw (if isName then .unknownArgument else .invalidCommand)
      | '-' :: '-' :: name => readMain (← r.takeLong mainRules name) rest
      | '-' :: c :: more => readMain (← r.takeShort mainRules (c :: more)) rest
      | _ =>
        match r.pending with
        | some (slot, kind, repeatable, none) =>
          readMain { r with pending := some (slot, kind, repeatable, some t) } rest
        | _ => throw .invalidCommand
where
  /-- Help is there for the program and for each command; `help` has help on them in turn. -/
  help : List Text → Usage
    | [] => .help
    | t :: rest =>
      if t = "help".toList then help rest
      else if (commands.lookup (String.ofList t)).isSome && rest.isEmpty then .help
      else .invalidCommand

def checkExclusive (r : Reading) : Except Usage Unit :=
  if exclusive.any fun (a, b) => r.has a && r.has b then .error .conflict else .ok ()

def format (r : Reading) : OutputFormat :=
  match (r.value? .format).map String.ofList with
  | some "json" => .json
  | some "tree" => .tree
  | _ => .text

def spelling? (r : Reading) (slot : Slot) : Option Spelling := (r.value? slot).map (⟨·⟩)

/-- The command that was asked for. Every command has a subject. -/
def command (name : String) (r : Reading) : Except Usage Command :=
  match r.spelling? .subject with
  | none => .error .missingArgument
  | some subject => .ok <|
    match name with
    | "compile" => .compile {
        path := subject
        output := r.spelling? .output
        write := r.has .write
        noDedup := r.has .noDedup
        headingMode := (r.value? .headingMode).bind HeadingMode.ofName?
        extensions := r.values .extension
        maxDepth := (r.value? .maxDepth).bind number?
        exclude := r.values .exclude
        format := r.format }
    | "validate" => .validate ⟨subject, r.format, r.has .strict⟩
    | "graph" => .graph ⟨subject, r.format, r.values .exclude⟩
    | _ => .refs ⟨subject, r.format⟩

end Reading

/-- Reads a whole command line. What the command's own arguments say goes before what stands in front
of the command, and so do the complaints about them. -/
def parse (arguments : List Text) : Except Usage Invocation := do
  let (front, chosen) ← Reading.readMain .empty arguments
  match chosen with
  | none => throw (if front.settled.isEmpty then .helpOnMissingCommand else .missingCommand)
  | some (name, rules, rest) =>
    let own ← Reading.readCommand rules false .empty rest
    own.checkExclusive
    let command ← own.command name
    let front ← front.resolve
    front.checkExclusive
    return {
      command := command
      verbose := front.has .verbose || own.has .verbose
      quiet := front.has .quiet || own.has .quiet
      config := own.spelling? .config <|> front.spelling? .config
      noProgress := front.has .noProgress || own.has .noProgress }

end CommandLine

end Transclusion
