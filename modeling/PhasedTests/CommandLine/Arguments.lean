/-!
# Arguments of the command line

An argument list names one command, with options before and behind its name. Arguments are read one
after another; what has been read is a state, and the first argument that makes no sense, or that
asks for help or for the version, ends the reading. Options may stand without a command, but not
nothing at all.
-/

namespace PhasedTests.CommandLine

/-- The commands. -/
inductive CommandName where
  | transform
  | sourceMap
  | check
  | truthTable
  deriving DecidableEq, Repr

/-- What an option stands for. -/
inductive OptionName where
  | config
  | verbose
  | strict
  | output
  | column
  | help
  | version
  deriving DecidableEq, Repr

/-- A command with its operands and options. -/
inductive Command where
  | transform (path : String) (output : Option String)
  | sourceMap (path : String)
  | check (paths : List String)
  | truthTable (columns : List String)
  deriving DecidableEq, Repr

/-- All that an argument list says. -/
structure Request where
  /-- A configuration file that has to be there. -/
  config : Option String
  verbose : Bool
  strict : Bool
  command : Option Command
  deriving DecidableEq, Repr

/-- What makes an argument list senseless. -/
inductive UsageFault where
  | unknownOption (argument : String)
  | unexpected (argument : String)
  | missingValue (option : String)
  | unwantedValue (option : String)
  | repeated (option : String)
  | noCommand
  | missing (what : String)
  deriving DecidableEq, Repr

/-- Why the reading of an argument list ends before a command is known. -/
inductive Stop where
  | fault (fault : UsageFault)
  | help
  | version
  deriving DecidableEq, Repr

namespace CommandName

/-- The command of this name. -/
def ofText? : String → Option CommandName
  | "transform" => some .transform
  | "source-map" => some .sourceMap
  | "check" => some .check
  | "truth-table" => some .truthTable
  | _ => none

/-- How many operands a command has at most. -/
def mostOperands : CommandName → Option Nat
  | transform => some 1
  | sourceMap => some 1
  | check => none
  | truthTable => some 0

/-- The options of a command, besides those of every command. -/
def options : CommandName → List OptionName
  | transform => [.output]
  | truthTable => [.column]
  | _ => []

end CommandName

namespace OptionName

/-- The long name of an option. -/
def text : OptionName → String
  | config => "config"
  | verbose => "verbose"
  | strict => "strict"
  | output => "output"
  | column => "column"
  | help => "help"
  | version => "version"

/-- The letter of an option. -/
def letter? : OptionName → Option Char
  | config => some 'c'
  | verbose => some 'v'
  | strict => none
  | output => some 'o'
  | column => none
  | help => some 'h'
  | version => some 'V'

/-- Whether an option has a value. -/
def takesValue : OptionName → Bool
  | config => true
  | output => true
  | column => true
  | _ => false

/-- The options at a place: before a command is named, or behind its name. -/
def known : Option CommandName → List OptionName
  | none => [config, verbose, strict, help, version]
  | some command => command.options ++ [config, verbose, strict, help]

end OptionName

namespace UsageFault

/-- The wording of the fault. -/
def message : UsageFault → String
  | unknownOption argument => "unexpected argument '" ++ argument ++ "' found"
  | unexpected argument => "unexpected argument '" ++ argument ++ "' found"
  | missingValue option => "a value is required for '--" ++ option ++ "' but none was supplied"
  | unwantedValue option => "unexpected value for '--" ++ option ++ "' found; no more were expected"
  | repeated option => "the argument '--" ++ option ++ "' cannot be used multiple times"
  | noCommand => "a command is required"
  | missing what => "the required argument " ++ what ++ " was not provided"

end UsageFault

/-- The options and operands that stand at one place, in their order. A flag has an empty value. -/
structure Given where
  options : List (OptionName × String)
  operands : List String

namespace Given

/-- Nothing at all. -/
def nothing : Given :=
  ⟨[], []⟩

/-- Whether an option stands here. -/
def has (given : Given) (name : OptionName) : Bool :=
  given.options.any fun option => option.1 == name

/-- The values of an option. -/
def values (given : Given) (name : OptionName) : List String :=
  given.options.filterMap fun option => if option.1 = name then some option.2 else none

/-- Adds an option. Only a column may be given more than once; help and version end the reading. -/
def withOption (given : Given) (name : OptionName) (value : String) : Except Stop Given :=
  match name with
  | .help => .error .help
  | .version => .error .version
  | _ =>
    if name ≠ .column ∧ given.has name then .error (.fault (.repeated name.text))
    else .ok { given with options := given.options ++ [(name, value)] }

end Given

/-- A list of arguments as far as it has been read. -/
structure Reading where
  /-- What stands before the command. -/
  before : Given
  command : Option CommandName
  /-- What stands behind the command. -/
  behind : Given
  /-- The option whose value the next argument is. -/
  awaiting : Option OptionName
  /-- Whether all that follows are operands. -/
  operandsOnly : Bool

namespace Reading

/-- Nothing has been read. -/
def start : Reading :=
  ⟨.nothing, none, .nothing, none, false⟩

/-- Adds an option at the place that has been reached. -/
def withOption (reading : Reading) (name : OptionName) (value : String) : Except Stop Reading :=
  match reading.command with
  | none => (reading.before.withOption name value).map fun before => { reading with before }
  | some _ => (reading.behind.withOption name value).map fun behind => { reading with behind }

/-- Reads an operand, or the name of the command. -/
def operand (reading : Reading) (argument : String) : Except Stop Reading :=
  match reading.command with
  | none =>
    if reading.operandsOnly then .error (.fault (.unexpected argument))
    else
      match CommandName.ofText? argument with
      | some command => .ok { reading with command := some command }
      | none => .error (.fault (.unexpected argument))
  | some command =>
    let operands := reading.behind.operands
    if command.mostOperands.any (· ≤ operands.length) then .error (.fault (.unexpected argument))
    else .ok { reading with behind := { reading.behind with operands := operands ++ [argument] } }

/-- Reads an option with its long name and the value attached to it. -/
def longOption (reading : Reading) (name : String) (attached : Option String) :
    Except Stop Reading :=
  match (OptionName.known reading.command).find? fun option => option.text == name with
  | none => .error (.fault (.unknownOption ("--" ++ name)))
  | some option =>
    match option.takesValue, attached with
    | true, some value => reading.withOption option value
    | true, none => .ok { reading with awaiting := some option }
    | false, some _ => .error (.fault (.unwantedValue option.text))
    | false, none => reading.withOption option ""

/-- Reads options as letters behind one hyphen. What follows the letter of an option with a value
is that value, with or without an equals sign before it. -/
def letters (reading : Reading) : List Char → Except Stop Reading
  | [] => .ok reading
  | letter :: rest =>
    match (OptionName.known reading.command).find? fun option => option.letter? == some letter with
    | none => .error (.fault (.unknownOption (String.ofList ['-', letter])))
    | some option =>
      if option.takesValue then
        match rest with
        | [] => .ok { reading with awaiting := some option }
        | '=' :: value => reading.withOption option (String.ofList value)
        | value => reading.withOption option (String.ofList value)
      else
        match reading.withOption option "" with
        | .ok next => letters next rest
        | .error stop => .error stop

/-- Reads an argument that starts with a hyphen and does not end there. -/
def optionArgument (reading : Reading) (chars : List Char) : Except Stop Reading :=
  match chars with
  | '-' :: '-' :: rest =>
    let name := rest.takeWhile (· ≠ '=')
    let attached := match rest.drop name.length with
      | _ :: value => some (String.ofList value)
      | [] => none
    reading.longOption (String.ofList name) attached
  | _ => reading.letters (chars.drop 1)

/-- Whether an argument is read as options: it starts with a hyphen and does not end there. -/
def looksLikeOption : List Char → Bool
  | '-' :: _ :: _ => true
  | _ => false

/-- Reads one more argument. The value of an option never looks like an option. -/
def next (reading : Reading) (argument : String) : Except Stop Reading :=
  match reading.awaiting with
  | some option =>
    if looksLikeOption argument.toList then .error (.fault (.missingValue option.text))
    else { reading with awaiting := none }.withOption option argument
  | none =>
    if reading.operandsOnly then reading.operand argument
    else if argument = "--" then .ok { reading with operandsOnly := true }
    else if looksLikeOption argument.toList then reading.optionArgument argument.toList
    else reading.operand argument

/-- The command that has been read, with all that it needs. -/
def finishCommand (behind : Given) : CommandName → Except UsageFault Command
  | .transform =>
    match behind.operands with
    | path :: _ => .ok (.transform path (behind.values .output).head?)
    | [] => .error (.missing "<path>")
  | .sourceMap =>
    match behind.operands with
    | path :: _ => .ok (.sourceMap path)
    | [] => .error (.missing "<path>")
  | .check =>
    if behind.operands.isEmpty then .error (.missing "<paths>...")
    else .ok (.check behind.operands)
  | .truthTable =>
    if behind.has .column then .ok (.truthTable (behind.values .column))
    else .error (.missing "--column <column>")

/-- What the options say about a command. A configuration file behind the command wins over one
before it. -/
def request (reading : Reading) (command : Option Command) : Request :=
  let config := (reading.behind.values .config).head?.or (reading.before.values .config).head?
  let said (option : OptionName) := reading.before.has option || reading.behind.has option
  ⟨config, said .verbose, said .strict, command⟩

/-- The request that has been read. -/
def finish (reading : Reading) : Except UsageFault Request :=
  match reading.awaiting, reading.command with
  | some option, _ => .error (.missingValue option.text)
  | none, none =>
    if reading.before.options.isEmpty then .error .noCommand else .ok (reading.request none)
  | none, some name => (finishCommand reading.behind name).map (reading.request ∘ some)

/-- Whether an argument is the word that asks for help. It stands where a command could. -/
def asksForHelp (reading : Reading) (argument : String) : Bool :=
  argument == "help" && reading.command.isNone && reading.awaiting.isNone && !reading.operandsOnly

/-- How a reading ends with the word that asks for help. Behind it nothing may stand but the name of
one command, or the word itself once more. -/
def helpAbout : List String → Stop
  | [] => .help
  | name :: rest =>
    if name == "help" || (CommandName.ofText? name).isSome then
      match rest with
      | [] => .help
      | extra :: _ => .fault (.unexpected extra)
    else .fault (.unexpected name)

/-- Reads all further arguments. -/
def readAll (reading : Reading) : List String → Except Stop Request
  | [] => reading.finish.mapError .fault
  | argument :: rest => do
    if reading.asksForHelp argument then throw (helpAbout rest)
    readAll (← reading.next argument) rest

end Reading

/-- Reads an argument list. -/
def readArguments (arguments : List String) : Except Stop Request :=
  Reading.start.readAll arguments

end PhasedTests.CommandLine
