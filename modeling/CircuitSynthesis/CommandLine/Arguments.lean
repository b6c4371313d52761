/-!
# Arguments

The arguments name a command and its options. An option is written long or short; its value follows as the next
argument, after an equals sign, or right after the short letter. Short letters without a value may be joined. A value
that is an argument of its own must not begin with a hyphen, except the single hyphen.

In `qsynth-cli` the arguments are declared by `Cli`, `Command` is `Commands`, and `OutputFormat` has its name there.
-/

namespace CircuitSynthesis.CommandLine

/-- The form in which a program is written. -/
inductive OutputFormat where
  | json
  | text
  deriving DecidableEq

def OutputFormat.ofName? : String → Option OutputFormat
  | "json" => some json
  | "text" => some text
  | _ => none

/-- What is to be done. -/
inductive Command where
  | compile (input : String) (output config : Option String) (format : OutputFormat)
  | verify (input : String) (config : Option String)
  | prepare (input : String) (output config : Option String)
  | version
  | versionLine
  | help
  deriving DecidableEq

/-- Why arguments are refused. -/
inductive UsageError where
  | noCommand
  | unknownCommand (name : String)
  /-- An argument fits nowhere. -/
  | unexpected (argument : String)
  | missingValue (option : String)
  | repeated (option : String)
  | required (option : String)
  | badChoice (option value : String)
  deriving DecidableEq

def UsageError.message : UsageError → String
  | noCommand => "a command is required"
  | unknownCommand name => s!"unknown command '{name}'"
  | unexpected argument => s!"unexpected argument '{argument}'"
  | missingValue option => s!"option --{option} needs a value"
  | repeated option => s!"option --{option} is given more than once"
  | required option => s!"option --{option} is required"
  | badChoice option value => s!"option --{option} cannot be '{value}'"

namespace Arguments

/-- The options that take a value. -/
inductive Key where
  | input
  | output
  | config
  | format
  deriving DecidableEq

def Key.name : Key → String
  | input => "input"
  | output => "output"
  | config => "config"
  | format => "format"

def Key.letter? : Key → Option Char
  | input => some 'i'
  | output => some 'o'
  | config => some 'c'
  | format => none

/-- The commands that have options. -/
inductive Verb where
  | compile
  | verify
  | prepare
  | version
  deriving DecidableEq

def Verb.ofName? : String → Option Verb
  | "compile" => some compile
  | "verify" => some verify
  | "prepare" => some prepare
  | "version" => some version
  | _ => none

def Verb.keys : Verb → List Key
  | compile => [.input, .output, .config, .format]
  | verify => [.input, .config]
  | prepare => [.input, .output, .config]
  | version => []

/-- The options given so far. -/
structure Options where
  input : Option String
  output : Option String
  config : Option String
  format : Option OutputFormat
  deriving DecidableEq

def Options.none : Options := ⟨.none, .none, .none, .none⟩

def Options.has (o : Options) : Key → Bool
  | .input => o.input.isSome
  | .output => o.output.isSome
  | .config => o.config.isSome
  | .format => o.format.isSome

/-- Adds an option that has not been given yet. -/
def Options.setOnce (o : Options) (key : Key) (value : String) : Except UsageError Options :=
  if o.has key then .error (.repeated key.name)
  else
    match key with
    | .input => .ok { o with input := value }
    | .output => .ok { o with output := value }
    | .config => .ok { o with config := value }
    | .format =>
      match OutputFormat.ofName? value with
      | some format => .ok { o with format := format }
      | .none => .error (.badChoice key.name value)

/-- What an argument asks for. -/
inductive Token where
  /-- Nothing that changes the outcome. -/
  | verbosity
  | help
  | version
  /-- An option whose value follows. -/
  | option (key : Key)
  | assignment (key : Key) (value : String)
  | endOfOptions
  | word (text : String)
  deriving DecidableEq

/-- Reads joined short letters; `atTop` tells whether the version may be asked for. -/
def letters (keys : List Key) (atTop : Bool) (argument : String) : List Char → Except UsageError Token
  | [] => .ok .verbosity
  | 'v' :: rest => letters keys atTop argument rest
  | 'h' :: _ => .ok .help
  | c :: rest =>
    if atTop && c == 'V' then .ok .version
    else
      match keys.find? fun key => key.letter? == some c with
      | some key =>
        match rest with
        | [] => .ok (.option key)
        | '=' :: value => .ok (.assignment key (String.ofList value))
        | value => .ok (.assignment key (String.ofList value))
      | none => .error (.unexpected argument)

def longOption (keys : List Key) (atTop : Bool) (argument : String) (cs : List Char) : Except UsageError Token :=
  let name := String.ofList (cs.takeWhile (· != '='))
  let attached := cs.dropWhile (· != '=')
  match keys.find? (·.name == name), attached with
  | some key, [] => .ok (.option key)
  | some key, _ :: value => .ok (.assignment key (String.ofList value))
  | none, [] =>
    if name = "verbose" then .ok .verbosity
    else if name = "help" then .ok .help
    else if atTop && name = "version" then .ok .version
    else .error (.unexpected argument)
  | none, _ => .error (.unexpected argument)

def token (keys : List Key) (atTop : Bool) (argument : String) : Except UsageError Token :=
  match argument.toList with
  | ['-', '-'] => .ok .endOfOptions
  | '-' :: '-' :: cs => longOption keys atTop argument cs
  | ['-'] => .ok (.word argument)
  | '-' :: cs => letters keys atTop argument cs
  | _ => .ok (.word argument)

/-- Reads the options of a command; `none` if an explanation is asked for. A value is judged when it is met. -/
def options (keys : List Key) (given : Options) : List String → Except UsageError (Option Options)
  | [] => .ok (some given)
  | argument :: rest => do
    match ← token keys false argument with
    | .verbosity => options keys given rest
    | .help | .version => return none
    | .assignment key value => options keys (← given.setOnce key value) rest
    | .option key =>
      match rest with
      | value :: rest =>
        match ← token keys false value with
        | .word value => options keys (← given.setOnce key value) rest
        | _ => throw (.missingValue key.name)
      | [] => throw (.missingValue key.name)
    | .endOfOptions =>
      match rest with
      | [] => return some given
      | word :: _ => throw (.unexpected word)
    | .word text => throw (.unexpected text)

/-- The file to read, which must be given. -/
def Options.demandInput (o : Options) : Except UsageError String :=
  match o.input with
  | some path => .ok path
  | .none => .error (.required Key.input.name)

/-- The command of a verb and its options. The form is by default the record. -/
def command (o : Options) : Verb → Except UsageError Command
  | .compile => do return .compile (← o.demandInput) o.output o.config (o.format.getD .json)
  | .verify => do return .verify (← o.demandInput) o.config
  | .prepare => do return .prepare (← o.demandInput) o.output o.config
  | .version => .ok .version

/-- What may be explained: everything, or the command that is named. -/
def explanation : List String → Except UsageError Command
  | [] => .ok .help
  | [name] => if name = "help" ∨ (Verb.ofName? name).isSome then .ok .help else .error (.unknownCommand name)
  | _ :: word :: _ => .error (.unexpected word)

end Arguments

/-- Reads the arguments of a run. -/
def Command.ofArguments : List String → Except UsageError Command
  | [] => .error .noCommand
  | argument :: rest => do
    match ← Arguments.token [] true argument with
    | .verbosity => ofArguments rest
    | .help => return .help
    | .version => return .versionLine
    | .word "help" => Arguments.explanation rest
    | .word name =>
      match Arguments.Verb.ofName? name with
      | some verb =>
        match ← Arguments.options verb.keys .none rest with
        | some given => Arguments.command given verb
        | none => return .help
      | none => throw (.unknownCommand name)
    | _ => throw .noCommand

end CircuitSynthesis.CommandLine
