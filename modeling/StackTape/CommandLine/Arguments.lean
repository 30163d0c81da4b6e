import StackTape.Assembly.Statement

/-!
# Command-line arguments

One input file and options, in any order. An option with a value takes it from the same argument
or from the next one. The first problem, or the first request for the version or for help, decides.
-/

namespace StackTape

/-- What a compilation is asked to do. -/
structure Invocation where
  verbosity : Nat
  input : String
  output : Option String
  listing : Option String
  maxIndex : Option Nat
  deriving DecidableEq

/-- What the arguments ask for. -/
inductive Command where
  | run (i : Invocation)
  | version
  | help
  deriving DecidableEq

/-- Options that take a value. -/
inductive ValueOption where
  | output
  | listing
  | maxIndex
  deriving DecidableEq

/-- The long name of an option. -/
def ValueOption.name : ValueOption → String
  | output => "--output"
  | listing => "--listing"
  | maxIndex => "--max-index"

/-- What is wrong with the arguments. -/
inductive UsageError where
  | unknownOption (option : String)
  | missingValue (option : ValueOption)
  | invalidValue (option : ValueOption) (value : String)
  | repeated (option : ValueOption)
  | unexpectedValue (option : String)
  | invalidInput
  | secondInput (argument : String)
  | missingInput
  deriving DecidableEq

/-- The text of a usage error. -/
def UsageError.message : UsageError → String
  | unknownOption option => s!"unexpected argument '{option}' found"
  | missingValue option => s!"a value is required for '{option.name}' but none was supplied"
  | invalidValue option value => s!"invalid value '{value}' for '{option.name}'"
  | repeated option => s!"the argument '{option.name}' cannot be used multiple times"
  | unexpectedValue option => s!"no value is expected for '{option}'"
  | invalidInput => "the input cannot be an empty path"
  | secondInput argument => s!"unexpected argument '{argument}' found"
  | missingInput => "the following required arguments were not provided: <INPUT>"

/-- What the arguments read so far have set. -/
structure Settings where
  verbosity : Nat := 0
  input : Option String := none
  output : Option String := none
  listing : Option String := none
  maxIndex : Option Nat := none

namespace Settings

/-- A 64-bit number in decimal digits, with an optional plus sign. -/
def number? (text : String) : Option Nat :=
  match text.toList with
  | '+' :: digits => Literal.digits? 10 digits
  | digits => Literal.digits? 10 digits

/-- Set an option that takes a path. -/
def path (option : ValueOption) (old : Option String) (value : String) :
    Except UsageError (Option String) :=
  if old.isSome then .error (.repeated option)
  else if value.isEmpty then .error (.invalidValue option value)
  else .ok (some value)

/-- Set an option to a value. -/
def set (s : Settings) (option : ValueOption) (value : String) : Except UsageError Settings :=
  match option with
  | .output => do return { s with output := ← path option s.output value }
  | .listing => do return { s with listing := ← path option s.listing value }
  | .maxIndex =>
    if s.maxIndex.isSome then .error (.repeated option)
    else
      match number? value with
      | none => .error (.invalidValue option value)
      | some n => .ok { s with maxIndex := some n }

/-- Set the input file. -/
def setInput (s : Settings) (argument : String) : Except UsageError Settings :=
  if s.input.isSome then .error (.secondInput argument)
  else if argument.isEmpty then .error .invalidInput
  else .ok { s with input := some argument }

/-- The invocation that the settings describe, once all arguments have been read. -/
def finish (s : Settings) : Except UsageError Command :=
  match s.input with
  | none => .error .missingInput
  | some input => .ok (.run ⟨s.verbosity, input, s.output, s.listing, s.maxIndex⟩)

end Settings

namespace Arguments

/-- What follows from one argument. -/
inductive Effect where
  /-- Go on with these settings. -/
  | proceed (s : Settings)
  /-- The next argument is the value of an option. -/
  | await (s : Settings) (option : ValueOption)
  /-- The rest of the arguments does not matter. -/
  | stop (c : Command)

/-- Options of one letter each in one argument. What follows a letter that takes a value is the
value, with or without an equals sign. -/
def shortOptions (s : Settings) : (letters : List Char) → Except UsageError Effect
  | [] => .ok (.proceed s)
  | 'v' :: rest => shortOptions { s with verbosity := s.verbosity + 1 } rest
  | 'V' :: _ => .ok (.stop .version)
  | 'h' :: _ => .ok (.stop .help)
  | ['o'] => .ok (.await s .output)
  | 'o' :: '=' :: value => .proceed <$> s.set .output (String.ofList value)
  | 'o' :: value => .proceed <$> s.set .output (String.ofList value)
  | letter :: _ => .error (.unknownOption (String.ofList ['-', letter]))

/-- A long option without a value. -/
def flag (option : String) (value : Option String) (effect : Effect) : Except UsageError Effect :=
  match value with
  | none => .ok effect
  | some _ => .error (.unexpectedValue option)

/-- A long option with a value, in the same argument or still to come. -/
def valued (s : Settings) (option : ValueOption) : (value : Option String) →
    Except UsageError Effect
  | none => .ok (.await s option)
  | some value => .proceed <$> s.set option value

/-- A long option, given without its two dashes. -/
def longOption (s : Settings) (text : List Char) : Except UsageError Effect :=
  let name := String.ofList (text.takeWhile fun c => c != '=')
  let value := match text.dropWhile fun c => c != '=' with
    | [] => none
    | _ :: value => some (String.ofList value)
  match name with
  | "verbose" => flag name value (.proceed { s with verbosity := s.verbosity + 1 })
  | "version" => flag name value (.stop .version)
  | "help" => flag name value (.stop .help)
  | "output" => valued s .output value
  | "listing" => valued s .listing value
  | "max-index" => valued s .maxIndex value
  | _ => .error (.unknownOption ("--" ++ name))

/-- An argument that may be an option. A single dash is a file name. -/
def argument (s : Settings) (a : String) : Except UsageError Effect :=
  match a.toList with
  | '-' :: '-' :: text => longOption s text
  | '-' :: letter :: letters => shortOptions s (letter :: letters)
  | _ => .proceed <$> s.setInput a

/-- Whether an argument cannot be the value of an option that comes before it. -/
def isOption (a : String) : Bool :=
  match a.toList with
  | '-' :: _ :: _ => true
  | _ => false

/-- Where in the arguments we are. -/
inductive Mode where
  | options
  | value (option : ValueOption)
  /-- Two dashes have ended the options. -/
  | inputs

/-- Read the remaining arguments. -/
def parseFrom (mode : Mode) (s : Settings) : List String → Except UsageError Command
  | [] =>
    match mode with
    | .value option => .error (.missingValue option)
    | .options | .inputs => s.finish
  | a :: rest =>
    match mode with
    | .inputs => do parseFrom .inputs (← s.setInput a) rest
    | .value option =>
      if isOption a then .error (.missingValue option)
      else do parseFrom .options (← s.set option a) rest
    | .options =>
      if a = "--" then parseFrom .inputs s rest
      else
        match argument s a with
        | .error e => .error e
        | .ok (.proceed s) => parseFrom .options s rest
        | .ok (.await s option) => parseFrom (.value option) s rest
        | .ok (.stop c) => .ok c

/-- What the arguments ask for. -/
def parse (args : List String) : Except UsageError Command :=
  parseFrom .options {} args

end Arguments

end StackTape
