/-
# `Cartridge.Command.Args` — the command line

    [-v] pack INPUT [--startup FILE] [-o FILE] [--prg 16|32] [--vertical]
    [-v] info ROM
    [-v] demo [-o FILE] [--prg 16|32] [--dump]

Options may stand before or after the arguments of their command.  A value is
written `--prg 16` or `--prg=16`, for a one-letter option also `-oFILE` or
`-o=FILE`; one-letter options without a value may share a dash.  A value of
its own that starts with a dash is taken for an option, a lone dash is not.
After `--` there are no options.  An option is given at most once, `-v` once
before and once after the name of the command.
-/
import Cartridge.Image.Board

namespace Cartridge

/-- What the program is asked to do. -/
inductive Command where
  | pack (input : String) (startup : Option String) (output : String) (board : Board)
      (vertical : Bool)
  | info (rom : String)
  | demo (output : String) (board : Board) (dump : Bool)
deriving DecidableEq, Inhabited, Repr

/-- A command line. -/
structure Request where
  command : Command
  verbose : Bool := false
deriving DecidableEq, Inhabited, Repr

/-- What is wrong with a command line. -/
inductive UsageError where
  | unknownOption (text : String)
  | repeatedOption (name : String)
  | missingValue (name : String)
  | unexpectedValue (name : String)
  | emptyValue (name : String)
  | invalidPrg (text : String)
  | missingArgument (name : String)
  | unexpectedArgument (text : String)
  | missingCommand
  | unknownCommand (text : String)
deriving DecidableEq, Inhabited, Repr

/-- The text of a usage error. -/
def UsageError.message : UsageError → String
  | .unknownOption text => s!"unknown option '{text}'"
  | .repeatedOption name => s!"option '--{name}' is given more than once"
  | .missingValue name => s!"option '--{name}' needs a value"
  | .unexpectedValue name => s!"option '--{name}' takes no value"
  | .emptyValue name => s!"'{name}' must not be empty"
  | .invalidPrg text => s!"PRG size must be 16 or 32, got {text}"
  | .missingArgument name => s!"argument {name} is missing"
  | .unexpectedArgument text => s!"unexpected argument '{text}'"
  | .missingCommand => "a command is needed: pack, info or demo"
  | .unknownCommand text => s!"unknown command '{text}'"

namespace Args

/-- An option of a command. -/
structure Spec where
  name : String
  letter : Option Char := none
  hasValue : Bool := false

/-- The option that every command has. -/
def verboseSpec : Spec := { name := "verbose", letter := some 'v' }

/-- What has been read of a command line. -/
structure Given where
  flags : List String := []
  values : List (String × String) := []
  arguments : List String := []

namespace Given

/-- Is the flag set? -/
def hasFlag (g : Given) (name : String) : Bool := g.flags.contains name

/-- The value of an option. -/
def value? (g : Given) (name : String) : Option String := g.values.lookup name

/-- Set a flag. -/
def addFlag (g : Given) (name : String) : Except UsageError Given :=
  if g.hasFlag name then .error (.repeatedOption name)
  else .ok { g with flags := g.flags ++ [name] }

/-- Give an option its value. -/
def addValue (g : Given) (name value : String) : Except UsageError Given :=
  if (g.value? name).isSome then .error (.repeatedOption name)
  else .ok { g with values := g.values ++ [(name, value)] }

end Given

/-- Does a word of the command line look like an option? -/
def isOption (arg : String) : Bool := arg.startsWith "-" && arg != "-"

/-- Read `--name` or `--name=value`; the name of an option that waits for its
value is returned. -/
def readLong (specs : List Spec) (g : Given) (text : List Char) :
    Except UsageError (Given × Option String) :=
  let name := String.ofList (text.takeWhile (· != '='))
  let rest := text.dropWhile (· != '=')
  match specs.find? (fun s => s.name == name) with
  | none => .error (.unknownOption ("--" ++ name))
  | some spec =>
      match spec.hasValue, rest with
      | false, [] => (g.addFlag name).map (·, none)
      | false, _ => .error (.unexpectedValue name)
      | true, [] => .ok (g, some name)
      | true, _ :: value => (g.addValue name (String.ofList value)).map (·, none)

/-- Read one-letter options that share a dash; the name of an option that
waits for its value is returned. -/
def readLetters (specs : List Spec) (g : Given) :
    List Char → Except UsageError (Given × Option String)
  | [] => .ok (g, none)
  | c :: cs =>
      match specs.find? (fun s => s.letter == some c) with
      | none => .error (.unknownOption (String.ofList ['-', c]))
      | some spec =>
          if spec.hasValue then
            match cs with
            | [] => .ok (g, some spec.name)
            | '=' :: value => (g.addValue spec.name (String.ofList value)).map (·, none)
            | value => (g.addValue spec.name (String.ofList value)).map (·, none)
          else
            match g.addFlag spec.name with
            | .error e => .error e
            | .ok g' => readLetters specs g' cs

/-- Read one option. -/
def readOption (specs : List Spec) (g : Given) (arg : String) :
    Except UsageError (Given × Option String) :=
  match arg.toList with
  | '-' :: '-' :: text => readLong specs g text
  | '-' :: letters => readLetters specs g letters
  | _ => .error (.unknownOption arg)

/-- Read the words after the name of a command; `waiting` is an option that
still needs its value. -/
def readAll (specs : List Spec) (g : Given) (waiting : Option String) :
    List String → Except UsageError Given
  | [] =>
      match waiting with
      | none => .ok g
      | some name => .error (.missingValue name)
  | arg :: args =>
      match waiting with
      | some name =>
          if isOption arg then .error (.missingValue name)
          else
            match g.addValue name arg with
            | .error e => .error e
            | .ok g' => readAll specs g' none args
      | none =>
          if arg == "--" then .ok { g with arguments := g.arguments ++ args }
          else if isOption arg then
            match readOption specs g arg with
            | .error e => .error e
            | .ok (g', waiting') => readAll specs g' waiting' args
          else readAll specs { g with arguments := g.arguments ++ [arg] } none args

/-- Read the options before the name of a command; the name and the words
after it are returned. -/
def readFront (g : Given) : List String → Except UsageError (Given × String × List String)
  | [] => .error .missingCommand
  | arg :: args =>
      if arg == "--" then .error .missingCommand
      else if isOption arg then
        match readOption [verboseSpec] g arg with
        | .error e => .error e
        | .ok (g', _) => readFront g' args
      else .ok (g, arg, args)

/-- A path, which must not be empty. -/
def path (name text : String) : Except UsageError String :=
  if text.isEmpty then .error (.emptyValue name) else .ok text

/-- The path given for an option, or another one. -/
def pathOr (g : Given) (name default : String) : Except UsageError String :=
  path name ((g.value? name).getD default)

/-- The size of program memory in KiB, 32 if none is given. -/
def board (g : Given) : Except UsageError Board :=
  match g.value? "prg" with
  | none | some "32" => .ok .nrom256
  | some "16" => .ok .nrom128
  | some text => .error (.invalidPrg text)

/-- The one argument of a command. -/
def argument (g : Given) (name : String) : Except UsageError String :=
  match g.arguments with
  | [] => .error (.missingArgument name)
  | [text] => path name text
  | _ :: text :: _ => .error (.unexpectedArgument text)

/-- No arguments. -/
def noArguments (g : Given) : Except UsageError Unit :=
  match g.arguments with
  | [] => .ok ()
  | text :: _ => .error (.unexpectedArgument text)

/-- The option for the file to write. -/
def outputSpec : Spec := { name := "output", letter := some 'o', hasValue := true }

/-- The option for the size of program memory. -/
def prgSpec : Spec := { name := "prg", hasValue := true }

/-- The options of a command, by its name. -/
def specsOf? : String → Option (List Spec)
  | "pack" => some [verboseSpec, outputSpec, prgSpec,
      { name := "startup", hasValue := true }, { name := "vertical" }]
  | "info" => some [verboseSpec]
  | "demo" => some [verboseSpec, outputSpec, prgSpec, { name := "dump" }]
  | _ => none

/-- The command of the given name, from the words after it. -/
def commandOf (name : String) (g : Given) : Except UsageError Command :=
  match name with
  | "pack" => do
      let input ← argument g "INPUT"
      let startup ← (g.value? "startup").mapM (path "startup")
      let output ← pathOr g "output" "out.nes"
      let board ← board g
      return .pack input startup output board (g.hasFlag "vertical")
  | "info" => do
      let rom ← argument g "ROM"
      return .info rom
  | _ => do
      noArguments g
      let output ← pathOr g "output" "demo.nes"
      let board ← board g
      return .demo output board (g.hasFlag "dump")

/-- Read a command line. -/
def parse (args : List String) : Except UsageError Request := do
  let (front, name, rest) ← readFront {} args
  match specsOf? name with
  | none => .error (.unknownCommand name)
  | some specs => do
      let g ← readAll specs {} none rest
      let command ← commandOf name g
      return { command := command, verbose := front.hasFlag "verbose" || g.hasFlag "verbose" }

end Args

end Cartridge
