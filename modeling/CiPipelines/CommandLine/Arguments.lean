import CiPipelines.Platform

/-!
# Arguments of the command line

An argument that starts with two dashes is a long option, one with a single dash a row of short
ones.  The value of an option follows after an equals sign, directly after a short option, or as
the next argument, which then must not look like an option.  After `--` nothing is an option.
No option may be given twice, but the two global ones may stand both before and after the command;
the later one counts.
-/

namespace CiPipelines
namespace CommandLine

/-- A form in which a pipeline is printed. -/
inductive RecordFormat where
  | yaml
  | json
  deriving DecidableEq, Repr

/-- The form of a word. -/
def RecordFormat.ofName? (s : String) : Option RecordFormat :=
  [("yaml", yaml), ("json", json)].lookup s

/-- A shell that completions can be made for. -/
inductive Shell where
  | bash
  | zsh
  | fish
  | powerShell
  | elvish
  deriving DecidableEq, Repr

/-- The shell of a word. -/
def Shell.ofName? (s : String) : Option Shell :=
  [("bash", bash), ("zsh", zsh), ("fish", fish), ("power-shell", powerShell),
    ("elvish", elvish)].lookup s

/-- What is asked for. -/
inductive Command where
  | convert (source : Option Platform) (target : Platform) (input output : Option String)
    (toStdout : Bool)
  | inspect (source : Option Platform) (input : Option String) (format : RecordFormat)
  | detect (path : String)
  | platforms
  | completions (shell : Shell) (output : Option String)
  deriving DecidableEq, Repr

/-- A command with the global options. -/
structure Invocation where
  /-- The settings file. -/
  config : Option String
  verbose : Bool
  command : Command
  deriving DecidableEq, Repr

/-- What a command line asks for. -/
inductive Request where
  | run (invocation : Invocation)
  | showVersion
  | showHelp
  /-- The arguments make no sense. -/
  | misuse
  deriving DecidableEq, Repr

/-- An option that a command knows. -/
structure OptionSpec where
  name : String
  short : Option Char
  takesValue : Bool
  deriving DecidableEq, Repr

/-- The options that every command knows. -/
def globalOptions : List OptionSpec := [
  ⟨"config", none, true⟩, ⟨"verbose", some 'v', false⟩, ⟨"help", some 'h', false⟩]

/-- The options in front of the command. -/
def topOptions : List OptionSpec := globalOptions ++ [⟨"version", some 'V', false⟩]

/-- The input file of a command. -/
def inputOption : OptionSpec := ⟨"input", some 'i', true⟩

/-- The output file of a command. -/
def outputOption : OptionSpec := ⟨"output", some 'o', true⟩

/-- The name of a command, its own options, and how many further arguments it takes. -/
structure CommandSpec where
  name : String
  options : List OptionSpec
  operands : Nat
  deriving DecidableEq, Repr

/-- All commands. -/
def commandSpecs : List CommandSpec := [
  ⟨"convert", [⟨"from", none, true⟩, ⟨"to", none, true⟩, inputOption, outputOption,
    ⟨"stdout", none, false⟩], 0⟩,
  ⟨"inspect", [⟨"from", none, true⟩, inputOption, ⟨"format", some 'f', true⟩], 0⟩,
  ⟨"detect", [], 1⟩,
  ⟨"platforms", [], 0⟩,
  ⟨"completions", [outputOption], 1⟩]

/-- The arguments read so far: options with their values, and the others. -/
structure Given where
  options : List (String × String)
  operands : List String
  deriving DecidableEq, Repr

namespace Given

/-- No arguments. -/
def empty : Given := ⟨[], []⟩

/-- The value of an option. -/
def value? (g : Given) (name : String) : Option String := g.options.lookup name

/-- Whether an option is given. -/
def has (g : Given) (name : String) : Bool := (g.value? name).isSome

end Given

/-- The end of reading arguments. -/
inductive Stop where
  | showVersion
  | showHelp
  | misuse
  deriving DecidableEq, Repr

/-- Whether a value is one of those that an option takes. -/
def acceptsValue (name value : String) : Bool :=
  if name == "from" || name == "to" then (Platform.ofExactName? value).isSome
  else if name == "format" then (RecordFormat.ofName? value).isSome
  else !value.isEmpty

/-- Adds an option with its value, or none for an option without. -/
def addOption (g : Given) (spec : OptionSpec) (value : String) : Except Stop Given :=
  if spec.name == "help" then .error .showHelp
  else if spec.name == "version" then .error .showVersion
  else if g.has spec.name || (spec.takesValue && !acceptsValue spec.name value) then
    .error .misuse
  else .ok { g with options := g.options ++ [(spec.name, value)] }

/-- Whether an argument looks like an option. -/
def looksLikeOption (arg : String) : Bool :=
  match arg.toList with
  | '-' :: _ :: _ => true
  | _ => false

/-- Reads a row of short options.  If the last one lacks its value, gives that option back. -/
def readShort (specs : List OptionSpec) (g : Given) :
    List Char → Except Stop (Given × Option OptionSpec)
  | [] => .ok (g, none)
  | c :: rest =>
    match specs.find? fun s => s.short == some c with
    | none => .error .misuse
    | some spec =>
      if spec.takesValue then
        match rest with
        | [] => .ok (g, some spec)
        | '=' :: value => (addOption g spec (String.ofList value)).map fun g => (g, none)
        | value => (addOption g spec (String.ofList value)).map fun g => (g, none)
      else do
        let g ← addOption g spec ""
        readShort specs g rest

/-- Reads a long option.  If it lacks its value, gives that option back. -/
def readLong (specs : List OptionSpec) (g : Given) (text : List Char) :
    Except Stop (Given × Option OptionSpec) :=
  let name := text.takeWhile (· != '=')
  let attached := match text.drop name.length with
    | _ :: value => some (String.ofList value)
    | [] => none
  match specs.find? fun s => s.name.toList == name with
  | none => .error .misuse
  | some spec =>
    match spec.takesValue, attached with
    | true, some value => (addOption g spec value).map fun g => (g, none)
    | true, none => .ok (g, some spec)
    | false, none => (addOption g spec "").map fun g => (g, none)
    | false, some _ => .error .misuse

/-- Reads an argument that looks like an option. -/
def readOption (specs : List OptionSpec) (g : Given) (arg : String) :
    Except Stop (Given × Option OptionSpec) :=
  match arg.toList with
  | '-' :: '-' :: text => readLong specs g text
  | '-' :: text => readShort specs g text
  | _ => .error .misuse

/-- Whether a command takes an operand: the name of a shell, or any path. -/
def acceptsOperand (command : CommandSpec) (value : String) : Bool :=
  if command.name == "completions" then (Shell.ofName? value).isSome else !value.isEmpty

/-- Adds an operand, of which a command takes only so many. -/
def addOperand (command : CommandSpec) (g : Given) (arg : String) : Except Stop Given :=
  if g.operands.length < command.operands && acceptsOperand command arg then
    .ok { g with operands := g.operands ++ [arg] }
  else .error .misuse

/-- Reads the arguments after a command. -/
def readArguments (command : CommandSpec) (g : Given) :
    List String → Except Stop Given
  | [] => .ok g
  | "--" :: rest => rest.foldlM (addOperand command) g
  | arg :: rest =>
    if looksLikeOption arg then
      match readOption (globalOptions ++ command.options) g arg with
      | .error e => .error e
      | .ok (g, none) => readArguments command g rest
      | .ok (g, some spec) =>
        match rest with
        | value :: rest =>
          if looksLikeOption value then .error .misuse
          else match addOption g spec value with
            | .error e => .error e
            | .ok g => readArguments command g rest
        | [] => .error .misuse
    else match addOperand command g arg with
      | .error e => .error e
      | .ok g => readArguments command g rest

/-- Reads the arguments up to the command: the options before it, the command and the arguments
after it. -/
def readTop (g : Given) : List String → Except Stop (Given × CommandSpec × List String)
  | [] => .error .misuse
  | arg :: rest =>
    if looksLikeOption arg then
      match readOption topOptions g arg with
      | .error e => .error e
      | .ok (g, none) => readTop g rest
      | .ok (g, some spec) =>
        match rest with
        | value :: rest =>
          if looksLikeOption value then .error .misuse
          else match addOption g spec value with
            | .error e => .error e
            | .ok g => readTop g rest
        | [] => .error .misuse
    else if arg == "help" then .error .showHelp
    else match commandSpecs.find? fun c => c.name == arg with
      | some spec => .ok (g, spec, rest)
      | none => .error .misuse

/-- The platform of an option. -/
def platform? (g : Given) (name : String) : Option Platform :=
  (g.value? name).bind Platform.ofExactName?

/-- The command that the arguments describe, if nothing is missing or in conflict. -/
def command? (name : String) (g : Given) : Option Command :=
  match name with
  | "convert" =>
    if g.has "stdout" && g.has "output" then none
    else (platform? g "to").map fun target =>
      .convert (platform? g "from") target (g.value? "input") (g.value? "output") (g.has "stdout")
  | "inspect" =>
    some (.inspect (platform? g "from") (g.value? "input")
      (((g.value? "format").bind RecordFormat.ofName?).getD .yaml))
  | "detect" => g.operands.head?.map .detect
  | "platforms" => some .platforms
  | "completions" =>
    (g.operands.head?.bind Shell.ofName?).map fun shell => .completions shell (g.value? "output")
  | _ => none

/-- The invocation that the arguments describe. -/
def readInvocation (args : List String) : Except Stop Invocation := do
  let (top, spec, rest) ← readTop .empty args
  let g ← readArguments spec .empty rest
  match command? spec.name g with
  | some command =>
    .ok ⟨g.value? "config" <|> top.value? "config", g.has "verbose" || top.has "verbose", command⟩
  | none => .error .misuse

/-- What a command line asks for. -/
def Request.ofArguments (args : List String) : Request :=
  match readInvocation args with
  | .ok invocation => .run invocation
  | .error .showVersion => .showVersion
  | .error .showHelp => .showHelp
  | .error .misuse => .misuse

end CommandLine
end CiPipelines
