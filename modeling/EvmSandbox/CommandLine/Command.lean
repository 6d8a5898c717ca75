/-
The commands, and how they are given on the command line.
-/
import EvmSandbox.CommandLine.Grammar
import EvmSandbox.Log
import EvmSandbox.Purity.Inspection

namespace EvmSandbox.CommandLine

/-- Where settings come from. What is given by itself wins over what a file says. -/
structure ConfigSource where
  file : Option String
  manager : Option String
  whitelistMask : Option String

inductive Command where
  /-- Transpiles every contract of a compiler output. -/
  | compilerOutput (input : String) (output : Option String) (pretty : Bool)
  /-- Transpiles one deployed code, which is given itself or in a file. -/
  | raw (code codeFile output : Option String)
  /-- Checks the purity of a contract against a file of known contracts. -/
  | purity (address : Address) (contracts : String) (maxDepth : Nat)

/-- A command with the settings and the verbosity it is given. -/
structure Invocation where
  command : Command
  config : ConfigSource
  verbosity : Nat

/-- The least important events that are logged; none if nothing is. -/
def Invocation.level? (i : Invocation) : Option Level :=
  match i.verbosity with
  | 0 => none
  | 1 => some .error
  | 2 => some .warn
  | 3 => some .info
  | 4 => some .debug
  | _ => some .trace

inductive Subcommand where
  | compilerOutput
  | raw
  | purity
  deriving DecidableEq

/-- What the first argument may name: a subcommand, or help on them. -/
inductive Verb where
  | run (subcommand : Subcommand)
  | help
  deriving DecidableEq

namespace Verb

def all : List Verb := [.run .compilerOutput, .run .raw, .run .purity, .help]

def name : Verb → String
  | .run .compilerOutput => "compiler-output"
  | .run .raw => "raw"
  | .run .purity => "purity"
  | .help => "help"

/-- The verb of which `text` is the beginning, if there is just one. -/
def find? (text : String) : Option Verb :=
  match all.filter fun v => text.toList.isPrefixOf v.name.toList with
  | [v] => some v
  | _ => none

end Verb

namespace Subcommand

/-- The options that every subcommand takes. -/
def sharedOptions : List OptionSpec :=
  [⟨["settings"], none, .value .settings .path⟩,
   ⟨["execution-manager"], none, .value .manager .text⟩,
   ⟨["whitelist-mask"], none, .value .whitelistMask .text⟩,
   ⟨[], some 'v', .counter .verbose⟩,
   ⟨["log.file", "log-file"], none, .value .logFile .path⟩,
   ⟨["log.no-color", "log-no-color"], none, .switch .logNoColor⟩,
   ⟨["help"], some 'h', .help⟩]

def outputOption : OptionSpec :=
  ⟨["output"], some 'o', .value .output .path⟩

/-- The input of a command that is given none: standard input. -/
def standardInput : String := "-"

private def command? (given : Given) : Subcommand → Except UsageError Command
  | .compilerOutput =>
    return .compilerOutput ((given.text? .input).getD standardInput) (given.text? .output)
      (given.has .pretty)
  | .raw => return .raw (given.text? .code) (given.text? .codeFile) (given.text? .output)
  | .purity =>
    match given.address? .address, given.text? .contracts with
    | some address, some contracts =>
      return .purity address contracts ((given.number? .maxDepth).getD Purity.defaultMaxDepth)
    | _, _ => .error .missingArgument

def grammar : Subcommand → Grammar
  | .compilerOutput =>
    ⟨(.input, .text), outputOption :: ⟨["pretty"], none, .switch .pretty⟩ :: sharedOptions⟩
  | .raw =>
    ⟨(.code, .text),
      ⟨["codefile"], none, .value .codeFile .text⟩ :: outputOption :: sharedOptions⟩
  | .purity =>
    ⟨(.address, .address),
      ⟨["contracts"], none, .value .contracts .text⟩ ::
        ⟨["max-depth"], none, .value .maxDepth .number⟩ :: sharedOptions⟩

/-- Reads the arguments after the name of the subcommand. `manager` is the address of the manager
to be used where no other is given. -/
def invocation (s : Subcommand) (manager : Option String) (args : List String) :
    Except UsageError Invocation := do
  let given ← s.grammar.parse args
  let command ← command? given s
  return {
    command
    config := ⟨given.text? .settings, (given.text? .manager).or manager,
      given.text? .whitelistMask⟩
    verbosity := given.count .verbose }

end Subcommand

namespace Invocation

/-- Help on a subcommand by its whole name, or on all of them. -/
private def helpOn : List String → UsageError
  | [] => .help
  | [name] => if Verb.all.any fun v => v.name == name then .help else .invalidSubcommand
  | _ => .invalidSubcommand

/-- What is said to an argument that stands where a subcommand should. -/
private def notSubcommand (arg : String) (rest : List String) : UsageError :=
  match arg.toList with
  | ['-', '-'] =>
    match rest with
    | [] => .noArguments
    | next :: _ => if (Verb.find? next).isSome then .unknownArgument else .invalidSubcommand
  | '-' :: '-' :: cs =>
    let (name, attached) := Progress.splitName cs
    if name != "help" && name != "version" then .unknownArgument
    else if attached.isSome then .surplusValue
    else if name == "help" then .help
    else .version
  | '-' :: 'h' :: _ => .help
  | '-' :: 'V' :: _ => .version
  | '-' :: _ :: _ => .unknownArgument
  | _ => .invalidSubcommand

/-- Reads a command line. `manager` is the address of the manager that the environment names. -/
def ofArguments (manager : Option String) : List String → Except UsageError Invocation
  | [] => .error .noArguments
  | arg :: rest =>
    match Verb.find? arg with
    | some .help => .error (helpOn rest)
    | some (.run s) => s.invocation manager rest
    | none => .error (notSubcommand arg rest)

end Invocation

end EvmSandbox.CommandLine
