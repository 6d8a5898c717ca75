/-
Carrying out commands. The answer of a command is written to a file, or to
standard output with a line break after it.
-/
import EvmSandbox.CommandLine.Command
import EvmSandbox.CommandLine.Host
import EvmSandbox.ContractBuild
import EvmSandbox.Purity

namespace EvmSandbox.CommandLine

variable {m : Type → Type} [Monad m]

/-- Work on a host that may fail. -/
abbrev Work (m : Type → Type) := ExceptT Error m

namespace Host

private def fileWork {α : Type} (action : m (Except FileFault α)) : Work m α :=
  ExceptT.mk do return (← action).mapError .file

/-- Reads a file, or standard input if the path is a dash. -/
def read (host : Host m) (path : String) : Work m String :=
  fileWork (if path == Subcommand.standardInput then host.readInput else host.readFile path)

/-- Writes to a file, or to standard output if there is no path. -/
def write (host : Host m) (path : Option String) (content : String) : Work m Unit :=
  match path with
  | some path => fileWork (host.writeFile path content)
  | none => ExceptT.lift (host.print (content ++ "\n"))

end Host

private def orFail {ε α : Type} (toError : ε → Error) (result : Except ε α) : Work m α :=
  ExceptT.mk (pure (result.mapError toError))

/-- The settings of the file, with what is given by itself put in. -/
def ConfigSource.settings (source : ConfigSource) (host : Host m) : Work m Settings := do
  let settings ←
    match source.file with
    | none => pure {}
    | some path => orFail .invalidJson (Settings.parse (← host.read path))
  return { settings with
    managerAddress := source.manager.or settings.managerAddress
    whitelistMask := source.whitelistMask.or settings.whitelistMask }

def ConfigSource.sandbox (source : ConfigSource) (host : Host m) : Work m Sandbox := do
  orFail .config (← source.settings host).sandbox

namespace Command

def transpileOutput (host : Host m) (config : ConfigSource) (input : String)
    (output : Option String) (pretty : Bool) : Work m Unit := do
  let settings ← config.settings host
  let compiled ← orFail .invalidJson (CompilerOutput.parse (← host.read input))
  let transpiled := compiled.transpile settings
  host.write output (transpiled.text pretty)
  if transpiled.errorCount > 0 then throw (.transpilationFailed transpiled.errorCount)

/-- The code that is given, or else that in the file. -/
def loadCode (host : Host m) (code codeFile : Option String) : Work m Bytes := do
  match code, codeFile with
  | some text, _ => orFail .invalidHex (Hex.decodeTrimmed text)
  | none, some path => orFail .invalidHex (Hex.decodeTrimmed (← host.read path))
  | none, none => throw .noBytecode

def transpileCode (host : Host m) (config : ConfigSource) (code codeFile output : Option String) :
    Work m Unit := do
  let code ← loadCode host code codeFile
  let sandbox ← config.sandbox host
  match (sandbox.transpileDeployed code).value with
  | .ok bytecode => host.write output (Hex.encodeMarked bytecode)
  | .error errors =>
    host.write output ("\n".intercalate (errors.map TranspileError.text))
    throw (.transpilationFailed errors.length)

def checkPurity (host : Host m) (config : ConfigSource) (address : Address) (contracts : String)
    (maxDepth : Nat) : Work m Unit := do
  let sandbox ← config.sandbox host
  let known ← orFail .ofContracts (Purity.Contracts.parse (← host.read contracts))
  let checker : Purity.Checker :=
    ⟨.ofContracts known, sandbox.manager, sandbox.whitelist, maxDepth⟩
  match (checker.check address).1 with
  | .pure => host.write none "pure"
  | .impure reason => throw (.impure reason)

end Command

/-- Carries out a command. -/
def Invocation.execute (i : Invocation) (host : Host m) : m (Except Error Unit) :=
  ExceptT.run <|
    match i.command with
    | .compilerOutput input output pretty =>
      Command.transpileOutput host i.config input output pretty
    | .raw code codeFile output => Command.transpileCode host i.config code codeFile output
    | .purity address contracts maxDepth =>
      Command.checkPurity host i.config address contracts maxDepth

end EvmSandbox.CommandLine
