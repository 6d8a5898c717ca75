/-
The program: carries out the command that its arguments give.
-/
import EvmSandbox.CommandLine.Execution

namespace EvmSandbox.CommandLine

private def faultOf : IO.Error → FileFault
  | .noFileOrDirectory .. => .notFound
  | .inappropriateType .. => .isDirectory
  | .userError _ => .notText
  | e => .other (toString e)

private def attempt {α : Type} (action : IO α) : IO (Except FileFault α) := do
  try return .ok (← action)
  catch e => return .error (faultOf e)

/-- The text of all that is left of a stream. -/
private def readAll (stream : IO.FS.Stream) : IO String := do
  let mut content := ByteArray.empty
  let mut more := true
  while more do
    let chunk ← stream.read 65536
    if chunk.isEmpty then more := false
    else content := content ++ chunk
  match String.fromUTF8? content with
  | some text => return text
  | none => throw (IO.userError "not text")

/-- The host that the system is. -/
def systemHost : Host IO where
  readFile path := attempt (IO.FS.readFile path)
  readInput := attempt do readAll (← IO.getStdin)
  writeFile path content := attempt (IO.FS.writeFile path content)
  print text := IO.print text

private def usage : String :=
  "Usage: <COMMAND> [OPTIONS]\n\n" ++
  "Commands:\n" ++
  "  compiler-output  Transpile every contract of a solc standard JSON output\n" ++
  "  raw              Transpile a single deployed bytecode\n" ++
  "  purity           Check the purity of a deployed contract\n" ++
  "  help             Print this message\n"

private def UsageError.message : UsageError → String
  | .noArguments => "no command given"
  | .help => "help"
  | .version => "version"
  | .invalidSubcommand => "unrecognized subcommand"
  | .unknownArgument => "unexpected argument"
  | .missingArgument => "a required argument was not given"
  | .invalidValue => "invalid value"
  | .emptyValue => "an option needs a value"
  | .repeatedOption => "an option was given more than once"
  | .surplusValue => "an option takes no value"

/-- The text for a failed reading of the arguments, and the exit code. -/
private def reportUsage : UsageError → IO UInt32
  | .help => do
    IO.print usage
    return 0
  | .version => do
    IO.println "0.1.0"
    return 0
  | .noArguments => do
    IO.eprint usage
    return 2
  | e => do
    IO.eprintln s!"error: {e.message}"
    IO.eprint usage
    return 2

/-- The variable that names the address of the manager. -/
def managerVariable : String := "ROLLUP_EXECUTION_MANAGER"

/-- Carries out the command line, and gives the exit code. -/
def runArguments (args : List String) : IO UInt32 := do
  match Invocation.ofArguments (← IO.getEnv managerVariable) args with
  | .error e => reportUsage e
  | .ok invocation =>
    match ← invocation.execute systemHost with
    | .ok () => return 0
    | .error e =>
      IO.eprintln e.message
      return 1

end EvmSandbox.CommandLine

def main (args : List String) : IO UInt32 :=
  EvmSandbox.CommandLine.runArguments args
