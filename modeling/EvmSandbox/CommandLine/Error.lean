/-
What can go wrong when a command is carried out.
-/
import EvmSandbox.Purity.Contracts
import EvmSandbox.Purity.Inspection
import EvmSandbox.Settings

namespace EvmSandbox.CommandLine

/-- Why a file was not read or written. -/
inductive FileFault where
  | notFound
  | isDirectory
  | notDirectory
  | nameTooLong
  /-- The name has a character that no name may have. -/
  | invalidName
  /-- The content is not UTF-8. -/
  | notText
  | other (text : String)
  deriving DecidableEq

def FileFault.message : FileFault → String
  | .notFound => "No such file or directory (os error 2)"
  | .isDirectory => "Is a directory (os error 21)"
  | .notDirectory => "Not a directory (os error 20)"
  | .nameTooLong => "File name too long (os error 36)"
  | .invalidName => "file name contained an unexpected NUL byte"
  | .notText => "stream did not contain valid UTF-8"
  | .other text => text

inductive Error where
  | file (fault : FileFault)
  | invalidHex (error : Hex.Error)
  | invalidJson (fault : Json.Fault)
  | config (error : ConfigError)
  | noBytecode
  /-- The errors of this number have been written already. -/
  | transpilationFailed (count : Nat)
  | impure (reason : Purity.Impurity)

def Error.message : Error → String
  | .file fault => s!"I/O error: {fault.message}"
  | .invalidHex error => s!"Invalid hex string: {error.message}"
  | .invalidJson fault => s!"Invalid JSON: {fault.message}"
  | .config error => s!"Invalid configuration: {error.message}"
  | .noBytecode => "Invalid input: no bytecode given"
  | .transpilationFailed count => s!"Transpilation failed with {count} error(s)"
  | .impure reason => s!"Contract is not pure: {reason.message}"

def Error.ofContracts : Purity.Contracts.ParseError → Error
  | .document fault => .invalidJson fault
  | .code error => .invalidHex error

end EvmSandbox.CommandLine
