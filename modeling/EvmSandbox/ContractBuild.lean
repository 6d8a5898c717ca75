/-
Post-processing of compiler output: the bytecode of every selected contract
is replaced by its transpiled form, or emptied if that failed, and each
failure is added to the errors of the output.
-/
import EvmSandbox.CompilerOutput
import EvmSandbox.Settings

namespace EvmSandbox

/-- The kind of the error records that are made here. -/
def transpilationErrorKind : String := "TranspilationError"

/-- A record of an error found in transpiling. -/
def ErrorRecord.transpilation (message : String) : ErrorRecord where
  component := "general"
  message := message
  severity := .error
  kind := transpilationErrorKind
  formattedMessage := some s!"{transpilationErrorKind}: {message}\n"
  other := .empty

/-- The bytes of a bytecode object; one that is absent has none. -/
def BytecodeOutput.decode (b : Option BytecodeOutput) : Except Hex.Error Bytes :=
  match b with
  | none => .ok []
  | some b => Hex.decode b.object.toList

namespace ContractBuild

/-- One of the two codes of a contract. -/
inductive Part where
  | constructor
  | deployed
  deriving DecidableEq

def Part.name : Part → String
  | .constructor => "constructor"
  | .deployed => "deployed"

def invalidHex (file name : String) (part : Part) (error : Hex.Error) : ErrorRecord :=
  .transpilation s!"{file}:{name}: invalid hex in {part.name} bytecode: {error.message}"

def errorRecord (file name : String) (part : Part) (e : TranspileError) : ErrorRecord :=
  .transpilation s!"{file}:{name}: {e.message} in {part.name} bytecode at index {e.index}"

/-- The digits of the new bytecode; none if there is none, so that it is never deployed by
mistake. -/
def object (code : Option Bytes) : String :=
  match code with
  | none => ""
  | some code => Hex.encode code

/-- A contract after transpiling, and the records of its errors. -/
structure Built where
  contract : ContractOutput
  errors : List ErrorRecord

/-- The error records of a transpiled contract, those of the constructor first. -/
def errorRecords (file name : String) (contract : TranspiledContract) : List ErrorRecord :=
  contract.constructor.errors.map (errorRecord file name .constructor) ++
    contract.deployed.errors.map (errorRecord file name .deployed)

/-- Puts new bytecode where there was some before. -/
def replaceObjects (evm : EvmOutput) (contract : TranspiledContract) : EvmOutput :=
  { evm with
    bytecode := evm.bytecode.map fun b => { b with object := object contract.creation? }
    deployedBytecode := evm.deployedBytecode.map fun b =>
      { b with object := object contract.deployed.bytecode? } }

def transpile (s : Sandbox) (file name : String) (contract : ContractOutput) : Built :=
  match contract.evm with
  | none => ⟨contract, []⟩
  | some evm =>
    match BytecodeOutput.decode evm.bytecode with
    | .error e => ⟨contract, [invalidHex file name .constructor e]⟩
    | .ok creation =>
      match BytecodeOutput.decode evm.deployedBytecode with
      | .error e => ⟨contract, [invalidHex file name .deployed e]⟩
      | .ok deployed =>
        if creation.isEmpty && deployed.isEmpty then ⟨contract, []⟩
        else
          let result := (s.transpile creation deployed creation.length).value
          ⟨{ contract with evm := some (replaceObjects evm result) },
            errorRecords file name result⟩

end ContractBuild

namespace CompilerOutput

/-- Transpiles the selected contracts. The new errors come after those that were there, in the
order of the files and the contracts. -/
def transpileContracts (s : Sandbox) (selection : OutputSelection) (output : CompilerOutput) :
    CompilerOutput :=
  let built := output.contracts.map fun file contracts =>
    contracts.map fun name contract =>
      if selection.selects file name then ContractBuild.transpile s file name contract
      else ⟨contract, []⟩
  let errors := built.entries.flatMap fun file =>
    file.2.entries.flatMap fun contract => contract.2.errors
  { output with
    errors := output.errors ++ errors
    contracts := built.map fun _ contracts => contracts.map fun _ b => b.contract }

/-- Transpiles what the settings ask for. If they are wrong, the output is that one error. -/
def transpile (settings : Settings) (output : CompilerOutput) : CompilerOutput :=
  match settings.validate with
  | .ok (sandbox, selection) => output.transpileContracts sandbox selection
  | .error e => ⟨[.transpilation e.message], .empty, .empty⟩

/-- The number of records that are errors. -/
def errorCount (output : CompilerOutput) : Nat :=
  output.errors.countP fun r => r.severity = .error

/-- The text of the output, on one line or over several. -/
def text (output : CompilerOutput) (pretty : Bool) : String :=
  if pretty then output.toJson.pretty else output.toJson.compact

end CompilerOutput

end EvmSandbox
