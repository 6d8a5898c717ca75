/-
The outcome of transpiling a byte string: the new code, or every error that
was found, each at the offset of the instruction at fault.
-/
import EvmSandbox.Instruction

namespace EvmSandbox

namespace TranspileError

/-- Why an instruction could not be transpiled. -/
inductive Cause where
  /-- The instruction is neither allowed nor replaced. -/
  | disallowed (code : UInt8)
  | undecodable (error : DecodeError)
  /-- A jump goes to an offset at which no instruction starts. -/
  | invalidJumpTarget (target : Nat)
  /-- The code moves, but no copy of the runtime was found whose operands could follow it. -/
  | unrecognizedRuntimeCopy
  /-- The new code is too long for 32-bit offsets. -/
  | outputTooLarge (length : Nat)
  deriving DecidableEq

def Cause.message : Cause → String
  | .disallowed code => s!"disallowed opcode {Opcode.mnemonic code} ({Opcode.codeText code})"
  | .undecodable error => error.message
  | .invalidJumpTarget target =>
    let digits := String.ofList (Text.hexDigits target)
    s!"invalid jump target 0x{digits}"
  | .unrecognizedRuntimeCopy => "constructor copies the embedded runtime in an unrecognized way"
  | .outputTooLarge length =>
    s!"transpiled bytecode of {length} bytes exceeds the addressable size"

end TranspileError

structure TranspileError where
  index : Nat
  cause : TranspileError.Cause
  deriving DecidableEq

namespace TranspileError

def ofDecode (error : DecodeError) : TranspileError :=
  ⟨error.offset, .undecodable error⟩

def message (e : TranspileError) : String :=
  e.cause.message

/-- The message with the place. -/
def text (e : TranspileError) : String :=
  s!"{e.message} at index {e.index}"

end TranspileError

abbrev Outcome := Except (List TranspileError) Bytes

namespace Outcome

def bytecode? : Outcome → Option Bytes
  | .ok code => some code
  | .error _ => none

def errors : Outcome → List TranspileError
  | .ok _ => []
  | .error errors => errors

def isSuccessful : Outcome → Bool
  | .ok _ => true
  | .error _ => false

end Outcome

end EvmSandbox
