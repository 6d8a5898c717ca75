/-
Instructions and their encoding. Decoding goes through the code once from
left to right: each byte is an instruction code or belongs to the immediate
operand of the push before it.
-/
import EvmSandbox.Hex
import EvmSandbox.Opcode

namespace EvmSandbox

/-- An instruction code with its immediate operand. -/
structure Operation where
  code : UInt8
  immediate : Bytes := []
  deriving DecidableEq

/-- An operation at the offset of its code in the byte string it was read from. -/
structure Instruction extends Operation where
  offset : Nat
  deriving DecidableEq

/-- The longest code that 32-bit offsets can address. -/
def maxCodeLength : Nat := 0xffffffff

inductive DecodeError where
  | unknownOpcode (offset : Nat) (code : UInt8)
  | truncatedImmediate (offset : Nat) (code : UInt8) (expected available : Nat)
  | codeTooLarge (length : Nat)
  deriving DecidableEq

namespace DecodeError

/-- The offset that the error is about. -/
def offset : DecodeError → Nat
  | .unknownOpcode offset _ => offset
  | .truncatedImmediate offset _ _ _ => offset
  | .codeTooLarge _ => 0

def message : DecodeError → String
  | .unknownOpcode _ code => Opcode.unknownMessage code
  | .truncatedImmediate _ code expected available =>
    s!"truncated immediate: {Opcode.mnemonic code} needs {expected} bytes, {available} remain"
  | .codeTooLarge length => s!"bytecode of {length} bytes exceeds the addressable size"

end DecodeError

namespace Operation

/-- The number of bytes the operation takes. -/
def size (op : Operation) : Nat :=
  1 + op.immediate.length

def encode (op : Operation) : Bytes :=
  op.code :: op.immediate

/-- The bytes of a list of operations. -/
def encodeAll (ops : List Operation) : Bytes :=
  ops.flatMap encode

/-- The push of `value` in `width` bytes. -/
def push (width value : Nat) : Operation :=
  ⟨Opcode.push width, Bytes.ofNat width value⟩

/-- The push of `value` in as few bytes as hold it. -/
def pushNarrow (value : Nat) : Operation :=
  push (byteWidth value) value

def mnemonic (op : Operation) : String :=
  Opcode.mnemonic op.code

end Operation

/-- A code stands for the operation without an operand. -/
instance : Coe UInt8 Operation where
  coe code := ⟨code, []⟩

namespace Instruction

/-- `offset: MNEMONIC` and the immediate operand, with at least four digits for the offset. -/
def text (i : Instruction) : String :=
  let digits := Text.hexDigits i.offset
  let offset := String.ofList (List.replicate (4 - digits.length) '0' ++ digits)
  let operand := if i.immediate.isEmpty then "" else s!" {Hex.encodeMarked i.immediate}"
  s!"0x{offset}: {i.mnemonic}{operand}"

/-- Decodes the bytes from `offset` on, after the instructions `done`, last one first. -/
def decodeFrom (done : List Instruction) (offset : Nat) :
    Bytes → Except DecodeError (List Instruction)
  | [] => .ok done.reverse
  | code :: rest =>
    if Opcode.isDefined code then
      let expected := Opcode.immediateLength code
      let immediate := rest.take expected
      if immediate.length < expected then
        .error (.truncatedImmediate offset code expected immediate.length)
      else
        decodeFrom (⟨⟨code, immediate⟩, offset⟩ :: done) (offset + 1 + expected) (rest.drop expected)
    else .error (.unknownOpcode offset code)
  termination_by bytes => bytes.length
  decreasing_by simp only [List.length_drop, List.length_cons]; omega

/-- The instructions of a byte string. -/
def decode (code : Bytes) : Except DecodeError (List Instruction) :=
  if maxCodeLength < code.length then .error (.codeTooLarge code.length)
  else decodeFrom [] 0 code

/-- The bytes of a list of instructions. -/
def encodeAll (instructions : List Instruction) : Bytes :=
  Operation.encodeAll (instructions.map (·.toOperation))

end Instruction

end EvmSandbox
