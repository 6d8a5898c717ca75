/-
A small assembler: code is put together from snippets, one after the other.
-/
import EvmSandbox.Address
import EvmSandbox.Instruction

namespace EvmSandbox

/-- A metadata trailer: the version of a compiler, and the length of the entry. -/
def Metadata.sample : Bytes :=
  [0xa1, 0x64, 0x73, 0x6f, 0x6c, 0x63, 0x43, 0x00, 0x08, 0x14, 0x00, 0x0a]

/-- A piece of code. -/
inductive Snippet where
  | code (opcode : UInt8)
  | raw (bytes : Bytes)
  /-- Pushes the bytes, of which there must be 1 to 32. -/
  | push (value : Bytes)
  /-- Pushes a number in as few bytes as hold it. -/
  | pushNumber (value : UInt64)
  | pushAddress (address : Address)
  /-- Pushes an offset into the code in two bytes; of a greater one the low bytes. -/
  | pushOffset (offset : UInt32)
  | jumpDestination
  | jump (target : UInt32)
  | jumpIf (target : UInt32)
  /-- Calls without arguments or value, and drops the status. -/
  | call (target : Address)
  | staticCall (target : Address)
  | returnEmpty
  /-- Returns the word on top of the stack. -/
  | returnWord
  | revert
  | metadata
  /-- Stores the first two argument words of a call in slots 0 and 1, and returns 42. -/
  | managerStub

namespace Snippet

/-- Operations for `count` zeros. -/
private def zeros (count : Nat) : List Operation :=
  List.replicate count Opcode.push0

private def pushOffsetOp (offset : UInt32) : Operation :=
  .push 2 (offset.toNat % 0x10000)

private def pushAddressOp (address : Address) : Operation :=
  ⟨Opcode.push20, address.bytes⟩

private def stub : List Operation :=
  [.pushNarrow 4, Opcode.callDataLoad, .pushNarrow 0, Opcode.sstore,
   .pushNarrow 36, Opcode.callDataLoad, .pushNarrow 1, Opcode.sstore,
   .pushNarrow 42, .pushNarrow 0, Opcode.mstore,
   .pushNarrow 32, .pushNarrow 0, Opcode.ret]

/-- The bytes of a snippet; none if it pushes too many bytes or none. -/
def encode? : Snippet → Option Bytes
  | .code opcode => some [opcode]
  | .raw bytes => some bytes
  | .push value => do
    let opcode ← Opcode.push? value.length
    return opcode :: value
  | .pushNumber value => some (Operation.pushNarrow value.toNat).encode
  | .pushAddress address => some (pushAddressOp address).encode
  | .pushOffset offset => some (pushOffsetOp offset).encode
  | .jumpDestination => some [Opcode.jumpDest]
  | .jump target => some (Operation.encodeAll [pushOffsetOp target, Opcode.jump])
  | .jumpIf target => some (Operation.encodeAll [pushOffsetOp target, Opcode.jumpI])
  | .call target =>
    some (Operation.encodeAll
      (zeros 5 ++ [pushAddressOp target, Opcode.gas, Opcode.call, Opcode.pop]))
  | .staticCall target =>
    some (Operation.encodeAll
      (zeros 4 ++ [pushAddressOp target, Opcode.gas, Opcode.staticCall, Opcode.pop]))
  | .returnEmpty => some [Opcode.push0, Opcode.push0, Opcode.ret]
  | .returnWord =>
    some (Operation.encodeAll
      [Opcode.push0, Opcode.mstore, .pushNarrow 32, Opcode.push0, Opcode.ret])
  | .revert => some [Opcode.push0, Opcode.push0, Opcode.revert]
  | .metadata => some Metadata.sample
  | .managerStub => some (Operation.encodeAll stub)

/-- The bytes of each snippet in turn. -/
def encodeEach? (snippets : List Snippet) : Option (List Bytes) :=
  snippets.mapM encode?

/-- Where each of some pieces ends when they stand one after the other. -/
def ends (start : Nat) : List Bytes → List Nat
  | [] => []
  | piece :: rest => (start + piece.length) :: ends (start + piece.length) rest

/-- Code, and where each of its snippets ends. -/
structure Assembled where
  code : Bytes
  ends : List Nat

def assemble? (snippets : List Snippet) : Option Assembled := do
  let pieces ← encodeEach? snippets
  return ⟨pieces.flatten, ends 0 pieces⟩

end Snippet

end EvmSandbox
