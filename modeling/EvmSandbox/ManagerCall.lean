/-
Calls to the manager. An instruction that reaches outside the sandbox is
replaced by a sequence of operations that hands its stack operands to a
method of the manager and leaves the answer on the stack.

Every sequence builds the call data at the end of the memory in use, so that
nothing live is overwritten: the selector of the method, then one slot of 32
bytes for each operand word in the order in which the instruction pops them,
then the bytes of a memory region if the instruction takes one.
-/
import EvmSandbox.Address
import EvmSandbox.Instruction

namespace EvmSandbox

namespace ManagerCall

/-- What an instruction takes from the stack. -/
inductive Arg where
  /-- One word. -/
  | word
  /-- The offset and the size of a memory region, whose bytes are passed on. -/
  | memory
  deriving DecidableEq

/-- What an instruction leaves on the stack. -/
inductive Output where
  | none
  /-- The first word the manager returns. -/
  | word
  /-- Whether the call succeeded; the data returned go to the region the instruction names. -/
  | callStatus
  deriving DecidableEq

end ManagerCall

/-- A method of the manager: its selector, the operands, top of the stack first, and the result. -/
structure ManagerCall where
  selector : FixedBytes 4
  args : List ManagerCall.Arg
  output : ManagerCall.Output
  deriving DecidableEq

namespace ManagerCall

/-- The number of words among the operands. -/
def wordCount (call : ManagerCall) : Nat :=
  call.args.count .word

/-- The length of the call data before the bytes of the memory region. -/
def headerLength (call : ManagerCall) : Nat :=
  4 + 32 * call.wordCount

/-- Stores the selector at the end of the memory; the stack gains the base of the call data. -/
def prologue (selector : FixedBytes 4) : List Operation :=
  [Opcode.msize, ⟨Opcode.push32, selector.bytes ++ List.replicate 28 0⟩, Opcode.dup2,
   Opcode.mstore]

/-- Stores a word operand in its slot. Once a memory region has been copied, its size lies under
the base of the call data. -/
def storeWord (holdsSize : Bool) (slot : Nat) : List Operation :=
  if holdsSize then
    [Opcode.dup3, Opcode.dup2, .pushNarrow (4 + 32 * slot), Opcode.add, Opcode.mstore,
     Opcode.swap2, Opcode.pop, Opcode.swap1]
  else
    [Opcode.swap1, Opcode.dup2, .pushNarrow (4 + 32 * slot), Opcode.add, Opcode.mstore]

/-- Copies a memory region behind the header of the call data. -/
def copyMemory (header : Nat) : List Operation :=
  [Opcode.dup3, Opcode.dup3, Opcode.dup3, .pushNarrow header, Opcode.add, Opcode.mcopy,
   Opcode.swap1, Opcode.pop]

/-- Moves the operands into the call data, the first word into `slot`. -/
def storeArgs (header : Nat) (holdsSize : Bool) (slot : Nat) : List Arg → List Operation
  | [] => []
  | .word :: args => storeWord holdsSize slot ++ storeArgs header holdsSize (slot + 1) args
  | .memory :: args => copyMemory header ++ storeArgs header true slot args

/-- The call itself, without value and with all gas. -/
def invoke (manager : Address) : List Operation :=
  [.pushNarrow 0, ⟨Opcode.push20, manager.bytes⟩, Opcode.gas, Opcode.call]

/-- The length of the call data, on top of the stack. -/
def pushLength (header : Nat) (holdsSize : Bool) : List Operation :=
  if holdsSize then [Opcode.dup4, .pushNarrow header, Opcode.add] else [.pushNarrow header]

/-- Calls the manager with a return region that is on the stack already, drops the success flag
and what is left of the operands, and ends with `last`. -/
def invokeAndDrop (manager : Address) (header : Nat) (holdsSize : Bool) (last : UInt8) :
    List Operation :=
  let dropSize : List Operation := if holdsSize then [Opcode.swap1, Opcode.pop] else []
  pushLength header holdsSize ++ (Opcode.dup4 : Operation) :: invoke manager ++
    (Opcode.pop : Operation) :: dropSize ++ [(last : Operation)]

/-- Calls the manager and brings the stack into its final shape. -/
def epilogue (manager : Address) (header : Nat) (holdsSize : Bool) : Output → List Operation
  | .callStatus =>
    Opcode.swap1 :: .pushNarrow header :: Opcode.add :: Opcode.swap1 :: invoke manager
  | .word =>
    .pushNarrow 32 :: Opcode.dup2 :: invokeAndDrop manager header holdsSize Opcode.mload
  | .none =>
    .pushNarrow 0 :: .pushNarrow 0 :: invokeAndDrop manager header holdsSize Opcode.pop

/-- The operations that stand for the instruction when `manager` is the manager. -/
def operations (call : ManagerCall) (manager : Address) : List Operation :=
  prologue call.selector ++ storeArgs call.headerLength false 0 call.args ++
    epilogue manager call.headerLength (call.args.contains .memory) call.output

def encode (call : ManagerCall) (manager : Address) : Bytes :=
  Operation.encodeAll (call.operations manager)

/-- The methods of the manager, with the instructions they stand for. -/
def standard : List (UInt8 × ManagerCall) :=
  [(Opcode.address, ⟨.ofNat 4 0x996d79a5, [], .word⟩),
   (Opcode.balance, ⟨.ofNat 4 0x0a5635ae, [.word], .word⟩),
   (Opcode.origin, ⟨.ofNat 4 0x16902d57, [], .word⟩),
   (Opcode.caller, ⟨.ofNat 4 0x73509064, [], .word⟩),
   (Opcode.callValue, ⟨.ofNat 4 0xa8c4c5ec, [], .word⟩),
   (Opcode.extCodeSize, ⟨.ofNat 4 0x8435035b, [.word], .word⟩),
   (Opcode.extCodeHash, ⟨.ofNat 4 0x24749d5c, [.word], .word⟩),
   (Opcode.timestamp, ⟨.ofNat 4 0xbdbf8c36, [], .word⟩),
   (Opcode.number, ⟨.ofNat 4 0x5a98c361, [], .word⟩),
   (Opcode.gasLimit, ⟨.ofNat 4 0x20160f3a, [], .word⟩),
   (Opcode.chainId, ⟨.ofNat 4 0x90580256, [], .word⟩),
   (Opcode.selfBalance, ⟨.ofNat 4 0x08bf7dbf, [], .word⟩),
   (Opcode.sload, ⟨.ofNat 4 0x03daa959, [.word], .word⟩),
   (Opcode.sstore, ⟨.ofNat 4 0x22bd64c0, [.word, .word], .none⟩),
   (Opcode.create, ⟨.ofNat 4 0x116bb8c8, [.word, .memory], .word⟩),
   (Opcode.call, ⟨.ofNat 4 0x5b99d1c5, [.word, .word, .word, .memory], .callStatus⟩),
   (Opcode.delegateCall, ⟨.ofNat 4 0xffe73914, [.word, .word, .memory], .callStatus⟩),
   (Opcode.create2, ⟨.ofNat 4 0x005f389a, [.word, .memory, .word], .word⟩),
   (Opcode.staticCall, ⟨.ofNat 4 0x8540661f, [.word, .word, .memory], .callStatus⟩)]

end ManagerCall

end EvmSandbox
