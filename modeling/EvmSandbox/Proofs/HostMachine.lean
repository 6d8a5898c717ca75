/-
The machine with memory and a world outside. The environment of a running
contract is its memory, the world, and the list of the calls it has made. What
it calls answers with a success flag, bytes and a new world, and nothing more
is known of it; nor is it known how gas runs down, only that `GAS` reads what
is left. Stack, memory and call operations have their usual meaning, with
memory addresses that do not wrap around.
-/
import EvmSandbox.Proofs.Memory
import EvmSandbox.Proofs.StackShuffle

namespace EvmSandbox.Machine

open RuntimeCopy (isShuffle shuffled)

/-! ## Words as bytes -/

/-- The 32 bytes of a word. -/
def wordBytes (w : Word) : Bytes :=
  Bytes.ofNat 32 w.toNat

def wordOfBytes (bytes : Bytes) : Word :=
  BitVec.ofNat 256 (Bytes.toNat bytes)

@[simp] theorem length_wordBytes (w : Word) : (wordBytes w).length = 32 :=
  Bytes.length_ofNat 32 _

theorem wordBytes_wordOfBytes {bytes : Bytes} (h : bytes.length = 32) :
    wordBytes (wordOfBytes bytes) = bytes := by
  have hlt : Bytes.toNat bytes < 2 ^ 256 := by
    have := Bytes.toNat_lt bytes
    rw [h] at this
    exact this.trans_eq (by norm_num)
  rw [wordBytes, wordOfBytes, BitVec.toNat_ofNat, Nat.mod_eq_of_lt hlt, ← h, Bytes.ofNat_toNat]

/-! ## Calls -/

/-- A call as it is made: its operands, with the bytes of the memory region that goes with it. -/
structure Call where
  gas : Word
  callee : Address
  value : Word
  data : Bytes
  returnOffset : Word
  returnSize : Word

/-- What a call comes back with. -/
structure Answer (World : Type) where
  success : Bool
  data : Bytes
  world : World

/-- The environment of a running contract. -/
structure Frame (World : Type) where
  memory : Memory
  world : World
  /-- The calls that have been made, the first one first. -/
  calls : List Call

/-- What a contract runs on. -/
structure Host (World : Type) where
  /-- The gas that is left. -/
  gas : Frame World → Word
  answer : Call → World → Answer World
  /-- What all operations do of which nothing is said here. -/
  other : Meaning (Frame World)

section Definitions

variable {World : Type} (host : Host World)

def flag (success : Bool) : Word :=
  if success then 1 else 0

namespace Frame

def store (frame : Frame World) (offset value : Word) : Frame World :=
  { frame with memory := frame.memory.write offset.toNat (wordBytes value) }

/-- Source and target may overlap: the bytes are read before they are written. -/
def copy (frame : Frame World) (target source length : Word) : Frame World :=
  let data := frame.memory.image.read source.toNat length.toNat
  { frame with memory := (frame.memory.touch source.toNat length.toNat).write target.toNat data }

/-- The environment after a call whose data were in memory at `offset`. -/
def afterCall (frame : Frame World) (offset : Word) (call : Call) : Frame World :=
  let answer := host.answer call frame.world
  let touched := (frame.memory.touch offset.toNat call.data.length).touch
    call.returnOffset.toNat call.returnSize.toNat
  { memory := touched.write call.returnOffset.toNat (answer.data.take call.returnSize.toNat)
    world := answer.world
    calls := frame.calls ++ [call] }

end Frame

/-- The usual meaning of operations on the stack, the memory and the world. -/
def usual : Meaning (Frame World) := fun op stack frame =>
  if isShuffle op.code then .ofStack (shuffled op.code (word op) stack) frame
  else if op.code = Opcode.add then
    match stack with
    | x :: y :: rest => .next ((x + y) :: rest) frame
    | _ => .fault
  else if op.code = Opcode.msize then .next (BitVec.ofNat 256 frame.memory.size :: stack) frame
  else if op.code = Opcode.gas then .next (host.gas frame :: stack) frame
  else if op.code = Opcode.mload then
    match stack with
    | offset :: rest =>
      .next (wordOfBytes (frame.memory.image.read offset.toNat 32) :: rest)
        { frame with memory := frame.memory.touch offset.toNat 32 }
    | _ => .fault
  else if op.code = Opcode.mstore then
    match stack with
    | offset :: value :: rest => .next rest (frame.store offset value)
    | _ => .fault
  else if op.code = Opcode.mcopy then
    match stack with
    | target :: source :: length :: rest => .next rest (frame.copy target source length)
    | _ => .fault
  else if op.code = Opcode.call then
    match stack with
    | gas :: callee :: value :: offset :: size :: returnOffset :: returnSize :: rest =>
      let call : Call :=
        { gas := gas, callee := .ofNat 20 callee.toNat, value := value,
          data := frame.memory.image.read offset.toNat size.toNat,
          returnOffset := returnOffset, returnSize := returnSize }
      .next (flag (host.answer call frame.world).success :: rest) (frame.afterCall host offset call)
    | _ => .fault
  else host.other op stack frame

end Definitions

section Lemmas

variable {World : Type} {host : Host World}

@[simp] theorem perform_dup2 (x y : Word) (stack : List Word) (frame : Frame World) :
    perform (usual host) ⟨Opcode.dup2, []⟩ (x :: y :: stack) frame =
      .next (y :: x :: y :: stack) frame := rfl

@[simp] theorem perform_dup3 (x y z : Word) (stack : List Word) (frame : Frame World) :
    perform (usual host) ⟨Opcode.dup3, []⟩ (x :: y :: z :: stack) frame =
      .next (z :: x :: y :: z :: stack) frame := rfl

@[simp] theorem perform_dup4 (x y z u : Word) (stack : List Word) (frame : Frame World) :
    perform (usual host) ⟨Opcode.dup4, []⟩ (x :: y :: z :: u :: stack) frame =
      .next (u :: x :: y :: z :: u :: stack) frame := rfl

@[simp] theorem perform_swap2 (x y z : Word) (stack : List Word) (frame : Frame World) :
    perform (usual host) ⟨Opcode.swap2, []⟩ (x :: y :: z :: stack) frame =
      .next (z :: y :: x :: stack) frame := by
  have hshuffled : shuffled Opcode.swap2 (word ⟨Opcode.swap2, []⟩) (x :: y :: z :: stack) =
      some (z :: y :: x :: stack) := by
    simp [shuffled, RuntimeCopy.exchanged, Opcode.swap2, Opcode.dup1, Opcode.dup16, Opcode.swap1,
      Opcode.swap16]
  have husual : usual host ⟨Opcode.swap2, []⟩ (x :: y :: z :: stack) frame =
      .ofStack (shuffled Opcode.swap2 (word ⟨Opcode.swap2, []⟩) (x :: y :: z :: stack)) frame := if_pos rfl
  rw [perform_eq_meaning rfl (by decide), husual, hshuffled]
  rfl

@[simp] theorem perform_add (x y : Word) (stack : List Word) (frame : Frame World) :
    perform (usual host) ⟨Opcode.add, []⟩ (x :: y :: stack) frame = .next ((x + y) :: stack) frame := rfl

@[simp] theorem perform_msize (stack : List Word) (frame : Frame World) :
    perform (usual host) ⟨Opcode.msize, []⟩ stack frame =
      .next (BitVec.ofNat 256 frame.memory.size :: stack) frame := rfl

@[simp] theorem perform_gas (stack : List Word) (frame : Frame World) :
    perform (usual host) ⟨Opcode.gas, []⟩ stack frame = .next (host.gas frame :: stack) frame := rfl

@[simp] theorem perform_mload (offset : Word) (stack : List Word) (frame : Frame World) :
    perform (usual host) ⟨Opcode.mload, []⟩ (offset :: stack) frame =
      .next (wordOfBytes (frame.memory.image.read offset.toNat 32) :: stack)
        { frame with memory := frame.memory.touch offset.toNat 32 } := rfl

@[simp] theorem perform_mstore (offset value : Word) (stack : List Word) (frame : Frame World) :
    perform (usual host) ⟨Opcode.mstore, []⟩ (offset :: value :: stack) frame =
      .next stack (frame.store offset value) := rfl

@[simp] theorem perform_mcopy (target source length : Word) (stack : List Word) (frame : Frame World) :
    perform (usual host) ⟨Opcode.mcopy, []⟩ (target :: source :: length :: stack) frame =
      .next stack (frame.copy target source length) := rfl

@[simp] theorem perform_call (gas callee value offset size returnOffset returnSize : Word)
    (stack : List Word) (frame : Frame World) :
    perform (usual host) ⟨Opcode.call, []⟩
        (gas :: callee :: value :: offset :: size :: returnOffset :: returnSize :: stack) frame =
      let call : Call :=
        ⟨gas, .ofNat 20 callee.toNat, value, frame.memory.image.read offset.toNat size.toNat,
          returnOffset, returnSize⟩
      .next (flag (host.answer call frame.world).success :: stack) (frame.afterCall host offset call) :=
  rfl

theorem perform_pushNarrow {value : Nat} (h : value < 2 ^ 256) (stack : List Word)
    (frame : Frame World) :
    perform (usual host) (.pushNarrow value) stack frame = .next (BitVec.ofNat 256 value :: stack) frame := by
  have hwidth : byteWidth value ≤ 32 := (byteWidth_le_iff (by decide)).2 (h.trans_eq (by norm_num))
  exact perform_push (byteWidth_pos value) hwidth ((byteWidth_le_iff (byteWidth_pos value)).1 le_rfl)
    stack frame

theorem performAll_append {Env : Type} {meaning : Meaning Env} (a b : List Operation)
    (stack : List Word) (env : Env) :
    performAll meaning (a ++ b) stack env =
      (performAll meaning a stack env).bind (performAll meaning b) := by
  induction a generalizing stack env with
  | nil => rfl
  | cons op a ih =>
    rw [List.cons_append, performAll_cons, performAll_cons]
    cases perform meaning op stack env with
    | next stack env => exact ih stack env
    | stop => rfl
    | fault => rfl

end Lemmas

end EvmSandbox.Machine
