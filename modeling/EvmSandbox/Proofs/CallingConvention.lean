/-
The calling convention of the sequences that stand for instructions, where they
run. A sequence makes one call, to the manager, without value and with all gas
that is left; it hands over the selector, the words in the order in which the
instruction pops them, and as many bytes as its memory region has
(`calling_convention`).

The bytes of the region are read after the selector and the words that are
popped before it have been written at the end of the memory in use. A region
inside the memory in use is handed over as it was. One that reaches behind it
contains what has been written there, where the instruction itself would have
read zeros (`forwarded_region`, `create_forwards_selector`).
-/
import EvmSandbox.Proofs.ManagerRun

namespace EvmSandbox.ManagerCall

open Machine
open Operation (At)
open Instruction (locate)

section Convention

variable {World : Type} (host : Host World)

/-- The operations do in any code what they do one after the other. -/
theorem reaches_operations {call : ManagerCall} (hheader : call.headerLength < 2 ^ 256)
    {manager : Address} {stack stack' : List Word} {frame after : Frame World}
    (h : performAll (usual host) (call.operations manager) stack frame = .next stack' after)
    {ops : List Operation} {pc : Nat} (hat : At ops pc (call.operations manager)) :
    Reaches (usual host) (locate 0 ops) ⟨pc, stack, frame⟩
      ⟨pc + (call.encode manager).length, stack', after⟩ := by
  have hstraight : ((call.operations manager).any fun op => Opcode.isJump op.code) = false := by
    refine List.any_eq_false.2 fun op hop => ?_
    rw [(operations_spec_of_header (hheader.trans_eq (by norm_num)) hop).2.1]
    exact Bool.false_ne_true
  exact reaches_of_straight hat (operations_ne_nil call manager) hstraight h

/-- `performAll_operations` for the sequence in any code. -/
theorem exists_run {call : ManagerCall} {operands : List Operand} (htakes : call.Takes operands)
    (manager : Address) (region : Word × Word) (rest : List Word) (frame : Frame World)
    (hfit : frame.memory.size + call.headerLength + (operands.map Operand.size).sum < 2 ^ 256) :
    ∃ memory memory' : Memory,
      let request := outgoing host call manager operands region frame memory
      let answer := host.answer request frame.world
      memory.image = frame.memory.image.write frame.memory.size request.data ∧
      memory'.image = memory.image.write request.returnOffset.toNat
        (answer.data.take request.returnSize.toNat) ∧
      ∀ ops pc, At ops pc (call.operations manager) →
        Reaches (usual host) (locate 0 ops)
          ⟨pc, operands.flatMap Operand.entries ++ (call.output.entries region ++ rest), frame⟩
          ⟨pc + (call.encode manager).length,
            call.output.results frame.memory.size memory'.image answer.success ++ rest,
            ⟨memory', answer.world, frame.calls ++ [request]⟩⟩ := by
  obtain ⟨memory, memory', himage, himage', hrun⟩ :=
    performAll_operations host htakes manager region rest frame hfit
  have hheader : call.headerLength < 2 ^ 256 := by omega
  exact ⟨memory, memory', himage, himage', fun _ _ hat => reaches_operations host hheader hrun hat⟩

/-! ## The call and its result -/

/-- What an instruction leaves on the stack above `rest`, after a call that was answered. -/
inductive Leaves (request : Call) (answer : Answer World) (region : Word × Word) (rest : List Word) :
    Output → List Word → Prop where
  | none : Leaves request answer region rest .none rest
  | word {value : Word} (h : 32 ≤ answer.data.length → value = wordOfBytes (answer.data.take 32)) :
    Leaves request answer region rest .word (value :: rest)
  | callStatus (hregion : (request.returnOffset, request.returnSize) = region) :
    Leaves request answer region rest .callStatus (flag answer.success :: rest)

/-- How a sequence that starts in `frame` calls the manager, and the stack and the frame at its
end. -/
structure Convention (call : ManagerCall) (manager : Address) (operands : List Operand)
    (region : Word × Word) (rest : List Word) (frame : Frame World) (request : Call)
    (stack : List Word) (after : Frame World) : Prop where
  calls : after.calls = frame.calls ++ [request]
  world : after.world = (host.answer request frame.world).world
  callee : request.callee = manager
  value : request.value = 0
  /-- The gas is what is left when the call data have been written. -/
  gas : ∃ memory : Memory, request.gas = host.gas { frame with memory := memory } ∧
    memory.image = frame.memory.image.write frame.memory.size request.data
  header : call.selector.bytes ++ operands.flatMap Operand.slot <+: request.data
  length : request.data.length = call.headerLength + (operands.map Operand.size).sum
  leaves : Leaves request (host.answer request frame.world) region rest call.output stack
  /-- The memory that was in use stays, except for the return region that the instruction names. -/
  live : ∀ address < frame.memory.size,
    (call.output = .callStatus →
      address < region.1.toNat ∨ region.1.toNat + region.2.toNat ≤ address) →
    after.memory.image address = frame.memory.image address
  /-- The data returned are in the return region that the instruction names. -/
  returned : call.output = .callStatus →
    let data := (host.answer request frame.world).data.take region.2.toNat
    after.memory.image.read region.1.toNat data.length = data

/-- A manager that answers with the first word of the call data. -/
def echoing : Host Unit where
  gas := fun _ => 0
  answer := fun call world => ⟨true, call.data.take 32, world⟩
  other := fun _ _ _ => .fault

/-- One word of memory is in use. -/
def oneWordFrame : Frame Unit :=
  ⟨Memory.empty.write 0 (wordBytes 0x1234), (), []⟩

variable {host} {call : ManagerCall} {manager : Address} {operands : List Operand}
  {region : Word × Word} {frame : Frame World} {memory : Memory}

theorem leaves_results (hbase : frame.memory.size < 2 ^ 256) (image : Image) (rest : List Word) :
    let request := outgoing host call manager operands region frame memory
    let answer := host.answer request frame.world
    Leaves request answer region rest call.output
      (call.output.results frame.memory.size (image.write request.returnOffset.toNat
        (answer.data.take request.returnSize.toNat)) answer.success ++ rest) := by
  intro request answer
  have hoffset : request.returnOffset = (call.output.returnRegion frame.memory.size region).1 := rfl
  have hsize : request.returnSize = (call.output.returnRegion frame.memory.size region).2 := rfl
  rw [hoffset, hsize]
  cases houtput : call.output with
  | none => exact .none
  | word =>
    refine .word fun h => ?_
    have htake : (answer.data.take 32).length = 32 := by rw [List.length_take, Nat.min_eq_left h]
    have hread := image.read_write frame.memory.size (answer.data.take 32)
    rw [htake] at hread
    simp only [Output.returnRegion, toNat_ofNat_word hbase]
    exact congrArg wordOfBytes hread
  | callStatus =>
    refine .callStatus ?_
    rw [hoffset, hsize, houtput]
    rfl

/-- Data that are returned elsewhere than to the region that the instruction names go behind the
memory in use. -/
theorem write_returned_live (hbase : frame.memory.size < 2 ^ 256) (image : Image) (data : Bytes)
    {address : Nat} (h : address < frame.memory.size)
    (hregion : call.output = .callStatus →
      address < region.1.toNat ∨ region.1.toNat + region.2.toNat ≤ address) :
    image.write (call.output.returnRegion frame.memory.size region).1.toNat
        (data.take (call.output.returnRegion frame.memory.size region).2.toNat) address =
      image address := by
  have hle := List.length_take_le (call.output.returnRegion frame.memory.size region).2.toNat data
  refine image.write_outside ?_
  cases houtput : call.output with
  | none => simp [Output.returnRegion]
  | word =>
    left
    rw [Output.returnRegion, toNat_ofNat_word hbase]
    exact h
  | callStatus =>
    rw [houtput, Output.returnRegion] at hle
    rcases hregion houtput with hbefore | hbehind
    · exact .inl hbefore
    · exact .inr (by rw [Output.returnRegion]; omega)

variable (host) in
/-- **The calling convention.** Whatever the call takes, in whatever code its sequence stands, and
whatever is on the stack below the operands and in the memory: the sequence runs to its end and
calls the manager once, as `Convention` says. Its bytes are read as its operations. -/
theorem calling_convention (htakes : call.Takes operands) (manager : Address) (region : Word × Word)
    (rest : List Word) (frame : Frame World)
    (hfit : frame.memory.size + call.headerLength + (operands.map Operand.size).sum < 2 ^ 256) :
    ((call.encode manager).length ≤ maxCodeLength →
      Instruction.decode (call.encode manager) = .ok (locate 0 (call.operations manager))) ∧
    ∃ request stack after,
      (∀ ops pc, At ops pc (call.operations manager) →
        Reaches (usual host) (locate 0 ops)
          ⟨pc, operands.flatMap Operand.entries ++ (call.output.entries region ++ rest), frame⟩
          ⟨pc + (call.encode manager).length, stack, after⟩) ∧
      Convention host call manager operands region rest frame request stack after := by
  have hbase : frame.memory.size < 2 ^ 256 := by omega
  have hone : (operands.map Operand.arg).count .memory ≤ 1 := htakes.args ▸ htakes.one
  refine ⟨fun hlength => Instruction.decode_eq_ok_iff.2
    ⟨hlength, _, fun op hop => (operations_spec hlength hop).1, rfl, rfl⟩, ?_⟩
  obtain ⟨memory, memory', himage, himage', hrun⟩ := exists_run host htakes manager region rest frame hfit
  refine ⟨outgoing host call manager operands region frame memory, _, _, hrun, ?_⟩
  exact {
    calls := rfl
    world := rfl
    callee := rfl
    value := rfl
    gas := ⟨memory, rfl, himage⟩
    header := List.prefix_append _ _
    length := by
      refine (Operand.length_callData _ _ _ _ hone).trans ?_
      rw [call.selector.length_eq, htakes.args]
      rfl
    leaves := by
      rw [himage']
      exact leaves_results hbase memory.image rest
    live := by
      intro address hlt hregion
      refine (congrFun himage' address).trans ?_
      refine (write_returned_live hbase memory.image _ hlt hregion).trans ?_
      rw [himage, Image.write_outside _ (.inl hlt)]
    returned := by
      intro houtput
      have hreturn : call.output.returnRegion frame.memory.size region = region := by
        rw [houtput]
        rfl
      simp only [outgoing, hreturn] at himage'
      simp only [outgoing, hreturn, himage', Image.read_write] }

/-- `CREATE2` as the manager has it, on memory in use, with a manager that answers with the first
word of the call data. -/
theorem calling_convention_create2 :
    let call : ManagerCall := ⟨.ofNat 4 0x005f389a, [.word, .memory, .word], .word⟩
    let operands : List Operand := [.word 5, .region 16 40, .word 7]
    (Opcode.create2, call) ∈ standard ∧
    ((call.encode (.ofNat 20 0xee)).length ≤ maxCodeLength →
      Instruction.decode (call.encode (.ofNat 20 0xee)) =
        .ok (locate 0 (call.operations (.ofNat 20 0xee)))) ∧
    ∃ request stack after,
      (∀ ops pc, At ops pc (call.operations (.ofNat 20 0xee)) →
        Reaches (usual echoing) (locate 0 ops)
          ⟨pc, operands.flatMap Operand.entries ++ (call.output.entries (0, 0) ++ [9]), oneWordFrame⟩
          ⟨pc + (call.encode (.ofNat 20 0xee)).length, stack, after⟩) ∧
      Convention echoing call (.ofNat 20 0xee) operands (0, 0) [9] oneWordFrame request stack after :=
  ⟨by decide, calling_convention echoing ⟨rfl, by decide, by decide⟩ _ _ _ _ (by decide +kernel)⟩

end Convention

/-! ## The bytes of a memory region -/

/-- `payload` is what is in the region when `written` stands at the end of the memory in use. -/
structure Forwards (memory : Memory) (written : Bytes) (offset size : Nat) (payload : Bytes) : Prop where
  length : payload.length = size
  byte : ∀ i < size, payload[i]? = some
    (if offset + i < memory.size then memory.image (offset + i)
      else written[offset + i - memory.size]?.getD 0)
  /-- These are the bytes from before, exactly if the region meets only zeros of what is written. -/
  exact_iff : payload = memory.image.read offset size ↔
    ∀ i byte, written[i]? = some byte → offset ≤ memory.size + i → memory.size + i < offset + size →
      byte = 0
  inside : offset + size ≤ memory.size → payload = memory.image.read offset size

theorem write_end_apply (memory : Memory) (written : Bytes) (address : Nat) :
    memory.image.write memory.size written address =
      if address < memory.size then memory.image address
      else written[address - memory.size]?.getD 0 := by
  rw [Image.write]
  by_cases h : address < memory.size
  · rw [if_pos h, if_neg (by omega)]
  · rw [if_neg h, if_pos (by omega), memory.fresh address (by omega)]

/-- What was written at the end of the memory is seen in a region unless it is zero there. -/
theorem read_write_end_iff (memory : Memory) (written : Bytes) (offset size : Nat) :
    (memory.image.write memory.size written).read offset size = memory.image.read offset size ↔
      ∀ i byte, written[i]? = some byte → offset ≤ memory.size + i → memory.size + i < offset + size →
        byte = 0 := by
  rw [Image.read, Image.read, List.map_inj_left]
  constructor
  · intro h i byte hbyte hle hlt
    have hmem : memory.size + i - offset ∈ List.range size := List.mem_range.2 (by omega)
    have heq := h _ hmem
    rw [Nat.add_sub_cancel' hle, Image.write_inside _ hbyte,
      memory.fresh _ (Nat.le_add_right _ _)] at heq
    exact heq
  · intro h i hi
    rw [List.mem_range] at hi
    rw [write_end_apply]
    by_cases hin : offset + i < memory.size
    · rw [if_pos hin]
    · rw [if_neg hin, memory.fresh _ (by omega)]
      cases hbyte : written[offset + i - memory.size]? with
      | none => rfl
      | some byte => exact h _ byte hbyte (by omega) (by omega)

theorem forwards_read (memory : Memory) (written : Bytes) (offset size : Nat) :
    Forwards memory written offset size
      ((memory.image.write memory.size written).read offset size) where
  length := Image.length_read _ _ _
  byte := fun i hi => by rw [Image.getElem?_read _ hi, write_end_apply]
  exact_iff := read_write_end_iff memory written offset size
  inside := fun h => (read_write_end_iff memory written offset size).2 fun i _ _ _ hlt => by omega

/-- **What is handed over of a memory region.** Of the region's bytes, those in the memory in use are
handed over as they are, and those behind it as they are once the selector and the words before the
region have been written there. -/
theorem forwarded_region {World : Type} (host : Host World) {call : ManagerCall}
    {operands : List Operand} (hargs : operands.map Operand.arg = call.args)
    (hone : call.args.count .memory = 1) (manager : Address) (region : Word × Word)
    (rest : List Word) (frame : Frame World)
    (hfit : frame.memory.size + call.headerLength + (operands.map Operand.size).sum < 2 ^ 256) :
    ∃ (before : List Word) (offset size : Word) (after : List Word) (request : Call)
        (stack : List Word) (last : Frame World),
      operands = before.map Operand.word ++ .region offset size :: after.map Operand.word ∧
      (∀ ops pc, At ops pc (call.operations manager) →
        Reaches (usual host) (locate 0 ops)
          ⟨pc, operands.flatMap Operand.entries ++ (call.output.entries region ++ rest), frame⟩
          ⟨pc + (call.encode manager).length, stack, last⟩) ∧
      last.calls = frame.calls ++ [request] ∧
      Forwards frame.memory (call.selector.bytes ++ before.flatMap wordBytes) offset.toNat size.toNat
        (request.data.drop call.headerLength) := by
  have htakes : call.Takes operands := ⟨hargs, hone.le, fun _ => hone⟩
  obtain ⟨before, offset, size, after, rfl⟩ := Operand.exists_split (hargs ▸ hone)
  obtain ⟨memory, memory', -, -, hrun⟩ := exists_run host htakes manager region rest frame hfit
  refine ⟨before, offset, size, after, outgoing host call manager _ region frame memory, _, _, rfl, hrun,
    rfl, ?_⟩
  have hheader : call.headerLength =
      (call.selector.bytes ++ (before ++ after).flatMap wordBytes).length := by
    rw [headerLength, wordCount, ← hargs, List.map_append, List.map_cons, Operand.arg, List.count_append,
      List.count_cons_of_ne (by decide), Operand.count_word_words, Operand.count_word_words,
      List.length_append, call.selector.length_eq, Operand.length_flatMap_wordBytes, List.length_append]
  have hdata : (outgoing host call manager (before.map Operand.word ++
      .region offset size :: after.map Operand.word) region frame memory).data.drop call.headerLength =
        (frame.memory.image.write frame.memory.size
          (call.selector.bytes ++ before.flatMap wordBytes)).read offset.toNat size.toNat := by
    rw [outgoing, Operand.callData_split, hheader, List.drop_left]
  rw [hdata]
  exact forwards_read _ _ _ _

/-- `CALL` as the manager has it, with a region that begins in the memory in use and ends behind
it. -/
theorem forwarded_region_call :
    let call : ManagerCall := ⟨.ofNat 4 0x5b99d1c5, [.word, .word, .word, .memory], .callStatus⟩
    let operands : List Operand := [.word 1, .word 2, .word 3, .region 16 40]
    (Opcode.call, call) ∈ standard ∧ call.args.count .memory = 1 ∧
    ∃ (before : List Word) (offset size : Word) (after : List Word) (request : Call)
        (stack : List Word) (last : Frame Unit),
      operands = before.map Operand.word ++ .region offset size :: after.map Operand.word ∧
      (∀ ops pc, At ops pc (call.operations (.ofNat 20 0xee)) →
        Reaches (usual echoing) (locate 0 ops)
          ⟨pc, operands.flatMap Operand.entries ++ (call.output.entries (0, 32) ++ [9]), oneWordFrame⟩
          ⟨pc + (call.encode (.ofNat 20 0xee)).length, stack, last⟩) ∧
      last.calls = oneWordFrame.calls ++ [request] ∧
      Forwards oneWordFrame.memory (call.selector.bytes ++ before.flatMap wordBytes) offset.toNat
        size.toNat (request.data.drop call.headerLength) :=
  ⟨by decide, by decide,
    forwarded_region echoing rfl (by decide) _ _ _ _ (by decide +kernel)⟩

/-- A `CREATE` of 32 bytes of memory that is not in use hands over the selector, where the
instruction itself would have read zeros. -/
theorem create_forwards_selector :
    let call : ManagerCall := ⟨.ofNat 4 0x116bb8c8, [.word, .memory], .word⟩
    (Opcode.create, call) ∈ standard ∧
    ∃ request stack last,
      Reaches (usual echoing) (locate 0 (call.operations (.ofNat 20 0xee)))
        ⟨0, [0, 0, 32], ⟨Memory.empty, (), []⟩⟩
        ⟨(call.encode (.ofNat 20 0xee)).length, stack, last⟩ ∧
      last.calls = [request] ∧
      request.data.drop call.headerLength =
        [0x11, 0x6b, 0xb8, 0xc8] ++ List.replicate 28 0 ∧
      request.data.drop call.headerLength ≠ Memory.empty.image.read 0 32 := by
  intro call
  have htakes : call.Takes [.word 0, .region 0 32] := ⟨rfl, by decide, by decide⟩
  obtain ⟨memory, _, -, -, hrun⟩ := exists_run echoing htakes (.ofNat 20 0xee) (0, 0) []
    ⟨Memory.empty, (), []⟩ (by decide +kernel)
  have hat : At (call.operations (.ofNat 20 0xee)) 0 (call.operations (.ofNat 20 0xee)) :=
    ⟨[], [], by simp, rfl⟩
  have hreaches := hrun _ 0 hat
  rw [Nat.zero_add] at hreaches
  have hpayload : (Operand.callData Memory.empty.image 0 (FixedBytes.ofNat 4 0x116bb8c8).bytes
      [.word 0, .region 0 32]).drop 36 = [0x11, 0x6b, 0xb8, 0xc8] ++ List.replicate 28 0 := by
    decide +kernel
  exact ⟨by decide, outgoing echoing call _ _ _ _ memory, _, _, hreaches, rfl, hpayload,
    fun h => absurd (hpayload.symm.trans h) (by decide +kernel)⟩

end EvmSandbox.ManagerCall
