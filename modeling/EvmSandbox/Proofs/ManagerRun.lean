/-
A call to the manager, as the machine runs it. Up to the call the sequence does
nothing but write the call data at the end of the memory in use
(`performAll_storeOperands`): the selector, the words in the order in which they
are popped, and behind them the bytes of the memory region, as they are when it
is the region's turn. The call then takes these data, and what is left on the
stack is what the instruction leaves.
-/
import EvmSandbox.Proofs.HostMachine
import EvmSandbox.Proofs.ManagerSequence

namespace EvmSandbox.ManagerCall

open Machine

/-! ## Operands -/

/-- An operand of an instruction. -/
inductive Operand where
  | word (value : Word)
  | region (offset size : Word)

namespace Operand

def arg : Operand → Arg
  | .word _ => .word
  | .region _ _ => .memory

/-- The operand on the stack, top first. -/
def entries : Operand → List Word
  | .word value => [value]
  | .region offset size => [offset, size]

/-- What the operand adds to the header of the call data. -/
def slot : Operand → Bytes
  | .word value => wordBytes value
  | .region _ _ => []

/-- The number of bytes that the operand adds behind the header. -/
def size : Operand → Nat
  | .word _ => 0
  | .region _ size => size.toNat

/-- The bytes of the memory region among the operands. They are read when the words before the
region have been written behind `head` at `base`. -/
def payload (image : Image) (base : Nat) (head : Bytes) : List Operand → Bytes
  | [] => []
  | .word value :: rest => payload image base (head ++ wordBytes value) rest
  | .region offset size :: _ => (image.write base head).read offset.toNat size.toNat

theorem length_flatMap_wordBytes (values : List Word) :
    (values.flatMap wordBytes).length = 32 * values.length := by
  simp [List.length_flatMap, Nat.mul_comm]

theorem count_word_words (values : List Word) :
    ((values.map word).map arg).count .word = values.length := by
  simp [Function.comp_def, arg]

theorem flatMap_entries_words (values : List Word) : (values.map word).flatMap entries = values := by
  simp [List.flatMap_map, entries]

theorem sum_size_words (values : List Word) : ((values.map word).map size).sum = 0 := by
  simp [Function.comp_def, size]

/-- Operands of which none is a region are words. -/
theorem exists_words {operands : List Operand} (h : (operands.map arg).count .memory = 0) :
    ∃ values : List Word, operands = values.map .word := by
  induction operands with
  | nil => exact ⟨[], rfl⟩
  | cons operand rest ih =>
    cases operand with
    | word value =>
      obtain ⟨values, rfl⟩ := ih (by simpa [arg] using h)
      exact ⟨value :: values, rfl⟩
    | region offset size => simp [arg] at h

/-- If one of the operands is a region, those before and behind it are words. -/
theorem exists_split {operands : List Operand} (h : (operands.map arg).count .memory = 1) :
    ∃ (before : List Word) (offset size : Word) (after : List Word),
      operands = before.map word ++ region offset size :: after.map word := by
  induction operands with
  | nil => simp at h
  | cons operand rest ih =>
    cases operand with
    | word value =>
      obtain ⟨before, offset, size, after, rfl⟩ := ih (by simpa [arg] using h)
      exact ⟨value :: before, offset, size, after, rfl⟩
    | region offset size =>
      rw [List.map_cons, arg, List.count_cons_self, Nat.add_eq_right] at h
      obtain ⟨after, rfl⟩ := exists_words h
      exact ⟨[], offset, size, after, rfl⟩

/-- The call data for operands that go behind `head`, at `base`. -/
def callData (image : Image) (base : Nat) (head : Bytes) (operands : List Operand) : Bytes :=
  head ++ operands.flatMap slot ++ payload image base head operands

@[simp] theorem callData_nil (image : Image) (base : Nat) (head : Bytes) :
    callData image base head [] = head := by
  simp [callData, payload]

@[simp] theorem callData_word (image : Image) (base : Nat) (head : Bytes) (value : Word)
    (operands : List Operand) :
    callData image base head (.word value :: operands) =
      callData image base (head ++ wordBytes value) operands := by
  simp [callData, payload, slot]

theorem callData_region (image : Image) (base : Nat) (head : Bytes) (offset size : Word)
    (values : List Word) :
    callData image base head (.region offset size :: values.map .word) =
      head ++ values.flatMap wordBytes ++ (image.write base head).read offset.toNat size.toNat := by
  simp [callData, payload, slot, List.flatMap_map]

theorem callData_split (image : Image) (base : Nat) (offset size : Word) (after : List Word) :
    ∀ (before : List Word) (head : Bytes),
      callData image base head (before.map word ++ region offset size :: after.map word) =
        head ++ (before ++ after).flatMap wordBytes ++
          (image.write base (head ++ before.flatMap wordBytes)).read offset.toNat size.toNat
  | [], head => by simpa using callData_region image base head offset size after
  | value :: before, head => by
    have ih := callData_split image base offset size after before (head ++ wordBytes value)
    simpa using ih

theorem length_callData (image : Image) (base : Nat) :
    ∀ (operands : List Operand) (head : Bytes), (operands.map arg).count .memory ≤ 1 →
      (callData image base head operands).length =
        head.length + 32 * (operands.map arg).count .word + (operands.map size).sum
  | [], head, _ => by simp
  | .word value :: operands, head, h => by
    have ih := length_callData image base operands (head ++ wordBytes value) (by simpa [arg] using h)
    rw [callData_word, ih, List.length_append, length_wordBytes, List.map_cons, List.map_cons, arg,
      List.count_cons_self, List.sum_cons, size]
    omega
  | .region offset size :: operands, head, h => by
    rw [List.map_cons, arg, List.count_cons_self] at h
    obtain ⟨values, rfl⟩ := exists_words (show (operands.map arg).count .memory = 0 by omega)
    rw [callData_region, List.map_cons, List.map_cons, arg, List.count_cons_of_ne (by decide),
      count_word_words, List.sum_cons, sum_size_words, List.length_append, List.length_append,
      length_flatMap_wordBytes, Image.length_read]
    rfl

end Operand

/-! ## Numbers on the stack -/

theorem toNat_ofNat_word {n : Nat} (h : n < 2 ^ 256) : (BitVec.ofNat 256 n).toNat = n := by
  rw [BitVec.toNat_ofNat, Nat.mod_eq_of_lt h]

theorem toNat_add_word {n : Nat} {w : Word} (h : n + w.toNat < 2 ^ 256) :
    (BitVec.ofNat 256 n + w).toNat = n + w.toNat := by
  rw [BitVec.toNat_add, BitVec.toNat_ofNat, Nat.mod_add_mod, Nat.mod_eq_of_lt h]

theorem toNat_add_base {n base : Nat} (h : base + n < 2 ^ 256) :
    (BitVec.ofNat 256 n + BitVec.ofNat 256 base).toNat = base + n := by
  have hbase : (BitVec.ofNat 256 base).toNat = base := toNat_ofNat_word (by omega)
  rw [toNat_add_word (by omega), hbase, Nat.add_comm]

section Run

variable {World : Type} (host : Host World)

/-! ## The call data -/

theorem performAll_prologue (selector : FixedBytes 4) (stack : List Word) (frame : Frame World)
    (h : frame.memory.size < 2 ^ 256) :
    performAll (usual host) (prologue selector) stack frame =
      .next (BitVec.ofNat 256 frame.memory.size :: stack)
        { frame with
          memory := frame.memory.write frame.memory.size (selector.bytes ++ List.replicate 28 0) } := by
  have hbytes : wordBytes (wordOfBytes (selector.bytes ++ List.replicate 28 0)) =
      selector.bytes ++ List.replicate 28 0 :=
    wordBytes_wordOfBytes (by simp [selector.length_eq])
  have hpush : ∀ stack, perform (usual host) ⟨Opcode.push32, selector.bytes ++ List.replicate 28 0⟩
      stack frame = .next (wordOfBytes (selector.bytes ++ List.replicate 28 0) :: stack) frame :=
    fun stack => perform_of_isPush rfl stack frame
  simp only [prologue, performAll_cons, performAll_nil, perform_msize, hpush, perform_dup2,
    perform_mstore, bind_next, Frame.store, hbytes, toNat_ofNat_word h]

/-- A word operand is stored in its slot, whether or not the size of a region lies on the stack. -/
theorem performAll_storeWord (size? : Option Word) {base slot : Nat}
    (h : base + (4 + 32 * slot) < 2 ^ 256) (value : Word) (stack : List Word) (frame : Frame World) :
    performAll (usual host) (storeWord size?.isSome slot)
        (BitVec.ofNat 256 base :: (size?.toList ++ value :: stack)) frame =
      .next (BitVec.ofNat 256 base :: (size?.toList ++ stack))
        { frame with memory := frame.memory.write (base + (4 + 32 * slot)) (wordBytes value) } := by
  have hslot : 4 + 32 * slot < 2 ^ 256 := by omega
  cases size? <;> simp [storeWord, perform_pushNarrow hslot, Frame.store, toNat_add_base h]

theorem performAll_copyMemory {header base : Nat} (h : base + header < 2 ^ 256)
    (offset size : Word) (stack : List Word) (frame : Frame World) :
    performAll (usual host) (copyMemory header)
        (BitVec.ofNat 256 base :: offset :: size :: stack) frame =
      .next (BitVec.ofNat 256 base :: size :: stack)
        { frame with
          memory := (frame.memory.touch offset.toNat size.toNat).write (base + header)
            (frame.memory.image.read offset.toNat size.toNat) } := by
  have hheader : header < 2 ^ 256 := by omega
  simp [copyMemory, perform_pushNarrow hheader, Machine.Frame.copy, toNat_add_base h]

/-- A run of words goes into the slots from `slot` on. -/
theorem performAll_storeWords (header base : Nat) (size? : Option Word) (stack : List Word) :
    ∀ (values : List Word) (slot : Nat) (frame : Frame World),
      base + (4 + 32 * (slot + values.length)) < 2 ^ 256 →
      ∃ memory, performAll (usual host)
          (storeArgs header size?.isSome slot ((values.map Operand.word).map Operand.arg))
          (BitVec.ofNat 256 base :: (size?.toList ++ (values ++ stack))) frame =
        .next (BitVec.ofNat 256 base :: (size?.toList ++ stack)) { frame with memory := memory } ∧
        memory.image =
          frame.memory.image.write (base + (4 + 32 * slot)) (values.flatMap wordBytes)
  | [], slot, frame, _ => ⟨frame.memory, rfl, by simp⟩
  | value :: values, slot, frame, h => by
    rw [List.length_cons] at h
    have hslot : base + (4 + 32 * slot) < 2 ^ 256 := by omega
    have hfirst := performAll_storeWord host size? hslot value (values ++ stack) frame
    obtain ⟨memory, hrun, himage⟩ := performAll_storeWords header base size? stack values (slot + 1)
      { frame with memory := frame.memory.write (base + (4 + 32 * slot)) (wordBytes value) } (by omega)
    refine ⟨memory, ?_, ?_⟩
    · rw [List.map_cons, List.map_cons, Operand.arg, storeArgs, performAll_append, List.cons_append, hfirst,
        bind_next, hrun]
    · have hnext : base + (4 + 32 * (slot + 1)) =
          base + (4 + 32 * slot) + (wordBytes value).length := by
        rw [length_wordBytes]
        omega
      rw [himage, Memory.image_write, hnext, Image.write_append, List.flatMap_cons]

/-- What moving the operands into the call data does. The invariant of the recursion is that the
memory holds `head` at `base`, and `image` elsewhere. -/
theorem performAll_storeOperands (image : Image) {header base : Nat} (hfit : base + header < 2 ^ 256)
    (stack : List Word) :
    ∀ (operands : List Operand) (slot : Nat) (head : Bytes) (frame : Frame World),
      (operands.map Operand.arg).count .memory ≤ 1 → head.length = 4 + 32 * slot →
      header = 4 + 32 * (slot + (operands.map Operand.arg).count .word) →
      frame.memory.image = image.write base head →
      ∃ size? memory, performAll (usual host) (storeArgs header false slot (operands.map Operand.arg))
          (BitVec.ofNat 256 base :: (operands.flatMap Operand.entries ++ stack)) frame =
        .next (BitVec.ofNat 256 base :: (Option.toList size? ++ stack)) { frame with memory := memory } ∧
        memory.image = image.write base (Operand.callData image base head operands) ∧
        Option.isSome size? = (operands.map Operand.arg).contains .memory ∧
        Option.elim size? 0 BitVec.toNat = (operands.map Operand.size).sum
  | [], slot, head, frame, _, _, _, himage => ⟨none, frame.memory, rfl, by simpa using himage, rfl, rfl⟩
  | .word value :: operands, slot, head, frame, hone, hhead, hheader, himage => by
    have hrest : (operands.map Operand.arg).count .memory ≤ 1 := by simpa [Operand.arg] using hone
    have hnext : header = 4 + 32 * (slot + 1 + (operands.map Operand.arg).count .word) := by
      rw [List.map_cons, Operand.arg, List.count_cons_self] at hheader
      omega
    have hslot : base + (4 + 32 * slot) < 2 ^ 256 := by omega
    have hfirst := performAll_storeWord host none hslot value
      (operands.flatMap Operand.entries ++ stack) frame
    have hstored : (frame.memory.write (base + (4 + 32 * slot)) (wordBytes value)).image =
        image.write base (head ++ wordBytes value) := by
      rw [Memory.image_write, himage, ← hhead, Image.write_append]
    have hlength : (head ++ wordBytes value).length = 4 + 32 * (slot + 1) := by
      rw [List.length_append, hhead, length_wordBytes]
      omega
    obtain ⟨size?, memory, hrun, hmemory, hsome, hsize⟩ := performAll_storeOperands image hfit stack
      operands (slot + 1) (head ++ wordBytes value)
      { frame with memory := frame.memory.write (base + (4 + 32 * slot)) (wordBytes value) }
      hrest hlength hnext hstored
    refine ⟨size?, memory, ?_, ?_, ?_, ?_⟩
    · rw [List.map_cons, Operand.arg, storeArgs, performAll_append, List.flatMap_cons, Operand.entries]
      exact (congrArg (Effect.bind · _) hfirst).trans hrun
    · rw [hmemory, Operand.callData_word]
    · rw [hsome]
      simp [Operand.arg]
    · rw [hsize]
      simp [Operand.size]
  | .region offset size :: operands, slot, head, frame, hone, hhead, hheader, himage => by
    have hnone : (operands.map Operand.arg).count .memory = 0 := by
      rw [List.map_cons, Operand.arg, List.count_cons_self] at hone
      omega
    -- Behind the region there are words only.
    obtain ⟨values, rfl⟩ := Operand.exists_words hnone
    have hend : header = (head ++ values.flatMap wordBytes).length := by
      rw [hheader, List.map_cons, Operand.arg, List.count_cons_of_ne (by decide),
        Operand.count_word_words, List.length_append, hhead, Operand.length_flatMap_wordBytes]
      omega
    have hcopy := performAll_copyMemory host hfit offset size (values ++ stack) frame
    obtain ⟨memory, hrun, hmemory⟩ := performAll_storeWords host header base (some size) stack values slot
      { frame with
        memory := (frame.memory.touch offset.toNat size.toNat).write (base + header)
          (frame.memory.image.read offset.toNat size.toNat) }
      (by rw [hend, List.length_append, hhead, Operand.length_flatMap_wordBytes] at hfit; omega)
    refine ⟨some size, memory, ?_, ?_, ?_, ?_⟩
    · rw [List.map_cons, Operand.arg, storeArgs, performAll_append, List.flatMap_cons, Operand.entries,
        Operand.flatMap_entries_words]
      exact (congrArg (Effect.bind · _) hcopy).trans hrun
    · rw [hmemory, Memory.image_write, Memory.image_touch, himage, ← hhead, hend, Image.write_gap,
        Operand.callData_region]
    · simp [Operand.arg]
    · rw [List.map_cons, List.sum_cons, Operand.sum_size_words]
      rfl

/-! ## The call -/

theorem ofNat_word_address (address : Address) :
    FixedBytes.ofNat 20 (BitVec.ofNat 256 (Bytes.toNat address.bytes)).toNat = address := by
  have hlt : Bytes.toNat address.bytes < 2 ^ 256 := by
    have := Bytes.toNat_lt address.bytes
    rw [address.length_eq] at this
    exact this.trans (by norm_num)
  have hbytes := Bytes.ofNat_toNat address.bytes
  rw [address.length_eq] at hbytes
  simp [FixedBytes.ofNat, toNat_ofNat_word hlt, hbytes]

/-- The call of the manager: the data are at `base` in the memory. -/
def request (manager : Address) (frame : Frame World) (base length : Nat) (region : Word × Word) : Call :=
  ⟨host.gas frame, manager, 0, frame.memory.image.read base length, region.1, region.2⟩

theorem performAll_invoke (manager : Address) {base : Nat} (h : base < 2 ^ 256) (length : Word)
    (region : Word × Word) (stack : List Word) (frame : Frame World) :
    performAll (usual host) (invoke manager)
        (BitVec.ofNat 256 base :: length :: region.1 :: region.2 :: stack) frame =
      let call := request host manager frame base length.toNat region
      .next (flag (host.answer call frame.world).success :: stack)
        (frame.afterCall host (BitVec.ofNat 256 base) call) := by
  have hzero : 0 < 2 ^ 256 := by norm_num
  have hmanager : ∀ stack, perform (usual host) ⟨Opcode.push20, manager.bytes⟩ stack frame =
      .next (BitVec.ofNat 256 (Bytes.toNat manager.bytes) :: stack) frame :=
    fun stack => perform_of_isPush rfl stack frame
  simp only [invoke, performAll_cons, performAll_nil, perform_pushNarrow hzero, hmanager, perform_gas,
    perform_call, bind_next, ofNat_word_address, toNat_ofNat_word h, request]
  rfl

theorem performAll_pushLength (size? : Option Word) {header : Nat}
    (h : header + size?.elim 0 BitVec.toNat < 2 ^ 256) (a b c : Word) (stack : List Word)
    (frame : Frame World) :
    ∃ length, performAll (usual host) (pushLength header size?.isSome)
        (a :: b :: c :: (size?.toList ++ stack)) frame =
      .next (length :: a :: b :: c :: (size?.toList ++ stack)) frame ∧
      length.toNat = header + size?.elim 0 BitVec.toNat := by
  have hheader : header < 2 ^ 256 := by omega
  cases size? with
  | none => exact ⟨BitVec.ofNat 256 header, by simp [pushLength, perform_pushNarrow hheader], toNat_ofNat_word h⟩
  | some size =>
    exact ⟨BitVec.ofNat 256 header + size, by simp [pushLength, perform_pushNarrow hheader],
      toNat_add_word h⟩

theorem performAll_invokeAndDrop (manager : Address) (size? : Option Word) {header base : Nat}
    (hbase : base < 2 ^ 256) (hlength : header + size?.elim 0 BitVec.toNat < 2 ^ 256) (last : UInt8)
    (region : Word × Word) (stack : List Word) (frame : Frame World) :
    performAll (usual host) (invokeAndDrop manager header size?.isSome last)
        (region.1 :: region.2 :: BitVec.ofNat 256 base :: (size?.toList ++ stack)) frame =
      performAll (usual host) [⟨last, []⟩] (BitVec.ofNat 256 base :: stack)
        (frame.afterCall host (BitVec.ofNat 256 base)
          (request host manager frame base (header + size?.elim 0 BitVec.toNat) region)) := by
  obtain ⟨length, hpush, htoNat⟩ := performAll_pushLength host size? hlength region.1 region.2
    (BitVec.ofNat 256 base) stack frame
  have hinvoke := performAll_invoke host manager hbase length region
    (BitVec.ofNat 256 base :: (size?.toList ++ stack)) frame
  rw [htoNat] at hinvoke
  rw [invokeAndDrop, performAll_append, performAll_append, performAll_append, hpush, bind_next,
    performAll_cons, perform_dup4, bind_next, hinvoke]
  cases size? <;> simp

/-- What an instruction has on the stack behind its operands: `CALL` and its kind say where the data
go that are returned. -/
def Output.entries (region : Word × Word) : Output → List Word
  | .callStatus => [region.1, region.2]
  | .none | .word => []

/-- The return region of the call of the manager. -/
def Output.returnRegion (base : Nat) (region : Word × Word) : Output → Word × Word
  | .none => (0, 0)
  | .word => (BitVec.ofNat 256 base, 32)
  | .callStatus => region

/-- What is left on the stack after a call that returned with `image` in the memory. -/
def Output.results (base : Nat) (image : Image) (success : Bool) : Output → List Word
  | .none => []
  | .word => [wordOfBytes (image.read base 32)]
  | .callStatus => [flag success]

theorem performAll_epilogue (manager : Address) (output : Output) (size? : Option Word)
    {header base : Nat} (hstatus : output = .callStatus → size?.isSome = true) (hbase : base < 2 ^ 256)
    (hlength : header + size?.elim 0 BitVec.toNat < 2 ^ 256) (region : Word × Word) (stack : List Word)
    (frame : Frame World) :
    let call := request host manager frame base (header + size?.elim 0 BitVec.toNat)
      (output.returnRegion base region)
    let after := frame.afterCall host (BitVec.ofNat 256 base) call
    ∃ memory, performAll (usual host) (epilogue manager header size?.isSome output)
        (BitVec.ofNat 256 base :: (size?.toList ++ (output.entries region ++ stack))) frame =
      .next (output.results base after.memory.image (host.answer call frame.world).success ++ stack)
        { after with memory := memory } ∧
      memory.image = after.memory.image := by
  intro call after
  cases output with
  | none =>
    have hcall := performAll_invokeAndDrop host manager size? hbase hlength Opcode.pop (0, 0) stack frame
    refine ⟨after.memory, ?_, rfl⟩
    rw [epilogue, performAll_cons, perform_pushNarrow (by norm_num), bind_next, performAll_cons,
      perform_pushNarrow (by norm_num), bind_next]
    exact hcall.trans rfl
  | word =>
    have hcall := performAll_invokeAndDrop host manager size? hbase hlength Opcode.mload
      (BitVec.ofNat 256 base, 32) stack frame
    refine ⟨after.memory.touch base 32, ?_, rfl⟩
    rw [epilogue, performAll_cons, perform_pushNarrow (by norm_num), bind_next, performAll_cons,
      perform_dup2, bind_next]
    refine hcall.trans ?_
    rw [performAll_cons, perform_mload, bind_next, performAll_nil, toNat_ofNat_word hbase]
    rfl
  | callStatus =>
    obtain ⟨size, rfl⟩ := Option.isSome_iff_exists.1 (hstatus rfl)
    have hcall := performAll_invoke host manager hbase (BitVec.ofNat 256 header + size) region stack frame
    rw [toNat_add_word hlength] at hcall
    refine ⟨after.memory, ?_, rfl⟩
    have hheader : header < 2 ^ 256 := by omega
    simp only [epilogue, Output.entries, Option.toList_some, List.cons_append, List.nil_append,
      performAll_cons, perform_swap1, perform_pushNarrow hheader, perform_add, bind_next]
    exact hcall

/-! ## The whole sequence -/

/-- These are operands of an instruction for which the call can stand. -/
structure Takes (call : ManagerCall) (operands : List Operand) : Prop where
  args : operands.map Operand.arg = call.args
  one : call.args.count .memory ≤ 1
  status : call.output = .callStatus → call.args.count .memory = 1

theorem image_prologue (memory : Memory) (selector : FixedBytes 4) :
    (memory.write memory.size (selector.bytes ++ List.replicate 28 0)).image =
      memory.image.write memory.size selector.bytes := by
  have hzeros : ∀ address, memory.size + selector.bytes.length ≤ address →
      memory.image.write memory.size selector.bytes address = 0 := by
    intro address h
    rw [Image.write_outside _ (.inr h), memory.fresh address (by omega)]
  rw [Memory.image_write, ← Image.write_append, Image.write_zeros _ hzeros]

/-- The call that a sequence makes. It starts in `frame`, and `memory` is the memory when it calls. -/
def outgoing (call : ManagerCall) (manager : Address) (operands : List Operand) (region : Word × Word)
    (frame : Frame World) (memory : Memory) : Call :=
  let base := frame.memory.size
  let returned := call.output.returnRegion base region
  { gas := host.gas { frame with memory := memory }
    callee := manager
    value := 0
    data := Operand.callData frame.memory.image base call.selector.bytes operands
    returnOffset := returned.1
    returnSize := returned.2 }

/-- What a sequence does. `memory` is the memory when it calls, and `memory'` that at its end. -/
theorem performAll_operations {call : ManagerCall} {operands : List Operand} (htakes : call.Takes operands)
    (manager : Address) (region : Word × Word) (rest : List Word) (frame : Frame World)
    (hfit : frame.memory.size + call.headerLength + (operands.map Operand.size).sum < 2 ^ 256) :
    ∃ memory memory' : Memory,
      let request := outgoing host call manager operands region frame memory
      let answer := host.answer request frame.world
      memory.image = frame.memory.image.write frame.memory.size request.data ∧
      memory'.image = memory.image.write request.returnOffset.toNat
        (answer.data.take request.returnSize.toNat) ∧
      performAll (usual host) (call.operations manager)
          (operands.flatMap Operand.entries ++ (call.output.entries region ++ rest)) frame =
        .next (call.output.results frame.memory.size memory'.image answer.success ++ rest)
          ⟨memory', answer.world, frame.calls ++ [request]⟩ := by
  have hbase : frame.memory.size < 2 ^ 256 := by omega
  have hone : (operands.map Operand.arg).count .memory ≤ 1 := htakes.args ▸ htakes.one
  have hheader : call.headerLength = 4 + 32 * (0 + (operands.map Operand.arg).count .word) := by
    rw [htakes.args, Nat.zero_add]
    rfl
  obtain ⟨size?, memory, hstore, himage, hsome, hsize⟩ :=
    performAll_storeOperands host frame.memory.image (Nat.lt_of_le_of_lt (Nat.le_add_right _ _) hfit)
      (call.output.entries region ++ rest) operands 0 call.selector.bytes
      { frame with
        memory := frame.memory.write frame.memory.size (call.selector.bytes ++ List.replicate 28 0) }
      hone call.selector.length_eq hheader (image_prologue frame.memory call.selector)
  have hstatus : call.output = .callStatus → size?.isSome = true := by
    intro h
    rw [hsome, htakes.args, List.contains_iff_mem, ← List.count_pos_iff, htakes.status h]
    exact Nat.one_pos
  have hlength : call.headerLength + size?.elim 0 BitVec.toNat < 2 ^ 256 := by
    rw [hsize]
    omega
  obtain ⟨memory', hcall, himage'⟩ := performAll_epilogue host manager call.output size? hstatus hbase
    hlength region rest { frame with memory := memory }
  have hdata : memory.image.read frame.memory.size
      (call.headerLength + (operands.map Operand.size).sum) =
        Operand.callData frame.memory.image frame.memory.size call.selector.bytes operands := by
    have hcount : call.headerLength + (operands.map Operand.size).sum =
        (Operand.callData frame.memory.image frame.memory.size call.selector.bytes operands).length := by
      rw [Operand.length_callData _ _ _ _ hone, call.selector.length_eq, hheader, Nat.zero_add]
    rw [himage, hcount, Image.read_write]
  simp only [request, hsize, hdata] at hcall himage'
  refine ⟨memory, memory', himage, himage', ?_⟩
  rw [operations, performAll_append, performAll_append, performAll_prologue host _ _ _ hbase, bind_next,
    ← htakes.args, hstore, bind_next, ← hsome, hcall, himage']
  rfl

end Run

end EvmSandbox.ManagerCall
