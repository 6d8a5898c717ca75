/-
The shape of a call to the manager. Whatever its operands, the sequence has
one instruction of the call family: a `CALL` right after a push of the
manager's address and `GAS`. All other operations are well formed and
neither call nor jump nor mark a jump destination.

The pushes of a sequence hold numbers below its header length, so they are
well formed unless the operand list is astronomically long. A sequence that
fits in a code has no such list (`headerLength_lt`).
-/
import EvmSandbox.ManagerCall
import EvmSandbox.Proofs.Decoding

namespace EvmSandbox

/-- A well-formed operation that neither calls nor jumps nor marks a jump destination. -/
structure Operation.Plain (op : Operation) : Prop where
  wellFormed : op.WellFormed
  call : Opcode.isCall op.code = false
  jump : Opcode.isJump op.code = false
  jumpDest : op.code ≠ Opcode.jumpDest

instance (op : Operation) : Decidable op.Plain :=
  decidable_of_iff
    (op.WellFormed ∧ Opcode.isCall op.code = false ∧ Opcode.isJump op.code = false ∧
      op.code ≠ Opcode.jumpDest)
    ⟨fun h => ⟨h.1, h.2.1, h.2.2.1, h.2.2.2⟩, fun h => ⟨h.wellFormed, h.call, h.jump, h.jumpDest⟩⟩

theorem Opcode.plain_of_isPush {code : UInt8} (h : isPush code = true) :
    isDefined code = true ∧ isCall code = false ∧ isJump code = false ∧ code ≠ jumpDest := by
  have hall : ∀ n : Fin 256, isPush (UInt8.ofFin n) = true →
      isDefined (UInt8.ofFin n) = true ∧ isCall (UInt8.ofFin n) = false ∧
        isJump (UInt8.ofFin n) = false ∧ UInt8.ofFin n ≠ jumpDest := by
    decide +kernel
  exact hall code.toFin h

theorem Operation.plain_of_isPush {op : Operation} (h : Opcode.isPush op.code = true)
    (hlen : op.immediate.length = Opcode.immediateLength op.code) : op.Plain := by
  obtain ⟨hdef, hcall, hjump, hdest⟩ := Opcode.plain_of_isPush h
  exact ⟨⟨hdef, hlen⟩, hcall, hjump, hdest⟩

theorem Operation.plain_push {width : Nat} (value : Nat) (hpos : 0 < width) (hle : width ≤ 32) :
    (Operation.push width value).Plain :=
  plain_of_isPush (Opcode.push_spec hpos hle).2.1 (wellFormed_push value hpos hle).operand

theorem Operation.plain_pushNarrow {value : Nat} (h : value < 256 ^ 32) :
    (Operation.pushNarrow value).Plain :=
  plain_push value (byteWidth_pos value) ((byteWidth_le_iff (by decide)).2 h)

namespace ManagerCall

open Operation (Plain encodeAll plain_pushNarrow)

theorem plain_prologue (selector : FixedBytes 4) : ∀ op ∈ prologue selector, op.Plain := by
  have hpush : Plain ⟨Opcode.push32, selector.bytes ++ List.replicate 28 0⟩ :=
    Operation.plain_of_isPush rfl (by simp [selector.length_eq]; rfl)
  simp only [prologue, List.forall_mem_cons, List.not_mem_nil, false_imp_iff, implies_true, and_true]
  exact ⟨by decide, hpush, by decide, by decide⟩

theorem plain_storeWord (holdsSize : Bool) {slot : Nat} (h : 4 + 32 * slot < 256 ^ 32) :
    ∀ op ∈ storeWord holdsSize slot, op.Plain := by
  have hpush := plain_pushNarrow h
  cases holdsSize <;>
    simp only [storeWord, Bool.false_eq_true, if_true, if_false, List.forall_mem_cons,
      List.not_mem_nil, false_imp_iff, implies_true, and_true]
  · exact ⟨by decide, by decide, hpush, by decide, by decide⟩
  · exact ⟨by decide, by decide, hpush, by decide, by decide, by decide, by decide, by decide⟩

theorem plain_copyMemory {header : Nat} (h : header < 256 ^ 32) :
    ∀ op ∈ copyMemory header, op.Plain := by
  have hpush := plain_pushNarrow h
  simp only [copyMemory, List.forall_mem_cons, List.not_mem_nil, false_imp_iff, implies_true, and_true]
  exact ⟨by decide, by decide, by decide, hpush, by decide, by decide, by decide, by decide⟩

/-- The slots that are still to be filled lie below the end of the header. -/
theorem plain_storeArgs {header : Nat} (h : header < 256 ^ 32) :
    ∀ (args : List Arg) (holdsSize : Bool) (slot : Nat), 4 + 32 * (slot + args.count .word) ≤ header →
      ∀ op ∈ storeArgs header holdsSize slot args, op.Plain
  | [], _, _, _ => by simp [storeArgs]
  | .word :: args, holdsSize, slot, hle => by
    rw [List.count_cons_self] at hle
    intro op hop
    rcases List.mem_append.1 hop with hop | hop
    · exact plain_storeWord holdsSize (by omega) op hop
    · exact plain_storeArgs h args holdsSize (slot + 1) (by omega) op hop
  | .memory :: args, holdsSize, slot, hle => by
    rw [List.count_cons_of_ne (by decide)] at hle
    intro op hop
    rcases List.mem_append.1 hop with hop | hop
    · exact plain_copyMemory h op hop
    · exact plain_storeArgs h args true slot hle op hop

theorem plain_pushLength {header : Nat} (h : header < 256 ^ 32) (holdsSize : Bool) :
    ∀ op ∈ pushLength header holdsSize, op.Plain := by
  have hpush := plain_pushNarrow h
  cases holdsSize <;>
    simp only [pushLength, Bool.false_eq_true, if_true, if_false, List.forall_mem_cons,
      List.not_mem_nil, false_imp_iff, implies_true, and_true]
  · exact hpush
  · exact ⟨by decide, hpush, by decide⟩

/-- The push of the manager's address, `GAS` and `CALL`. -/
def callManager (manager : Address) : List Operation :=
  [⟨Opcode.push20, manager.bytes⟩, Opcode.gas, Opcode.call]

theorem epilogue_split (manager : Address) {header : Nat} (h : header < 256 ^ 32) (holdsSize : Bool)
    (output : Output) :
    ∃ before after, epilogue manager header holdsSize output = before ++ callManager manager ++ after ∧
      (∀ op ∈ before, op.Plain) ∧ ∀ op ∈ after, op.Plain := by
  have hheader := plain_pushNarrow h
  have hzero : (Operation.pushNarrow 0).Plain := by decide
  have hlength := plain_pushLength h holdsSize
  -- The calls that take no return region of the instruction end alike.
  have drop : ∀ (first : List Operation) (last : UInt8), (∀ op ∈ first, op.Plain) →
      Plain (last : Operation) →
      ∃ before after, first ++ invokeAndDrop manager header holdsSize last =
          before ++ callManager manager ++ after ∧
        (∀ op ∈ before, op.Plain) ∧ ∀ op ∈ after, op.Plain := by
    intro first last hfirst hlast
    refine ⟨first ++ pushLength header holdsSize ++ [(Opcode.dup4 : Operation), .pushNarrow 0],
      (Opcode.pop : Operation) ::
        (if holdsSize then [(Opcode.swap1 : Operation), (Opcode.pop : Operation)] else []) ++
        [(last : Operation)], ?_, ?_, ?_⟩
    · simp [invokeAndDrop, invoke, callManager]
    · simp only [List.forall_mem_append, List.forall_mem_cons, List.not_mem_nil, false_imp_iff,
        implies_true, and_true]
      exact ⟨⟨hfirst, hlength⟩, by decide, hzero⟩
    · simp only [List.forall_mem_append, List.forall_mem_cons, List.not_mem_nil, false_imp_iff,
        implies_true, and_true, List.cons_append]
      refine ⟨by decide, ?_, hlast⟩
      cases holdsSize <;> decide
  cases output with
  | none =>
    exact drop [.pushNarrow 0, .pushNarrow 0] Opcode.pop (by simp [hzero]) (by decide)
  | word =>
    refine drop [.pushNarrow 32, Opcode.dup2] Opcode.mload ?_ (by decide)
    simp only [List.forall_mem_cons, List.not_mem_nil, false_imp_iff, implies_true, and_true]
    exact ⟨by decide, by decide⟩
  | callStatus =>
    refine ⟨[Opcode.swap1, .pushNarrow header, Opcode.add, Opcode.swap1, .pushNarrow 0], [], ?_, ?_, ?_⟩
    · simp [epilogue, invoke, callManager]
    · simp only [List.forall_mem_cons, List.not_mem_nil, false_imp_iff, implies_true, and_true]
      exact ⟨by decide, hheader, by decide, by decide, hzero⟩
    · simp

theorem length_le_storeArgs (header : Nat) :
    ∀ (args : List Arg) (holdsSize : Bool) (slot : Nat),
      args.length ≤ (encodeAll (storeArgs header holdsSize slot args)).length
  | [], _, _ => by simp
  | .word :: args, holdsSize, slot => by
    have ih := length_le_storeArgs header args holdsSize (slot + 1)
    have hpos : 0 < (encodeAll (storeWord holdsSize slot)).length := by
      apply Operation.length_encode_pos
      cases holdsSize <;> simp [storeWord]
    simp only [storeArgs, Operation.encodeAll_append, List.length_append, List.length_cons]
    omega
  | .memory :: args, holdsSize, slot => by
    have ih := length_le_storeArgs header args true slot
    have hpos : 0 < (encodeAll (copyMemory header)).length :=
      Operation.length_encode_pos (by simp [copyMemory])
    simp only [storeArgs, Operation.encodeAll_append, List.length_append, List.length_cons]
    omega

/-- A sequence that fits in a code has a header that a push can hold. -/
theorem headerLength_lt {call : ManagerCall} {manager : Address}
    (h : (call.encode manager).length ≤ maxCodeLength) : call.headerLength < 256 ^ 32 := by
  have hargs := length_le_storeArgs call.headerLength call.args false 0
  have hwords : call.wordCount ≤ call.args.length := List.count_le_length
  simp only [encode, operations, Operation.encodeAll_append, List.length_append, maxCodeLength] at h
  have hheader : call.headerLength ≤ 4 + 32 * 0xffffffff := by
    rw [headerLength]
    omega
  exact lt_of_le_of_lt hheader (by norm_num)

/-- A sequence has one operation of the call family: the `CALL` of the manager. -/
theorem operations_split_of_header {call : ManagerCall} (h : call.headerLength < 256 ^ 32)
    (manager : Address) :
    ∃ before after, call.operations manager = before ++ callManager manager ++ after ∧
      (∀ op ∈ before, op.Plain) ∧ ∀ op ∈ after, op.Plain := by
  obtain ⟨before, after, heq, hbefore, hafter⟩ :=
    epilogue_split manager h (call.args.contains .memory) call.output
  refine ⟨prologue call.selector ++ storeArgs call.headerLength false 0 call.args ++ before, after,
    ?_, ?_, hafter⟩
  · rw [operations, heq]
    simp
  intro op hop
  simp only [List.mem_append] at hop
  rcases hop with (hop | hop) | hop
  · exact plain_prologue _ op hop
  · refine plain_storeArgs h call.args false 0 ?_ op hop
    simp [headerLength, wordCount]
  · exact hbefore op hop

theorem operations_split {call : ManagerCall} {manager : Address}
    (h : (call.encode manager).length ≤ maxCodeLength) :
    ∃ before after, call.operations manager = before ++ callManager manager ++ after ∧
      (∀ op ∈ before, op.Plain) ∧ ∀ op ∈ after, op.Plain :=
  operations_split_of_header (headerLength_lt h) manager

/-- The operations of a sequence are well formed and neither jump nor mark a destination. -/
theorem operations_spec_of_header {call : ManagerCall} (h : call.headerLength < 256 ^ 32)
    {manager : Address} {op : Operation} (hop : op ∈ call.operations manager) :
    op.WellFormed ∧ Opcode.isJump op.code = false ∧ op.code ≠ Opcode.jumpDest := by
  obtain ⟨before, after, heq, hbefore, hafter⟩ := operations_split_of_header h manager
  rw [heq] at hop
  simp only [callManager, List.mem_append, List.mem_cons, List.not_mem_nil, or_false] at hop
  rcases hop with (hop | rfl | rfl | rfl) | hop
  · exact ⟨(hbefore op hop).wellFormed, (hbefore op hop).jump, (hbefore op hop).jumpDest⟩
  · have hpush : Operation.Plain ⟨Opcode.push20, manager.bytes⟩ :=
      Operation.plain_of_isPush rfl manager.length_eq
    exact ⟨hpush.wellFormed, hpush.jump, hpush.jumpDest⟩
  · decide
  · decide
  · exact ⟨(hafter op hop).wellFormed, (hafter op hop).jump, (hafter op hop).jumpDest⟩

theorem operations_spec {call : ManagerCall} {manager : Address}
    (h : (call.encode manager).length ≤ maxCodeLength) {op : Operation}
    (hop : op ∈ call.operations manager) :
    op.WellFormed ∧ Opcode.isJump op.code = false ∧ op.code ≠ Opcode.jumpDest :=
  operations_spec_of_header (headerLength_lt h) hop

theorem operations_ne_nil (call : ManagerCall) (manager : Address) : call.operations manager ≠ [] := by
  simp [operations, prologue]

/-- The manager's address stands in the operand of one push. -/
theorem map_operations {α : Type} {f : Operation → α} {manager other : Address}
    (hf : f ⟨Opcode.push20, manager.bytes⟩ = f ⟨Opcode.push20, other.bytes⟩) (call : ManagerCall) :
    (call.operations manager).map f = (call.operations other).map f := by
  have hinvoke : (invoke manager).map f = (invoke other).map f := by simp [invoke, hf]
  cases houtput : call.output <;> simp [operations, epilogue, invokeAndDrop, houtput, hinvoke]

theorem codes_operations (call : ManagerCall) (manager : Address) :
    (call.operations manager).map (fun op => op.code) =
      (call.operations default).map (fun op => op.code) :=
  @map_operations _ (fun op => op.code) manager default rfl call

end ManagerCall

end EvmSandbox
