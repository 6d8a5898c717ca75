/-
A layout is what it should be, byte for byte: one block for each instruction
at the offset the layout gives it, the jump table behind them exactly when
some jump goes through it, and every number in blocks and table written in
full. The numbers refer to the finished code, whose offsets depend on the
widths of these very numbers; a finished relaxation has made them agree
(`Finished.holds`).
-/
import EvmSandbox.Proofs.Placement

namespace EvmSandbox.Layout

/-! ## What blocks and table should be -/

/-- The number that the patch `value` asks for, in terms of the new code. -/
def patchNumber (layout : Layout) : PushValue → Nat
  | .target index => layout.offsets.starts.getD index 0
  | .pastEnd extra => layout.code.length + extra.toNat
  | .constant value => value.toNat

/-- `block` is a push of `number`, in full, in at least `least` bytes. -/
def PushesInFull (block : Bytes) (least number : Nat) : Prop :=
  ∃ width immediate, least ≤ width ∧ width ≤ 32 ∧ immediate.length = width ∧
    Bytes.toNat immediate = number ∧ block = Opcode.push width :: immediate

/-- The bytes that stand for the instruction with index `i` in the new code. -/
inductive BlockOf (rules : RuleTable) (patch? : Nat → Option PushValue)
    (instructions : List Instruction) (layout : Layout) (i : Nat) (instruction : Instruction) :
    Bytes → Prop where
  | replaced {replacement : Replacement} (hrule : rules.replace? instruction = some replacement) :
    BlockOf rules patch? instructions layout i instruction replacement.bytes
  | patched {value : PushValue} {block : Bytes} (hrule : rules.replace? instruction = none)
    (hpatch : patch? i = some value)
    (hblock : PushesInFull block instruction.immediate.length (layout.patchNumber value)) :
    BlockOf rules patch? instructions layout i instruction block
  | remapped {target : Nat} {destination : Instruction} {start : Nat} {block : Bytes}
    (hremapped : Remapped rules patch? instructions i)
    (htarget : instructions[target]? = some destination)
    (hoffset : destination.offset = Bytes.toNat instruction.immediate)
    (hstart : layout.offsets.starts[target]? = some start)
    (hblock : PushesInFull block instruction.immediate.length start) :
    BlockOf rules patch? instructions layout i instruction block
  | kept (hrule : rules.replace? instruction = none) (hpatch : patch? i = none)
    (hremapped : ¬ Remapped rules patch? instructions i)
    (hjump : Opcode.isJump instruction.code = true →
      layout.routed = 0 ∨ FedByRemapped rules patch? instructions i) :
    BlockOf rules patch? instructions layout i instruction instruction.encode
  | jump {address : Bytes} (hrule : rules.replace? instruction = none) (hpatch : patch? i = none)
    (hcode : instruction.code = Opcode.jump) (hrouted : layout.routed ≠ 0)
    (hfed : ¬ FedByRemapped rules patch? instructions i) (hlength : address.length = 4)
    (haddress : Bytes.toNat address = layout.offsets.bodyEnd) :
    BlockOf rules patch? instructions layout i instruction
      (Opcode.push 4 :: address ++ [Opcode.jump])
  | jumpI {address : Bytes} (hrule : rules.replace? instruction = none) (hpatch : patch? i = none)
    (hcode : instruction.code = Opcode.jumpI) (hrouted : layout.routed ≠ 0)
    (hfed : ¬ FedByRemapped rules patch? instructions i) (hlength : address.length = 4)
    (haddress : Bytes.toNat address = layout.offsets.bodyEnd) :
    BlockOf rules patch? instructions layout i instruction
      (Opcode.swap1 :: Opcode.push 4 :: address ++ [Opcode.jumpI, Opcode.pop])

/-- The bytes of a jump table that starts at offset `start`: each entry names the old offset of its
destination, the offset of the entry after it and the new offset, all in full. -/
inductive TableOf : Nat → List Destination → Bytes → Prop where
  | failure (start : Nat) : TableOf start [] [Opcode.jumpDest, Opcode.invalid]
  | entry {start : Nat} {destination : Destination} {rest : List Destination}
    {old next new bytes : Bytes} (hlength : old.length = 4 ∧ next.length = 4 ∧ new.length = 4)
    (hold : Bytes.toNat old = destination.old) (hnext : Bytes.toNat next = start + 21)
    (hnew : Bytes.toNat new = destination.new) (hrest : TableOf (start + 21) rest bytes) :
    TableOf start (destination :: rest)
      (Opcode.jumpDest :: Opcode.dup1 :: Opcode.push 4 :: old ++
        Opcode.sub :: Opcode.push 4 :: next ++ Opcode.jumpI :: Opcode.pop :: Opcode.push 4 :: new ++
        Opcode.jump :: bytes)

/-- The patches are for pushes, and their numbers have at most eight bytes. -/
def PatchesPushes (patch? : Nat → Option PushValue) (instructions : List Instruction)
    (layout : Layout) : Prop :=
  ∀ i value, patch? i = some value →
    (∃ instruction, instructions[i]? = some instruction ∧ Opcode.isPush instruction.code = true) ∧
    ((∃ number, value = .constant number) ∨
      ∃ extra, value = .pastEnd extra ∧ layout.code.length + extra.toNat < 2 ^ 64)

/-- The code of `layout` is made up of `blocks`, one for each instruction, and of `table`. -/
structure MadeOf (rules : RuleTable) (patch? : Nat → Option PushValue)
    (instructions : List Instruction) (layout : Layout) (blocks : List Bytes) (table : Bytes) :
    Prop where
  code_eq : layout.code = blocks.flatten ++ table
  length_eq : blocks.length = instructions.length
  bodyEnd_eq : layout.offsets.bodyEnd = blocks.flatten.length
  exists_routed : layout.routed ≠ 0 → ∃ (i : Nat) (instruction : Instruction),
    instructions[i]? = some instruction ∧ rules.replace? instruction = none ∧
      Opcode.isJump instruction.code = true ∧ ¬ FedByRemapped rules patch? instructions i
  table_eq_nil : layout.routed = 0 → table = []
  tableOf : layout.routed ≠ 0 → TableOf blocks.flatten.length layout.jumpMap table
  mem_jumpMap_iff : ∀ destination, destination ∈ layout.jumpMap ↔
    ∃ (i : Nat) (instruction : Instruction), instructions[i]? = some instruction ∧
      instruction.code = Opcode.jumpDest ∧ destination.old = instruction.offset ∧
      layout.offsets.starts[i]? = some destination.new
  block : ∀ i instruction, instructions[i]? = some instruction →
    layout.offsets.starts[i]? = some (blocks.take i).flatten.length ∧
      ∃ block, blocks[i]? = some block ∧ BlockOf rules patch? instructions layout i instruction block

/-! ## The jump table -/

theorem tableOf_table {destinations : List Destination} {start : Nat}
    (hfits : ∀ destination ∈ destinations,
      destination.old < 256 ^ tableOffsetWidth ∧ destination.new < 256 ^ tableOffsetWidth)
    (hsmall : start + destinations.length * tableEntryLength < 256 ^ tableOffsetWidth) :
    TableOf start destinations (Operation.encodeAll (table destinations start)) := by
  induction destinations generalizing start with
  | nil => exact .failure start
  | cons destination rest ih =>
    obtain ⟨hold, hnew⟩ := hfits destination (by simp)
    rw [List.length_cons, Nat.add_mul, Nat.one_mul] at hsmall
    have hrest := @ih (start + tableEntryLength) (fun d hd => hfits d (by simp [hd])) (by omega)
    have hnext : start + tableEntryLength < 256 ^ tableOffsetWidth := by omega
    have hentry := @TableOf.entry start destination rest (Bytes.ofNat 4 destination.old)
      (Bytes.ofNat 4 (start + tableEntryLength)) (Bytes.ofNat 4 destination.new) _ (by simp)
      (Bytes.toNat_ofNat hold) (Bytes.toNat_ofNat hnext) (Bytes.toNat_ofNat hnew) hrest
    rw [table_cons, Operation.encodeAll_append]
    simpa [tableEntry, tableOffsetWidth, Operation.encode, Operation.push] using hentry

/-! ## The blocks -/

section Blocks

variable {rules : RuleTable} {patch? : Nat → Option PushValue} {instructions : List Instruction}
  {layout : Layout}

theorem noTargets_of_patchesPushes (h : PatchesPushes patch? instructions layout) :
    PatchesNoTarget patch? := by
  intro i k hpatch
  obtain ⟨-, ⟨_, hvalue⟩ | ⟨_, hvalue, -⟩⟩ := h i _ hpatch <;> cases hvalue

theorem resolve_eq_patchNumber (h : Finished rules patch? instructions layout)
    (hpatches : PatchesPushes patch? instructions layout) {i : Nat} {value : PushValue}
    (hpatch : patch? i = some value) :
    resolve layout.offsets layout.tableSize value = layout.patchNumber value := by
  obtain ⟨-, ⟨number, rfl⟩ | ⟨extra, rfl, hlt⟩⟩ := hpatches i value hpatch
  · rfl
  · rw [resolve, patchNumber, h.bodyEnd_eq, ← h.length_code, maxPushValue]
    omega

/-- The widths of pushes grow only to eight bytes, so they stay widths of pushes. -/
theorem pushesInFull (h : Finished rules patch? instructions layout) {i : Nat}
    {instruction : Instruction} {value : PushValue} {width : Nat}
    (hslot : layout.slots[i]? = some ⟨instruction, .push value width⟩)
    (hlength : instruction.immediate.length ≤ 32) (hle : instruction.immediate.length ≤ width)
    (hmax : width ≤ max instruction.immediate.length 8) :
    PushesInFull (block layout.offsets layout.tableSize ⟨instruction, .push value width⟩)
      instruction.immediate.length (resolve layout.offsets layout.tableSize value) :=
  ⟨width, _, hle, by omega, Bytes.length_ofNat _ _, Bytes.toNat_ofNat (h.resolve_lt hslot), rfl⟩

theorem blockOf_block {code : Bytes} (hdecode : Instruction.decode code = .ok instructions)
    (h : Finished rules patch? instructions layout)
    (hpatches : PatchesPushes patch? instructions layout) {i : Nat} {slot : Slot}
    (hslot : layout.slots[i]? = some slot) :
    BlockOf rules patch? instructions layout i slot.instruction
      (block layout.offsets layout.tableSize slot) := by
  have hi := h.planned.instruction_eq hslot
  have hemits := h.planned.emits hslot
  have hfed := fun k => h.fed_iff_fedByRemapped (noTargets_of_patchesPushes hpatches) (i := k)
  obtain ⟨instruction, emission⟩ := slot
  simp only at hi hemits
  have hlength : instruction.immediate.length ≤ 32 := by
    rw [(Instruction.wellFormed_of_decode hdecode (List.mem_of_getElem? hi)).operand]
    exact Opcode.immediateLength_le _
  cases hemits with
  | replaced hrule => exact .replaced hrule
  | patched hrule hpatch hle hmax =>
    refine .patched hrule hpatch ?_
    rw [← resolve_eq_patchNumber h hpatches hpatch]
    exact pushesInFull h hslot hlength hle hmax
  | target hrule hpatch hstatic hk hle hmax =>
    obtain ⟨destination, hdestination, hoffset⟩ := (resolveTarget_iff hdecode).1 hk
    have hstart := h.starts_eq (List.getElem?_eq_some_iff.1 hdestination).1
    refine .remapped ⟨instruction, hi, hrule, hpatch, hstatic⟩ hdestination hoffset hstart ?_
    have hfull := pushesInFull h hslot hlength hle hmax
    rw [resolve, Array.getD_eq_getD_getElem?, hstart, Option.getD_some] at hfull
    exact hfull
  | kept hrule hpatch hstatic =>
    refine .kept hrule hpatch (by simp [remapped_iff hi, hstatic]) fun hjump => ?_
    rcases h.settled with hsettled | ⟨hrouted, -⟩
    · exact .inr ((hfed i).1 (hsettled i _ hslot rfl hjump))
    · exact .inl hrouted
  | tableJump hrule hpatch hcode =>
    have hunfed := h.unfed i _ hslot rfl
    refine .jump hrule hpatch hcode (routed_ne_zero hslot rfl) (fun hf => ?_)
      (Bytes.length_ofNat _ _) (Bytes.toNat_ofNat h.bodyEnd_lt)
    simp [(hfed i).2 hf] at hunfed
  | tableJumpI hrule hpatch hcode =>
    have hunfed := h.unfed i _ hslot rfl
    refine .jumpI hrule hpatch hcode (routed_ne_zero hslot rfl) (fun hf => ?_)
      (Bytes.length_ofNat _ _) (Bytes.toNat_ofNat h.bodyEnd_lt)
    simp [(hfed i).2 hf] at hunfed

theorem tableOf_jumpMap {code : Bytes} (hdecode : Instruction.decode code = .ok instructions)
    (h : Finished rules patch? instructions layout) (hrouted : layout.routed ≠ 0) :
    TableOf layout.offsets.bodyEnd layout.jumpMap
      (Operation.encodeAll (table layout.jumpMap layout.offsets.bodyEnd)) := by
  refine tableOf_table (fun destination hmem => ?_) (h.lastEntry_lt hrouted)
  obtain ⟨i, instruction, hi, -, rfl⟩ := h.mem_jumpMap_iff.1 hmem
  exact ⟨offset_lt_of_decode hdecode hi, h.extent_take_lt i⟩

/-- **A layout is correct.** Its code is one block for each instruction, at the offset the layout
gives to the instruction, and the jump table behind them exactly when some jump goes through it. A
replaced instruction has the bytes of its rule, a kept one its own; a remapped or patched push is at
least as wide as it was and holds its number in the finished layout in full. -/
theorem layout_correct {code : Bytes} (hdecode : Instruction.decode code = .ok instructions)
    (hpatches : PatchesPushes patch? instructions layout)
    (h : (ofInstructions rules patch? instructions).result = .ok layout) :
    ∃ blocks table, MadeOf rules patch? instructions layout blocks table := by
  have hfinished := ofInstructions_spec h
  have hflatten : ∀ slots : List Slot,
      (slots.map (block layout.offsets layout.tableSize)).flatten.length = extent slots :=
    fun slots => by rw [← List.flatMap_def, length_flatMap_block]
  refine ⟨layout.slots.map (block layout.offsets layout.tableSize),
    if layout.routed = 0 then [] else Operation.encodeAll (table layout.jumpMap layout.offsets.bodyEnd),
    ?_, ?_, ?_, hfinished.exists_unfed_jump (noTargets_of_patchesPushes hpatches),
    fun hrouted => if_pos hrouted,
    fun hrouted => ?_, fun destination => ?_, fun i instruction hi => ?_⟩
  · rw [code_eq layout, List.flatMap_def]
  · rw [List.length_map, hfinished.planned.length_eq]
  · rw [hflatten, hfinished.bodyEnd_eq]
  · rw [hflatten, ← hfinished.bodyEnd_eq, if_neg hrouted]
    exact tableOf_jumpMap hdecode hfinished hrouted
  · rw [hfinished.mem_jumpMap_iff]
    refine exists_congr fun i => exists_congr fun instruction => and_congr_right fun hi =>
      and_congr_right fun _ => ?_
    rw [hfinished.starts_eq (List.getElem?_eq_some_iff.1 hi).1, Option.some.injEq]
    obtain ⟨old, new⟩ := destination
    simp [eq_comm]
  · obtain ⟨slot, hslot, rfl⟩ := hfinished.slot_of hi
    refine ⟨?_, _, ?_, blockOf_block hdecode hfinished hpatches hslot⟩
    · rw [hfinished.starts_eq (List.getElem?_eq_some_iff.1 hi).1, ← List.map_take, hflatten]
    · rw [List.getElem?_map, hslot, Option.map_some]

end Blocks

/-! ## A layout with every kind of block -/

/-- A code that copies part of itself, asks for its caller, and has two jumps: one to wherever the
caller has left the address of, one to offset 8. -/
def copyingCode : Bytes :=
  [0x60, 5, 0x60, 0, 0x39, 0x33, 0x50, 0x56, 0x5b, 0x60, 8, 0x56]

def copyingPatch? (i : Nat) : Option PushValue :=
  [some (.constant 0x1234), some (.pastEnd 7)].getD i none

def copyingRules : RuleTable :=
  RuleTable.empty.insert ⟨Opcode.caller, fun _ => .ofBytes [0x5b, 0x5b]⟩

/-- The first push grows to two bytes, and the second holds the length of the whole code plus 7. -/
theorem layout_correct_copyingCode :
    ∃ instructions layout, Instruction.decode copyingCode = .ok instructions ∧
      PatchesPushes copyingPatch? instructions layout ∧
      (ofInstructions copyingRules copyingPatch? instructions).result = .ok layout ∧
      layout.code.take 5 = [0x61, 0x12, 0x34, 0x60, 49] ∧ layout.code.length = 42 ∧
      ∃ blocks table, MadeOf copyingRules copyingPatch? instructions layout blocks table := by
  obtain ⟨instructions, hdecode, hpush, hlayout⟩ : ∃ instructions,
      Instruction.decode copyingCode = .ok instructions ∧
      (∀ i < 2, (instructions[i]?.any fun instruction => Opcode.isPush instruction.code) = true) ∧
      ((ofInstructions copyingRules copyingPatch? instructions).result.toOption.any fun layout =>
        layout.code.take 5 = [0x61, 0x12, 0x34, 0x60, 49] ∧ layout.code.length = 42) = true :=
    ⟨Instruction.locate 0 [⟨0x60, [5]⟩, ⟨0x60, [0]⟩, (0x39 : UInt8), (0x33 : UInt8), (0x50 : UInt8),
      (0x56 : UInt8), (0x5b : UInt8), ⟨0x60, [8]⟩, (0x56 : UInt8)],
      by decide +kernel, by decide +kernel, by decide +kernel⟩
  cases h : (ofInstructions copyingRules copyingPatch? instructions).result with
  | error errors => simp [h, Except.toOption] at hlayout
  | ok layout =>
    simp only [h, Except.toOption, Option.any_some, decide_eq_true_eq] at hlayout
    obtain ⟨htake, hlength⟩ := hlayout
    have hpatches : PatchesPushes copyingPatch? instructions layout := by
      intro i value hpatch
      have hi : i < 2 := by
        by_contra hge
        rw [copyingPatch?, List.getD_eq_getElem?_getD, List.getElem?_eq_none (by simp; omega)]
          at hpatch
        cases hpatch
      refine ⟨by simpa [Option.any_eq_true] using hpush i hi, ?_⟩
      interval_cases i
      · exact .inl ⟨_, (Option.some.inj hpatch).symm⟩
      · exact .inr ⟨_, (Option.some.inj hpatch).symm, by rw [hlength]; decide⟩
    exact ⟨instructions, layout, hdecode, hpatches, h, htake, hlength,
      layout_correct hdecode hpatches h⟩

end EvmSandbox.Layout
