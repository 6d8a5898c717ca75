/-
Where the blocks and the jump table of a finished layout lie, and that its
numbers fit: the block of a slot has the size of the slot, the jump table has
the length it was given room for, and no number written into the code is too
large for its width.
-/
import EvmSandbox.Proofs.Routing

namespace EvmSandbox.Layout

open Operation (encodeAll)

/-! ## Lengths -/

@[simp] theorem length_block (offsets : Offsets) (tableLength : Nat) (slot : Slot) :
    (block offsets tableLength slot).length = slot.size := by
  obtain ⟨instruction, emission⟩ := slot
  cases emission with
  | kept => simp [block, Slot.size]
  | replaced replacement => simp [block, Slot.size, replacement.size_eq]
  | push value width => simp [block, Slot.size]
  | tableJump => simp [block, Slot.size, tableOffsetWidth]
  | tableJumpI => simp [block, Slot.size, tableOffsetWidth]

theorem length_flatMap_block (offsets : Offsets) (tableLength : Nat) (slots : List Slot) :
    (slots.flatMap (block offsets tableLength)).length = extent slots := by
  simp [List.length_flatMap, extent]

/-! ## The jump table -/

theorem table_nil (start : Nat) : table [] start = tableFailure := rfl

/-- The jump table begins with the entry of the first destination; the rest is the table of the
others. -/
theorem table_cons (destination : Destination) (rest : List Destination) (start : Nat) :
    table (destination :: rest) start =
      tableEntry destination (start + tableEntryLength) ++ table rest (start + tableEntryLength) := by
  have hshift : ∀ entry : Destination × Nat,
      start + (entry.2 + 1 + 1) * tableEntryLength =
        start + tableEntryLength + (entry.2 + 1) * tableEntryLength := by
    intro entry
    ring
  simp only [table, List.zipIdx_cons, List.flatMap_cons, Nat.zero_add, Nat.one_mul, List.append_assoc]
  rw [List.zipIdx_succ, List.flatMap_map]
  simp only [hshift]

@[simp] theorem length_tableEntry (destination : Destination) (next : Nat) :
    (encodeAll (tableEntry destination next)).length = tableEntryLength := by
  simp [tableEntry, tableEntryLength, tableOffsetWidth]

theorem length_table (destinations : List Destination) (start : Nat) :
    (encodeAll (table destinations start)).length =
      destinations.length * tableEntryLength + tableFailureLength := by
  induction destinations generalizing start with
  | nil => rfl
  | cons destination rest ih =>
    rw [table_cons, Operation.encodeAll_append, List.length_append, length_tableEntry, ih,
      List.length_cons]
    ring

/-! ## The jump map -/

theorem destinations_concat (slots : List Slot) (slot : Slot) :
    destinations (slots ++ [slot]) (.ofSlots (slots ++ [slot])) =
      destinations slots (.ofSlots slots) ++
        if slot.instruction.code == Opcode.jumpDest then
          [⟨slot.instruction.offset, extent slots⟩] else [] := by
  rw [destinations, ofSlots_concat]
  simp only [Array.toList_push]
  rw [List.zip_append (by simp), List.filterMap_append, destinations, bodyEnd_ofSlots]
  congr 1
  by_cases h : slot.instruction.code = Opcode.jumpDest <;> simp [h]

theorem length_destinations (slots : List Slot) :
    (destinations slots (.ofSlots slots)).length = countDestinations slots := by
  induction slots using List.reverseRecOn with
  | nil => rfl
  | append_singleton slots slot ih =>
    rw [destinations_concat, List.length_append, ih, countDestinations, countDestinations,
      List.countP_append]
    by_cases h : slot.instruction.code == Opcode.jumpDest <;> simp [h]

theorem mem_destinations_iff {slots : List Slot} {destination : Destination} :
    destination ∈ destinations slots (.ofSlots slots) ↔
      ∃ i slot, slots[i]? = some slot ∧ slot.instruction.code = Opcode.jumpDest ∧
        destination = ⟨slot.instruction.offset, extent (slots.take i)⟩ := by
  simp only [destinations, List.mem_filterMap, Prod.exists]
  constructor
  · rintro ⟨slot, start, hmem, hsome⟩
    obtain ⟨i, hi⟩ := List.mem_iff_getElem?.1 hmem
    obtain ⟨hslot, hstart⟩ := List.getElem?_zip_eq_some.1 hi
    have hlt : i < slots.length := (List.getElem?_eq_some_iff.1 hslot).1
    rw [Array.getElem?_toList, starts_ofSlots hlt, Option.some.injEq] at hstart
    split at hsome
    · rename_i hcode
      exact ⟨i, slot, hslot, by simpa using hcode, by rw [hstart]; exact (Option.some.inj hsome).symm⟩
    · cases hsome
  · rintro ⟨i, slot, hslot, hcode, rfl⟩
    have hlt : i < slots.length := (List.getElem?_eq_some_iff.1 hslot).1
    refine ⟨slot, extent (slots.take i), List.mem_of_getElem? (i := i) ?_, by simp [hcode]⟩
    exact List.getElem?_zip_eq_some.2 ⟨hslot, by rw [Array.getElem?_toList, starts_ofSlots hlt]⟩

/-! ## Finished layouts -/

theorem code_eq (layout : Layout) :
    layout.code = layout.slots.flatMap (block layout.offsets layout.tableSize) ++
      if layout.routed = 0 then []
      else encodeAll (table layout.jumpMap layout.offsets.bodyEnd) := by
  simp only [code, tableSize]
  split <;> simp

theorem routed_ne_zero {layout : Layout} {i : Nat} {slot : Slot} (hslot : layout.slots[i]? = some slot)
    (hrouted : slot.isRouted = true) : layout.routed ≠ 0 := by
  rw [routed, Ne, List.countP_eq_zero]
  exact fun hnone => hnone slot (List.mem_of_getElem? hslot) hrouted

/-- Every offset of decoded code fits in the pushes of the jump table. -/
theorem offset_lt_of_decode {code : Bytes} {instructions : List Instruction}
    (hdecode : Instruction.decode code = .ok instructions) {i : Nat} {instruction : Instruction}
    (hi : instructions[i]? = some instruction) : instruction.offset < 256 ^ tableOffsetWidth := by
  have hle := Instruction.offset_le_of_decode hdecode (List.mem_of_getElem? hi)
  have hbound : maxCodeLength < 256 ^ tableOffsetWidth := by decide
  omega

section Finished

variable {rules : RuleTable} {patch? : Nat → Option PushValue} {instructions : List Instruction}
  {layout : Layout} (h : Finished rules patch? instructions layout)
include h

theorem Finished.bodyEnd_eq : layout.offsets.bodyEnd = extent layout.slots := by
  rw [h.offsets_eq, bodyEnd_ofSlots]

theorem Finished.starts_eq {i : Nat} (hi : i < instructions.length) :
    layout.offsets.starts[i]? = some (extent (layout.slots.take i)) := by
  rw [h.offsets_eq, starts_ofSlots (by rw [h.planned.length_eq]; exact hi)]

theorem Finished.slot_of {i : Nat} {instruction : Instruction}
    (hi : instructions[i]? = some instruction) :
    ∃ slot, layout.slots[i]? = some slot ∧ slot.instruction = instruction := by
  have hlt : i < layout.slots.length := by
    rw [h.planned.length_eq]
    exact (List.getElem?_eq_some_iff.1 hi).1
  have hslot := List.getElem?_eq_getElem hlt
  refine ⟨_, hslot, ?_⟩
  have := h.planned.instruction_eq hslot
  rw [hi] at this
  exact (Option.some.inj this).symm

theorem Finished.length_jumpMap : layout.jumpMap.length = countDestinations layout.slots := by
  rw [jumpMap, h.offsets_eq, length_destinations]

/-- The code has the length that the relaxation made room for. -/
theorem Finished.length_code : layout.code.length = extent layout.slots + layout.tableSize := by
  rw [code_eq, List.length_append, length_flatMap_block, tableSize, tableLength]
  split
  · rfl
  · rw [length_table, h.length_jumpMap]

theorem Finished.mem_jumpMap_iff {destination : Destination} :
    destination ∈ layout.jumpMap ↔ ∃ i instruction, instructions[i]? = some instruction ∧
      instruction.code = Opcode.jumpDest ∧
      destination = ⟨instruction.offset, extent (layout.slots.take i)⟩ := by
  rw [jumpMap, h.offsets_eq, mem_destinations_iff]
  constructor
  · rintro ⟨i, slot, hslot, hcode, rfl⟩
    exact ⟨i, slot.instruction, h.planned.instruction_eq hslot, hcode, rfl⟩
  · rintro ⟨i, instruction, hi, hcode, rfl⟩
    obtain ⟨slot, hslot, rfl⟩ := h.slot_of hi
    exact ⟨i, slot, hslot, hcode, rfl⟩

/-- A push of a finished layout holds its number. -/
theorem Finished.resolve_lt {i : Nat} {instruction : Instruction} {value : PushValue} {width : Nat}
    (hslot : layout.slots[i]? = some ⟨instruction, .push value width⟩) :
    resolve layout.offsets layout.tableSize value < 256 ^ width := by
  have hholds := h.holds _ (List.mem_of_getElem? hslot) value width rfl
  exact (byteWidth_le_iff (lt_of_lt_of_le (byteWidth_pos _) hholds)).1 hholds

theorem Finished.length_code_le : layout.code.length ≤ maxCodeLength := by
  rw [h.length_code]
  exact h.small

/-- Every offset of a finished layout fits in the pushes of the jump table. -/
theorem Finished.lt_tableOffset {position : Nat} (hle : position ≤ layout.code.length) :
    position < 256 ^ tableOffsetWidth := by
  have hbound : maxCodeLength < 256 ^ tableOffsetWidth := by decide
  have := h.length_code_le
  omega

theorem Finished.bodyEnd_lt : layout.offsets.bodyEnd < 256 ^ tableOffsetWidth := by
  refine h.lt_tableOffset ?_
  rw [h.length_code, h.bodyEnd_eq]
  omega

theorem Finished.extent_take_lt (i : Nat) :
    extent (layout.slots.take i) < 256 ^ tableOffsetWidth := by
  refine h.lt_tableOffset ?_
  have := extent_take_le layout.slots i
  rw [h.length_code]
  omega

/-- The last entry of the jump table still lies at an offset that fits in its pushes. -/
theorem Finished.lastEntry_lt (hrouted : layout.routed ≠ 0) :
    layout.offsets.bodyEnd + layout.jumpMap.length * tableEntryLength < 256 ^ tableOffsetWidth := by
  refine h.lt_tableOffset ?_
  rw [h.length_code, h.bodyEnd_eq, tableSize, tableLength, if_neg hrouted, h.length_jumpMap]
  omega

/-- In a layout that has not shifted, the new offsets are the old ones. -/
theorem Finished.extent_eq_offset (hunshifted : isShifted layout.slots layout.offsets = false) {i : Nat}
    {instruction : Instruction} (hi : instructions[i]? = some instruction) :
    extent (layout.slots.take i) = instruction.offset := by
  obtain ⟨slot, hslot, rfl⟩ := h.slot_of hi
  have hstart := h.starts_eq (List.getElem?_eq_some_iff.1 hi).1
  rw [← Array.getElem?_toList] at hstart
  have hmem : (slot, extent (layout.slots.take i)) ∈ layout.slots.zip layout.offsets.starts.toList :=
    List.mem_of_getElem? (List.getElem?_zip_eq_some.2 ⟨hslot, hstart⟩)
  have hsame := (List.any_eq_false.1 hunshifted) _ hmem
  simp only [bne_iff_ne, ne_eq, Decidable.not_not] at hsame
  exact hsame.symm

end Finished

/-! ## Remapped pushes -/

/-- The instruction with index `i` is a push right before a jump, without a rule and without a
patch: its number becomes the new offset of the target. -/
def Remapped (rules : RuleTable) (patch? : Nat → Option PushValue) (instructions : List Instruction)
    (i : Nat) : Prop :=
  ∃ instruction, instructions[i]? = some instruction ∧ rules.replace? instruction = none ∧
    patch? i = none ∧ isStaticJump instruction instructions[i + 1]? = true

/-- The jump with index `i` takes its destination from a remapped push. -/
def FedByRemapped (rules : RuleTable) (patch? : Nat → Option PushValue)
    (instructions : List Instruction) (i : Nat) : Prop :=
  ∃ j, i = j + 1 ∧ Remapped rules patch? instructions j

/-- No patch asks for the offset of an instruction. -/
def PatchesNoTarget (patch? : Nat → Option PushValue) : Prop :=
  ∀ i k, patch? i ≠ some (.target k)

section Remapped

variable {rules : RuleTable} {patch? : Nat → Option PushValue} {instructions : List Instruction}
  {layout : Layout}

theorem FedByRemapped.isJump {i : Nat} {instruction : Instruction}
    (h : FedByRemapped rules patch? instructions i) (hi : instructions[i]? = some instruction) :
    Opcode.isJump instruction.code = true := by
  obtain ⟨j, rfl, _, _, _, _, hstatic⟩ := h
  simp only [isStaticJump, hi, Bool.and_eq_true, Option.any_some] at hstatic
  exact hstatic.2

theorem remapped_iff {i : Nat} {instruction : Instruction}
    (hi : instructions[i]? = some instruction) :
    Remapped rules patch? instructions i ↔ rules.replace? instruction = none ∧
      patch? i = none ∧ isStaticJump instruction instructions[i + 1]? = true := by
  simp [Remapped, hi]

theorem Remapped.isPush {i : Nat} {instruction : Instruction}
    (h : Remapped rules patch? instructions i) (hi : instructions[i]? = some instruction) :
    Opcode.isPush instruction.code = true :=
  isPush_of_isStaticJump ((remapped_iff hi).1 h).2.2

/-- The pushes of targets are the remapped ones. -/
theorem Finished.pushesTarget_iff (h : Finished rules patch? instructions layout)
    (hpatches : PatchesNoTarget patch?) {i : Nat} {slot : Slot}
    (hslot : layout.slots[i]? = some slot) :
    slot.pushesTarget = true ↔ Remapped rules patch? instructions i := by
  have hi := h.planned.instruction_eq hslot
  have hemits := h.planned.emits hslot
  obtain ⟨instruction, emission⟩ := slot
  simp only at hi hemits
  rw [remapped_iff hi]
  constructor
  · intro hpushes
    cases hemits with
    | @patched value _ _ hpatch =>
      cases value with
      | target k => exact absurd hpatch (hpatches i k)
      | _ => cases hpushes
    | target hrule hpatch hstatic => exact ⟨hrule, hpatch, hstatic⟩
    | _ => cases hpushes
  · rintro ⟨hrule, hpatch, hstatic⟩
    have hpush := isPush_of_isStaticJump hstatic
    cases hemits with
    | replaced hrule' => simp [hrule] at hrule'
    | patched _ hpatch' => simp [hpatch] at hpatch'
    | target => rfl
    | kept _ _ hstatic' => simp [hstatic] at hstatic'
    | tableJump _ _ hcode => rw [hcode] at hpush; cases hpush
    | tableJumpI _ _ hcode => rw [hcode] at hpush; cases hpush

theorem Finished.fed_iff_fedByRemapped (h : Finished rules patch? instructions layout)
    (hpatches : PatchesNoTarget patch?) {i : Nat} :
    fed layout.slots i = true ↔ FedByRemapped rules patch? instructions i := by
  rw [fed_iff]
  constructor
  · rintro ⟨j, slot, rfl, hslot, hpushes⟩
    exact ⟨j, rfl, (h.pushesTarget_iff hpatches hslot).1 hpushes⟩
  · rintro ⟨j, rfl, hremapped⟩
    obtain ⟨instruction, hinstruction, -⟩ := id hremapped
    obtain ⟨slot, hslot, -⟩ := h.slot_of hinstruction
    exact ⟨j, slot, rfl, hslot, (h.pushesTarget_iff hpatches hslot).2 hremapped⟩

/-- A jump is routed only if it is not fed by a remapped push. -/
theorem Finished.exists_unfed_jump (h : Finished rules patch? instructions layout)
    (hpatches : PatchesNoTarget patch?) (hrouted : layout.routed ≠ 0) :
    ∃ (i : Nat) (instruction : Instruction), instructions[i]? = some instruction ∧
      rules.replace? instruction = none ∧ Opcode.isJump instruction.code = true ∧
      ¬ FedByRemapped rules patch? instructions i := by
  rw [routed, Ne, List.countP_eq_zero] at hrouted
  push Not at hrouted
  obtain ⟨slot, hmem, hslotRouted⟩ := hrouted
  obtain ⟨i, hslot⟩ := List.mem_iff_getElem?.1 hmem
  have hunfed : ¬ FedByRemapped rules patch? instructions i := fun hfed => by
    have := h.unfed i slot hslot hslotRouted
    simp [(h.fed_iff_fedByRemapped hpatches).2 hfed] at this
  have hi := h.planned.instruction_eq hslot
  have hemits := h.planned.emits hslot
  obtain ⟨instruction, emission⟩ := slot
  simp only at hi hemits
  cases hemits with
  | tableJump hrule _ hcode => exact ⟨i, instruction, hi, hrule, by rw [hcode]; rfl, hunfed⟩
  | tableJumpI hrule _ hcode => exact ⟨i, instruction, hi, hrule, by rw [hcode]; rfl, hunfed⟩
  | _ => cases hslotRouted

/-- Once an instruction is replaced, every other jump is routed. -/
theorem Finished.routed_of_unfed_jump (h : Finished rules patch? instructions layout)
    (hpatches : PatchesNoTarget patch?) {i j : Nat} {jump instruction : Instruction}
    {replacement : Replacement} (hj : instructions[j]? = some instruction)
    (hreplaced : rules.replace? instruction = some replacement)
    (hi : instructions[i]? = some jump) (hrule : rules.replace? jump = none)
    (hpatch : patch? i = none) (hjump : Opcode.isJump jump.code = true)
    (hfed : ¬ FedByRemapped rules patch? instructions i) : layout.routed ≠ 0 := by
  obtain ⟨slot, hslot, rfl⟩ := h.slot_of hi
  have hsettled : Settled layout.slots := by
    rcases h.settled with hsettled | ⟨-, -, hnone⟩
    · exact hsettled
    · obtain ⟨other, hother, rfl⟩ := h.slot_of hj
      have hnot := hnone other (List.mem_of_getElem? hother)
      have hemits := h.planned.emits hother
      obtain ⟨instruction, emission⟩ := other
      cases hemits with
      | replaced => cases hnot
      | _ => simp_all
  have hemits := h.planned.emits hslot
  have hkept := hsettled i slot hslot
  obtain ⟨jump, emission⟩ := slot
  simp only at hemits hkept hrule hjump
  cases hemits with
  | kept => exact absurd ((h.fed_iff_fedByRemapped hpatches).1 (hkept rfl hjump)) hfed
  | tableJump => exact routed_ne_zero hslot rfl
  | tableJumpI => exact routed_ne_zero hslot rfl
  | replaced hrule' => simp [hrule] at hrule'
  | patched _ hpatch' => simp [hpatch] at hpatch'
  | target _ _ hstatic =>
    rw [Opcode.isJump_of_isPush (isPush_of_isStaticJump hstatic)] at hjump
    cases hjump

end Remapped

end EvmSandbox.Layout
