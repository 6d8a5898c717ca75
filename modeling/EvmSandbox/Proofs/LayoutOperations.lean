/-
The code of a layout as operations. When the rules put straight runs of
operations in place of instructions (`Expands`), the code of a finished
layout is the encoding of well-formed operations, so it decodes to just
these (`Finished.decode_code`): no byte of an operand is ever taken for an
instruction. The operations of a slot stand at the offset of the slot, and
the jump table, if there is one, at the end of the body.
-/
import EvmSandbox.Proofs.Placement

namespace EvmSandbox.Layout

open Operation (At encodeAll)

/-- Whatever the rules put in place of an instruction with the code `code` are the operations
`expand code`. They neither jump nor mark a destination, and those that fit in a code are well
formed. -/
structure Expands (rules : RuleTable) (expand : UInt8 → List Operation) : Prop where
  bytes_eq : ∀ {instruction : Instruction} {replacement : Replacement},
    rules.replace? instruction = some replacement →
      replacement.bytes = encodeAll (expand instruction.code)
  ne_nil : ∀ {instruction : Instruction} {replacement : Replacement},
    rules.replace? instruction = some replacement → expand instruction.code ≠ []
  straight : ∀ {instruction : Instruction} {replacement : Replacement} {op : Operation},
    rules.replace? instruction = some replacement → replacement.bytes.length ≤ maxCodeLength →
      op ∈ expand instruction.code →
      op.WellFormed ∧ Opcode.isJump op.code = false ∧ op.code ≠ Opcode.jumpDest

/-- The patches are for pushes. -/
def PatchesOnlyPushes (patch? : Nat → Option PushValue) (instructions : List Instruction) : Prop :=
  ∀ i value instruction, patch? i = some value → instructions[i]? = some instruction →
    Opcode.isPush instruction.code = true

theorem patchesOnlyPushes_none (instructions : List Instruction) :
    PatchesOnlyPushes (fun _ => none) instructions :=
  fun _ _ _ h => by cases h

/-- The operations of a slot in the code of `layout`. -/
def Slot.operations (expand : UInt8 → List Operation) (layout : Layout) (slot : Slot) :
    List Operation :=
  match slot.emission with
  | .kept => [slot.instruction.toOperation]
  | .replaced _ => expand slot.instruction.code
  | .push value width => [.push width (resolve layout.offsets layout.tableSize value)]
  | .tableJump => [.push tableOffsetWidth layout.offsets.bodyEnd, Opcode.jump]
  | .tableJumpI =>
    [Opcode.swap1, .push tableOffsetWidth layout.offsets.bodyEnd, Opcode.jumpI, Opcode.pop]

/-- The operations of the jump table, if there is one. -/
def tableOperations (layout : Layout) : List Operation :=
  if layout.routed = 0 then [] else table layout.jumpMap layout.offsets.bodyEnd

/-- The operations of the code of `layout`. -/
def operations (expand : UInt8 → List Operation) (layout : Layout) : List Operation :=
  layout.slots.flatMap (Slot.operations expand layout) ++ layout.tableOperations

/-- The instructions of the code of `layout`. -/
abbrev program (expand : UInt8 → List Operation) (layout : Layout) : List Instruction :=
  Instruction.locate 0 (layout.operations expand)

/-! ## The jump table -/

theorem wellFormed_tableEntry (destination : Destination) (next : Nat) :
    ∀ op ∈ tableEntry destination next, op.WellFormed := by
  have hpush : ∀ value, (Operation.push tableOffsetWidth value).WellFormed := fun value =>
    Operation.wellFormed_push value (by decide) (by decide)
  simp only [tableEntry, List.forall_mem_cons, List.not_mem_nil, false_imp_iff, implies_true, and_true]
  exact ⟨by decide, by decide, hpush _, by decide, hpush _, by decide, by decide, hpush _, by decide⟩

theorem wellFormed_table (destinations : List Destination) (start : Nat) :
    ∀ op ∈ table destinations start, op.WellFormed := by
  induction destinations generalizing start with
  | nil => rw [table_nil]; decide
  | cons destination rest ih =>
    rw [table_cons]
    intro op hop
    rcases List.mem_append.1 hop with hop | hop
    · exact wellFormed_tableEntry destination _ op hop
    · exact ih _ op hop

/-! ## The operations of a finished layout -/

section Finished

variable {rules : RuleTable} {patch? : Nat → Option PushValue} {code : Bytes}
  {instructions : List Instruction} {layout : Layout} {expand : UInt8 → List Operation}

theorem Finished.encodeAll_slot (h : Finished rules patch? instructions layout)
    (hexpands : Expands rules expand) {slot : Slot} (hslot : slot ∈ layout.slots) :
    encodeAll (slot.operations expand layout) = block layout.offsets layout.tableSize slot := by
  obtain ⟨i, hi⟩ := List.mem_iff_getElem?.1 hslot
  have hemits := h.planned.emits hi
  obtain ⟨instruction, emission⟩ := slot
  simp only at hemits
  cases hemits with
  | replaced hrule => exact (hexpands.bytes_eq hrule).symm
  | kept => simp [Slot.operations, block]
  | patched => simp [Slot.operations, block]
  | target => simp [Slot.operations, block]
  | tableJump => rfl
  | tableJumpI => rfl

theorem Finished.encodeAll_slots (h : Finished rules patch? instructions layout)
    (hexpands : Expands rules expand) {slots : List Slot} (hslots : ∀ slot ∈ slots, slot ∈ layout.slots) :
    encodeAll (slots.flatMap (Slot.operations expand layout)) =
      slots.flatMap (block layout.offsets layout.tableSize) := by
  induction slots with
  | nil => rfl
  | cons slot slots ih =>
    rw [List.flatMap_cons, List.flatMap_cons, Operation.encodeAll_append,
      h.encodeAll_slot hexpands (hslots slot (by simp)), ih fun s hs => hslots s (by simp [hs])]

theorem Finished.encodeAll_operations (h : Finished rules patch? instructions layout)
    (hexpands : Expands rules expand) : encodeAll (layout.operations expand) = layout.code := by
  rw [operations, Operation.encodeAll_append, h.encodeAll_slots hexpands fun _ hs => hs, code_eq,
    tableOperations]
  split <;> rfl

/-- What a slot puts into the code is not longer than a code may be. -/
theorem Finished.size_le (h : Finished rules patch? instructions layout) {slot : Slot}
    (hslot : slot ∈ layout.slots) : slot.size ≤ maxCodeLength := by
  have hle : slot.size ≤ extent layout.slots :=
    List.le_sum_of_mem (List.mem_map_of_mem hslot)
  have := h.small
  omega

theorem Finished.slot_ne_nil (h : Finished rules patch? instructions layout)
    (hexpands : Expands rules expand) {slot : Slot} (hslot : slot ∈ layout.slots) :
    slot.operations expand layout ≠ [] := by
  obtain ⟨i, hi⟩ := List.mem_iff_getElem?.1 hslot
  have hemits := h.planned.emits hi
  obtain ⟨instruction, emission⟩ := slot
  simp only at hemits
  cases hemits with
  | replaced hrule => exact hexpands.ne_nil hrule
  | _ => simp [Slot.operations]

/-- The operations of a slot are well formed, and none of them marks a destination unless the
instruction is kept. -/
theorem Finished.slot_spec (h : Finished rules patch? instructions layout)
    (hexpands : Expands rules expand) (hpatches : PatchesOnlyPushes patch? instructions)
    (hdecode : Instruction.decode code = .ok instructions) {slot : Slot} (hslot : slot ∈ layout.slots) :
    ∀ op ∈ slot.operations expand layout,
      op.WellFormed ∧ (slot.emission = .kept ∨ op.code ≠ Opcode.jumpDest) := by
  obtain ⟨i, hi⟩ := List.mem_iff_getElem?.1 hslot
  have hinstruction := h.planned.instruction_eq hi
  have hemits := h.planned.emits hi
  have hsize := h.size_le hslot
  have hwell := Instruction.wellFormed_of_decode hdecode (List.mem_of_getElem? hinstruction)
  obtain ⟨instruction, emission⟩ := slot
  simp only at hinstruction hemits hwell
  -- a push grows to eight bytes at most, from a width that pushes have
  have hpush : ∀ {width : Nat} (value : Nat), Opcode.isPush instruction.code = true →
      instruction.immediate.length ≤ width → width ≤ max instruction.immediate.length 8 →
      (Operation.push width value).WellFormed ∧
        (emission = .kept ∨ (Operation.push width value).code ≠ Opcode.jumpDest) := by
    intro width value hcode hle hmax
    have hlength := hwell.length_immediate hcode
    refine ⟨Operation.wellFormed_push value (by omega) (by omega), .inr fun hdest => ?_⟩
    have hisPush := (@Opcode.push_spec width (by omega) (by omega)).2.1
    rw [show Opcode.push width = Opcode.jumpDest from hdest] at hisPush
    cases hisPush
  have htable : ∀ value, (Operation.push tableOffsetWidth value).WellFormed ∧
      (emission = .kept ∨ (Operation.push tableOffsetWidth value).code ≠ Opcode.jumpDest) := fun value =>
    ⟨Operation.wellFormed_push value (by decide) (by decide),
      .inr (show Opcode.push tableOffsetWidth ≠ Opcode.jumpDest by decide)⟩
  cases hemits with
  | @replaced replacement hrule =>
    have hsize : replacement.size ≤ maxCodeLength := hsize
    rw [replacement.size_eq] at hsize
    intro op hop
    obtain ⟨hop, -, hdest⟩ := hexpands.straight hrule hsize hop
    exact ⟨hop, .inr hdest⟩
  | kept =>
    intro op hop
    rw [List.mem_singleton.1 hop]
    exact ⟨hwell, .inl rfl⟩
  | patched _ hpatch hle hmax =>
    intro op hop
    rw [List.mem_singleton.1 hop]
    exact hpush _ (hpatches i _ _ hpatch hinstruction) hle hmax
  | target _ _ hstatic _ hle hmax =>
    intro op hop
    rw [List.mem_singleton.1 hop]
    exact hpush _ (isPush_of_isStaticJump hstatic) hle hmax
  | tableJump =>
    simp only [Slot.operations, List.forall_mem_cons, List.not_mem_nil, false_imp_iff, implies_true,
      and_true]
    exact ⟨htable _, by decide, .inr (by decide)⟩
  | tableJumpI =>
    simp only [Slot.operations, List.forall_mem_cons, List.not_mem_nil, false_imp_iff, implies_true,
      and_true]
    exact ⟨⟨by decide, .inr (by decide)⟩, htable _, ⟨by decide, .inr (by decide)⟩, by decide,
      .inr (by decide)⟩

theorem Finished.wellFormed_operations (h : Finished rules patch? instructions layout)
    (hexpands : Expands rules expand) (hpatches : PatchesOnlyPushes patch? instructions)
    (hdecode : Instruction.decode code = .ok instructions) :
    ∀ op ∈ layout.operations expand, op.WellFormed := by
  intro op hop
  rcases List.mem_append.1 hop with hop | hop
  · obtain ⟨slot, hslot, hop⟩ := List.mem_flatMap.1 hop
    exact (h.slot_spec hexpands hpatches hdecode hslot op hop).1
  · rw [tableOperations] at hop
    split at hop
    · cases hop
    · exact wellFormed_table _ _ op hop

/-- The new code decodes to the operations it was made of. -/
theorem Finished.decode_code (h : Finished rules patch? instructions layout)
    (hexpands : Expands rules expand) (hpatches : PatchesOnlyPushes patch? instructions)
    (hdecode : Instruction.decode code = .ok instructions) :
    Instruction.decode layout.code = .ok (layout.program expand) := by
  exact Instruction.decode_eq_ok_iff.2 ⟨h.length_code_le, layout.operations expand,
    h.wellFormed_operations hexpands hpatches hdecode, (h.encodeAll_operations hexpands).symm, rfl⟩

/-! ## Where the operations stand -/

theorem Finished.at_slot (h : Finished rules patch? instructions layout)
    (hexpands : Expands rules expand) {i : Nat} {slot : Slot} (hslot : layout.slots[i]? = some slot) :
    At (layout.operations expand) (extent (layout.slots.take i)) (slot.operations expand layout) := by
  refine ⟨(layout.slots.take i).flatMap (Slot.operations expand layout),
    (layout.slots.drop (i + 1)).flatMap (Slot.operations expand layout) ++ layout.tableOperations, ?_, ?_⟩
  · obtain ⟨hlt, rfl⟩ := List.getElem?_eq_some_iff.1 hslot
    have hsplit : layout.slots = layout.slots.take i ++ layout.slots[i] :: layout.slots.drop (i + 1) := by
      simp
    have hflat := congrArg (List.flatMap (Slot.operations expand layout)) hsplit
    rw [List.flatMap_append, List.flatMap_cons] at hflat
    rw [operations, hflat]
    simp only [List.append_assoc]
  · rw [h.encodeAll_slots hexpands fun _ hs => List.mem_of_mem_take hs, length_flatMap_block]

theorem Finished.at_table (h : Finished rules patch? instructions layout)
    (hexpands : Expands rules expand) :
    At (layout.operations expand) layout.offsets.bodyEnd layout.tableOperations := by
  refine ⟨layout.slots.flatMap (Slot.operations expand layout), [], by simp [operations], ?_⟩
  rw [h.encodeAll_slots hexpands fun _ hs => hs, length_flatMap_block, h.bodyEnd_eq]

/-! ## Jump destinations -/

/-- An operation of the body belongs to some slot. -/
theorem exists_slot_of_at {f : Slot → List Operation} {slots : List Slot} {op : Operation}
    {position : Nat} (h : At (slots.flatMap f) position [op]) :
    ∃ k slot rest, slots[k]? = some slot ∧ At (f slot) rest [op] ∧
      position = (encodeAll ((slots.take k).flatMap f)).length + rest := by
  induction slots generalizing position with
  | nil => exact absurd h.mem (by simp)
  | cons slot slots ih =>
    rw [List.flatMap_cons] at h
    rcases h.of_append with hfirst | ⟨rest, rfl, hrest⟩
    · exact ⟨0, slot, position, rfl, hfirst, by simp⟩
    · obtain ⟨k, slot', rest', hk, hat, rfl⟩ := ih hrest
      exact ⟨k + 1, slot', rest', by simpa using hk, hat, by simp [Nat.add_assoc]⟩

/-- A `JUMPDEST` without a rule is kept. -/
theorem Finished.emission_of_jumpDest (h : Finished rules patch? instructions layout)
    (hpatches : PatchesOnlyPushes patch? instructions) {k : Nat} {slot : Slot}
    (hslot : layout.slots[k]? = some slot) (hcode : slot.instruction.code = Opcode.jumpDest)
    (hrule : rules.replace? slot.instruction = none) : slot.emission = .kept := by
  have hi := h.planned.instruction_eq hslot
  have hemits := h.planned.emits hslot
  have hpush : Opcode.isPush slot.instruction.code = false := by rw [hcode]; rfl
  obtain ⟨instruction, emission⟩ := slot
  simp only at hi hcode hrule hemits hpush
  cases hemits with
  | kept => rfl
  | replaced hrule' => simp [hrule] at hrule'
  | patched _ hpatch => simp [hpatches k _ _ hpatch hi] at hpush
  | target _ _ hstatic => simp [isPush_of_isStaticJump hstatic] at hpush
  | tableJump _ _ hjump => rw [hcode] at hjump; cases hjump
  | tableJumpI _ _ hjump => rw [hcode] at hjump; cases hjump

/-- A `JUMPDEST` of the new code is one that was kept, or is part of the jump table. -/
theorem Finished.jumpDest_at (h : Finished rules patch? instructions layout)
    (hexpands : Expands rules expand) (hpatches : PatchesOnlyPushes patch? instructions)
    (hdecode : Instruction.decode code = .ok instructions) {position : Nat} {op : Operation}
    (hat : At (layout.operations expand) position [op]) (hcode : op.code = Opcode.jumpDest) :
    (∃ k instruction, instructions[k]? = some instruction ∧ instruction.code = Opcode.jumpDest ∧
      position = extent (layout.slots.take k)) ∨
    layout.routed ≠ 0 ∧ layout.offsets.bodyEnd ≤ position := by
  rcases hat.of_append with hat | ⟨rest, hposition, hat⟩
  · refine .inl ?_
    obtain ⟨k, slot, rest, hslot, hat, hposition⟩ := exists_slot_of_at hat
    have hmem := List.mem_of_getElem? hslot
    rw [h.encodeAll_slots hexpands fun _ hs => List.mem_of_mem_take hs, length_flatMap_block] at hposition
    rcases (h.slot_spec hexpands hpatches hdecode hmem op hat.mem).2 with hkept | hdest
    · have hoperations : slot.operations expand layout = [slot.instruction.toOperation] := by
        rw [Slot.operations, hkept]
      rw [hoperations] at hat
      have hop : op = slot.instruction.toOperation := by simpa using hat.mem
      obtain ⟨before, after, heq, hlength⟩ := hat
      have hbefore : before = [] := by
        cases before with
        | nil => rfl
        | cons => simp at heq
      rw [hbefore, Operation.encodeAll_nil, List.length_nil] at hlength
      exact ⟨k, slot.instruction, h.planned.instruction_eq hslot, by rw [← hcode, hop], by omega⟩
    · exact absurd hcode hdest
  · refine .inr ⟨fun hrouted => ?_, ?_⟩
    · rw [tableOperations, if_pos hrouted] at hat
      exact absurd hat.mem (by simp)
    · rw [h.encodeAll_slots hexpands fun _ hs => hs, length_flatMap_block, ← h.bodyEnd_eq] at hposition
      omega

end Finished

end EvmSandbox.Layout
