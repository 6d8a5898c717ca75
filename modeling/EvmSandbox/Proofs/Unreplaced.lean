/-
Code in which nothing is replaced stays where it is. A push right before a
jump holds the offset of its target already, so no push is widened, no
instruction moves and no jump needs the jump table: the layout is the plan
(`ofInstructions_unreplaced`), and its code is the code that was decoded
(`code_unreplaced`). Patches change nothing in this as long as they give each
push the number it holds (`PatchesKeepNumbers`).
-/
import EvmSandbox.Proofs.Placement

namespace EvmSandbox.Layout

/-- What `value` stands for in a code of `length` bytes that has not moved. -/
def PushValue.unmoved? (instructions : List Instruction) (length : Nat) : PushValue → Option Nat
  | .target k => instructions[k]?.map (·.offset)
  | .pastEnd extra => some (min (length + extra.toNat) maxPushValue)
  | .constant value => some value.toNat

/-- Every patch gives a push the number that it holds already. -/
def PatchesKeepNumbers (patch? : Nat → Option PushValue) (instructions : List Instruction)
    (length : Nat) : Prop :=
  ∀ i value instruction, patch? i = some value → instructions[i]? = some instruction →
    Opcode.isPush instruction.code = true ∧
      value.unmoved? instructions length = some (Bytes.toNat instruction.immediate)

theorem patchesKeepNumbers_none (instructions : List Instruction) (length : Nat) :
    PatchesKeepNumbers (fun _ => none) instructions length :=
  fun _ _ _ h => by cases h

section Unreplaced

variable {rules : RuleTable} {patch? : Nat → Option PushValue} {code : Bytes}
  {instructions : List Instruction} {slots : List Slot}
  (hdecode : Instruction.decode code = .ok instructions)
  (hrules : ∀ i ∈ instructions, rules.replace? i = none)
  (hpatches : PatchesKeepNumbers patch? instructions code.length)
  (hplan : plan rules patch? instructions = .ok slots)
include hdecode hrules hpatches hplan

theorem emission_unreplaced {i : Nat} {slot : Slot} (hslot : slots[i]? = some slot) :
    slot.emission = .kept ∨
      ∃ value, slot.emission = .push value slot.instruction.immediate.length ∧
        Opcode.isPush slot.instruction.code = true ∧
        value.unmoved? instructions code.length = some (Bytes.toNat slot.instruction.immediate) := by
  obtain ⟨hi, hchosen⟩ := (plan_spec hplan).2 i slot hslot
  have hrule := hrules _ (List.mem_of_getElem? hi)
  obtain ⟨instruction, emission⟩ := slot
  simp only at hi hchosen hrule
  cases hchosen with
  | replaced hrule' => simp [hrule] at hrule'
  | patched _ hpatch =>
    obtain ⟨hpush, hnumber⟩ := hpatches i _ _ hpatch hi
    exact .inr ⟨_, rfl, hpush, hnumber⟩
  | kept => exact .inl rfl
  | target _ _ hstatic hk =>
    obtain ⟨target, htarget, hoffset⟩ := (resolveTarget_iff hdecode).1 hk
    refine .inr ⟨_, rfl, isPush_of_isStaticJump hstatic, ?_⟩
    rw [PushValue.unmoved?, htarget, Option.map_some, hoffset]

theorem size_unreplaced {i : Nat} {slot : Slot} (hslot : slots[i]? = some slot) :
    slot.size = slot.instruction.size := by
  rcases emission_unreplaced hdecode hrules hpatches hplan hslot with hkept | ⟨value, hpush, -⟩
  · rw [Slot.size, hkept]
  · rw [Slot.size, hpush, Operation.size]

theorem extent_unreplaced {i : Nat} (hle : i ≤ instructions.length) :
    extent (slots.take i) = (instructions[i]?.map (·.offset)).getD code.length := by
  induction i with
  | zero => exact (Instruction.offset_zero_of_decode hdecode).symm
  | succ i ih =>
    have hlt : i < slots.length := by rw [(plan_spec hplan).1]; omega
    have hslot := List.getElem?_eq_getElem hlt
    have hi := ((plan_spec hplan).2 i _ hslot).1
    rw [extent_take_succ hslot, size_unreplaced hdecode hrules hpatches hplan hslot, ih (by omega), hi]
    exact Instruction.offset_add_size_of_decode hdecode hi

theorem extent_unreplaced_length : extent slots = code.length := by
  have hall := extent_unreplaced hdecode hrules hpatches hplan le_rfl
  rw [← (plan_spec hplan).1, List.take_length, (plan_spec hplan).1] at hall
  simpa using hall

/-- Where nothing has moved, the numbers are what they were. -/
theorem resolve_unreplaced {value : PushValue} {number : Nat}
    (h : value.unmoved? instructions code.length = some number) :
    resolve (.ofSlots slots) 0 value = number := by
  cases value with
  | target k =>
    obtain ⟨target, hk, rfl⟩ := Option.map_eq_some_iff.1 h
    have hlt := (List.getElem?_eq_some_iff.1 hk).1
    rw [resolve, Array.getD_eq_getD_getElem?, starts_ofSlots (by rw [(plan_spec hplan).1]; exact hlt),
      Option.getD_some, extent_unreplaced hdecode hrules hpatches hplan hlt.le, hk]
    rfl
  | pastEnd extra =>
    rw [resolve, bodyEnd_ofSlots, extent_unreplaced_length hdecode hrules hpatches hplan, Nat.add_zero]
    exact Option.some.inj h
  | constant value => exact Option.some.inj h

theorem holds_unreplaced : ∀ slot ∈ slots, slot.Holds (resolve (.ofSlots slots) 0) := by
  intro slot hmem value width hemission
  obtain ⟨i, hslot⟩ := List.mem_iff_getElem?.1 hmem
  have hi := ((plan_spec hplan).2 i slot hslot).1
  rcases emission_unreplaced hdecode hrules hpatches hplan hslot with
    hkept | ⟨value', hpush, hcode, hnumber⟩
  · rw [hkept] at hemission
    cases hemission
  · rw [hpush] at hemission
    cases hemission
    have hwell := Instruction.wellFormed_of_decode hdecode (List.mem_of_getElem? hi)
    rw [resolve_unreplaced hdecode hrules hpatches hplan hnumber,
      byteWidth_le_iff (hwell.length_immediate hcode).1]
    exact Bytes.toNat_lt _

theorem isShifted_unreplaced : isShifted slots (.ofSlots slots) = false := by
  rw [isShifted, List.any_eq_false]
  rintro ⟨slot, start⟩ hmem
  obtain ⟨i, hi⟩ := List.mem_iff_getElem?.1 hmem
  obtain ⟨hslot, hstart⟩ := List.getElem?_zip_eq_some.1 hi
  have hinstruction := ((plan_spec hplan).2 i slot hslot).1
  have hlt := (List.getElem?_eq_some_iff.1 hinstruction).1
  rw [Array.getElem?_toList, starts_ofSlots (List.getElem?_eq_some_iff.1 hslot).1, Option.some.injEq,
    extent_unreplaced hdecode hrules hpatches hplan hlt.le, hinstruction] at hstart
  simpa using hstart

omit hdecode hrules hpatches in
theorem routed_of_plan : routed ⟨slots, .ofSlots slots⟩ = 0 :=
  List.countP_eq_zero.2 fun slot hmem => by simp [plan_not_routed hplan slot hmem]

/-- The layout of code in which nothing is replaced is its plan. -/
theorem ofInstructions_unreplaced :
    (ofInstructions rules patch? instructions).result = .ok ⟨slots, .ofSlots slots⟩ := by
  have hreplaced : slots.any Slot.isReplaced = false := by
    rw [List.any_eq_false]
    intro slot hmem
    obtain ⟨i, hslot⟩ := List.mem_iff_getElem?.1 hmem
    rcases emission_unreplaced hdecode hrules hpatches hplan hslot with hkept | ⟨value, hpush, -⟩ <;>
      simp [Slot.isReplaced, *]
  have hrouted : slots.countP Slot.isRouted = 0 := routed_of_plan hplan
  have hsmall : extent slots + 0 ≤ maxCodeLength := by
    rw [extent_unreplaced_length hdecode hrules hpatches hplan]
    exact (Instruction.decode_eq_ok_iff.1 hdecode).1
  have hrelax := relax_of_holds hsmall (holds_unreplaced hdecode hrules hpatches hplan) 1
  simp only [ofInstructions, hplan, ofSlots, hreplaced, Bool.false_eq_true, if_false, settle, hrouted,
    tableLength, if_true, hrelax, isShifted_unreplaced hdecode hrules hpatches hplan, Bool.not_false,
    Bool.or_true]

/-- A push is written again as it was, leading zeros and all. -/
theorem block_unreplaced {i : Nat} {slot : Slot} (hslot : slots[i]? = some slot) :
    block (.ofSlots slots) 0 slot = slot.instruction.encode := by
  have hi := ((plan_spec hplan).2 i slot hslot).1
  have hwell := Instruction.wellFormed_of_decode hdecode (List.mem_of_getElem? hi)
  rcases emission_unreplaced hdecode hrules hpatches hplan hslot with
    hkept | ⟨value, hpush, hcode, hnumber⟩
  · rw [block, hkept]
  · simp only [block, hpush, resolve_unreplaced hdecode hrules hpatches hplan hnumber, Operation.push,
      Operation.encode, Bytes.ofNat_toNat]
    rw [hwell.operand, Opcode.push_immediateLength hcode]

/-- Code in which nothing is replaced is laid out byte for byte as it was. -/
theorem code_unreplaced : Layout.code ⟨slots, .ofSlots slots⟩ = code := by
  have hinstructions := (plan_planned hplan).map_instruction
  have hblocks : slots.flatMap (block (.ofSlots slots) 0) = slots.flatMap (·.instruction.encode) := by
    refine List.flatMap_congr fun slot hmem => ?_
    obtain ⟨i, hslot⟩ := List.mem_iff_getElem?.1 hmem
    exact block_unreplaced hdecode hrules hpatches hplan hslot
  have hrouted := routed_of_plan hplan
  obtain ⟨-, ops, -, rfl, rfl⟩ := Instruction.decode_eq_ok_iff.1 hdecode
  calc Layout.code ⟨slots, .ofSlots slots⟩
      = slots.flatMap (block (.ofSlots slots) 0) := by
        rw [code_eq, tableSize, hrouted, tableLength, if_pos rfl, if_pos rfl, List.append_nil]
    _ = Operation.encodeAll ((slots.map Slot.instruction).map (·.toOperation)) := by
        rw [hblocks, Operation.encodeAll, List.flatMap_map, List.flatMap_map]
    _ = Operation.encodeAll ops := by
        rw [hinstructions, Instruction.map_toOperation_locate]

omit hplan in
/-- In a layout in which nothing is replaced no jump is routed, and the code is what it was. -/
theorem layout_unreplaced {layout : Layout}
    (h : (ofInstructions rules patch? instructions).result = .ok layout) :
    layout.routed = 0 ∧ layout.code = code := by
  cases hplan : plan rules patch? instructions with
  | error errors => simp [ofInstructions, hplan] at h
  | ok slots =>
    rw [ofInstructions_unreplaced hdecode hrules hpatches hplan] at h
    cases h
    exact ⟨routed_of_plan hplan, code_unreplaced hdecode hrules hpatches hplan⟩

end Unreplaced

end EvmSandbox.Layout
