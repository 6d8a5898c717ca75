/-
The `JUMPDEST` instructions of an output, all of them. A byte that looks like
one may stand in a selector, in the address of the manager or in any number
that is pushed; but the output decodes to the operations it was made of, so
none of these is an instruction. What remains are the `JUMPDEST` instructions
of the code, in their order at their new offsets, and behind them those with
which the entries of the jump table and its end begin
(`jump_destinations_preserved`).
-/
import EvmSandbox.Proofs.RunningOff

namespace EvmSandbox

namespace Instruction

/-- The offsets of the `JUMPDEST` instructions, in the order of the code. -/
def jumpDests (instructions : List Instruction) : List Nat :=
  (instructions.filter (·.code == Opcode.jumpDest)).map (·.offset)

@[simp] theorem jumpDests_append (a b : List Instruction) :
    jumpDests (a ++ b) = jumpDests a ++ jumpDests b := by
  simp [jumpDests]

theorem jumpDests_eq_nil {instructions : List Instruction}
    (h : ∀ i ∈ instructions, i.code ≠ Opcode.jumpDest) : jumpDests instructions = [] := by
  simpa [jumpDests] using h

theorem pairwise_jumpDests {code : Bytes} {instructions : List Instruction}
    (hdecode : decode code = .ok instructions) : (jumpDests instructions).Pairwise (· < ·) :=
  List.pairwise_map.2 ((pairwise_offset_of_decode hdecode).filter _)

end Instruction

namespace Layout

open Instruction (jumpDests locate locate_append)
open Operation (encodeAll)

/-- Where the entries of the jump table begin and, behind them, its end, if there is a table. -/
def tableHeaders (layout : Layout) : List Nat :=
  if layout.routed = 0 then []
  else (List.range (layout.jumpMap.length + 1)).map fun n =>
    layout.offsets.bodyEnd + n * tableEntryLength

/-! ## The jump table -/

theorem jumpDests_tableEntry (destination : Destination) (start next : Nat) :
    jumpDests (locate start (tableEntry destination next)) = [start] := by
  have hpush : (Opcode.push tableOffsetWidth == Opcode.jumpDest) = false := by decide
  simp only [jumpDests, tableEntry, locate, List.filter_cons, Operation.push, hpush]
  rfl

/-- Each entry begins with a `JUMPDEST` and has no other. -/
theorem jumpDests_table (destinations : List Destination) (start : Nat) :
    jumpDests (locate start (table destinations start)) =
      (List.range (destinations.length + 1)).map fun n => start + n * tableEntryLength := by
  induction destinations generalizing start with
  | nil => rfl
  | cons destination rest ih =>
    rw [table_cons, locate_append, Instruction.jumpDests_append, jumpDests_tableEntry, length_tableEntry,
      ih, List.length_cons, List.range_succ_eq_map (n := rest.length + 1)]
    simp only [List.map_cons, List.map_map, Nat.zero_mul, Nat.add_zero, List.singleton_append,
      List.cons.injEq, true_and]
    refine List.map_congr_left fun n _ => ?_
    simp only [Function.comp, Nat.succ_mul]
    omega

/-! ## The body -/

theorem map_old_destinations (slots : List Slot) :
    (destinations slots (.ofSlots slots)).map (·.old) = jumpDests (slots.map Slot.instruction) := by
  induction slots using List.reverseRecOn with
  | nil => rfl
  | append_singleton slots slot ih =>
    rw [destinations_concat, List.map_append, ih, List.map_append, Instruction.jumpDests_append]
    by_cases hcode : slot.instruction.code == Opcode.jumpDest <;> simp [jumpDests, hcode]

section Body

variable {rules : RuleTable} {patch? : Nat → Option PushValue} {code : Bytes}
  {instructions : List Instruction} {layout : Layout} {expand : UInt8 → List Operation}
  (h : Finished rules patch? instructions layout) (hexpands : Expands rules expand)
  (hpatches : PatchesOnlyPushes patch? instructions)
  (hdecode : Instruction.decode code = .ok instructions)
  (hrules : ∀ i : Instruction, i.code = Opcode.jumpDest → rules.replace? i = none)
include h hexpands hpatches hdecode hrules

/-- A slot has a `JUMPDEST` only if it is the slot of one. -/
theorem Finished.jumpDests_slot {slot : Slot} (hslot : slot ∈ layout.slots) (start : Nat) :
    jumpDests (locate start (slot.operations expand layout)) =
      if slot.instruction.code == Opcode.jumpDest then [start] else [] := by
  obtain ⟨k, hk⟩ := List.mem_iff_getElem?.1 hslot
  have hspec := h.slot_spec hexpands hpatches hdecode hslot
  by_cases hkept : slot.emission = .kept
  · rw [Slot.operations, hkept]
    by_cases hcode : slot.instruction.code == Opcode.jumpDest <;> simp [jumpDests, locate, hcode]
  · have hcode : ¬ slot.instruction.code = Opcode.jumpDest := fun hcode =>
      hkept (h.emission_of_jumpDest hpatches hk hcode (hrules _ hcode))
    rw [if_neg (by simpa using hcode)]
    refine Instruction.jumpDests_eq_nil fun i hi => ?_
    have hop : i.toOperation ∈ slot.operations expand layout := by
      rw [← Instruction.map_toOperation_locate start (slot.operations expand layout)]
      exact List.mem_map_of_mem hi
    exact (hspec _ hop).2.resolve_left hkept

theorem Finished.jumpDests_slots {slots : List Slot} (hslots : ∀ slot ∈ slots, slot ∈ layout.slots) :
    jumpDests (locate 0 (slots.flatMap (Slot.operations expand layout))) =
      (destinations slots (.ofSlots slots)).map (·.new) := by
  induction slots using List.reverseRecOn with
  | nil => rfl
  | append_singleton slots slot ih =>
    have hbefore : ∀ slot ∈ slots, slot ∈ layout.slots := fun s hs => hslots s (by simp [hs])
    rw [List.flatMap_append, locate_append, Instruction.jumpDests_append, ih hbefore,
      h.encodeAll_slots hexpands hbefore, length_flatMap_block, List.flatMap_singleton, Nat.zero_add,
      h.jumpDests_slot hexpands hpatches hdecode hrules (hslots slot (by simp)), destinations_concat,
      List.map_append]
    split <;> rfl

/-- The new code has the `JUMPDEST` instructions of the jump map, and then those of the jump table. -/
theorem Finished.jumpDests_program :
    jumpDests (layout.program expand) = layout.jumpMap.map (·.new) ++ layout.tableHeaders := by
  have hbody := h.jumpDests_slots hexpands hpatches hdecode hrules fun _ hs => hs
  rw [program, operations, locate_append, Instruction.jumpDests_append, hbody,
    h.encodeAll_slots hexpands fun _ hs => hs, length_flatMap_block, ← h.bodyEnd_eq, Nat.zero_add,
    ← h.offsets_eq, jumpMap, tableHeaders, tableOperations]
  split
  · rfl
  · rw [jumpDests_table]

end Body

/-- What becomes of the `JUMPDEST` instructions of `old` in `new`. -/
structure KeepsDestinations (old new : List Instruction) (layout : Layout) : Prop where
  /-- The jump map takes each of them to the new offset of the instruction. -/
  remapped : ∀ destination, destination ∈ layout.jumpMap ↔
    ∃ (k : Nat) (i : Instruction), old[k]? = some i ∧ i.code = Opcode.jumpDest ∧ i.offset = destination.old ∧
      layout.offsets.starts[k]? = some destination.new
  old_eq : layout.jumpMap.map (·.old) = jumpDests old
  increasing : layout.jumpMap.Pairwise fun a b => a.old < b.old ∧ a.new < b.new
  /-- There are no others but those of the jump table. -/
  new_eq : jumpDests new = layout.jumpMap.map (·.new) ++ layout.tableHeaders

theorem Finished.keepsDestinations {rules : RuleTable} {patch? : Nat → Option PushValue} {code : Bytes}
    {instructions : List Instruction} {layout : Layout} {expand : UInt8 → List Operation}
    (h : Finished rules patch? instructions layout) (hexpands : Expands rules expand)
    (hpatches : PatchesOnlyPushes patch? instructions)
    (hdecode : Instruction.decode code = .ok instructions)
    (hrules : ∀ i : Instruction, i.code = Opcode.jumpDest → rules.replace? i = none) :
    KeepsDestinations instructions (layout.program expand) layout := by
  have hold : layout.jumpMap.map (·.old) = jumpDests instructions := by
    rw [jumpMap, h.offsets_eq, map_old_destinations, h.planned.map_instruction]
  have hnew := h.jumpDests_program hexpands hpatches hdecode hrules
  refine ⟨fun destination => ?_, hold, ?_, hnew⟩
  · rw [h.mem_jumpMap_iff]
    constructor
    · rintro ⟨k, i, hi, hcode, rfl⟩
      exact ⟨k, i, hi, hcode, rfl, h.starts_eq (List.getElem?_eq_some_iff.1 hi).1⟩
    · rintro ⟨k, i, hi, hcode, hoffset, hstart⟩
      rw [h.starts_eq (List.getElem?_eq_some_iff.1 hi).1, Option.some.injEq] at hstart
      exact ⟨k, i, hi, hcode, by rw [hoffset, hstart]⟩
  · have holds := Instruction.pairwise_jumpDests hdecode
    have hnews := Instruction.pairwise_jumpDests (h.decode_code hexpands hpatches hdecode)
    rw [← hold, List.pairwise_map] at holds
    rw [hnew] at hnews
    exact holds.and (List.pairwise_map.1 (List.pairwise_append.1 hnews).1)

end Layout

namespace Machine

/-- **The jump destinations of an output** are those of the code, in their order and each at the new
offset of its instruction, and the headers of the jump table if some jump goes through it. -/
theorem jump_destinations_preserved {manager : Address} {whitelist : Whitelist} {code output : Bytes}
    (h : ((Sandbox.standard manager whitelist).transpileDeployed code).value = .ok output) :
    ∃ old new layout, Transpiled manager code output old new layout ∧
      Layout.KeepsDestinations old new layout ∧
      (layout.routed ≠ 0 ↔ Layout.NeedsTable (.standard manager) old) := by
  obtain ⟨old, layout, hdecode, -, hlayout, rfl⟩ := Sandbox.transpileDeployed_eq_ok h
  obtain ⟨expand, hexpands⟩ := Layout.exists_expands_standard manager
  have hfinished := Layout.ofInstructions_spec hlayout
  have hpatches := Layout.patchesOnlyPushes_none old
  have hrules : ∀ i : Instruction, i.code = Opcode.jumpDest →
      (RuleTable.standard manager).replace? i = none := fun i =>
    @RuleTable.replace?_standard_eq_none manager (· = Opcode.jumpDest)
      (fun entry hentry => (standard_ordinary entry hentry).2.2) i
  exact ⟨old, _, layout, ⟨hdecode, hfinished.decode_code hexpands hpatches hdecode, hlayout, rfl⟩,
    hfinished.keepsDestinations hexpands hpatches hdecode hrules,
    Layout.routed_ne_zero_iff hdecode hlayout⟩

/-- A code that asks for its caller, jumps to its second destination and from there to its first, in
a sandbox with bytes of `JUMPDEST` in the address of the manager. -/
theorem jump_destinations_preserved_returning :
    ∃ output, ((Sandbox.standard (.ofNat 20 0x5b5b)).transpileDeployed
        [0x33, 0x50, 0x60, 7, 0x60, 9, 0x56, 0x5b, 0x00, 0x5b, 0x56]).value = .ok output ∧
      ∃ old new layout, Transpiled (.ofNat 20 0x5b5b)
          [0x33, 0x50, 0x60, 7, 0x60, 9, 0x56, 0x5b, 0x00, 0x5b, 0x56] output old new layout ∧
        Layout.KeepsDestinations old new layout ∧
        (layout.routed ≠ 0 ↔ Layout.NeedsTable (.standard (.ofNat 20 0x5b5b)) old) := by
  have hsuccessful : ((Sandbox.standard (.ofNat 20 0x5b5b)).transpileDeployed
      [0x33, 0x50, 0x60, 7, 0x60, 9, 0x56, 0x5b, 0x00, 0x5b, 0x56]).value.isSuccessful = true := by
    decide +kernel
  obtain ⟨output, h⟩ := Outcome.exists_ok hsuccessful
  exact ⟨output, h, jump_destinations_preserved h⟩

end Machine

end EvmSandbox
