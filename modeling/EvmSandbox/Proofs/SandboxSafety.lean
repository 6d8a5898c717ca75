/-
Transpiled code is safe to run in the sandbox: it decodes, and its
instructions split into blocks of which each is a single allowed instruction
or a call to the manager that stands for an instruction of the original. So
the code reaches outside the sandbox only through the manager.

The split is that of the layout: the block of a replaced instruction is a
call, and whatever else the layout emits, jumps through the table and the
table included, is allowed one instruction at a time.
-/
import EvmSandbox.Proofs.Transpilation

namespace EvmSandbox

/-! ## Splitting operations into blocks -/

/-- `ops` is a sequence of blocks that each satisfy `P`. -/
def Operation.Splits (P : List Operation → Prop) (ops : List Operation) : Prop :=
  ∃ blocks : List (List Operation), blocks.flatten = ops ∧ ∀ block ∈ blocks, P block

namespace Operation.Splits

variable {P : List Operation → Prop}

theorem append {a b : List Operation} (ha : Splits P a) (hb : Splits P b) : Splits P (a ++ b) := by
  obtain ⟨blocks, rfl, hblocks⟩ := ha
  obtain ⟨blocks', rfl, hblocks'⟩ := hb
  exact ⟨blocks ++ blocks', by simp, List.forall_mem_append.2 ⟨hblocks, hblocks'⟩⟩

theorem block {ops : List Operation} (h : P ops) : Splits P ops :=
  ⟨[ops], by simp, by simpa using h⟩

theorem singletons {ops : List Operation} (h : ∀ op ∈ ops, P [op]) : Splits P ops :=
  ⟨ops.map ([·]), by simp [← List.flatMap_def], by simpa using h⟩

theorem flatMap {α : Type} {f : α → List Operation} {items : List α}
    (h : ∀ item ∈ items, Splits P (f item)) : Splits P (items.flatMap f) := by
  induction items with
  | nil => exact ⟨[], rfl, by simp⟩
  | cons item items ih =>
    rw [List.flatMap_cons]
    exact (h item (by simp)).append (ih fun i hi => h i (by simp [hi]))

end Operation.Splits

theorem Operation.length_encodeAll_le_flatten {block : List Operation} {blocks : List (List Operation)}
    (h : block ∈ blocks) : (encodeAll block).length ≤ (encodeAll blocks.flatten).length := by
  obtain ⟨before, after, rfl⟩ := List.append_of_mem h
  simp only [List.flatten_append, List.flatten_cons, encodeAll_append, List.length_append]
  omega

theorem Instruction.locate_flatten (offset : Nat) (blocks : List (List Operation)) :
    ∃ located : List (List Instruction), located.flatten = locate offset blocks.flatten ∧
      located.map (List.map (·.toOperation)) = blocks := by
  induction blocks generalizing offset with
  | nil => exact ⟨[], rfl, rfl⟩
  | cons block blocks ih =>
    obtain ⟨located, hflatten, hmap⟩ := ih (offset + (Operation.encodeAll block).length)
    refine ⟨locate offset block :: located, ?_, by simp [hmap]⟩
    rw [List.flatten_cons, hflatten, List.flatten_cons, locate_append]

/-! ## What the layout emits is allowed -/

/-- The codes that a layout emits of its own accord. -/
def Layout.emittedCodes : List UInt8 :=
  [Opcode.jumpDest, Opcode.jump, Opcode.jumpI, Opcode.pop, Opcode.sub, Opcode.invalid, Opcode.dup1,
    Opcode.swap1] ++ (List.range 8).map fun n => Opcode.push (n + 1)

/-- The codes that a layout emits of its own accord where nothing is patched. -/
def Layout.unpatchedCodes : List UInt8 :=
  [Opcode.jumpDest, Opcode.jump, Opcode.jumpI, Opcode.pop, Opcode.sub, Opcode.invalid, Opcode.dup1,
    Opcode.swap1, Opcode.push 1, Opcode.push 2, Opcode.push 3, Opcode.push 4]

theorem Layout.mem_unpatchedCodes_of_table (destinations : List Destination) (start : Nat) :
    ∀ op ∈ table destinations start, op.code ∈ unpatchedCodes := by
  induction destinations generalizing start with
  | nil => rw [table_nil]; decide
  | cons destination rest ih =>
    rw [table_cons, List.forall_mem_append]
    refine ⟨?_, ih _⟩
    have hpush : ∀ value, (Operation.push tableOffsetWidth value).code ∈ unpatchedCodes :=
      fun _ => show Opcode.push tableOffsetWidth ∈ unpatchedCodes by decide
    simp only [tableEntry, List.forall_mem_cons, List.not_mem_nil, false_imp_iff, implies_true,
      and_true]
    exact ⟨by decide, by decide, hpush _, by decide, hpush _, by decide, by decide, hpush _, by decide⟩

/-- A push that is widened to at most `bound` bytes keeps its code or has at most that many bytes. -/
theorem Operation.push_widened {op : Operation} {width bound : Nat} (value : Nat)
    (hpush : Opcode.isPush op.code = true) (hwell : op.WellFormed) (hle : op.immediate.length ≤ width)
    (hmax : width ≤ max op.immediate.length bound) :
    0 < width ∧ width ≤ bound ∨ (Operation.push width value).code = op.code := by
  have hlength := hwell.length_immediate hpush
  by_cases hbound : width ≤ bound
  · exact .inl ⟨by omega, hbound⟩
  · have hwidth : width = Opcode.immediateLength op.code := by
      rw [← hwell.operand]
      omega
    rw [hwidth, Operation.push, Opcode.push_immediateLength hpush]
    exact .inr rfl

/-- All that a layout emits of its own accord is allowed. -/
def Whitelist.AllowsLayout (whitelist : Whitelist) : Prop :=
  ∀ code ∈ Layout.emittedCodes, whitelist.isAllowed code = true

instance (whitelist : Whitelist) : Decidable whitelist.AllowsLayout :=
  inferInstanceAs (Decidable (∀ code ∈ Layout.emittedCodes, whitelist.isAllowed code = true))

namespace Sandbox

/-- The block is a call to the manager that the rules put in place of an instruction of
`original`. -/
def ManagerSequence (s : Sandbox) (original : List Instruction) (block : List Operation) : Prop :=
  ∃ instruction ∈ original, ∃ call : ManagerCall,
    s.rules.get? instruction.code = some (.ofCall instruction.code call s.manager) ∧
      block = call.operations s.manager

/-- The block may run in the sandbox. -/
def SafeBlock (s : Sandbox) (original : List Instruction) (block : List Operation) : Prop :=
  (∃ op, block = [op] ∧ s.whitelist.isAllowed op.code = true) ∨ s.ManagerSequence original block

/-- An admitted instruction without a rule is allowed. -/
theorem allowed_of_admits {s : Sandbox} {instruction : Instruction}
    (hadmits : s.admits instruction.code = true) (hrule : s.rules.replace? instruction = none) :
    s.whitelist.isAllowed instruction.code = true := by
  rwa [admits, RuleTable.replace?_eq_none_iff.1 hrule, Bool.or_false] at hadmits

theorem safe_of_allowed {s : Sandbox} {original : List Instruction} {ops : List Operation}
    (h : ∀ op ∈ ops, s.whitelist.isAllowed op.code = true) : Operation.Splits (s.SafeBlock original) ops :=
  .singletons fun op hop => .inl ⟨op, rfl, h op hop⟩

section AllowsLayout

variable {s : Sandbox} (hallows : s.whitelist.AllowsLayout)
include hallows

theorem allowed_push {width : Nat} (value : Nat) (hpos : 0 < width) (hle : width ≤ 8) :
    s.whitelist.isAllowed (Operation.push width value).code = true := by
  refine hallows _ (List.mem_append_right _ (List.mem_map.2 ⟨width - 1, ?_, ?_⟩))
  · rw [List.mem_range]
    omega
  · rw [Nat.sub_add_cancel hpos]
    rfl

theorem allowed_table (destinations : List Layout.Destination) (start : Nat) :
    ∀ op ∈ Layout.table destinations start, s.whitelist.isAllowed op.code = true := by
  have hemitted : ∀ code ∈ Layout.unpatchedCodes, code ∈ Layout.emittedCodes := by
    decide +kernel
  exact fun op hop =>
    hallows _ (hemitted _ (Layout.mem_unpatchedCodes_of_table destinations start op hop))

/-- A push keeps its code, which is allowed, or has at most eight bytes. -/
theorem allowed_widened {instruction : Instruction} {width : Nat} (value : Nat)
    (hallowed : s.whitelist.isAllowed instruction.code = true)
    (hpush : Opcode.isPush instruction.code = true) (hwell : instruction.toOperation.WellFormed)
    (hle : instruction.immediate.length ≤ width) (hmax : width ≤ max instruction.immediate.length 8) :
    s.whitelist.isAllowed (Operation.push width value).code = true := by
  rcases Operation.push_widened value hpush hwell hle hmax with ⟨hpos, h8⟩ | hcode
  · exact allowed_push hallows value hpos h8
  · rwa [hcode]

open Layout in
theorem splits_slot {code : Bytes} {instructions : List Instruction} {layout : Layout}
    {callOf : UInt8 → ManagerCall}
    (hrules : ∀ code rule, s.rules.get? code = some rule → rule = .ofCall code (callOf code) s.manager)
    (hdecode : Instruction.decode code = .ok instructions)
    (hadmits : ∀ i ∈ instructions, s.admits i.code = true)
    (h : Finished s.rules (fun _ => none) instructions layout) {slot : Slot}
    (hslot : slot ∈ layout.slots) :
    Operation.Splits (s.SafeBlock instructions)
      (slot.operations (fun code => (callOf code).operations s.manager) layout) := by
  obtain ⟨i, hi⟩ := List.mem_iff_getElem?.1 hslot
  have hmem := List.mem_of_getElem? (h.planned.instruction_eq hi)
  have hemits := h.planned.emits hi
  have hwell := Instruction.wellFormed_of_decode hdecode hmem
  obtain ⟨instruction, emission⟩ := slot
  simp only at hmem hemits hwell
  have hallowed := fun hrule => allowed_of_admits (hadmits _ hmem) hrule
  cases hemits with
  | replaced hrule =>
    obtain ⟨rule, hget, -⟩ := RuleTable.replace?_eq_some_iff.1 hrule
    refine .block (.inr ⟨instruction, hmem, callOf instruction.code, ?_, rfl⟩)
    rw [hget, hrules _ _ hget]
  | patched _ hpatch => cases hpatch
  | target hrule _ hstatic _ hle hmax =>
    refine safe_of_allowed fun op hop => ?_
    rw [List.mem_singleton.1 hop]
    exact allowed_widened hallows _ (hallowed hrule) (isPush_of_isStaticJump hstatic) hwell hle hmax
  | kept hrule =>
    refine safe_of_allowed fun op hop => ?_
    rw [List.mem_singleton.1 hop]
    exact hallowed hrule
  | tableJump =>
    refine safe_of_allowed ?_
    simp only [Slot.operations, List.forall_mem_cons, List.not_mem_nil, false_imp_iff, implies_true,
      and_true]
    exact ⟨allowed_push hallows _ (by decide) (by decide), hallows _ (by decide)⟩
  | tableJumpI =>
    refine safe_of_allowed ?_
    simp only [Slot.operations, List.forall_mem_cons, List.not_mem_nil, false_imp_iff, implies_true,
      and_true]
    exact ⟨hallows _ (by decide), allowed_push hallows _ (by decide) (by decide),
      hallows _ (by decide), hallows _ (by decide)⟩

end AllowsLayout

/-! ## The output -/

/-- `blocks` split the instructions of an output so that all of them may run in the sandbox. -/
structure SafelySplit (s : Sandbox) (original instructions : List Instruction)
    (blocks : List (List Instruction)) : Prop where
  flatten_eq : blocks.flatten = instructions
  safe : ∀ block ∈ blocks, s.SafeBlock original (block.map (·.toOperation))
  inside : ∀ i ∈ instructions, s.whitelist.isAllowed i.code = false →
    ∃ block ∈ blocks, i ∈ block ∧ s.ManagerSequence original (block.map (·.toOperation))
  callsManager : ∀ block ∈ blocks, s.ManagerSequence original (block.map (·.toOperation)) →
    ∃ before after, block.map (·.toOperation) =
        before ++ ManagerCall.callManager s.manager ++ after ∧
      ∀ op ∈ before ++ after, Opcode.isCall op.code = false

theorem inside_of_safe {s : Sandbox} {original : List Instruction} {blocks : List (List Instruction)}
    (hsafe : ∀ block ∈ blocks, s.SafeBlock original (block.map (·.toOperation))) {i : Instruction}
    (hi : i ∈ blocks.flatten) (hcode : s.whitelist.isAllowed i.code = false) :
    ∃ block ∈ blocks, i ∈ block ∧ s.ManagerSequence original (block.map (·.toOperation)) := by
  obtain ⟨block, hblock, hmem⟩ := List.mem_flatten.1 hi
  refine ⟨block, hblock, hmem, ?_⟩
  rcases hsafe block hblock with ⟨op, hop, hallowed⟩ | hcall
  · have : i.toOperation ∈ block.map (·.toOperation) := List.mem_map_of_mem hmem
    rw [hop, List.mem_singleton] at this
    rw [← this, hcode] at hallowed
    cases hallowed
  · exact hcall

/-- A call to the manager that is part of a code has one operation of the call family. -/
theorem split_of_managerSequence {s : Sandbox} {original : List Instruction} {block : List Operation}
    (hlength : (Operation.encodeAll block).length ≤ maxCodeLength)
    (h : s.ManagerSequence original block) :
    ∃ before after, block = before ++ ManagerCall.callManager s.manager ++ after ∧
      ∀ op ∈ before ++ after, Opcode.isCall op.code = false := by
  obtain ⟨-, -, call, -, rfl⟩ := h
  obtain ⟨before, after, heq, hbefore, hafter⟩ := ManagerCall.operations_split hlength
  refine ⟨before, after, heq, List.forall_mem_append.2 ⟨?_, ?_⟩⟩
  · exact fun op hop => (hbefore op hop).call
  · exact fun op hop => (hafter op hop).call

/-- **Transpiled code is safe.** Under rules that call the manager, and if all that a layout emits of
its own accord is allowed, the output decodes and splits into allowed instructions and calls to the
manager for instructions of the original. -/
theorem transpileDeployed_safe {s : Sandbox} {code output : Bytes}
    (hrules : s.rules.CallsManager s.manager) (hallows : s.whitelist.AllowsLayout)
    (h : (s.transpileDeployed code).value = .ok output) :
    ∃ original instructions blocks, Instruction.decode (Metadata.strip code) = .ok original ∧
      Instruction.decode output = .ok instructions ∧ s.SafelySplit original instructions blocks := by
  obtain ⟨original, layout, hdecode, hadmits, hlayout, rfl⟩ := transpileDeployed_eq_ok h
  have hfinished := Layout.ofInstructions_spec hlayout
  obtain ⟨callOf, hcallOf⟩ := RuleTable.exists_callOf fun code rule hget =>
    (hrules code rule hget).imp fun _ hrule => ⟨trivial, hrule⟩
  have hcallOf := fun code rule hget => (hcallOf code rule hget).2
  have hexpands := Layout.expands_of_calls hcallOf
  have hsplits : Operation.Splits (s.SafeBlock original)
      (layout.operations fun code => (callOf code).operations s.manager) := by
    refine .append (.flatMap fun slot hslot => ?_) (safe_of_allowed ?_)
    · exact splits_slot hallows hcallOf hdecode hadmits hfinished hslot
    · rw [Layout.tableOperations]
      split
      · simp
      · exact allowed_table hallows _ _
  obtain ⟨blocks, hblocks, hsafe⟩ := hsplits
  obtain ⟨located, hflatten, hmap⟩ := Instruction.locate_flatten 0 blocks
  have hmem : ∀ block ∈ located, block.map (·.toOperation) ∈ blocks := fun block hblock => by
    rw [← hmap]
    exact List.mem_map_of_mem hblock
  have hsafe' := fun block hblock => hsafe _ (hmem block hblock)
  refine ⟨original, _, located, hdecode,
    hfinished.decode_code hexpands (Layout.patchesOnlyPushes_none original) hdecode, ?_⟩
  rw [Layout.program, ← hblocks]
  refine ⟨hflatten, hsafe', fun i hi hcode => ?_, fun block hblock hsequence => ?_⟩
  · exact inside_of_safe hsafe' (hflatten ▸ hi) hcode
  · refine split_of_managerSequence (le_trans ?_ hfinished.length_code_le) hsequence
    rw [← hfinished.encodeAll_operations hexpands, ← hblocks]
    exact Operation.length_encodeAll_le_flatten (hmem block hblock)

/-- A code that asks for its caller and returns through a jump to an address it has pushed before:
one call to the manager, a remapped push and a jump through the table. -/
theorem transpileDeployed_safe_returning :
    ∃ output, (standard (.ofNat 20 0xee)).rules.CallsManager (.ofNat 20 0xee) ∧
      Whitelist.standard.AllowsLayout ∧
      ((standard (.ofNat 20 0xee)).transpileDeployed
        [0x33, 0x50, 0x60, 7, 0x60, 9, 0x56, 0x5b, 0x00, 0x5b, 0x56]).value = .ok output ∧
      ∃ original instructions blocks,
        Instruction.decode (Metadata.strip
          [0x33, 0x50, 0x60, 7, 0x60, 9, 0x56, 0x5b, 0x00, 0x5b, 0x56]) = .ok original ∧
        Instruction.decode output = .ok instructions ∧
        (standard (.ofNat 20 0xee)).SafelySplit original instructions blocks := by
  have hallows : Whitelist.standard.AllowsLayout := by decide +kernel
  have hrules := RuleTable.callsManager_standard (.ofNat 20 0xee)
  have hsuccessful : ((standard (.ofNat 20 0xee)).transpileDeployed
      [0x33, 0x50, 0x60, 7, 0x60, 9, 0x56, 0x5b, 0x00, 0x5b, 0x56]).value.isSuccessful = true := by
    decide +kernel
  obtain ⟨output, h⟩ := Outcome.exists_ok hsuccessful
  exact ⟨output, hrules, hallows, h, transpileDeployed_safe hrules hallows h⟩

end Sandbox

end EvmSandbox
