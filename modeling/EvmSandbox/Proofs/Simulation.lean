/-
The new code simulates the old one: it goes through the old code instruction
by instruction, from the new offset of each instruction to the new offset of
the next, with the same stack and environment (`LaidOut.simulated`).

There is one exception. A push right before a jump is remapped, so between
the push and the jump the new code has the new offset of the target on the
stack where the old one has the old offset (`Corresponds.fedJump`). Other
jumps take old offsets from the stack and look them up in the jump table,
unless no instruction has moved at all.
-/
import EvmSandbox.Proofs.TableRun
import EvmSandbox.Proofs.LayoutOperations
import EvmSandbox.Proofs.ManagerSequence

namespace EvmSandbox.Machine

open Operation (At encodeAll)
open Instruction (locate)
open Layout (Slot Finished Expands Remapped FedByRemapped PatchesNoTarget extent tableOffsetWidth
  patchesOnlyPushes_none isPush_of_isStaticJump remapped_iff offset_lt_of_decode)

/-- The state of the new code that corresponds to a state of the old code. -/
inductive Corresponds {Env : Type} (rules : RuleTable) (code : Bytes) (old : List Instruction)
    (layout : Layout) : State Env → State Env → Prop where
  | instruction {i start : Nat} {instruction : Instruction} (hi : old[i]? = some instruction)
    (hstart : layout.offsets.starts[i]? = some start)
    (hfed : ¬ FedByRemapped rules (fun _ => none) old i) (stack : List Word) (env : Env) :
    Corresponds rules code old layout ⟨instruction.offset, stack, env⟩ ⟨start, stack, env⟩
  /-- A jump whose target was pushed by the instruction right before it. -/
  | fedJump {i k start new : Nat} {jump destination : Instruction} (hi : old[i + 1]? = some jump)
    (hstart : layout.offsets.starts[i + 1]? = some start)
    (hremapped : Remapped rules (fun _ => none) old i) (hk : old[k]? = some destination)
    (hnew : layout.offsets.starts[k]? = some new) (stack : List Word) (env : Env) :
    Corresponds rules code old layout
      ⟨jump.offset, BitVec.ofNat 256 destination.offset :: stack, env⟩
      ⟨start, BitVec.ofNat 256 new :: stack, env⟩
  /-- The end of the old code. -/
  | ended (stack : List Word) (env : Env) :
    Corresponds rules code old layout ⟨code.length, stack, env⟩ ⟨layout.offsets.bodyEnd, stack, env⟩

/-- What the old code does at an instruction in the state `s`, the new code does from the state
`t` on. -/
structure Simulated {Env : Type} (meaning : Meaning Env) (rules : RuleTable) (code : Bytes)
    (old new : List Instruction) (layout : Layout) (s t : State Env) : Prop where
  move : ∀ s', step meaning old s = .move s' →
    ∃ t', Leads meaning new t (.move t') ∧ Corresponds rules code old layout s' t'
  stop : ∀ stack env, fetch old s.pc ≠ none → step meaning old s = .stop stack env →
    Leads meaning new t (.stop stack env)
  fault : ∀ env, step meaning old s = .fault env →
    ∃ env', Leads meaning new t (.fault env') ∧
      ∀ op, fetch old s.pc = some op → Opcode.isJump op.code = true → env' = env

/-- The operations `expand code` do what those instructions of the old code do for which the rules
have them stand. -/
structure Faithful {Env : Type} (meaning : Meaning Env) (rules : RuleTable)
    (expand : UInt8 → List Operation) (old : List Instruction) : Prop where
  expands : Expands rules expand
  ordinary : ∀ {instruction : Instruction} {replacement : Replacement},
    rules.replace? instruction = some replacement →
      Opcode.isJump instruction.code = false ∧ instruction.code ≠ Opcode.jumpDest
  effect : ∀ {instruction : Instruction} {replacement : Replacement}, instruction ∈ old →
    rules.replace? instruction = some replacement → instruction.toOperation.WellFormed →
      ∀ stack env, performAll meaning (expand instruction.code) stack env =
        perform meaning instruction.toOperation stack env

/-- A finished layout of decoded code, without patches, under faithful rules. -/
structure LaidOut {Env : Type} (meaning : Meaning Env) (rules : RuleTable)
    (expand : UInt8 → List Operation) (code : Bytes) (old : List Instruction) (layout : Layout) :
    Prop where
  faithful : Faithful meaning rules expand old
  decoded : Instruction.decode code = .ok old
  finished : Finished rules (fun _ => none) old layout

/-- From the state `t` the new code does what `transition` says of the old code. -/
def Mirrored {Env : Type} (meaning : Meaning Env) (rules : RuleTable) (code : Bytes)
    (old new : List Instruction) (layout : Layout) (t : State Env) : Transition Env → Prop
  | .move s' => ∃ t', Leads meaning new t (.move t') ∧ Corresponds rules code old layout s' t'
  | .stop stack env => Leads meaning new t (.stop stack env)
  | .fault env => Leads meaning new t (.fault env)

/-- The instruction with index `k` is a `JUMPDEST` at `offset`. -/
def MarkedAt (old : List Instruction) (k offset : Nat) : Prop :=
  ∃ destination, old[k]? = some destination ∧ destination.code = Opcode.jumpDest ∧
    destination.offset = offset

/-- The new offset `target'` is to the new code what the old offset `target` is to the old one. -/
structure SameTarget (old new : List Instruction) (layout : Layout) (target target' : Word) : Prop where
  toNat_eq : ∀ k, MarkedAt old k target.toNat → target'.toNat = extent (layout.slots.take k)
  isDestination_iff : isDestination new target'.toNat = true ↔ ∃ k, MarkedAt old k target.toNat

section Simulation

variable {Env : Type} {meaning : Meaning Env} {rules : RuleTable} {expand : UInt8 → List Operation}
  {code : Bytes} {old : List Instruction} {layout : Layout}
  (h : LaidOut meaning rules expand code old layout)

/-! ## The old code -/

section Old

include h

theorem LaidOut.fetch_eq {i : Nat} {instruction : Instruction} (hi : old[i]? = some instruction) :
    fetch old instruction.offset = some instruction.toOperation := by
  obtain ⟨-, ops, -, -, rfl⟩ := Instruction.decode_eq_ok_iff.1 h.decoded
  exact fetch_locate_eq_some_iff.2 (Instruction.mem_locate_iff.1 (List.mem_of_getElem? hi))

theorem LaidOut.step_eq {i : Nat} {instruction : Instruction} (hi : old[i]? = some instruction)
    (stack : List Word) (env : Env) :
    step meaning old ⟨instruction.offset, stack, env⟩ =
      execute meaning old instruction.toOperation ⟨instruction.offset, stack, env⟩ := by
  rw [step, h.fetch_eq hi]

theorem LaidOut.wellFormed {i : Nat} {instruction : Instruction} (hi : old[i]? = some instruction) :
    instruction.toOperation.WellFormed :=
  Instruction.wellFormed_of_decode h.decoded (List.mem_of_getElem? hi)

/-- A jump of the old code goes to a `JUMPDEST` of the old code, or fails. -/
theorem LaidOut.jumpTo_cases (target : Word) (stack : List Word) (env : Env) :
    (∃ k, MarkedAt old k target.toNat ∧
      jumpTo old target stack env = .move ⟨target.toNat, stack, env⟩) ∨
    (∀ k, ¬ MarkedAt old k target.toNat) ∧ jumpTo old target stack env = .fault env := by
  cases hdestination : isDestination old target.toNat with
  | true =>
    refine .inl ?_
    have hjump := jumpTo_of_isDestination hdestination stack env
    simp only [isDestination, fetch, Option.any_map, Option.any_eq_true, beq_iff_eq]
      at hdestination
    obtain ⟨destination, hfind, hcode⟩ := hdestination
    obtain ⟨k, hk⟩ := List.mem_iff_getElem?.1 (List.mem_of_find?_eq_some hfind)
    exact ⟨k, ⟨destination, hk, hcode, by simpa using List.find?_some hfind⟩, hjump⟩
  | false =>
    refine .inr ⟨?_, jumpTo_of_not_isDestination hdestination _ _⟩
    rintro k ⟨destination, hk, hcode, hoffset⟩
    rw [isDestination, ← hoffset, h.fetch_eq hk] at hdestination
    simp [hcode] at hdestination

theorem LaidOut.markedAt_unique {k k' offset : Nat} (hk : MarkedAt old k offset)
    (hk' : MarkedAt old k' offset) : k = k' := by
  obtain ⟨_, hk, -, hoffset⟩ := hk
  obtain ⟨_, hk', -, hoffset'⟩ := hk'
  exact Instruction.index_unique_of_decode h.decoded hk hk' (hoffset.trans hoffset'.symm)

end Old

/-! ## The new code -/

section New

include h

theorem LaidOut.starts_eq {i : Nat} {instruction : Instruction} (hi : old[i]? = some instruction) :
    layout.offsets.starts[i]? = some (extent (layout.slots.take i)) :=
  h.finished.starts_eq (List.getElem?_eq_some_iff.1 hi).1

/-- A `JUMPDEST` is kept. -/
theorem LaidOut.emission_of_jumpDest {k : Nat} {slot : Slot} (hslot : layout.slots[k]? = some slot)
    (hcode : slot.instruction.code = Opcode.jumpDest) : slot.emission = .kept := by
  refine h.finished.emission_of_jumpDest (patchesOnlyPushes_none old) hslot hcode ?_
  exact Option.eq_none_iff_forall_ne_some.2 fun _ hrule => (h.faithful.ordinary hrule).2 hcode

/-- The new offset of an instruction is a jump destination exactly if the instruction is a
`JUMPDEST`. -/
theorem LaidOut.isDestination_iff {k : Nat} {instruction : Instruction}
    (hk : old[k]? = some instruction) :
    isDestination (layout.program expand) (extent (layout.slots.take k)) = true ↔
      instruction.code = Opcode.jumpDest := by
  obtain ⟨slot, hslot, rfl⟩ := h.finished.slot_of hk
  have hat := h.finished.at_slot h.faithful.expands hslot
  have hmem := List.mem_of_getElem? hslot
  have hkept : slot.emission = .kept →
      slot.operations expand layout = [slot.instruction.toOperation] := fun hkept => by
    rw [Slot.operations, hkept]
  rw [Machine.isDestination_iff]
  constructor
  · rintro ⟨op, hop, hcode⟩
    -- the operation is the first of the slot, so the slot is a kept one
    obtain ⟨first, rest, hoperations⟩ := List.exists_cons_of_ne_nil
      (h.finished.slot_ne_nil h.faithful.expands hmem)
    rw [hoperations] at hat
    obtain rfl : op = first := hop.unique hat.head
    have hspec := h.finished.slot_spec h.faithful.expands (patchesOnlyPushes_none old) h.decoded hmem
      op (by rw [hoperations]; simp)
    rcases hspec.2 with hemission | hdest
    · rw [hkept hemission] at hoperations
      rw [← (List.cons.inj hoperations).1] at hcode
      exact hcode
    · exact absurd hcode hdest
  · intro hcode
    rw [hkept (h.emission_of_jumpDest hslot hcode)] at hat
    exact ⟨_, hat, hcode⟩

/-- In an unmoved layout nothing but the old `JUMPDEST` instructions can be jumped to. -/
theorem LaidOut.markedAt_of_isDestination (hrouted : layout.routed = 0)
    (hunshifted : Layout.isShifted layout.slots layout.offsets = false) {offset : Nat}
    (hdestination : isDestination (layout.program expand) offset = true) :
    ∃ k, MarkedAt old k offset := by
  obtain ⟨op, hat, hcode⟩ := Machine.isDestination_iff.1 hdestination
  rcases h.finished.jumpDest_at h.faithful.expands (patchesOnlyPushes_none old) h.decoded hat hcode with
    ⟨k, instruction, hk, hmark, hposition⟩ | ⟨hne, -⟩
  · exact ⟨k, instruction, hk, hmark, by rw [hposition, h.finished.extent_eq_offset hunshifted hk]⟩
  · exact absurd hrouted hne

end New

/-! ## Corresponding states -/

section Correspondence

include h

/-- Behind an instruction stands the next one, or the end. -/
theorem LaidOut.corresponds_next {i : Nat} {instruction : Instruction}
    (hi : old[i]? = some instruction) (hremapped : ¬ Remapped rules (fun _ => none) old i)
    (stack : List Word) (env : Env) :
    Corresponds rules code old layout ⟨instruction.offset + instruction.size, stack, env⟩
      ⟨extent (layout.slots.take (i + 1)), stack, env⟩ := by
  rw [Instruction.offset_add_size_of_decode h.decoded hi]
  cases hnext : old[i + 1]? with
  | none =>
    have hlength := List.getElem?_eq_none_iff.1 hnext
    rw [← h.finished.planned.length_eq] at hlength
    rw [List.take_of_length_le hlength, ← h.finished.bodyEnd_eq]
    exact .ended stack env
  | some next =>
    refine .instruction hnext (h.starts_eq hnext) ?_ stack env
    rintro ⟨j, hj, hremapped'⟩
    obtain rfl : i = j := by omega
    exact hremapped hremapped'

theorem LaidOut.corresponds_marked {k offset : Nat} (hk : MarkedAt old k offset) (stack : List Word)
    (env : Env) :
    Corresponds rules code old layout ⟨offset, stack, env⟩
      ⟨extent (layout.slots.take k), stack, env⟩ := by
  obtain ⟨destination, hk, hcode, rfl⟩ := hk
  refine .instruction hk (h.starts_eq hk) (fun hfed => ?_) stack env
  have hjump := hfed.isJump hk
  rw [hcode] at hjump
  cases hjump

theorem LaidOut.corresponds_start (stack : List Word) (env : Env) :
    Corresponds rules code old layout ⟨0, stack, env⟩ ⟨0, stack, env⟩ := by
  obtain ⟨-, ops, -, hcode, hold⟩ := Instruction.decode_eq_ok_iff.1 h.decoded
  cases ops with
  | nil =>
    have hslots : layout.slots = [] := by
      rw [← List.length_eq_zero_iff, h.finished.planned.length_eq, hold]
      rfl
    have hlength : code.length = 0 := by rw [hcode]; rfl
    have hbodyEnd : layout.offsets.bodyEnd = 0 := by rw [h.finished.bodyEnd_eq, hslots]; rfl
    have hended : Corresponds rules code old layout ⟨code.length, stack, env⟩
        ⟨layout.offsets.bodyEnd, stack, env⟩ := .ended stack env
    rw [hlength, hbodyEnd] at hended
    exact hended
  | cons op ops =>
    have hfirst : old[0]? = some ⟨op, 0⟩ := by rw [hold]; rfl
    refine .instruction hfirst (h.starts_eq hfirst) ?_ stack env
    rintro ⟨j, hj, -⟩
    omega

end Correspondence

/-! ## One instruction -/

theorem Mirrored.of_reaches {new : List Instruction} {t u : State Env} {transition : Transition Env}
    (htu : Reaches meaning new t u) (hu : Mirrored meaning rules code old new layout u transition) :
    Mirrored meaning rules code old new layout t transition := by
  cases transition with
  | move s' =>
    obtain ⟨t', hleads, hcorresponds⟩ := hu
    exact ⟨t', .of_reaches htu hleads, hcorresponds⟩
  | stop stack env =>
    have hleads : Leads meaning new u (.stop stack env) := hu
    exact hleads.of_reaches htu
  | fault env =>
    have hleads : Leads meaning new u (.fault env) := hu
    exact hleads.of_reaches htu

theorem Mirrored.simulated {new : List Instruction} {s t : State Env}
    (ht : Mirrored meaning rules code old new layout t (step meaning old s)) :
    Simulated meaning rules code old new layout s t where
  move s' hstep := by rw [hstep] at ht; exact ht
  stop stack env _ hstep := by rw [hstep] at ht; exact ht
  fault env hstep := by rw [hstep] at ht; exact ⟨env, ht, fun _ _ _ => rfl⟩

section Instructions

include h

/-- A jump to an old offset is mirrored by whatever finds the new offset of each old
`JUMPDEST`. -/
theorem LaidOut.mirrored_jumpTo {new : List Instruction} {t : State Env} {target : Word}
    {stack : List Word} {env : Env}
    (hfound : ∀ k, MarkedAt old k target.toNat →
      Leads meaning new t (.move ⟨extent (layout.slots.take k), stack, env⟩))
    (hmissing : (∀ k, ¬ MarkedAt old k target.toNat) → Leads meaning new t (.fault env)) :
    Mirrored meaning rules code old new layout t (jumpTo old target stack env) := by
  rcases h.jumpTo_cases target stack env with ⟨k, hk, hjump⟩ | ⟨hnone, hjump⟩
  · rw [hjump]
    exact ⟨_, hfound k hk, h.corresponds_marked hk stack env⟩
  · rw [hjump]
    exact hmissing hnone

theorem LaidOut.at_table (hrouted : layout.routed ≠ 0) :
    At (layout.operations expand) layout.offsets.bodyEnd
      (Layout.table layout.jumpMap layout.offsets.bodyEnd) := by
  have hat := h.finished.at_table h.faithful.expands
  rwa [Layout.tableOperations, if_neg hrouted] at hat

/-- The jump table finds the new offset of an old `JUMPDEST`, and nothing else. -/
theorem LaidOut.leads_lookup (hrouted : layout.routed ≠ 0) (target : Word) (stack : List Word)
    (env : Env) :
    (∀ k, MarkedAt old k target.toNat →
      Leads meaning (layout.program expand) ⟨layout.offsets.bodyEnd, target :: stack, env⟩
        (.move ⟨extent (layout.slots.take k), stack, env⟩)) ∧
    ((∀ k, ¬ MarkedAt old k target.toNat) →
      Leads meaning (layout.program expand) ⟨layout.offsets.bodyEnd, target :: stack, env⟩
        (.fault env)) := by
  have hdestinations : ∀ destination ∈ layout.jumpMap,
      isDestination (layout.program expand) destination.new = true ∧
        destination.old < 256 ^ tableOffsetWidth ∧ destination.new < 256 ^ tableOffsetWidth := by
    intro destination hmem
    obtain ⟨k, instruction, hk, hcode, rfl⟩ := h.finished.mem_jumpMap_iff.1 hmem
    exact ⟨(h.isDestination_iff hk).2 hcode, offset_lt_of_decode h.decoded hk, h.finished.extent_take_lt k⟩
  have hleads : Leads meaning (layout.program expand)
      ⟨layout.offsets.bodyEnd, target :: stack, env⟩ _ :=
    leads_table (h.at_table hrouted) hdestinations (h.finished.lastEntry_lt hrouted) target stack env
  -- an entry of the table is an old `JUMPDEST` with its new offset
  have hentry : ∀ {destination : Layout.Destination}, destination ∈ layout.jumpMap →
      ∃ k, MarkedAt old k destination.old ∧ destination.new = extent (layout.slots.take k) := by
    intro destination hmem
    obtain ⟨k, instruction, hk, hcode, rfl⟩ := h.finished.mem_jumpMap_iff.1 hmem
    exact ⟨k, ⟨instruction, hk, hcode, rfl⟩, rfl⟩
  refine ⟨fun k hk => ?_, fun hnone => ?_⟩
  · cases hfind : layout.jumpMap.find? (·.old == target.toNat) with
    | none =>
      obtain ⟨instruction, hk, hcode, hoffset⟩ := hk
      have hmem := h.finished.mem_jumpMap_iff.2 ⟨k, instruction, hk, hcode, rfl⟩
      exact absurd hoffset (by simpa using List.find?_eq_none.1 hfind _ hmem)
    | some destination =>
      obtain ⟨k', hk', hnew⟩ := hentry (List.mem_of_find?_eq_some hfind)
      have hold : destination.old = target.toNat := by simpa using List.find?_some hfind
      rw [hold] at hk'
      rw [hfind] at hleads
      simp only [hnew, h.markedAt_unique hk' hk] at hleads
      exact hleads
  · cases hfind : layout.jumpMap.find? (·.old == target.toNat) with
    | none =>
      rw [hfind] at hleads
      exact hleads
    | some destination =>
      obtain ⟨k', hk', -⟩ := hentry (List.mem_of_find?_eq_some hfind)
      have hold : destination.old = target.toNat := by simpa using List.find?_some hfind
      rw [hold] at hk'
      exact absurd hk' (hnone k')

theorem LaidOut.mirrored_table (hrouted : layout.routed ≠ 0) (target : Word) (stack : List Word)
    (env : Env) :
    Mirrored meaning rules code old (layout.program expand) layout
      ⟨layout.offsets.bodyEnd, target :: stack, env⟩ (jumpTo old target stack env) := by
  obtain ⟨hfound, hmissing⟩ := h.leads_lookup hrouted target stack env
  exact h.mirrored_jumpTo hfound hmissing

theorem LaidOut.mirrored_jumpTo_of_step {new : List Instruction} {t : State Env} {target target' : Word}
    {stack : List Word} {env : Env} (hsame : SameTarget old new layout target target')
    (hstep : step meaning new t = jumpTo new target' stack env) :
    Mirrored meaning rules code old new layout t (jumpTo old target stack env) := by
  refine h.mirrored_jumpTo (fun k hk => leads_step ?_) fun hnone => leads_step ?_
  · rw [hstep, jumpTo_of_isDestination (hsame.isDestination_iff.2 ⟨k, hk⟩), hsame.toNat_eq k hk]
  · rw [hstep, jumpTo_of_not_isDestination]
    rw [← Bool.not_eq_true, hsame.isDestination_iff]
    exact fun ⟨k, hk⟩ => hnone k hk

theorem LaidOut.corresponds_after_jump {i : Nat} {jump : Instruction} (hi : old[i]? = some jump)
    (hjump : Opcode.isJump jump.code = true) (stack : List Word) (env : Env) :
    Corresponds rules code old layout ⟨jump.offset + jump.size, stack, env⟩
      ⟨extent (layout.slots.take (i + 1)), stack, env⟩ := by
  refine h.corresponds_next hi (fun hremapped => ?_) stack env
  rw [Opcode.isJump_of_isPush (hremapped.isPush hi)] at hjump
  cases hjump

/-- A jump that stands as it was, with the same target on the stack in old and new offsets. -/
theorem LaidOut.mirrored_keptJump {i : Nat} {jump : Instruction}
    (hslot : layout.slots[i]? = some ⟨jump, .kept⟩) (hjump : Opcode.isJump jump.code = true)
    {target target' : Word}
    (hsame : SameTarget old (layout.program expand) layout target target')
    (stack : List Word) (env : Env) :
    Mirrored meaning rules code old (layout.program expand) layout
      ⟨extent (layout.slots.take i), target' :: stack, env⟩
      (step meaning old ⟨jump.offset, target :: stack, env⟩) := by
  have hi : old[i]? = some jump := h.finished.planned.instruction_eq hslot
  have hat : At (layout.operations expand) (extent (layout.slots.take i)) [jump.toOperation] :=
    h.finished.at_slot h.faithful.expands hslot
  have hstep : ∀ stack, step meaning (layout.program expand)
      ⟨extent (layout.slots.take i), stack, env⟩ =
        execute meaning (layout.program expand) jump.toOperation
          ⟨extent (layout.slots.take i), stack, env⟩ := fun stack => step_of_at hat
  have hnext : Corresponds rules code old layout ⟨jump.offset + jump.size, stack.tail, env⟩
      ⟨extent (layout.slots.take i) + jump.size, stack.tail, env⟩ := by
    have := h.corresponds_after_jump hi hjump stack.tail env
    rwa [Layout.extent_take_succ hslot] at this
  have hwell := h.wellFormed hi
  rw [h.step_eq hi]
  rcases Opcode.isJump_iff.1 hjump with hcode | hcode
  · rw [hwell.eq_code hcode rfl] at hstep ⊢
    rw [execute_jump]
    exact h.mirrored_jumpTo_of_step hsame (hstep _)
  · rw [hwell.eq_code hcode rfl] at hstep hnext ⊢
    cases stack with
    | nil => exact leads_step (hstep [target'])
    | cons condition stack =>
      have hstep := hstep (target' :: condition :: stack)
      rw [execute_jumpI] at hstep ⊢
      by_cases hzero : condition = 0
      · rw [if_pos hzero] at hstep ⊢
        exact ⟨_, leads_step hstep, hnext⟩
      · rw [if_neg hzero] at hstep ⊢
        exact h.mirrored_jumpTo_of_step hsame hstep

/-- A jump without a target on the stack fails in both codes. -/
theorem LaidOut.mirrored_keptJump_nil {i : Nat} {jump : Instruction}
    (hslot : layout.slots[i]? = some ⟨jump, .kept⟩) (hjump : Opcode.isJump jump.code = true)
    (env : Env) :
    Mirrored meaning rules code old (layout.program expand) layout
      ⟨extent (layout.slots.take i), [], env⟩ (step meaning old ⟨jump.offset, [], env⟩) := by
  have hi : old[i]? = some jump := h.finished.planned.instruction_eq hslot
  have hat : At (layout.operations expand) (extent (layout.slots.take i)) [jump.toOperation] :=
    h.finished.at_slot h.faithful.expands hslot
  have hfault : ∀ program pc, execute meaning program jump.toOperation ⟨pc, [], env⟩ = .fault env := by
    intro program pc
    rcases Opcode.isJump_iff.1 hjump with hcode | hcode <;> rw [(h.wellFormed hi).eq_code hcode rfl] <;> rfl
  have hleads : Leads meaning (layout.program expand)
      ⟨extent (layout.slots.take i), [], env⟩ (.fault env) :=
    leads_execute hat (hfault _ _)
  rw [h.step_eq hi, hfault]
  exact hleads

/-- A jump by way of the table. -/
theorem LaidOut.mirrored_tableJump {i : Nat} {jump : Instruction}
    (hslot : layout.slots[i]? = some ⟨jump, .tableJump⟩) (hcode : jump.code = Opcode.jump)
    (stack : List Word) (env : Env) :
    Mirrored meaning rules code old (layout.program expand) layout
      ⟨extent (layout.slots.take i), stack, env⟩ (step meaning old ⟨jump.offset, stack, env⟩) := by
  have hi : old[i]? = some jump := h.finished.planned.instruction_eq hslot
  have hat : At (layout.operations expand) (extent (layout.slots.take i))
      ([.push tableOffsetWidth layout.offsets.bodyEnd] ++ [(Opcode.jump : Operation)]) :=
    h.finished.at_slot h.faithful.expands hslot
  have htable := h.at_table (Layout.routed_ne_zero hslot rfl)
  have hpush : Reaches meaning (layout.program expand)
      ⟨extent (layout.slots.take i), stack, env⟩
      ⟨_, BitVec.ofNat 256 layout.offsets.bodyEnd :: stack, env⟩ :=
    reaches_of_straight hat.left (by simp) rfl (by simp [perform_pushOffset h.finished.bodyEnd_lt])
  have hjump : Leads meaning (layout.program expand) _ _ :=
    leads_jump hat.right (toNat_word h.finished.bodyEnd_lt) (isDestination_of_at_table htable) stack env
  refine .of_reaches (Relation.ReflTransGen.trans hpush hjump.reaches) ?_
  rw [h.step_eq hi, (h.wellFormed hi).eq_code hcode rfl]
  cases stack with
  | nil =>
    have hleads : Leads meaning (layout.program expand) _ (.fault env) :=
      leads_table_nil htable env
    exact hleads
  | cons target stack => exact h.mirrored_table (Layout.routed_ne_zero hslot rfl) target stack env

/-- A conditional jump by way of the table. -/
theorem LaidOut.mirrored_tableJumpI {i : Nat} {jump : Instruction}
    (hslot : layout.slots[i]? = some ⟨jump, .tableJumpI⟩) (hcode : jump.code = Opcode.jumpI)
    (stack : List Word) (env : Env) :
    Mirrored meaning rules code old (layout.program expand) layout
      ⟨extent (layout.slots.take i), stack, env⟩ (step meaning old ⟨jump.offset, stack, env⟩) := by
  have hi : old[i]? = some jump := h.finished.planned.instruction_eq hslot
  have hop := (h.wellFormed hi).eq_code hcode rfl
  have hat : At (layout.operations expand) (extent (layout.slots.take i))
      ([(Opcode.swap1 : Operation), .push tableOffsetWidth layout.offsets.bodyEnd] ++
        ((Opcode.jumpI : Operation) :: [(Opcode.pop : Operation)])) :=
    h.finished.at_slot h.faithful.expands hslot
  have hrouted := Layout.routed_ne_zero hslot rfl
  rw [h.step_eq hi, hop]
  match stack with
  | [] =>
    have hleads : Leads meaning (layout.program expand)
        ⟨extent (layout.slots.take i), [], env⟩ (.fault env) := leads_execute hat.left.head rfl
    exact hleads
  | [target] =>
    have hleads : Leads meaning (layout.program expand)
        ⟨extent (layout.slots.take i), [target], env⟩ (.fault env) := leads_execute hat.left.head rfl
    exact hleads
  | target :: condition :: stack =>
    -- the condition comes to lie over the target, and the table over both
    have hswap : Reaches meaning (layout.program expand)
        ⟨extent (layout.slots.take i), target :: condition :: stack, env⟩
        ⟨_, BitVec.ofNat 256 layout.offsets.bodyEnd :: condition :: target :: stack, env⟩ :=
      reaches_of_straight hat.left (by simp) rfl (by simp [perform_pushOffset h.finished.bodyEnd_lt])
    refine .of_reaches hswap ?_
    rw [execute_jumpI]
    by_cases hzero : condition = 0
    · rw [if_pos hzero]
      have hfall : Leads meaning (layout.program expand) _ _ :=
        leads_jumpI_fallen hat.right.head hzero (BitVec.ofNat 256 layout.offsets.bodyEnd)
          (target :: stack) env
      have hpop : Leads meaning (layout.program expand) ⟨_, target :: stack, env⟩
          (.move ⟨_, stack, env⟩) := leads_execute hat.right.tail rfl
      refine ⟨_, hpop.of_reaches hfall.reaches, ?_⟩
      have hnext := h.corresponds_after_jump hi (by rw [hcode]; rfl) stack env
      rw [Layout.extent_take_succ hslot, hop] at hnext
      exact hnext
    · rw [if_neg hzero]
      have htaken : Leads meaning (layout.program expand) _ _ :=
        leads_jumpI_taken hat.right.head hzero (toNat_word h.finished.bodyEnd_lt)
          (isDestination_of_at_table (h.at_table hrouted)) (target :: stack) env
      exact .of_reaches htaken.reaches (h.mirrored_table hrouted target stack env)

/-- An instruction other than a jump is simulated by operations with the same effect. -/
theorem LaidOut.simulated_of_effect {i : Nat} {slot : Slot} (hslot : layout.slots[i]? = some slot)
    (hjump : Opcode.isJump slot.instruction.code = false)
    (hremapped : ¬ Remapped rules (fun _ => none) old i) {stack : List Word} {env env' : Env}
    (hleads : Leads meaning (layout.program expand)
      ⟨extent (layout.slots.take i), stack, env⟩
      ((perform meaning slot.instruction.toOperation stack env).advance
        (extent (layout.slots.take i) + slot.size) env')) :
    Simulated meaning rules code old (layout.program expand) layout
      ⟨slot.instruction.offset, stack, env⟩ ⟨extent (layout.slots.take i), stack, env⟩ := by
  have hi := h.finished.planned.instruction_eq hslot
  have hstep := h.step_eq hi stack env
  rw [execute_of_not_jump hjump] at hstep
  simp only at hstep
  rw [← Layout.extent_take_succ hslot] at hleads
  cases heffect : perform meaning slot.instruction.toOperation stack env with
  | next stack' env'' =>
    rw [heffect] at hstep hleads
    refine Mirrored.simulated ?_
    rw [hstep]
    exact ⟨_, hleads, h.corresponds_next hi hremapped stack' env''⟩
  | stop stack' env'' =>
    rw [heffect] at hstep hleads
    refine Mirrored.simulated ?_
    rw [hstep]
    exact hleads
  | fault =>
    -- in place of a replaced instruction, the environment may have changed before the fault
    rw [heffect] at hstep hleads
    refine ⟨fun s' hs' => ?_, fun stack' env'' _ hs' => ?_, fun env'' hs' => ⟨env', hleads, ?_⟩⟩
    · rw [hstep] at hs'
      cases hs'
    · rw [hstep] at hs'
      cases hs'
    · intro op hop hjump'
      rw [h.fetch_eq hi, Option.some.injEq] at hop
      rw [← hop, hjump] at hjump'
      cases hjump'

theorem LaidOut.simulated_kept {i : Nat} {instruction : Instruction}
    (hslot : layout.slots[i]? = some ⟨instruction, .kept⟩)
    (hjump : Opcode.isJump instruction.code = false)
    (hremapped : ¬ Remapped rules (fun _ => none) old i) (stack : List Word) (env : Env) :
    Simulated meaning rules code old (layout.program expand) layout
      ⟨instruction.offset, stack, env⟩ ⟨extent (layout.slots.take i), stack, env⟩ := by
  have hat : At (layout.operations expand) (extent (layout.slots.take i)) [instruction.toOperation] :=
    h.finished.at_slot h.faithful.expands hslot
  exact h.simulated_of_effect hslot hjump hremapped (leads_execute hat (execute_of_not_jump hjump _))

theorem LaidOut.simulated_replaced {i : Nat} {instruction : Instruction} {replacement : Replacement}
    (hslot : layout.slots[i]? = some ⟨instruction, .replaced replacement⟩)
    (hrule : rules.replace? instruction = some replacement) (stack : List Word) (env : Env) :
    Simulated meaning rules code old (layout.program expand) layout
      ⟨instruction.offset, stack, env⟩ ⟨extent (layout.slots.take i), stack, env⟩ := by
  have hi : old[i]? = some instruction := h.finished.planned.instruction_eq hslot
  have hexpands := h.faithful.expands
  have hat : At (layout.operations expand) (extent (layout.slots.take i)) (expand instruction.code) :=
    h.finished.at_slot hexpands hslot
  have hsize : replacement.bytes.length ≤ maxCodeLength := by
    rw [← replacement.size_eq]
    exact h.finished.size_le (List.mem_of_getElem? hslot)
  have hstraight : ((expand instruction.code).any fun op => Opcode.isJump op.code) = false :=
    List.any_eq_false.2 fun op hop => by simp [(hexpands.straight hrule hsize hop).2.1]
  have hremapped : ¬ Remapped rules (fun _ => none) old i := by simp [remapped_iff hi, hrule]
  obtain ⟨env', hleads⟩ : ∃ env', Leads meaning _ _ _ :=
    leads_of_straight hat (hexpands.ne_nil hrule) hstraight stack env
  rw [h.faithful.effect (List.mem_of_getElem? hi) hrule (h.wellFormed hi),
    ← hexpands.bytes_eq hrule, ← replacement.size_eq] at hleads
  exact h.simulated_of_effect hslot (h.faithful.ordinary hrule).1 hremapped hleads

/-- A remapped push, after which the new code has the new offset of the target on the stack. -/
theorem LaidOut.simulated_remapped {i k width : Nat} {instruction : Instruction}
    (hslot : layout.slots[i]? = some ⟨instruction, .push (.target k) width⟩)
    (hremapped : Remapped rules (fun _ => none) old i)
    (hstatic : Layout.isStaticJump instruction old[i + 1]? = true)
    (hk : Layout.resolveTarget old.toArray instruction.immediate = some k)
    (hle : instruction.immediate.length ≤ width)
    (hmax : width ≤ max instruction.immediate.length 8) (stack : List Word) (env : Env) :
    Simulated meaning rules code old (layout.program expand) layout
      ⟨instruction.offset, stack, env⟩ ⟨extent (layout.slots.take i), stack, env⟩ := by
  have hi : old[i]? = some instruction := h.finished.planned.instruction_eq hslot
  have hpush := isPush_of_isStaticJump hstatic
  have hplain : Opcode.isJump instruction.code = false := Opcode.isJump_of_isPush hpush
  obtain ⟨destination, hdestination, hoffset⟩ := (Layout.resolveTarget_iff h.decoded).1 hk
  obtain ⟨jump, hjump, -⟩ : ∃ jump, old[i + 1]? = some jump ∧ Opcode.isJump jump.code = true := by
    simp only [Layout.isStaticJump, Bool.and_eq_true, Option.any_eq_true] at hstatic
    exact hstatic.2
  have hresolve : Layout.resolve layout.offsets layout.tableSize (.target k) =
      extent (layout.slots.take k) := by
    rw [Layout.resolve, Array.getD_eq_getD_getElem?, h.starts_eq hdestination, Option.getD_some]
  have hat : At (layout.operations expand) (extent (layout.slots.take i))
      [.push width (extent (layout.slots.take k))] := by
    rw [← hresolve]
    exact h.finished.at_slot h.faithful.expands hslot
  have hwidth : 0 < width ∧ width ≤ 32 := by
    have hlength := (h.wellFormed hi).length_immediate hpush
    omega
  have hvalue : extent (layout.slots.take k) < 256 ^ width := by
    rw [← hresolve]
    exact h.finished.resolve_lt hslot
  have hleads : Leads meaning (layout.program expand)
      ⟨extent (layout.slots.take i), stack, env⟩
      (.move ⟨extent (layout.slots.take (i + 1)),
        BitVec.ofNat 256 (extent (layout.slots.take k)) :: stack, env⟩) := by
    refine leads_execute hat ?_
    have hcode := Opcode.isJump_of_isPush (Opcode.push_spec hwidth.1 hwidth.2).2.1
    rw [execute_of_not_jump hcode, perform_push hwidth.1 hwidth.2 hvalue,
      Layout.extent_take_succ hslot, Operation.size_push]
    rfl
  refine Mirrored.simulated ?_
  rw [h.step_eq hi, execute_of_not_jump hplain, perform_of_isPush hpush, ← hoffset]
  refine ⟨_, hleads, ?_⟩
  have hnext := Instruction.offset_add_size_of_decode h.decoded hi
  rw [hjump] at hnext
  simp only [hnext, Option.map_some, Option.getD_some]
  exact .fedJump hjump (h.starts_eq hjump) hremapped hdestination (h.starts_eq hdestination) stack env

theorem LaidOut.sameTarget_of_unmoved (hrouted : layout.routed = 0)
    (hunshifted : Layout.isShifted layout.slots layout.offsets = false) (target : Word) :
    SameTarget old (layout.program expand) layout target target := by
  have hmarked : ∀ k, MarkedAt old k target.toNat → target.toNat = extent (layout.slots.take k) := by
    rintro k ⟨destination, hk, -, hoffset⟩
    rw [h.finished.extent_eq_offset hunshifted hk, hoffset]
  refine ⟨hmarked, h.markedAt_of_isDestination hrouted hunshifted, ?_⟩
  rintro ⟨k, hk⟩
  rw [hmarked k hk]
  obtain ⟨destination, hk, hcode, -⟩ := hk
  exact (h.isDestination_iff hk).2 hcode

theorem LaidOut.sameTarget_of_start {k : Nat} {destination : Instruction}
    (hk : old[k]? = some destination) :
    SameTarget old (layout.program expand) layout
      (BitVec.ofNat 256 destination.offset) (BitVec.ofNat 256 (extent (layout.slots.take k))) := by
  refine ⟨fun k' hk' => ?_, ?_⟩
  · rw [toNat_word (h.finished.extent_take_lt k)]
    rw [toNat_word (offset_lt_of_decode h.decoded hk)] at hk'
    obtain ⟨other, hk', -, hoffset⟩ := hk'
    rw [Instruction.index_unique_of_decode h.decoded hk hk' hoffset.symm]
  · rw [toNat_word (h.finished.extent_take_lt k), toNat_word (offset_lt_of_decode h.decoded hk),
      h.isDestination_iff hk]
    constructor
    · exact fun hcode => ⟨k, destination, hk, hcode, rfl⟩
    · rintro ⟨k', other, hk', hcode, hoffset⟩
      obtain rfl := Instruction.index_unique_of_decode h.decoded hk hk' hoffset.symm
      rw [hk, Option.some.injEq] at hk'
      rw [hk']
      exact hcode

/-- A jump that is not fed by a remapped push and stands as it was: no instruction has moved. -/
theorem LaidOut.simulated_unmoved {i : Nat} {jump : Instruction}
    (hslot : layout.slots[i]? = some ⟨jump, .kept⟩) (hjump : Opcode.isJump jump.code = true)
    (hfed : ¬ FedByRemapped rules (fun _ => none) old i) (stack : List Word) (env : Env) :
    Simulated meaning rules code old (layout.program expand) layout
      ⟨jump.offset, stack, env⟩ ⟨extent (layout.slots.take i), stack, env⟩ := by
  refine Mirrored.simulated ?_
  rcases h.finished.settled with hsettled | ⟨hrouted, hunshifted, -⟩
  · have := hsettled i _ hslot rfl hjump
    exact absurd ((h.finished.fed_iff_fedByRemapped (by simp [PatchesNoTarget])).1 this) hfed
  · cases stack with
    | nil => exact h.mirrored_keptJump_nil hslot hjump env
    | cons target stack =>
      exact h.mirrored_keptJump hslot hjump (h.sameTarget_of_unmoved hrouted hunshifted target)
        stack env

/-- A jump fed by a remapped push is kept. -/
theorem LaidOut.slot_of_fed {i : Nat} {jump : Instruction} (hi : old[i + 1]? = some jump)
    (hremapped : Remapped rules (fun _ => none) old i) :
    layout.slots[i + 1]? = some ⟨jump, .kept⟩ ∧ Opcode.isJump jump.code = true := by
  have hfed : FedByRemapped rules (fun _ => none) old (i + 1) := ⟨i, rfl, hremapped⟩
  have hjump := hfed.isJump hi
  obtain ⟨slot, hslot, rfl⟩ := h.finished.slot_of hi
  have hunfed := h.finished.unfed _ _ hslot
  rw [(h.finished.fed_iff_fedByRemapped (by simp [PatchesNoTarget])).2 hfed] at hunfed
  have hemits := h.finished.planned.emits hslot
  obtain ⟨jump, emission⟩ := slot
  simp only at hemits hjump
  refine ⟨?_, hjump⟩
  cases hemits with
  | kept => exact hslot
  | replaced hrule =>
    rw [(h.faithful.ordinary hrule).1] at hjump
    cases hjump
  | patched _ hpatch => cases hpatch
  | target _ _ hstatic =>
    rw [Opcode.isJump_of_isPush (isPush_of_isStaticJump hstatic)] at hjump
    cases hjump
  | tableJump => cases hunfed rfl
  | tableJumpI => cases hunfed rfl

/-- Behind its last instruction the old code has nothing to be simulated. -/
theorem LaidOut.simulated_ended {new : List Instruction} (stack : List Word) (env : Env)
    (t : State Env) :
    Simulated meaning rules code old new layout ⟨code.length, stack, env⟩ t := by
  have hfetch : fetch old code.length = none := by
    obtain ⟨-, ops, -, rfl, rfl⟩ := Instruction.decode_eq_ok_iff.1 h.decoded
    exact fetch_locate_end
  have hstep : step meaning old ⟨code.length, stack, env⟩ = .stop stack env := by
    rw [step, hfetch]
  refine ⟨fun s' hs' => ?_, fun _ _ hne _ => absurd hfetch hne, fun env' hs' => ?_⟩
  · rw [hstep] at hs'
    cases hs'
  · rw [hstep] at hs'
    cases hs'

/-- Corresponding states simulate each other. -/
theorem LaidOut.simulated {s t : State Env} (hst : Corresponds rules code old layout s t) :
    Simulated meaning rules code old (layout.program expand) layout s t := by
  cases hst with
  | ended stack env => exact h.simulated_ended stack env _
  | fedJump hi hstart hremapped hk hnew stack env =>
    obtain ⟨hslot, hjump⟩ := h.slot_of_fed hi hremapped
    rw [h.starts_eq hi, Option.some.injEq] at hstart
    rw [h.starts_eq hk, Option.some.injEq] at hnew
    rw [← hstart, ← hnew]
    exact (h.mirrored_keptJump hslot hjump (h.sameTarget_of_start hk) stack env).simulated
  | @instruction i _ _ hi hstart hfed stack env =>
    rw [h.starts_eq hi, Option.some.injEq] at hstart
    rw [← hstart]
    obtain ⟨slot, hslot, rfl⟩ := h.finished.slot_of hi
    have hemits := h.finished.planned.emits hslot
    obtain ⟨instruction, emission⟩ := slot
    simp only at hi hemits ⊢
    cases hemits with
    | replaced hrule => exact h.simulated_replaced hslot hrule stack env
    | patched _ hpatch => cases hpatch
    | target hrule hpatch hstatic hk hle hmax =>
      exact h.simulated_remapped hslot ⟨_, hi, hrule, hpatch, hstatic⟩ hstatic hk hle hmax stack env
    | kept hrule _ hstatic =>
      cases hjump : Opcode.isJump instruction.code with
      | true => exact h.simulated_unmoved hslot hjump hfed stack env
      | false =>
        exact h.simulated_kept hslot hjump (by simp [remapped_iff hi, hstatic]) stack env
    | tableJump _ _ hcode => exact (h.mirrored_tableJump hslot hcode stack env).simulated
    | tableJumpI _ _ hcode => exact (h.mirrored_tableJumpI hslot hcode stack env).simulated

/-! ## Whole runs -/

/-- A run of the old code is followed by a run of the new one. -/
theorem LaidOut.reaches_corresponding {s s' t : State Env} (hrun : Reaches meaning old s s')
    (hst : Corresponds rules code old layout s t) :
    ∃ t', Reaches meaning (layout.program expand) t t' ∧
      Corresponds rules code old layout s' t' := by
  induction hrun with
  | refl => exact ⟨t, .refl, hst⟩
  | tail _ hstep ih =>
    obtain ⟨u, hreaches, hcorresponds⟩ := ih
    obtain ⟨u', hleads, hcorresponds'⟩ := (h.simulated hcorresponds).move _ hstep
    exact ⟨u', Relation.ReflTransGen.trans hreaches hleads.reaches, hcorresponds'⟩

end Instructions

end Simulation

end EvmSandbox.Machine
