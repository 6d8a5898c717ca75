/-
What a transpiled constructor copies out of the new creation code. Run on any
stack on which the window of a copy runs, the window in the new code leaves
the words that the new code pushes as operands (`reaches_copy`), and these are
the new lengths that the patches ask for. So the constructor copies the
transpiled runtime, except where one push makes both the offset and the size
of a copy: that push can have one new number only, and it is the size
(`shared_push_miscopies`).
-/
import EvmSandbox.Proofs.ControlFlow
import EvmSandbox.Proofs.RuntimePatches
import EvmSandbox.Proofs.Unreplaced

namespace EvmSandbox.Machine

open Layout (PushValue Finished Expands PatchesOnlyPushes resolve extent)
open Operation (At)
open RuntimeCopy (EmbeddedRuntime Indexed isShuffle shuffled shuffledAll shuffle windowAt PushesNumber
  operands patchOf toNat_ofNat_length)

/-! ## The window of a copy in the new code -/

/-- The word that the push with index `i` pushes. -/
def oldWord (old : List Instruction) (i : Nat) : Word :=
  (old[i]?.map fun instruction => word instruction.toOperation).getD 0

/-- The word that the push with index `i` pushes in the new code. -/
def newWord (patch? : Nat → Option PushValue) (old : List Instruction) (layout : Layout) (i : Nat) :
    Word :=
  match patch? i with
  | some value => BitVec.ofNat 256 (resolve layout.offsets layout.tableSize value)
  | none => oldWord old i

/-- The instructions of a window are shuffles, and its pushes push their old words. -/
theorem oldWord_of_mem_windowAt {code : Bytes} {old : List Instruction}
    (hdecode : Instruction.decode code = .ok old) {k : Nat} (hk : k ≤ old.length) :
    ∀ x ∈ windowAt old k, x.1.toOperation.WellFormed ∧ isShuffle x.1.code = true ∧
      oldWord old x.2 = word x.1.toOperation := by
  intro x hx
  have hx' := (RuntimeCopy.lt_of_mem_windowAt hk hx).2
  exact ⟨Instruction.wellFormed_of_decode hdecode (List.mem_of_getElem? hx'),
    RuntimeCopy.isShuffle_of_mem_windowAt hx, by rw [oldWord, hx']; rfl⟩

theorem isJump_of_isShuffle {code : UInt8} (h : isShuffle code = true) :
    Opcode.isJump code = false := by
  rw [← Bool.not_eq_true, Opcode.isJump_iff]
  rintro (rfl | rfl) <;> cases h

/-- An instruction without a rule that neither jumps nor feeds a jump is kept or patched. -/
theorem kept_or_patched {rules : RuleTable} {decoded : Array Instruction} {patch : Option PushValue}
    {instruction : Instruction} {next : Option Instruction} {emission : Layout.Emission}
    (h : Layout.Emits rules decoded patch instruction next emission)
    (hrule : rules.replace? instruction = none) (hjump : Opcode.isJump instruction.code = false)
    (hnext : Layout.isStaticJump instruction next = false) :
    emission = .kept ∧ patch = none ∨
      ∃ value width, emission = .push value width ∧ patch = some value ∧
        instruction.immediate.length ≤ width ∧ width ≤ max instruction.immediate.length 8 := by
  cases h with
  | replaced hrule' => simp [hrule] at hrule'
  | patched _ hpatch hle hmax => exact .inr ⟨_, _, rfl, hpatch, hle, hmax⟩
  | target _ _ hstatic => simp [hnext] at hstatic
  | kept _ hpatch => exact .inl ⟨rfl, hpatch⟩
  | tableJump _ _ hcode =>
    rw [hcode] at hjump
    cases hjump
  | tableJumpI _ _ hcode =>
    rw [hcode] at hjump
    cases hjump

section Window

variable {Env : Type} {meaning : Meaning Env} {rules : RuleTable} {patch? : Nat → Option PushValue}
  {code : Bytes} {old : List Instruction} {layout : Layout} {expand : UInt8 → List Operation}
  (hfinished : Finished rules patch? old layout) (hexpands : Expands rules expand)
  (hdecode : Instruction.decode code = .ok old) (hpatches : PatchesOnlyPushes patch? old)
  (hshuffles : Shuffles meaning)
include hfinished hexpands hdecode hpatches hshuffles

/-- A shuffle that is not followed by a jump stays a shuffle; at most it pushes another word. -/
theorem exists_shuffle_at {i : Nat} {instruction : Instruction} (hi : old[i]? = some instruction)
    (hcode : isShuffle instruction.code = true) (hrule : rules.replace? instruction = none)
    (hnext : ∀ next, old[i + 1]? = some next → Opcode.isJump next.code = false) :
    ∃ op, At (layout.operations expand) (extent (layout.slots.take i)) [op] ∧
      extent (layout.slots.take (i + 1)) = extent (layout.slots.take i) + op.size ∧
      Opcode.isJump op.code = false ∧
      ∀ stack env, perform meaning op stack env =
        .ofStack (shuffled instruction.code (newWord patch? old layout i) stack) env := by
  obtain ⟨slot, hslot, rfl⟩ := hfinished.slot_of hi
  have hat := hfinished.at_slot hexpands hslot
  have hextent := Layout.extent_take_succ hslot
  have hemits := hfinished.planned.emits hslot
  have hwell := Instruction.wellFormed_of_decode hdecode (List.mem_of_getElem? hi)
  obtain ⟨instruction, emission⟩ := slot
  simp only at hi hcode hrule hemits hwell ⊢
  have hstatic : Layout.isStaticJump instruction old[i + 1]? = false := by
    cases hsome : old[i + 1]? with
    | none => simp [Layout.isStaticJump]
    | some next => simp [Layout.isStaticJump, hnext next hsome]
  rcases kept_or_patched hemits hrule (isJump_of_isShuffle hcode) hstatic with
    ⟨rfl, hpatch⟩ | ⟨value, width, rfl, hpatch, hle, hmax⟩
  · refine ⟨instruction.toOperation, hat, hextent, isJump_of_isShuffle hcode, fun stack env => ?_⟩
    rw [hshuffles _ hwell hcode, newWord, hpatch, oldWord, hi]
    rfl
  · have hpush := hpatches i value instruction hpatch hi
    have hlength := hwell.length_immediate hpush
    refine ⟨.push width (resolve layout.offsets layout.tableSize value), hat, ?_, ?_, ?_⟩
    · rw [hextent, Operation.size_push]
      rfl
    · exact Opcode.isJump_of_isPush (Opcode.push_spec (by omega) (by omega)).2.1
    · intro stack env
      rw [perform_push (by omega) (by omega) (hfinished.resolve_lt hslot), RuntimeCopy.shuffled_of_isPush hpush,
        newWord, hpatch]
      rfl

/-- A run of such shuffles does what it did, with the words that the new code pushes. -/
theorem reaches_shuffles {shuffles : List Indexed} {start : Nat}
    (hplaces : ∀ n x, shuffles[n]? = some x → x.2 = start + n ∧ old[x.2]? = some x.1 ∧
      isShuffle x.1.code = true ∧ rules.replace? x.1 = none ∧
      ∀ next, old[x.2 + 1]? = some next → Opcode.isJump next.code = false)
    {stack stack' : List Word}
    (hrun : shuffledAll (newWord patch? old layout) shuffles stack = some stack') (env : Env) :
    Reaches meaning (layout.program expand) ⟨extent (layout.slots.take start), stack, env⟩
      ⟨extent (layout.slots.take (start + shuffles.length)), stack', env⟩ := by
  induction shuffles generalizing start stack with
  | nil =>
    cases hrun
    exact .refl
  | cons x rest ih =>
    obtain ⟨hindex, hx, hcode, hrule, hnext⟩ := hplaces 0 x rfl
    obtain ⟨middle, hfirst, hrest⟩ := Option.bind_eq_some_iff.1 hrun
    obtain ⟨op, hat, hextent, hjump, hperform⟩ :=
      exists_shuffle_at hfinished hexpands hdecode hpatches hshuffles hx hcode hrule hnext
    have hindex : x.2 = start := hindex
    rw [hindex] at hat hextent hperform hfirst
    have hmove : Moves meaning (layout.program expand) ⟨extent (layout.slots.take start), stack, env⟩
        ⟨extent (layout.slots.take (start + 1)), middle, env⟩ := by
      rw [Moves, step_of_at hat, execute_of_not_jump hjump, hperform, hfirst, hextent]
      rfl
    have hreaches := @ih (start + 1) (fun n y hy => by
      obtain ⟨hy', hplace⟩ := hplaces (n + 1) y (by simpa using hy)
      exact ⟨by omega, hplace⟩) middle hrest
    rw [List.length_cons, show start + (rest.length + 1) = start + 1 + rest.length by omega]
    exact .head hmove hreaches

variable (hrules : ∀ i : Instruction, isShuffle i.code = true ∨ i.code = Opcode.codeCopy →
  rules.replace? i = none)
include hrules

omit hshuffles in
theorem fetch_codeCopy {k : Nat} {copy : Instruction} (hk : old[k]? = some copy)
    (hcode : copy.code = Opcode.codeCopy) :
    fetch (layout.program expand) (extent (layout.slots.take k)) = some ⟨Opcode.codeCopy, []⟩ := by
  obtain ⟨slot, hslot, rfl⟩ := hfinished.slot_of hk
  have hat := hfinished.at_slot hexpands hslot
  have hemits := hfinished.planned.emits hslot
  have hwell := Instruction.wellFormed_of_decode hdecode (List.mem_of_getElem? hk)
  have hrule := hrules slot.instruction (.inr hcode)
  obtain ⟨instruction, emission⟩ := slot
  simp only at hk hcode hemits hwell hrule
  have hnotPush : Opcode.isPush instruction.code = false := by rw [hcode]; rfl
  have hstatic : Layout.isStaticJump instruction old[k + 1]? = false := by
    simp [Layout.isStaticJump, hnotPush]
  rcases kept_or_patched hemits hrule (by rw [hcode]; rfl) hstatic with
    ⟨rfl, -⟩ | ⟨value, width, -, hpatch, -, -⟩
  · have hop : instruction.toOperation = ⟨Opcode.codeCopy, []⟩ := hwell.eq_code hcode rfl
    rw [← hop]
    exact fetch_locate_eq_some_iff.2 hat
  · rw [hpatches k value instruction hpatch hk] at hnotPush
    cases hnotPush

/-- On every stack on which the window of a copy runs, it runs in the new code too, and the operands
that are followed back to pushes are the words that these push there. -/
theorem reaches_copy {k : Nat} {copy : Instruction} (hk : old[k]? = some copy)
    (hcode : copy.code = Opcode.codeCopy) {stack stack₀ : List Word} {env env₀ : Env}
    (hold : performAll meaning ((windowAt old k).map (·.1.toOperation)) stack env =
      .next stack₀ env₀) :
    ∃ stack', Reaches meaning (layout.program expand)
        ⟨extent (layout.slots.take (k - (windowAt old k).length)), stack, env⟩
        ⟨extent (layout.slots.take k), stack', env⟩ ∧
      ∀ j p, ((windowAt old k).foldl shuffle []).getD j none = some p →
        stack'[j]? = some (newWord patch? old layout p) := by
  have hlt := (List.getElem?_eq_some_iff.1 hk).1
  rw [performAll_shuffles hshuffles (oldWord_of_mem_windowAt hdecode hlt.le)] at hold
  cases holdRun : shuffledAll (oldWord old) (windowAt old k) stack with
  | none => simp [holdRun, Effect.ofStack] at hold
  | some stack₁ =>
    obtain ⟨stack', hnewRun, horigin⟩ :=
      RuntimeCopy.shuffledAll_origin holdRun (newWord patch? old layout)
    have hwindow := RuntimeCopy.length_windowAt_le hlt.le
    have hreaches := @reaches_shuffles _ _ _ _ _ _ _ _ hfinished hexpands hdecode hpatches hshuffles
      (windowAt old k) (k - (windowAt old k).length) (fun n x hx => ?_) stack stack' hnewRun env
    · rw [Nat.sub_add_cancel hwindow] at hreaches
      exact ⟨stack', hreaches, horigin⟩
    · have hxmem := List.mem_of_getElem? hx
      have hshuffle := RuntimeCopy.isShuffle_of_mem_windowAt hxmem
      obtain ⟨hindex, hxk, hxold⟩ := RuntimeCopy.getElem?_windowAt hlt.le hx
      refine ⟨hindex, hxold, hshuffle, hrules _ (.inl hshuffle), fun next hnext => ?_⟩
      rcases Nat.lt_or_ge (x.2 + 1) k with hbefore | hend
      · exact isJump_of_isShuffle
          (RuntimeCopy.isShuffle_of_le_windowAt hlt.le hxmem (Nat.le_succ _) hbefore hnext)
      · rw [show x.2 + 1 = k by omega, hk] at hnext
        cases hnext
        rw [hcode]
        rfl

end Window

theorem replace?_of_isShuffle (manager : Address) (i : Instruction)
    (h : isShuffle i.code = true ∨ i.code = Opcode.codeCopy) :
    (RuleTable.standard manager).replace? i = none :=
  @RuleTable.replace?_standard_eq_none manager (fun code => isShuffle code = true ∨ code = Opcode.codeCopy)
    (by decide) i h

/-! ## The operands of a copy -/

/-- On every stack on which the window of the copy with index `k` runs, the new code runs from the
new place of the window to the copy, with a stack of which `Left` is true. -/
def CopiesWith {Env : Type} (meaning : Meaning Env) (old new : List Instruction) (layout : Layout)
    (k : Nat) (Left : List Word → Prop) : Prop :=
  ∀ stack env stack₀ env₀,
    performAll meaning ((windowAt old k).map (·.1.toOperation)) stack env = .next stack₀ env₀ →
    ∃ start copy stack', layout.offsets.starts[k - (windowAt old k).length]? = some start ∧
      layout.offsets.starts[k]? = some copy ∧ fetch new copy = some ⟨Opcode.codeCopy, []⟩ ∧
      Reaches meaning new ⟨start, stack, env⟩ ⟨copy, stack', env⟩ ∧ Left stack'

section Operands

variable {Env : Type} {meaning : Meaning Env} {manager : Address} {constructor : Bytes}
  {runtime : EmbeddedRuntime} {old : List Instruction} {layout : Layout} {patch? : Nat → Option PushValue}
  {expand : UInt8 → List Operation}

theorem resolve_pastEnd {rules : RuleTable} (h : Finished rules patch? old layout) {extra : UInt64}
    (hextra : extra.toNat ≤ maxCodeLength) :
    resolve layout.offsets layout.tableSize (.pastEnd extra) = layout.code.length + extra.toNat := by
  have hle := h.length_code_le
  rw [resolve, h.bodyEnd_eq, ← h.length_code]
  simp only [Layout.maxPushValue, maxCodeLength] at *
  omega

theorem copiesWith_of_reaches (hfinished : Finished (.standard manager) patch? old layout)
    (hexpands : Expands (.standard manager) expand)
    (hdecode : Instruction.decode constructor = .ok old) (hpatches : PatchesOnlyPushes patch? old)
    (hshuffles : Shuffles meaning) {k : Nat} {copy : Instruction} (hk : old[k]? = some copy)
    (hcode : copy.code = Opcode.codeCopy) {Left : List Word → Prop}
    (hleft : ∀ stack : List Word,
      (∀ j p, ((windowAt old k).foldl RuntimeCopy.shuffle []).getD j none = some p →
        stack[j]? = some (newWord patch? old layout p)) → Left stack) :
    CopiesWith meaning old (layout.program expand) layout k Left := by
  intro stack env stack₀ env₀ hold
  have hlt := (List.getElem?_eq_some_iff.1 hk).1
  obtain ⟨stack', hreaches, horigin⟩ := reaches_copy hfinished hexpands hdecode hpatches hshuffles
    (replace?_of_isShuffle manager) hk hcode hold
  exact ⟨_, _, stack', hfinished.starts_eq (by omega), hfinished.starts_eq hlt,
    fetch_codeCopy hfinished hexpands hdecode hpatches (replace?_of_isShuffle manager) hk hcode,
    hreaches, hleft stack' horigin⟩

section Patched

variable {rules : RuleTable} {k : Nat} {copy : Instruction} (hk : old[k]? = some copy)
  (hcode : copy.code = Opcode.codeCopy) {p : Nat}
  (hoffset : (operands (windowAt old k)).offset = some p)
  (hfinished : Finished rules (patchOf runtime old) old layout)
  (hnew : runtime.newLength ≤ maxCodeLength)
include hk hcode hoffset hfinished hnew

/-- The words for the size and the offset of a copy of the runtime. If one push makes both, it
pushes the size. -/
theorem newWord_runtime {q : Nat} (hsize : (operands (windowAt old k)).size = some q)
    (hp : PushesNumber old p runtime.offset) (hq : PushesNumber old q runtime.length) :
    newWord (patchOf runtime old) old layout q = BitVec.ofNat 256 runtime.newLength ∧
      newWord (patchOf runtime old) old layout p =
        BitVec.ofNat 256 (if p = q then runtime.newLength else layout.code.length) := by
  have hlt := (List.getElem?_eq_some_iff.1 hk).1
  have hasks := RuntimeCopy.patchesAt_runtime hlt.le hcode hoffset hsize hp hq
  have hpatch : ∀ j i, ((windowAt old k).foldl RuntimeCopy.shuffle []).getD j none = some i →
      patchOf runtime old i = ([(q, PushValue.constant (.ofNat runtime.newLength)), (p, .pastEnd 0)].find?
        (·.1 == i)).map (·.2) := fun j i horigin => by
    obtain ⟨x, hx, rfl⟩ := RuntimeCopy.exists_of_origin horigin
    rw [RuntimeCopy.patch_eq_of_mem_windowAt hk hcode hx, hasks]
  have hpatchQ := hpatch 2 q hsize
  have hpatchP := hpatch 1 p hoffset
  have hconstant : resolve layout.offsets layout.tableSize (.constant (.ofNat runtime.newLength)) =
      runtime.newLength := toNat_ofNat_length hnew
  have hword : newWord (patchOf runtime old) old layout q = BitVec.ofNat 256 runtime.newLength := by
    simp only [newWord, hpatchQ, List.find?_cons, beq_self_eq_true, Option.map_some, hconstant]
  refine ⟨hword, ?_⟩
  by_cases hpq : p = q
  · rw [if_pos hpq, hpq, hword]
  · have hne : (q == p) = false := by simpa using Ne.symm hpq
    simp only [newWord, hpatchP, List.find?_cons, hne, beq_self_eq_true, Option.map_some, if_neg hpq]
    rw [resolve_pastEnd hfinished (by decide)]
    rfl

/-- The word for the offset of a copy of the arguments. -/
theorem newWord_arguments (hp : PushesNumber old p runtime.creationLength)
    (hlength : 0 < runtime.length) :
    newWord (patchOf runtime old) old layout p =
      BitVec.ofNat 256 (layout.code.length + runtime.newLength) := by
  have hlt := (List.getElem?_eq_some_iff.1 hk).1
  have hasks := RuntimeCopy.patchesAt_arguments hlt.le hcode hoffset hp hlength
  have hpatch : patchOf runtime old p = some (.pastEnd (.ofNat runtime.newLength)) := by
    obtain ⟨x, hx, rfl⟩ := RuntimeCopy.exists_of_origin hoffset
    rw [RuntimeCopy.patch_eq_of_mem_windowAt hk hcode hx, hasks]
    simp
  have hnumber := toNat_ofNat_length hnew
  simp only [newWord, hpatch]
  rw [resolve_pastEnd hfinished (by rwa [hnumber]), hnumber]

end Patched

end Operands

/-- `new` is the code of `layout`, which lays out the constructor `old` with the patches for
`runtime`. -/
structure Constructed (s : Sandbox) (runtime : EmbeddedRuntime) (constructor output : Bytes)
    (old new : List Instruction) (layout : Layout) : Prop where
  decode_constructor : Instruction.decode constructor = .ok old
  decode_output : Instruction.decode output = .ok new
  layout_eq : ∃ patches, s.patches? old (some runtime) = some patches ∧
    (Layout.ofInstructions s.rules (fun i => (patches.table old.length).getD i none) old).result =
      .ok layout
  code_eq : layout.code = output

/-- The copies of the constructor `old` find their operands in the new creation code, which is
`output` and `runtimeOutput`. A copy whose offset is the length of the constructor and whose size is
that of the runtime copies the new runtime, unless one push makes both operands; then both are the
new size. A copy whose offset is the length of the creation code has the new length as its
offset. -/
structure CopiesRuntime {Env : Type} (meaning : Meaning Env) (constructor deployed output
    runtimeOutput : Bytes) (old new : List Instruction) (layout : Layout) : Prop where
  runtime : ∀ k copy p q, old[k]? = some copy → copy.code = Opcode.codeCopy →
    (operands (windowAt old k)).offset = some p → (operands (windowAt old k)).size = some q →
    PushesNumber old p constructor.length → PushesNumber old q deployed.length →
    CopiesWith meaning old new layout k fun stack =>
      stack[1]? = some (BitVec.ofNat 256 (if p = q then runtimeOutput.length else output.length)) ∧
      stack[2]? = some (BitVec.ofNat 256 runtimeOutput.length)
  arguments : ∀ k copy p, old[k]? = some copy → copy.code = Opcode.codeCopy →
    (operands (windowAt old k)).offset = some p →
    PushesNumber old p (constructor ++ deployed).length →
    CopiesWith meaning old new layout k fun stack =>
      stack[1]? = some (BitVec.ofNat 256 (output ++ runtimeOutput).length)
  copied : ((output ++ runtimeOutput).drop (BitVec.ofNat 256 output.length).toNat).take
    (BitVec.ofNat 256 runtimeOutput.length).toNat = runtimeOutput

theorem copied_runtime {output runtimeOutput : Bytes} (h : output.length ≤ maxCodeLength)
    (h' : runtimeOutput.length ≤ maxCodeLength) :
    ((output ++ runtimeOutput).drop (BitVec.ofNat 256 output.length).toNat).take
      (BitVec.ofNat 256 runtimeOutput.length).toNat = runtimeOutput := by
  have hbound : maxCodeLength < 2 ^ 256 := by decide
  rw [BitVec.toNat_ofNat, BitVec.toNat_ofNat, Nat.mod_eq_of_lt (by omega), Nat.mod_eq_of_lt (by omega)]
  simp

theorem oldWord_of_pushesNumber {old : List Instruction} {i number : Nat}
    (h : PushesNumber old i number) : oldWord old i = BitVec.ofNat 256 number := by
  obtain ⟨instruction, hi, hpushed⟩ := h
  rw [oldWord, hi, ← (RuntimeCopy.pushed?_eq_some_iff.1 hpushed).2]
  rfl

section Deployed

variable {Env : Type} {meaning : Meaning Env} {manager : Address} {whitelist : Whitelist}
  {constructor deployed output runtimeOutput : Bytes}

section LaidOut

variable {old : List Instruction} {layout : Layout} {expand : UInt8 → List Operation}
  (hexpands : Expands (.standard manager) expand) (hdecode : Instruction.decode constructor = .ok old)
  (hshuffles : Shuffles meaning) (hlength : runtimeOutput.length ≤ maxCodeLength)
include hexpands hdecode hshuffles hlength

theorem copiesRuntime_of_patched (hne : deployed ≠ [])
    (hfinished : Finished (.standard manager)
      (patchOf ⟨constructor.length, deployed.length, runtimeOutput.length⟩ old) old layout) :
    CopiesRuntime meaning constructor deployed layout.code runtimeOutput old (layout.program expand)
      layout := by
  have honly := @RuntimeCopy.patchesOnlyPushes_collected
    ⟨constructor.length, deployed.length, runtimeOutput.length⟩ old
  refine ⟨?_, ?_, copied_runtime hfinished.length_code_le hlength⟩
  · intro k copy p q hk hcode hoffset hsize hp hq
    obtain ⟨hwordQ, hwordP⟩ := newWord_runtime hk hcode hoffset hfinished hlength hsize hp hq
    refine copiesWith_of_reaches hfinished hexpands hdecode honly hshuffles hk hcode fun stack hstack => ?_
    exact ⟨(hstack 1 p hoffset).trans (congrArg some hwordP),
      (hstack 2 q hsize).trans (congrArg some hwordQ)⟩
  · intro k copy p hk hcode hoffset hp
    rw [List.length_append] at hp
    have hword := newWord_arguments hk hcode hoffset hfinished hlength hp (List.length_pos_iff.2 hne)
    refine copiesWith_of_reaches hfinished hexpands hdecode honly hshuffles hk hcode fun stack hstack => ?_
    rw [List.length_append]
    exact (hstack 1 p hoffset).trans (congrArg some hword)

/-- Without patches there is no copy of the runtime, and the creation code keeps its length. -/
theorem copiesRuntime_of_unpatched
    (hlayout : (Layout.ofInstructions (.standard manager) (fun _ => none) old).result = .ok layout)
    (hcopies : (RuntimeCopy.collected ⟨constructor.length, deployed.length, runtimeOutput.length⟩
      old).copiesRuntime = false)
    (hkeeps : deployed.length = runtimeOutput.length)
    (hrules : ∀ i ∈ old, (RuleTable.standard manager).replace? i = none) :
    CopiesRuntime meaning constructor deployed layout.code runtimeOutput old (layout.program expand)
      layout := by
  have hfinished := Layout.ofInstructions_spec hlayout
  obtain ⟨-, hunchanged⟩ :=
    Layout.layout_unreplaced hdecode hrules (Layout.patchesKeepNumbers_none _ _) hlayout
  refine ⟨?_, ?_, copied_runtime hfinished.length_code_le hlength⟩
  · -- a copy of the runtime would have been patched
    intro k copy p q hk hcode hoffset hsize hp hq
    have hlt := (List.getElem?_eq_some_iff.1 hk).1
    have hasks := @RuntimeCopy.patchesAt_runtime
      ⟨constructor.length, deployed.length, runtimeOutput.length⟩ _ _ _ hlt.le hcode p hoffset q hsize
      hp hq
    rw [RuntimeCopy.copiesRuntime_collected hk (by rw [hasks])] at hcopies
    cases hcopies
  · intro k copy p hk hcode hoffset hp
    refine copiesWith_of_reaches hfinished hexpands hdecode (Layout.patchesOnlyPushes_none old) hshuffles
      hk hcode fun stack hstack => ?_
    have hsame : (layout.code ++ runtimeOutput).length = (constructor ++ deployed).length := by
      rw [List.length_append, List.length_append, hunchanged, hkeeps]
    rw [hsame, hstack 1 p hoffset]
    exact congrArg some (oldWord_of_pushesNumber hp)

end LaidOut

theorem exists_copiesRuntime (hshuffles : Shuffles meaning) (hne : deployed ≠ [])
    (hlength : runtimeOutput.length ≤ maxCodeLength)
    (h : ((Sandbox.standard manager whitelist).transpileCode constructor
      (some ⟨constructor.length, deployed.length, runtimeOutput.length⟩)).value = .ok output) :
    ∃ old new layout, Constructed (.standard manager whitelist)
        ⟨constructor.length, deployed.length, runtimeOutput.length⟩ constructor output old new layout ∧
      CopiesRuntime meaning constructor deployed output runtimeOutput old new layout := by
  obtain ⟨old, patches, layout, hdecode, -, hpatches, hlayout, rfl⟩ := Sandbox.transpileCode_eq_ok h
  obtain ⟨expand, hexpands⟩ := Layout.exists_expands_standard manager
  have hfinished := Layout.ofInstructions_spec hlayout
  rcases Sandbox.patches?_cases hpatches with rfl | ⟨rfl, hcopies, hkeeps, hrules⟩
  · have hnew := hfinished.decode_code hexpands RuntimeCopy.patchesOnlyPushes_collected hdecode
    exact ⟨old, _, layout, ⟨hdecode, hnew, ⟨_, hpatches, hlayout⟩, rfl⟩,
      copiesRuntime_of_patched hexpands hdecode hshuffles hlength hne hfinished⟩
  · have hunpatched := hlayout
    rw [RuntimeCopy.Patches.getD_table_none] at hfinished hunpatched
    have hnew := hfinished.decode_code hexpands (Layout.patchesOnlyPushes_none old) hdecode
    exact ⟨old, _, layout, ⟨hdecode, hnew, ⟨_, hpatches, hlayout⟩, rfl⟩,
      copiesRuntime_of_unpatched hexpands hdecode hshuffles hlength hunpatched hcopies hkeeps hrules⟩

/-- **The transpiled constructor copies the transpiled runtime**, except where one push makes both
the offset and the size of a copy. -/
theorem constructor_copies_runtime (hshuffles : Shuffles meaning) (hne : deployed ≠ [])
    {inputLength : Nat} {contract : TranspiledContract}
    (h : ((Sandbox.standard manager whitelist).transpile (constructor ++ deployed) deployed
      inputLength).value = contract)
    (hconstructor : contract.constructor = .ok output) (hdeployed : contract.deployed = .ok runtimeOutput) :
    contract.creation? = some (output ++ runtimeOutput) ∧
      ∃ old new layout, Constructed (.standard manager whitelist)
          ⟨constructor.length, deployed.length, runtimeOutput.length⟩ constructor output old new layout ∧
        CopiesRuntime meaning constructor deployed output runtimeOutput old new layout := by
  have hruntime : ((Sandbox.standard manager whitelist).transpileDeployed deployed).value =
      .ok runtimeOutput := by
    rw [← hdeployed, ← h]
    rfl
  rw [Sandbox.transpile_embedded hne hruntime] at h
  subst h
  obtain ⟨_, runtimeLayout, _, _, hlayout, rfl⟩ := Sandbox.transpileDeployed_eq_ok hruntime
  have hlength := (Layout.ofInstructions_spec hlayout).length_code_le
  simp only at hconstructor
  exact ⟨by simp only [TranspiledContract.creation?, hconstructor, if_true],
    exists_copiesRuntime hshuffles hne hlength hconstructor⟩

end Deployed

/-! ## Two constructors -/

theorem isShuffle_cases {code : UInt8} (h : isShuffle code = true) : code = Opcode.push0 ∨
    Opcode.isPush code = true ∨ (Opcode.dup1 ≤ code ∧ code ≤ Opcode.dup16) ∨
      Opcode.swap1 ≤ code ∧ code ≤ Opcode.swap16 := by
  simp only [isShuffle, Bool.and_eq_true, decide_eq_true_eq] at h
  simp only [Opcode.isPush_iff, UInt8.le_iff_toNat_le, ← UInt8.toNat_inj] at h ⊢
  have hcodes : Opcode.push0.toNat = 0x5f ∧ Opcode.dup1.toNat = 0x80 ∧ Opcode.dup16.toNat = 0x8f ∧
      Opcode.swap1.toNat = 0x90 ∧ Opcode.swap16.toNat = 0x9f := by decide
  omega

theorem perform_of_dup1_le {Env : Type} {meaning : Meaning Env} {op : Operation}
    (h : Opcode.dup1 ≤ op.code ∧ op.code ≤ Opcode.swap16) (hdup : op.code ≠ Opcode.dup1)
    (hswap : op.code ≠ Opcode.swap1) (stack : List Word) (env : Env) :
    perform meaning op stack env = meaning op stack env := by
  refine perform_eq_meaning ?_ ?_ stack env
  · rw [← Bool.not_eq_true, Opcode.isPush_iff]
    exact fun hpush => absurd (Nat.le_trans h.1 hpush.2) (by decide)
  · intro hmem
    simp only [List.mem_cons, List.not_mem_nil, or_false] at hmem
    rcases hmem with hcode | hcode | hcode | hcode | hcode | hcode <;>
      rw [hcode] at h hdup hswap <;> revert h hdup hswap <;> decide

theorem zeroMeaning_dup {op : Operation} (h : Opcode.dup1 ≤ op.code ∧ op.code ≤ Opcode.dup16)
    (stack : List Word) (env : Unit) :
    zeroMeaning op stack env = .ofStack (RuntimeCopy.copied (op.code.toNat - 0x80) stack) env := by
  have hne : op.code ≠ Opcode.stop := fun hstop => absurd (hstop ▸ h) (by decide)
  unfold zeroMeaning
  rw [if_neg hne, if_pos h]
  generalize op.code.toNat - 0x80 = depth
  rw [RuntimeCopy.copied]
  cases stack[depth]? <;> rfl

theorem zeroMeaning_swap {op : Operation} (h : Opcode.swap1 ≤ op.code ∧ op.code ≤ Opcode.swap16)
    (stack : List Word) (env : Unit) :
    zeroMeaning op stack env = .ofStack (RuntimeCopy.exchanged (op.code.toNat - 0x8f) stack) env := by
  have hne : op.code ≠ Opcode.stop := fun hstop => absurd (hstop ▸ h) (by decide)
  have hdup : ¬ (Opcode.dup1 ≤ op.code ∧ op.code ≤ Opcode.dup16) := fun hdup =>
    absurd (UInt8.le_trans h.1 hdup.2) (by decide)
  unfold zeroMeaning
  rw [if_neg hne, if_neg hdup, if_pos h, show op.code.toNat - 0x90 = op.code.toNat - 0x8f - 1 by omega]
  generalize op.code.toNat - 0x8f = depth
  unfold RuntimeCopy.exchanged
  cases stack with
  | nil => rfl
  | cons x rest => cases (x :: rest)[depth]? <;> rfl

theorem shuffles_zeroMeaning : Shuffles zeroMeaning := by
  intro op hwell hcode stack env
  rcases isShuffle_cases hcode with hpush0 | hpush | hdup | hswap
  · rw [hwell.eq_code hpush0 rfl]
    rfl
  · rw [perform_of_isPush hpush, RuntimeCopy.shuffled_of_isPush hpush]
    rfl
  · by_cases hdup1 : op.code = Opcode.dup1
    · rw [hwell.eq_code hdup1 rfl]
      cases stack <;> rfl
    · have hswap1 : op.code ≠ Opcode.swap1 := fun h => absurd (h ▸ hdup) (by decide)
      have hrange := UInt8.le_trans hdup.2 (show Opcode.dup16 ≤ Opcode.swap16 by decide)
      rw [perform_of_dup1_le ⟨hdup.1, hrange⟩ hdup1 hswap1, zeroMeaning_dup hdup, RuntimeCopy.shuffled,
        if_pos (by simpa using hdup)]
  · by_cases hswap1 : op.code = Opcode.swap1
    · rw [hwell.eq_code hswap1 rfl]
      cases stack with
      | nil => rfl
      | cons x rest => cases rest <;> rfl
    · have hdup1 : op.code ≠ Opcode.dup1 := fun h => absurd (h ▸ hswap) (by decide)
      have hrange := UInt8.le_trans (show Opcode.dup1 ≤ Opcode.swap1 by decide) hswap.1
      have hdup : ¬ (Opcode.dup1 ≤ op.code && op.code ≤ Opcode.dup16) = true := by
        simp only [Bool.and_eq_true, decide_eq_true_eq]
        exact fun hdup => absurd (UInt8.le_trans hswap.1 hdup.2) (by decide)
      rw [perform_of_dup1_le ⟨hrange, hswap.2⟩ hdup1 hswap1, zeroMeaning_swap hswap, RuntimeCopy.shuffled,
        if_neg hdup, if_pos (by simpa using hswap)]

/-- A runtime of eight bytes that returns its caller. -/
def callerRuntime : Bytes := [0x33, 0x5f, 0x52, 0x60, 0x20, 0x5f, 0xf3, 0x00]

/-- A constructor of nine bytes, with a push for the size and one for the offset. -/
def separateConstructor : Bytes := [0x60, 8, 0x80, 0x60, 9, 0x5f, 0x39, 0x5f, 0xf3]

/-- A constructor of eight bytes, with one push for the size and the offset. -/
def sharedConstructor : Bytes := [0x60, 8, 0x80, 0x80, 0x5f, 0x39, 0x5f, 0xf3]

def deployment (constructor : Bytes) : TranspiledContract :=
  ((Sandbox.standard (.ofNat 20 0xee)).transpile (constructor ++ callerRuntime) callerRuntime 0).value

theorem constructor_copies_runtime_separate :
    ∃ output runtimeOutput old new layout,
      (deployment separateConstructor).creation? = some (output ++ runtimeOutput) ∧
      Constructed (.standard (.ofNat 20 0xee)) ⟨9, 8, runtimeOutput.length⟩ separateConstructor output
        old new layout ∧
      CopiesWith zeroMeaning old new layout 4 fun stack =>
        stack[1]? = some (BitVec.ofNat 256 output.length) ∧
        stack[2]? = some (BitVec.ofNat 256 runtimeOutput.length) := by
  obtain ⟨output, houtput⟩ := @Outcome.exists_ok (deployment separateConstructor).constructor
    (by decide +kernel)
  obtain ⟨runtimeOutput, hruntime⟩ := @Outcome.exists_ok (deployment separateConstructor).deployed
    (by decide +kernel)
  obtain ⟨hcreation, old, new, layout, hconstructed, hcopies⟩ :=
    constructor_copies_runtime shuffles_zeroMeaning (by decide) rfl houtput hruntime
  have hold : Instruction.decode separateConstructor = .ok (Instruction.locate 0
      [⟨0x60, [8]⟩, (0x80 : UInt8), ⟨0x60, [9]⟩, (0x5f : UInt8), (0x39 : UInt8), (0x5f : UInt8),
        (0xf3 : UInt8)]) := by decide +kernel
  obtain rfl := Except.ok.inj (hconstructed.decode_constructor.symm.trans hold)
  refine ⟨output, runtimeOutput, _, new, layout, hcreation, hconstructed, ?_⟩
  exact hcopies.runtime 4 ⟨(0x39 : UInt8), 6⟩ 2 0 rfl rfl rfl rfl ⟨_, rfl, rfl⟩ ⟨_, rfl, rfl⟩

/-- With one push for both operands, the copy has the right size and the wrong offset. -/
theorem shared_push_miscopies :
    ∃ output runtimeOutput old new s offset size,
      (deployment sharedConstructor).creation? = some (output ++ runtimeOutput) ∧
      (deployment sharedConstructor).deployed = .ok runtimeOutput ∧
      Instruction.decode sharedConstructor = .ok old ∧ Instruction.decode output = .ok new ∧
      operands (windowAt old 4) = ⟨some 3, some 0, some 0⟩ ∧
      PushesNumber old 0 sharedConstructor.length ∧ PushesNumber old 0 callerRuntime.length ∧
      Reaches zeroMeaning new ⟨0, [], ()⟩ s ∧ fetch new s.pc = some ⟨Opcode.codeCopy, []⟩ ∧
      s.stack[1]? = some offset ∧ s.stack[2]? = some size ∧ offset.toNat ≠ output.length ∧
      ((output ++ runtimeOutput).drop offset.toNat).take size.toNat ≠ runtimeOutput := by
  have houtput : (deployment sharedConstructor).constructor =
      .ok [0x60, 0x4c, 0x80, 0x80, 0x5f, 0x39, 0x5f, 0xf3] := by decide +kernel
  obtain ⟨runtimeOutput, hruntime⟩ := @Outcome.exists_ok (deployment sharedConstructor).deployed
    (by decide +kernel)
  have hlength : runtimeOutput.length = 76 := by
    have hlength : (deployment sharedConstructor).deployed.bytecode?.map List.length = some 76 := by
      decide +kernel
    rw [hruntime] at hlength
    exact Option.some.inj hlength
  have hold : Instruction.decode sharedConstructor = .ok (Instruction.locate 0
      [⟨0x60, [8]⟩, (0x80 : UInt8), (0x80 : UInt8), (0x5f : UInt8), (0x39 : UInt8), (0x5f : UInt8),
        (0xf3 : UInt8)]) := by decide +kernel
  have hnew : Instruction.decode [0x60, 0x4c, 0x80, 0x80, 0x5f, 0x39, 0x5f, 0xf3] =
      .ok (Instruction.locate 0
        [⟨0x60, [0x4c]⟩, (0x80 : UInt8), (0x80 : UInt8), (0x5f : UInt8), (0x39 : UInt8), (0x5f : UInt8),
          (0xf3 : UInt8)]) := by decide +kernel
  refine ⟨_, runtimeOutput, _, _, _, 76, 76, ?_, hruntime, hold, hnew, rfl, ⟨_, rfl, rfl⟩,
    ⟨_, rfl, rfl⟩, reaches_advance 4 _, by decide +kernel, by decide +kernel, by decide +kernel, by decide,
    ?_⟩
  · rw [TranspiledContract.creation?, houtput, hruntime]
    rfl
  · -- from offset 76 on there are but eight bytes
    intro heq
    have hshort := congrArg List.length heq
    simp [hlength] at hshort

end EvmSandbox.Machine
