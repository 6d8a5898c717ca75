/-
Code that is safe as it is comes out byte for byte. Its pushes of jump targets
are written again, and so are the numbers by which a constructor finds the
runtime; but each of them comes out as the number that was there, in the width
that was there, so nothing is widened and nothing moves. This holds of deployed
code and of creation code, whether or not the constructor's copy of the runtime
is recognized (`transpile_unchanged`).
-/
import EvmSandbox.Proofs.RuntimePatches
import EvmSandbox.Proofs.Unreplaced

namespace EvmSandbox

/-! ## Patches for a runtime that keeps its length -/

/-- A runtime of the same length at the same place is found by the same numbers. -/
theorem RuntimeCopy.patchesKeepNumbers_patchOf {code : Bytes} {length : Nat}
    (hcode : code.length ≤ maxCodeLength) (hlength : length ≤ maxCodeLength)
    (instructions : List Instruction) :
    Layout.PatchesKeepNumbers (patchOf ⟨code.length, length, length⟩ instructions) instructions
      code.length := by
  intro i value push hpatch hi
  obtain ⟨number, hpushes, hrenumbers⟩ := renumbers_of_patchOf (List.getElem?_eq_some_iff.1 hi).1 hpatch
  obtain ⟨hpush, rfl⟩ := hpushes.isPush hi
  refine ⟨hpush, ?_⟩
  have hbound : maxCodeLength + maxCodeLength ≤ Layout.maxPushValue := by decide
  have hnew := toNat_ofNat_length hlength
  generalize Bytes.toNat push.immediate = number at hrenumbers ⊢
  cases hrenumbers with
  | length => exact congrArg some hnew
  | offset =>
    refine congrArg some (min_eq_left (?_ : code.length ≤ _))
    omega
  | creationLength =>
    simp only [Layout.PushValue.unmoved?, hnew, EmbeddedRuntime.creationLength]
    exact congrArg some (min_eq_left (by omega))

namespace Sandbox

/-! ## Safe code -/

/-- The instructions are allowed and have no rule, and every push right before a jump pushes the
offset of an instruction. -/
structure LeavesAlone (s : Sandbox) (instructions : List Instruction) : Prop where
  allowed : ∀ i ∈ instructions, s.whitelist.isAllowed i.code = true ∧ s.rules.contains i.code = false
  directed : ∀ pair ∈ instructions.zip (instructions.drop 1), Opcode.isPush pair.1.code = true →
    Opcode.isJump pair.2.code = true → ∃ i ∈ instructions, i.offset = Bytes.toNat pair.1.immediate

instance (s : Sandbox) (instructions : List Instruction) : Decidable (s.LeavesAlone instructions) :=
  decidable_of_iff (_ ∧ _) ⟨fun h => ⟨h.1, h.2⟩, fun h => ⟨h.allowed, h.directed⟩⟩

/-- The code decodes, and there is nothing in it to change. -/
def IsSafe (s : Sandbox) (code : Bytes) : Prop :=
  ∃ instructions, Instruction.decode code = .ok instructions ∧ s.LeavesAlone instructions

section LeavesAlone

variable {s : Sandbox} {code : Bytes} {instructions : List Instruction}
  (hdecode : Instruction.decode code = .ok instructions) (h : s.LeavesAlone instructions)
include h

theorem LeavesAlone.replace? : ∀ i ∈ instructions, s.rules.replace? i = none := fun i hi =>
  RuleTable.replace?_eq_none_iff.2 (h.allowed i hi).2

/-- A constructor that is left alone, with a runtime that keeps its length, has patches, though they
may be none. -/
theorem LeavesAlone.exists_patches (offset length : Nat) :
    ∃ patches, s.patches? instructions (some ⟨offset, length, length⟩) = some patches := by
  have hrules : (instructions.any fun i => s.rules.contains i.code) = false :=
    List.any_eq_false.2 fun i hi => by simp [(h.allowed i hi).2]
  simp only [patches?, RuntimeCopy.EmbeddedRuntime.keepsLength, beq_self_eq_true, hrules, Bool.not_false,
    Bool.and_self, if_true]
  split <;> exact ⟨_, rfl⟩

include hdecode

theorem LeavesAlone.misdirected (patch? : Nat → Option Layout.PushValue) :
    Layout.misdirected s.rules patch? instructions = [] := by
  rw [List.eq_nil_iff_forall_not_mem]
  intro e he
  obtain ⟨k, push, hk, -, -, hstatic, hastray, -⟩ := (Layout.mem_misdirected_iff hdecode).1 he
  simp only [Layout.isStaticJump, Bool.and_eq_true, Option.any_eq_true] at hstatic
  obtain ⟨hpush, jump, hjump, hcode⟩ := hstatic
  have hpair : (push, jump) ∈ instructions.zip (instructions.drop 1) := by
    refine List.mem_of_getElem? (i := k) (List.getElem?_zip_eq_some.2 ⟨hk, ?_⟩)
    rw [List.getElem?_drop, Nat.add_comm]
    exact hjump
  obtain ⟨target, htarget, hoffset⟩ := h.directed _ hpair hpush hcode
  exact hastray target htarget hoffset

/-- Patches that keep the numbers of the pushes leave such code as it is. -/
theorem LeavesAlone.transpileCode {runtime : Option RuntimeCopy.EmbeddedRuntime}
    {patches : RuntimeCopy.Patches} (hpatches : s.patches? instructions runtime = some patches)
    (hkeeps : Layout.PatchesKeepNumbers (fun i => (patches.table instructions.length).getD i none)
      instructions code.length) :
    (s.transpileCode code runtime).value = .ok code := by
  have hadmits : ∀ i ∈ instructions, s.admits i.code = true := fun i hi =>
    admits_iff.2 (.inl (h.allowed i hi).1)
  rcases Layout.plan_cases with ⟨-, slots, hplan, -⟩ | ⟨hsome, -⟩
  · rw [transpileCode_of_admitted hdecode hadmits hpatches,
      Layout.ofInstructions_unreplaced hdecode h.replace? hkeeps hplan]
    exact congrArg Except.ok (Layout.code_unreplaced hdecode h.replace? hkeeps hplan)
  · exact absurd (h.misdirected hdecode _) hsome

end LeavesAlone

theorem IsSafe.transpileCode {s : Sandbox} {code : Bytes} (h : s.IsSafe code) :
    (s.transpileCode code none).value = .ok code := by
  obtain ⟨instructions, hdecode, halone⟩ := h
  refine halone.transpileCode hdecode rfl ?_
  rw [RuntimeCopy.Patches.getD_table_none]
  exact Layout.patchesKeepNumbers_none _ _

/-- A safe constructor is left as it is, patched or not, if the runtime keeps its length. -/
theorem IsSafe.transpileCode_constructor {s : Sandbox} {code : Bytes} (h : s.IsSafe code) {length : Nat}
    (hlength : length ≤ maxCodeLength) :
    (s.transpileCode code (some ⟨code.length, length, length⟩)).value = .ok code := by
  obtain ⟨instructions, hdecode, halone⟩ := h
  have hcode := (Instruction.decode_eq_ok_iff.1 hdecode).1
  obtain ⟨patches, hpatches⟩ := halone.exists_patches code.length length
  refine halone.transpileCode hdecode hpatches ?_
  rcases patches?_cases hpatches with rfl | ⟨rfl, -⟩
  · exact RuntimeCopy.patchesKeepNumbers_patchOf hcode hlength instructions
  · rw [RuntimeCopy.Patches.getD_table_none]
    exact Layout.patchesKeepNumbers_none _ _

/-- **Safe code is left byte for byte as it is.** Deployed code loses its metadata and nothing else;
creation code whose parts are safe, without metadata in the runtime, loses nothing. -/
theorem transpile_unchanged (s : Sandbox) :
    (∀ code, s.IsSafe (Metadata.strip code) →
      (s.transpileDeployed code).value = .ok (Metadata.strip code)) ∧
    ∀ constructor deployed inputLength, deployed ≠ [] → Metadata.start? deployed = none →
      s.IsSafe constructor → s.IsSafe deployed →
      (s.transpile (constructor ++ deployed) deployed inputLength).value.isSuccessful = true ∧
        (s.transpile (constructor ++ deployed) deployed inputLength).value.creation? =
          some (constructor ++ deployed) := by
  have hdeployed : ∀ code, s.IsSafe (Metadata.strip code) →
      (s.transpileDeployed code).value = .ok (Metadata.strip code) := fun code h => h.transpileCode
  refine ⟨hdeployed, fun constructor deployed inputLength hne hstart hconstructor hruntime => ?_⟩
  have hstrip : Metadata.strip deployed = deployed := by rw [Metadata.strip, hstart]
  have houtput := hdeployed deployed (by rwa [hstrip])
  rw [hstrip] at houtput
  obtain ⟨instructions, hdecode, -⟩ := hruntime
  have hlength := (Instruction.decode_eq_ok_iff.1 hdecode).1
  rw [transpile_embedded hne houtput, hconstructor.transpileCode_constructor hlength]
  exact ⟨rfl, rfl⟩

/-- A runtime with a jump whose target is pushed with a leading zero. -/
def jumpingRuntime : Bytes := [0x61, 0x00, 0x04, 0x56, 0x5b, 0x00]

/-- A constructor that copies `jumpingRuntime` in a way that is recognized. -/
def copyingConstructor : Bytes := [0x60, 6, 0x80, 0x60, 9, 0x5f, 0x39, 0x5f, 0xf3]

theorem transpile_unchanged_copyingConstructor :
    (standard (.ofNat 20 0xee)).patches?
        (Instruction.locate 0 [⟨0x60, [6]⟩, (0x80 : UInt8), ⟨0x60, [9]⟩, (0x5f : UInt8), (0x39 : UInt8),
          (0x5f : UInt8), (0xf3 : UInt8)]) (some ⟨9, 6, 6⟩) =
      some ⟨[(0, .constant 6), (2, .pastEnd 0)], true⟩ ∧
    ((standard (.ofNat 20 0xee)).transpileDeployed (jumpingRuntime ++ [0xa1, 0x00, 0x01])).value =
      .ok jumpingRuntime ∧
    ((standard (.ofNat 20 0xee)).transpile (copyingConstructor ++ jumpingRuntime) jumpingRuntime
      0).value.creation? = some (copyingConstructor ++ jumpingRuntime) := by
  have hruntime : (standard (.ofNat 20 0xee)).IsSafe jumpingRuntime :=
    ⟨Instruction.locate 0 [⟨0x61, [0x00, 0x04]⟩, (0x56 : UInt8), (0x5b : UInt8), (0x00 : UInt8)],
      by decide +kernel, by decide +kernel⟩
  have hconstructor : (standard (.ofNat 20 0xee)).IsSafe copyingConstructor :=
    ⟨Instruction.locate 0 [⟨0x60, [6]⟩, (0x80 : UInt8), ⟨0x60, [9]⟩, (0x5f : UInt8), (0x39 : UInt8),
      (0x5f : UInt8), (0xf3 : UInt8)], by decide +kernel, by decide +kernel⟩
  obtain ⟨hdeployed, hcreation⟩ := transpile_unchanged (standard (.ofNat 20 0xee))
  have hstrip : Metadata.strip (jumpingRuntime ++ [0xa1, 0x00, 0x01]) = jumpingRuntime := by
    decide +kernel
  have houtput := hdeployed (jumpingRuntime ++ [0xa1, 0x00, 0x01]) (by rwa [hstrip])
  exact ⟨rfl, by rwa [hstrip] at houtput,
    (hcreation copyingConstructor jumpingRuntime 0 (by decide) (by decide) hconstructor hruntime).2⟩

end Sandbox

end EvmSandbox
