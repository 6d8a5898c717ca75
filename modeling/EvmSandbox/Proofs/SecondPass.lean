/-
Transpiling safe code a second time. Where every instruction is allowed and
none has a rule, transpiling either refuses the code, because a jump goes
astray, or gives it back as it was (`Untouched.transpileCode_eq_ok_iff`). A
pass over deployed code cuts a trailer off first, and it takes for a trailer
whatever has the shape of one. So the second pass gives back what the first
one gave exactly if that has no trailer again; where it has one, the second
pass cuts it off like the first (`second_pass`).
-/
import EvmSandbox.Proofs.Unchanged

namespace EvmSandbox.Sandbox

/-- Every instruction of `code` is allowed and has no rule. -/
def Untouched (s : Sandbox) (code : Bytes) : Prop :=
  ∀ instructions, Instruction.decode code = .ok instructions →
    ∀ i ∈ instructions, s.whitelist.isAllowed i.code = true ∧ s.rules.contains i.code = false

section Untouched

variable {s : Sandbox} {code output : Bytes} (h : s.Untouched code)
include h

theorem Untouched.replace? {instructions : List Instruction}
    (hdecode : Instruction.decode code = .ok instructions) :
    ∀ i ∈ instructions, s.rules.replace? i = none := fun i hi =>
  RuleTable.replace?_eq_none_iff.2 (h instructions hdecode i hi).2

/-- Where a plan is found, every push right before a jump pushes the offset of an instruction. -/
theorem Untouched.leavesAlone {instructions : List Instruction}
    (hdecode : Instruction.decode code = .ok instructions)
    (hplan : Layout.misdirected s.rules (fun _ => none) instructions = []) :
    s.LeavesAlone instructions where
  allowed := h instructions hdecode
  directed := by
    rintro ⟨push, jump⟩ hpair hpush hjump
    obtain ⟨k, hk⟩ := List.mem_iff_getElem?.1 hpair
    obtain ⟨hk, hnext⟩ := List.getElem?_zip_eq_some.1 hk
    rw [List.getElem?_drop, Nat.add_comm] at hnext
    by_contra hastray
    have hstatic : Layout.isStaticJump push instructions[k + 1]? = true := by
      simp only at hk hnext hpush hjump
      simp [Layout.isStaticJump, hnext, hpush, hjump]
    have hmem : _ ∈ Layout.misdirected s.rules (fun _ => none) instructions :=
      (Layout.mem_misdirected_iff hdecode).2 ⟨k, push, hk,
        h.replace? hdecode push (List.mem_of_getElem? hk), rfl, hstatic,
        fun i hi hoffset => hastray ⟨i, hi, hoffset⟩, rfl⟩
    rw [hplan] at hmem
    cases hmem

/-- Transpiling such code gives it back or refuses it. -/
theorem Untouched.transpileCode_eq_ok_iff :
    (s.transpileCode code none).value = .ok output ↔ output = code ∧ s.IsSafe code := by
  constructor
  · intro hok
    obtain ⟨instructions, patches, layout, hdecode, -, hpatches, hlayout, rfl⟩ := transpileCode_eq_ok hok
    obtain rfl : RuntimeCopy.Patches.none = patches := Option.some.inj hpatches
    rw [RuntimeCopy.Patches.getD_table_none] at hlayout
    have hkeeps := Layout.patchesKeepNumbers_none instructions code.length
    refine ⟨(Layout.layout_unreplaced hdecode (h.replace? hdecode) hkeeps hlayout).2, instructions,
      hdecode, h.leavesAlone hdecode ?_⟩
    rcases @Layout.plan_cases s.rules (fun _ => none) instructions with ⟨hnone, -⟩ | ⟨-, hplan⟩
    · exact hnone
    · simp [Layout.ofInstructions, hplan] at hlayout
  · rintro ⟨rfl, hsafe⟩
    exact hsafe.transpileCode

/-- What is left of such code when its end is cut off is such code. -/
theorem Untouched.of_isPrefix {start : Bytes} {instructions : List Instruction}
    (hdecode : Instruction.decode code = .ok instructions) (hstart : start <+: code) :
    s.Untouched start := fun _ hfirst i hi =>
  h instructions hdecode i ((Instruction.isPrefix_of_decode hdecode hfirst hstart).subset hi)

end Untouched

/-- **A second pass over safe code.** The first pass gives the code without its trailer. The second
pass changes nothing exactly if no trailer is found in that; whatever it gives is without the trailer
that is found, and it gives nothing if what is left breaks off within a push or jumps to where the
trailer was. -/
theorem second_pass (s : Sandbox) {code output : Bytes} (huntouched : s.Untouched (Metadata.strip code))
    (hfirst : (s.transpileDeployed code).value = .ok output) :
    output = Metadata.strip code ∧
      ((s.transpileDeployed output).value = .ok output ↔ Metadata.start? output = none) ∧
      ∀ again, (s.transpileDeployed output).value = .ok again ↔
        again = Metadata.strip output ∧ s.IsSafe (Metadata.strip output) := by
  obtain ⟨rfl, instructions, hdecode, halone⟩ := huntouched.transpileCode_eq_ok_iff.1 hfirst
  have hsecond : ∀ again, (s.transpileDeployed (Metadata.strip code)).value = .ok again ↔
      again = Metadata.strip (Metadata.strip code) ∧ s.IsSafe (Metadata.strip (Metadata.strip code)) :=
    fun again => (huntouched.of_isPrefix hdecode (Metadata.isPrefix_strip _)).transpileCode_eq_ok_iff
  refine ⟨rfl, ?_, hsecond⟩
  rw [hsecond, eq_comm, Metadata.strip_eq_self_iff]
  refine and_iff_left_of_imp fun hnone => ?_
  rw [Metadata.strip_eq_self_iff.2 hnone]
  exact ⟨instructions, hdecode, halone⟩

/-- Code that ends in two trailers, of which the first is code as well: `LOG1`, `STOP` and `ADD`. -/
def twoTrailers : Bytes := [0x5f, 0x50, 0x00, 0xa1, 0x00, 0x01, 0xa1, 0x00, 0x01]

theorem untouched_twoTrailers :
    (standard (.ofNat 20 0xee)).Untouched (Metadata.strip twoTrailers) := by
  have hdecode : Instruction.decode (Metadata.strip twoTrailers) =
      .ok (Instruction.locate 0 [(0x5f : UInt8), (0x50 : UInt8), (0x00 : UInt8), (0xa1 : UInt8),
        (0x00 : UInt8), (0x01 : UInt8)]) := by decide +kernel
  intro found hfound
  rw [hdecode] at hfound
  cases hfound
  decide +kernel

/-- The second pass over `twoTrailers` cuts the second trailer off. -/
theorem second_pass_twoTrailers :
    ((standard (.ofNat 20 0xee)).transpileDeployed twoTrailers).value =
        .ok [0x5f, 0x50, 0x00, 0xa1, 0x00, 0x01] ∧
      ((standard (.ofNat 20 0xee)).transpileDeployed [0x5f, 0x50, 0x00, 0xa1, 0x00, 0x01]).value =
        .ok [0x5f, 0x50, 0x00] := by
  have hfirst : ((standard (.ofNat 20 0xee)).transpileDeployed twoTrailers).value =
      .ok [0x5f, 0x50, 0x00, 0xa1, 0x00, 0x01] := by decide +kernel
  obtain ⟨-, -, hsecond⟩ := second_pass _ untouched_twoTrailers hfirst
  refine ⟨hfirst, (hsecond _).2 ⟨by decide +kernel, ?_⟩⟩
  exact ⟨Instruction.locate 0 [(0x5f : UInt8), (0x50 : UInt8), (0x00 : UInt8)], by decide +kernel,
    by decide +kernel⟩

/-- So safe code need not come out of a second pass as it came out of the first. -/
theorem second_pass_drops_trailer :
    ¬ ∀ (manager : Address) (whitelist : Whitelist) (code output : Bytes),
      (standard manager whitelist).Untouched (Metadata.strip code) →
      ((standard manager whitelist).transpileDeployed code).value = .ok output →
      ((standard manager whitelist).transpileDeployed output).value = .ok output := by
  intro h
  have hfirst : ((standard (.ofNat 20 0xee)).transpileDeployed twoTrailers).value =
      .ok [0x5f, 0x50, 0x00, 0xa1, 0x00, 0x01] := by decide +kernel
  have hsecond := h (.ofNat 20 0xee) .standard twoTrailers _ untouched_twoTrailers hfirst
  revert hsecond
  decide +kernel

end EvmSandbox.Sandbox
