/-
The first emissions of a code, instruction by instruction (`plan_spec`): a
rule comes before a patch, a patch before the target of a static jump, and
the target of a static jump is an instruction that starts at the number
pushed (`resolveTarget_iff`). There is no plan exactly if some static jump has
no such target; each of them is then an error (`mem_misdirected_iff`).
-/
import EvmSandbox.Layout.Plan
import EvmSandbox.Proofs.Decoding

namespace EvmSandbox.Layout

open Instruction (locate)

/-! ## The instruction that starts at an offset -/

section Search

variable {decoded : Array Instruction} {target low high k : Nat}

/-- What is found starts at the offset, whatever the order of the instructions. -/
theorem searchOffset_sound (h : searchOffset decoded target low high = some k) :
    low ≤ k ∧ k < high ∧ ∃ i, decoded[k]? = some i ∧ i.offset = target := by
  fun_induction searchOffset decoded target low high with
  | case1 | case5 => cases h
  | case2 low high hlt middle i hi heq =>
    obtain rfl := Option.some.inj h
    exact ⟨Nat.le_add_right _ _, by omega, i, hi, heq⟩
  | case3 low high hlt middle i hi hne hless ih =>
    obtain ⟨hlow, hhigh, hk⟩ := ih h
    exact ⟨by omega, hhigh, hk⟩
  | case4 low high hlt middle i hi hne hless ih =>
    obtain ⟨hlow, hhigh, hk⟩ := ih h
    exact ⟨hlow, by omega, hk⟩

/-- Offsets ascend with the indexes of a code. -/
theorem offset_lt_offset_iff (hsorted : decoded.toList.Pairwise (·.offset < ·.offset)) {j : Nat}
    {a b : Instruction} (ha : decoded[j]? = some a) (hb : decoded[k]? = some b) :
    a.offset < b.offset ↔ j < k := by
  rw [← Array.getElem?_toList] at ha hb
  obtain ⟨hj, rfl⟩ := List.getElem?_eq_some_iff.1 ha
  obtain ⟨hk, rfl⟩ := List.getElem?_eq_some_iff.1 hb
  have hlt := List.pairwise_iff_getElem.1 hsorted
  rcases lt_trichotomy j k with hjk | rfl | hkj
  · exact iff_of_true (hlt j k hj hk hjk) hjk
  · simp
  · exact iff_of_false (hlt k j hk hj hkj).not_gt hkj.not_gt

/-- Where the offsets ascend, the instruction that starts at the offset is found: it is never in
the half that is left out. -/
theorem searchOffset_complete (hsorted : decoded.toList.Pairwise (·.offset < ·.offset))
    (hhigh : high ≤ decoded.size) {i : Instruction} (hlow : low ≤ k) (hk : k < high)
    (hi : decoded[k]? = some i) (hoffset : i.offset = target) :
    searchOffset decoded target low high = some k := by
  fun_induction searchOffset decoded target low high with
  | case1 low high hlt middle hnone =>
    have := Array.getElem?_eq_none_iff.1 hnone
    omega
  | case2 low high hlt middle a ha heq =>
    have hleft := offset_lt_offset_iff hsorted ha hi
    have hright := offset_lt_offset_iff hsorted hi ha
    exact congrArg some (by omega)
  | case3 low high hlt middle a ha hne hless ih =>
    exact ih hhigh ((offset_lt_offset_iff hsorted ha hi).1 (by omega)) hk
  | case4 low high hlt middle a ha hne hless ih =>
    exact ih (by omega) hlow ((offset_lt_offset_iff hsorted hi ha).1 (by omega))
  | case5 => omega

end Search

/-- On a decoded code, what is found is the instruction that starts at the number the bytes spell,
although the number is read in 32 bits. -/
theorem resolveTarget_iff {code : Bytes} {instructions : List Instruction}
    (hdecode : Instruction.decode code = .ok instructions) {immediate : Bytes} {k : Nat} :
    resolveTarget instructions.toArray immediate = some k ↔
      ∃ i, instructions[k]? = some i ∧ i.offset = Bytes.toNat immediate := by
  have hsorted := Instruction.pairwise_offset_of_decode hdecode
  rw [resolveTarget]
  split
  · rename_i hwide
    -- no offset of a decoded code needs a fifth byte
    simp only [reduceCtorEq, false_iff, not_exists, not_and]
    intro i hi heq
    have hbound := Instruction.offset_le_of_decode hdecode (List.mem_of_getElem? hi)
    refine hwide.not_ge (Bytes.length_significant_le_iff.2 ?_)
    rw [maxCodeLength] at hbound
    omega
  · rename_i hnarrow
    have hbound := Bytes.length_significant_le_iff.1 (Nat.le_of_not_lt hnarrow)
    have htarget := @Bytes.toNat_foldl_shift (Bytes.significant immediate) 0 (by simpa using hbound)
    simp only [htarget]
    constructor
    · intro h
      simpa using (searchOffset_sound h).2.2
    · rintro ⟨i, hi, hoffset⟩
      have hk := (List.getElem?_eq_some_iff.1 hi).1
      exact searchOffset_complete hsorted le_rfl (Nat.zero_le k) hk (by simpa using hi)
        (by simpa using hoffset)
/-! ## What is chosen for an instruction -/

theorem isPush_of_isStaticJump {instruction : Instruction} {next : Option Instruction}
    (h : isStaticJump instruction next = true) : Opcode.isPush instruction.code = true := by
  simp only [isStaticJump, Bool.and_eq_true] at h
  exact h.1

/-- The emission that is chosen for an instruction, given its patch and the instruction after it. -/
inductive Chosen (rules : RuleTable) (decoded : Array Instruction) (patch : Option PushValue)
    (instruction : Instruction) (next : Option Instruction) : Emission → Prop where
  | replaced {replacement : Replacement} (hrule : rules.replace? instruction = some replacement) :
    Chosen rules decoded patch instruction next (.replaced replacement)
  | patched {value : PushValue} (hrule : rules.replace? instruction = none)
    (hpatch : patch = some value) :
    Chosen rules decoded patch instruction next (.push value instruction.immediate.length)
  | target {k : Nat} (hrule : rules.replace? instruction = none) (hpatch : patch = none)
    (hstatic : isStaticJump instruction next = true)
    (hk : resolveTarget decoded instruction.immediate = some k) :
    Chosen rules decoded patch instruction next (.push (.target k) instruction.immediate.length)
  | kept (hrule : rules.replace? instruction = none) (hpatch : patch = none)
    (hstatic : isStaticJump instruction next = false) :
    Chosen rules decoded patch instruction next .kept

theorem choose_spec {rules : RuleTable} {decoded : Array Instruction} {patch : Option PushValue}
    {instruction : Instruction} {next : Option Instruction} {slot : Slot}
    (h : choose rules decoded patch instruction next = .ok slot) :
    slot.instruction = instruction ∧ Chosen rules decoded patch instruction next slot.emission := by
  unfold choose at h
  split at h
  · rename_i hrule
    cases h
    exact ⟨rfl, .replaced hrule⟩
  · rename_i hrule
    cases h
    exact ⟨rfl, .patched hrule rfl⟩
  · rename_i hrule
    split at h
    · rename_i hstatic
      split at h
      · rename_i k hk
        cases h
        exact ⟨rfl, .target hrule rfl hstatic hk⟩
      · cases h
    · rename_i hstatic
      cases h
      exact ⟨rfl, .kept hrule rfl (by simpa using hstatic)⟩

/-- The only error is that of a static jump to a number at which no instruction starts. -/
theorem choose_eq_error_iff {rules : RuleTable} {decoded : Array Instruction}
    {patch : Option PushValue} {instruction : Instruction} {next : Option Instruction}
    {e : TranspileError} :
    choose rules decoded patch instruction next = .error e ↔
      rules.replace? instruction = none ∧ patch = none ∧ isStaticJump instruction next = true ∧
        resolveTarget decoded instruction.immediate = none ∧
        e = ⟨instruction.offset, .invalidJumpTarget (Bytes.toNat instruction.immediate)⟩ := by
  unfold choose
  split
  · rename_i hrule
    simp [hrule]
  · simp
  · rename_i hrule
    split
    · rename_i hstatic
      simp only
      split
      · rename_i k hk
        simp [hk]
      · rename_i hnone
        constructor
        · intro h
          cases h
          exact ⟨hrule, trivial, hstatic, hnone, rfl⟩
        · rintro ⟨-, -, -, -, rfl⟩
          rfl
    · rename_i hstatic
      simp [hstatic]

/-! ## The choices for all instructions -/

section Choices

variable {rules : RuleTable} {patch? : Nat → Option PushValue} {instructions : List Instruction}

theorem getElem?_successors {i : Nat} (h : i < instructions.length) :
    (successors instructions)[i]? = some instructions[i + 1]? := by
  rw [successors, List.getElem?_append]
  simp only [List.length_map, List.length_drop, List.getElem?_map, List.getElem?_drop]
  split
  · rename_i hlt
    rw [List.getElem?_eq_getElem (by omega), List.getElem?_eq_getElem (by omega)]
    simp [Nat.add_comm]
  · rename_i hlt
    have hlast : i = instructions.length - 1 := by omega
    rw [List.getElem?_eq_none (l := instructions) (by omega), hlast]
    simp

/-- What is chosen for each instruction. -/
def choices (rules : RuleTable) (patch? : Nat → Option PushValue) (instructions : List Instruction) :
    List (Except TranspileError Slot) :=
  (instructions.zipIdx.zip (successors instructions)).map fun entry =>
    choose rules instructions.toArray (patch? entry.1.2) entry.1.1 entry.2

theorem getElem?_choices (i : Nat) : (choices rules patch? instructions)[i]? =
    instructions[i]?.map fun instruction =>
      choose rules instructions.toArray (patch? i) instruction instructions[i + 1]? := by
  rw [choices, List.getElem?_map, List.zip, List.getElem?_zipWith, List.getElem?_zipIdx]
  cases hi : instructions[i]? with
  | none => rfl
  | some instruction =>
    rw [getElem?_successors (List.getElem?_eq_some_iff.1 hi).1]
    simp

theorem length_choices (rules : RuleTable) (patch? : Nat → Option PushValue)
    (instructions : List Instruction) :
    (choices rules patch? instructions).length = instructions.length := by
  cases instructions <;> simp [choices, successors]

/-- Without errors, all choices are slots. -/
theorem eq_map_ok_of_no_errors :
    ∀ {chosen : List (Except TranspileError Slot)},
      (chosen.filterMap fun | .error e => some e | .ok _ => none) = [] →
      chosen = (chosen.filterMap fun | .error _ => none | .ok a => some a).map .ok
  | [], _ => rfl
  | .error e :: chosen, h => by simp at h
  | .ok a :: chosen, h => by
    simp only [List.filterMap_cons, List.map_cons, List.cons.injEq, true_and] at h ⊢
    exact eq_map_ok_of_no_errors h

/-- The errors among the choices. -/
def misdirected (rules : RuleTable) (patch? : Nat → Option PushValue)
    (instructions : List Instruction) : List TranspileError :=
  (choices rules patch? instructions).filterMap fun
    | .error e => some e
    | .ok _ => none

/-- There is a plan exactly if no choice is an error; it holds the choices. -/
theorem plan_cases :
    (misdirected rules patch? instructions = [] ∧ ∃ slots, plan rules patch? instructions = .ok slots ∧
      choices rules patch? instructions = slots.map .ok) ∨
    misdirected rules patch? instructions ≠ [] ∧
      plan rules patch? instructions = .error (misdirected rules patch? instructions) := by
  by_cases hnone : misdirected rules patch? instructions = []
  · refine .inl ⟨hnone, _, ?_, eq_map_ok_of_no_errors hnone⟩
    exact if_pos (List.isEmpty_iff.2 hnone)
  · refine .inr ⟨hnone, ?_⟩
    exact if_neg fun hempty => hnone (List.isEmpty_iff.1 hempty)

/-- A plan has one slot for each instruction, with the emission chosen for it. -/
theorem plan_spec {slots : List Slot} (h : plan rules patch? instructions = .ok slots) :
    slots.length = instructions.length ∧ ∀ i slot, slots[i]? = some slot →
      instructions[i]? = some slot.instruction ∧
        Chosen rules instructions.toArray (patch? i) slot.instruction instructions[i + 1]?
          slot.emission := by
  have hchoices : choices rules patch? instructions = slots.map .ok := by
    rcases @plan_cases rules patch? instructions with ⟨-, _, hplan, hchoices⟩ | ⟨-, hplan⟩
    · rw [h] at hplan
      cases hplan
      exact hchoices
    · rw [h] at hplan
      cases hplan
  refine ⟨by rw [← length_choices rules patch? instructions, hchoices, List.length_map],
    fun i slot hi => ?_⟩
  have hget := @getElem?_choices rules patch? instructions i
  rw [hchoices, List.getElem?_map, hi] at hget
  obtain ⟨instruction, hinstruction, hchoose⟩ := Option.map_eq_some_iff.1 hget.symm
  obtain ⟨hsame, hchosen⟩ := choose_spec hchoose
  rw [hsame]
  exact ⟨hinstruction, hchosen⟩

end Choices

/-! ## Static jumps that go astray -/

section Astray

variable {rules : RuleTable} {patch? : Nat → Option PushValue} {code : Bytes}
  {instructions : List Instruction} (hdecode : Instruction.decode code = .ok instructions)
include hdecode

/-- The errors are those of the pushes right before a jump, without a rule and without a patch, of a
number at which no instruction starts. -/
theorem mem_misdirected_iff {e : TranspileError} :
    e ∈ misdirected rules patch? instructions ↔
      ∃ i instruction, instructions[i]? = some instruction ∧ rules.replace? instruction = none ∧
        patch? i = none ∧ isStaticJump instruction instructions[i + 1]? = true ∧
        (∀ other ∈ instructions, other.offset ≠ Bytes.toNat instruction.immediate) ∧
        e = ⟨instruction.offset, .invalidJumpTarget (Bytes.toNat instruction.immediate)⟩ := by
  have hastray : ∀ immediate, resolveTarget instructions.toArray immediate = none ↔
      ∀ other ∈ instructions, other.offset ≠ Bytes.toNat immediate := by
    intro immediate
    simp only [Option.eq_none_iff_forall_ne_some, ne_eq, resolveTarget_iff hdecode, not_exists,
      not_and, List.mem_iff_getElem?, forall_exists_index]
    exact forall_comm
  have hmem : e ∈ misdirected rules patch? instructions ↔
      .error e ∈ choices rules patch? instructions := by
    rw [misdirected, List.mem_filterMap]
    constructor
    · rintro ⟨choice, hchoice, hsome⟩
      cases choice with
      | ok slot => cases hsome
      | error e' =>
        cases hsome
        exact hchoice
    · intro h
      exact ⟨_, h, rfl⟩
  rw [hmem, List.mem_iff_getElem?]
  simp only [getElem?_choices, Option.map_eq_some_iff, choose_eq_error_iff, hastray]

/-- The errors stand in the order of their offsets, and no offset has two. -/
theorem pairwise_misdirected :
    (misdirected rules patch? instructions).Pairwise (·.index < ·.index) := by
  refine List.Pairwise.filterMap _ (R := fun a b => ∀ e e', a = .error e → b = .error e' →
    e.index < e'.index) ?_ (List.pairwise_iff_getElem.2 ?_)
  · intro a b hab e he e' he'
    cases a with
    | ok => cases he
    | error e₁ =>
      cases b with
      | ok => cases he'
      | error e₂ =>
        cases he
        cases he'
        exact hab _ _ rfl rfl
  · intro i j hi hj hij e e' he he'
    have hget := @getElem?_choices rules patch? instructions
    obtain ⟨x, hx, hchoose⟩ := Option.map_eq_some_iff.1
      ((hget i).symm.trans ((List.getElem?_eq_getElem hi).trans (congrArg some he)))
    obtain ⟨y, hy, hchoose'⟩ := Option.map_eq_some_iff.1
      ((hget j).symm.trans ((List.getElem?_eq_getElem hj).trans (congrArg some he')))
    obtain ⟨-, -, -, -, rfl⟩ := choose_eq_error_iff.1 hchoose
    obtain ⟨-, -, -, -, rfl⟩ := choose_eq_error_iff.1 hchoose'
    obtain ⟨hi', rfl⟩ := List.getElem?_eq_some_iff.1 hx
    obtain ⟨hj', rfl⟩ := List.getElem?_eq_some_iff.1 hy
    exact List.pairwise_iff_getElem.1 (Instruction.pairwise_offset_of_decode hdecode) i j hi' hj' hij

end Astray

end EvmSandbox.Layout
