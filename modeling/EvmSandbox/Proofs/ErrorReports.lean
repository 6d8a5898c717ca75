/-
What transpiling says of deployed code that it refuses. The code is looked at
in three phases, and the first phase that finds a fault reports all faults of
its kind and nothing else: the place where decoding stops, the instructions
that are neither allowed nor replaced, and the pushes right before a jump
whose number is no instruction's offset. Code without such faults fails only
if what it becomes is too long (`transpileDeployed_reports`).

Each phase reports in the order of the code, so the reports of every refusal
are in strict order of their offsets.
-/
import EvmSandbox.Proofs.Transpilation

namespace EvmSandbox

/-! ## One error for each fault -/

/-- `errors` has one error for each of the `instructions` that is faulty, at its offset and with the
cause that belongs to it, in the order of the code. -/
structure TranspileError.OnePer (instructions : List Instruction) (Faulty : Instruction → Prop)
    (cause : Instruction → Cause) (errors : List TranspileError) : Prop where
  increasing : errors.Pairwise (·.index < ·.index)
  mem_iff : ∀ e, e ∈ errors ↔ ∃ i ∈ instructions, Faulty i ∧ e = ⟨i.offset, cause i⟩

theorem TranspileError.OnePer.ne_nil {instructions : List Instruction} {Faulty : Instruction → Prop}
    {cause : Instruction → Cause} {errors : List TranspileError}
    (h : OnePer instructions Faulty cause errors) (hsome : ∃ i ∈ instructions, Faulty i) :
    errors ≠ [] := by
  obtain ⟨i, hi, hfaulty⟩ := hsome
  exact List.ne_nil_of_mem ((h.mem_iff _).2 ⟨i, hi, hfaulty, rfl⟩)

namespace Sandbox

/-- The instruction is neither allowed nor replaced. -/
def Refuses (s : Sandbox) (i : Instruction) : Prop :=
  s.whitelist.isAllowed i.code = false ∧ s.rules.contains i.code = false

/-- `push` is a push without a rule, right before a jump, of a number at which no instruction
starts. -/
def GoesAstray (s : Sandbox) (instructions : List Instruction) (push : Instruction) : Prop :=
  ∃ k jump, instructions[k]? = some push ∧ instructions[k + 1]? = some jump ∧
    Opcode.isPush push.code = true ∧ Opcode.isJump jump.code = true ∧
    s.rules.contains push.code = false ∧
    ∀ i ∈ instructions, i.offset ≠ Bytes.toNat push.immediate

/-- The error is about an instruction of `code` and stands at its offset, if it is one about an
instruction. -/
def AtFault (s : Sandbox) (code : Bytes) (e : TranspileError) : Prop :=
  match e.cause with
  | .disallowed byte => ∃ instructions, Instruction.decode code = .ok instructions ∧
    ∃ i ∈ instructions, s.Refuses i ∧ e.index = i.offset ∧ byte = i.code
  | .invalidJumpTarget target => ∃ instructions, Instruction.decode code = .ok instructions ∧
    ∃ i ∈ instructions, s.GoesAstray instructions i ∧ e.index = i.offset ∧
      target = Bytes.toNat i.immediate
  | _ => True

theorem refuses_iff {s : Sandbox} {i : Instruction} : s.Refuses i ↔ ¬ s.admits i.code = true := by
  rw [admits_iff, not_or, Bool.not_eq_true, Bool.not_eq_true, Refuses]

theorem onePer_disallowed (s : Sandbox) {code : Bytes} {instructions : List Instruction}
    (hdecode : Instruction.decode code = .ok instructions) :
    TranspileError.OnePer instructions s.Refuses (fun i => .disallowed i.code)
      (s.disallowed instructions) where
  increasing := by
    rw [disallowed, List.pairwise_map]
    exact (Instruction.pairwise_offset_of_decode hdecode).filter _
  mem_iff e := by
    simp only [disallowed, List.mem_map, List.mem_filter, refuses_iff, Bool.not_eq_true',
      Bool.not_eq_true]
    constructor
    · rintro ⟨i, ⟨hi, hrefused⟩, rfl⟩
      exact ⟨i, hi, hrefused, rfl⟩
    · rintro ⟨i, hi, hrefused, rfl⟩
      exact ⟨i, ⟨hi, hrefused⟩, rfl⟩

theorem goesAstray_iff {s : Sandbox} {instructions : List Instruction} {push : Instruction} :
    s.GoesAstray instructions push ↔ ∃ k, instructions[k]? = some push ∧
      s.rules.replace? push = none ∧ Layout.isStaticJump push instructions[k + 1]? = true ∧
      ∀ i ∈ instructions, i.offset ≠ Bytes.toNat push.immediate := by
  simp only [Layout.isStaticJump, Bool.and_eq_true, Option.any_eq_true,
    RuleTable.replace?_eq_none_iff]
  constructor
  · rintro ⟨k, jump, hk, hjump, hpush, hcode, hrule, hastray⟩
    exact ⟨k, hk, hrule, ⟨hpush, jump, hjump, hcode⟩, hastray⟩
  · rintro ⟨k, hk, hrule, ⟨hpush, jump, hjump, hcode⟩, hastray⟩
    exact ⟨k, jump, hk, hjump, hpush, hcode, hrule, hastray⟩

theorem onePer_misdirected (s : Sandbox) {code : Bytes} {instructions : List Instruction}
    (hdecode : Instruction.decode code = .ok instructions) :
    TranspileError.OnePer instructions (s.GoesAstray instructions)
      (fun i => .invalidJumpTarget (Bytes.toNat i.immediate))
      (Layout.misdirected s.rules (fun _ => none) instructions) where
  increasing := Layout.pairwise_misdirected hdecode
  mem_iff e := by
    rw [Layout.mem_misdirected_iff hdecode]
    constructor
    · rintro ⟨k, push, hk, hrule, -, hstatic, hastray, rfl⟩
      exact ⟨push, List.mem_of_getElem? hk, goesAstray_iff.2 ⟨k, hk, hrule, hstatic, hastray⟩, rfl⟩
    · rintro ⟨push, -, hpush, rfl⟩
      obtain ⟨k, hk, hrule, hstatic, hastray⟩ := goesAstray_iff.1 hpush
      exact ⟨k, push, hk, hrule, rfl, hstatic, hastray, rfl⟩

/-! ## The three phases -/

/-- What transpiling `code` comes to, by the first of its faults. -/
inductive Reports (s : Sandbox) (code : Bytes) : Outcome → Prop where
  | undecodable {e : DecodeError} (hdecode : Instruction.decode code = .error e)
    (hstops : Instruction.DecodingStops code e) :
    Reports s code (.error [⟨e.offset, .undecodable e⟩])
  | disallowed {instructions : List Instruction} {errors : List TranspileError}
    (hdecode : Instruction.decode code = .ok instructions) (hsome : ∃ i ∈ instructions, s.Refuses i)
    (herrors : TranspileError.OnePer instructions s.Refuses (fun i => .disallowed i.code) errors) :
    Reports s code (.error errors)
  | misdirected {instructions : List Instruction} {errors : List TranspileError}
    (hdecode : Instruction.decode code = .ok instructions) (hadmits : ∀ i ∈ instructions, ¬ s.Refuses i)
    (hsome : ∃ i ∈ instructions, s.GoesAstray instructions i)
    (herrors : TranspileError.OnePer instructions (s.GoesAstray instructions)
      (fun i => .invalidJumpTarget (Bytes.toNat i.immediate)) errors) :
    Reports s code (.error errors)
  | tooLarge {instructions : List Instruction} {length : Nat}
    (hdecode : Instruction.decode code = .ok instructions) (hadmits : ∀ i ∈ instructions, ¬ s.Refuses i)
    (htargets : ∀ i ∈ instructions, ¬ s.GoesAstray instructions i) (hlarge : maxCodeLength < length) :
    Reports s code (.error [⟨0, .outputTooLarge length⟩])
  | successful {instructions : List Instruction} {output : Bytes}
    (hdecode : Instruction.decode code = .ok instructions) (hadmits : ∀ i ∈ instructions, ¬ s.Refuses i)
    (htargets : ∀ i ∈ instructions, ¬ s.GoesAstray instructions i) :
    Reports s code (.ok output)

/-- Admitted instructions fail for the targets of their jumps, or else only for their length. -/
theorem reports_of_admitted {s : Sandbox} {code : Bytes} {instructions : List Instruction}
    (hdecode : Instruction.decode code = .ok instructions)
    (hadmits : ∀ i ∈ instructions, ¬ s.Refuses i) :
    s.Reports code
      ((Layout.ofInstructions s.rules (fun _ => none) instructions).result.map Layout.code) := by
  have honePer := s.onePer_misdirected hdecode
  rcases @Layout.plan_cases s.rules (fun _ => none) instructions with
    ⟨hnone, slots, hplan, -⟩ | ⟨hsome, hplan⟩
  · have htargets : ∀ i ∈ instructions, ¬ s.GoesAstray instructions i := fun i hi hastray =>
      honePer.ne_nil ⟨i, hi, hastray⟩ hnone
    simp only [Layout.ofInstructions, hplan]
    rcases Layout.ofSlots_result slots with ⟨layout, hok⟩ | ⟨length, hlarge, herror⟩
    · rw [hok]
      exact .successful hdecode hadmits htargets
    · rw [herror]
      exact .tooLarge hdecode hadmits htargets hlarge
  · obtain ⟨e, he⟩ := List.exists_mem_of_ne_nil _ hsome
    obtain ⟨i, hi, hastray, -⟩ := (honePer.mem_iff e).1 he
    simp only [Layout.ofInstructions, hplan]
    exact .misdirected hdecode hadmits ⟨i, hi, hastray⟩ honePer

theorem reports_transpileCode (s : Sandbox) {code : Bytes} (hle : code.length ≤ maxCodeLength) :
    s.Reports code (s.transpileCode code none).value := by
  cases hdecode : Instruction.decode code with
  | error e =>
    rw [s.transpileCode_of_undecodable hdecode]
    exact .undecodable hdecode ((Instruction.decode_eq_error_iff hle).1 hdecode)
  | ok instructions =>
    have honePer := s.onePer_disallowed hdecode
    by_cases hsome : ∃ i ∈ instructions, s.Refuses i
    · rw [transpileCode_of_disallowed hdecode (honePer.ne_nil hsome)]
      exact .disallowed hdecode hsome honePer
    · push Not at hsome
      have hadmits : ∀ i ∈ instructions, s.admits i.code = true := fun i hi =>
        not_not.1 fun hnot => hsome i hi (refuses_iff.2 hnot)
      rw [transpileCode_of_admitted hdecode hadmits rfl, RuntimeCopy.Patches.getD_table_none]
      exact reports_of_admitted hdecode hsome

/-- Every refusal has a reason; the reasons stand in strict order, each at the instruction at
fault. -/
theorem Reports.ordered {s : Sandbox} {code : Bytes} {errors : List TranspileError}
    (h : s.Reports code (.error errors)) :
    errors ≠ [] ∧ errors.Pairwise (·.index < ·.index) ∧ ∀ e ∈ errors, s.AtFault code e := by
  cases h with
  | undecodable => simp [AtFault]
  | tooLarge => simp [AtFault]
  | disallowed hdecode hsome herrors =>
    refine ⟨herrors.ne_nil hsome, herrors.increasing, fun e he => ?_⟩
    obtain ⟨i, hi, hrefused, rfl⟩ := (herrors.mem_iff e).1 he
    exact ⟨_, hdecode, i, hi, hrefused, rfl, rfl⟩
  | misdirected hdecode _ hsome herrors =>
    refine ⟨herrors.ne_nil hsome, herrors.increasing, fun e he => ?_⟩
    obtain ⟨i, hi, hastray, rfl⟩ := (herrors.mem_iff e).1 he
    exact ⟨_, hdecode, i, hi, hastray, rfl, rfl⟩

/-- **Refusals say exactly what is wrong.** Deployed code that 32-bit offsets can address is refused
for the first kind of fault it has, with one error for each fault of that kind; if it has none, it
is refused only for the length of what it becomes. -/
theorem transpileDeployed_reports (s : Sandbox) {code : Bytes} (hlength : code.length < 2 ^ 32) :
    s.Reports (Metadata.strip code) (s.transpileDeployed code).value ∧
      ∀ errors, (s.transpileDeployed code).value = .error errors →
        errors ≠ [] ∧ errors.Pairwise (·.index < ·.index) ∧
          ∀ e ∈ errors, s.AtFault (Metadata.strip code) e := by
  have hstrip := (Metadata.isPrefix_strip code).length_le
  have hle : (Metadata.strip code).length ≤ maxCodeLength := by
    rw [maxCodeLength]
    omega
  have hreports := s.reports_transpileCode hle
  refine ⟨hreports, fun errors herrors => ?_⟩
  rw [transpileDeployed] at herrors
  rw [herrors] at hreports
  exact hreports.ordered

/-- A code with two jumps into the operand of its first push and a metadata trailer. -/
def strayJumps : Bytes :=
  [0x60, 1, 0x56, 0x5b, 0x61, 0, 1, 0x57, 0xa1, 0x00, 0x01]

theorem transpileDeployed_reports_strayJumps :
    strayJumps.length < 2 ^ 32 ∧
      ((standard (.ofNat 20 0xee)).transpileDeployed strayJumps).value =
        .error [⟨0, .invalidJumpTarget 1⟩, ⟨4, .invalidJumpTarget 1⟩] ∧
      (standard (.ofNat 20 0xee)).Reports (Metadata.strip strayJumps)
        ((standard (.ofNat 20 0xee)).transpileDeployed strayJumps).value ∧
      ∀ errors, ((standard (.ofNat 20 0xee)).transpileDeployed strayJumps).value = .error errors →
        errors ≠ [] ∧ errors.Pairwise (·.index < ·.index) ∧
          ∀ e ∈ errors, (standard (.ofNat 20 0xee)).AtFault (Metadata.strip strayJumps) e :=
  ⟨by decide, by decide +kernel, transpileDeployed_reports _ (by decide)⟩

end Sandbox

end EvmSandbox
