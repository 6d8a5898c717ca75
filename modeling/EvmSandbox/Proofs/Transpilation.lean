/-
What a successful transpilation is made of: instructions that the sandbox
admits and a layout of them, of which the output is the code. The rules of
interest put calls to the manager in place of instructions; such calls are
straight runs of operations (`expands_of_calls`).
-/
import EvmSandbox.Sandbox
import EvmSandbox.Proofs.LayoutOperations
import EvmSandbox.Proofs.ManagerSequence

namespace EvmSandbox

/-! ## Rules that call the manager -/

namespace RuleTable

/-- Every rule puts a call to `manager` in place of an instruction. -/
def CallsManager (rules : RuleTable) (manager : Address) : Prop :=
  ∀ code rule, rules.get? code = some rule → ∃ call, rule = .ofCall code call manager

theorem replace?_eq_some_iff {rules : RuleTable} {instruction : Instruction}
    {replacement : Replacement} :
    rules.replace? instruction = some replacement ↔
      ∃ rule, rules.get? instruction.code = some rule ∧ rule.replace instruction = replacement := by
  rw [replace?, Option.map_eq_some_iff]

theorem replace?_eq_none_iff {rules : RuleTable} {instruction : Instruction} :
    rules.replace? instruction = none ↔ rules.contains instruction.code = false := by
  simp [replace?, contains]

theorem exists_replace?_iff {rules : RuleTable} {instruction : Instruction} :
    (∃ replacement, rules.replace? instruction = some replacement) ↔
      rules.contains instruction.code = true := by
  simp [replace?, contains, Option.isSome_iff_exists]

theorem get?_foldl_insert {manager : Address} {entries : List (UInt8 × ManagerCall)}
    {table : RuleTable} {code : UInt8} {rule : Rule}
    (h : (entries.foldl (fun table entry => table.insert (.ofCall entry.1 entry.2 manager))
      table).get? code = some rule) :
    (∃ call, (code, call) ∈ entries ∧ rule = .ofCall code call manager) ∨
      table.get? code = some rule := by
  induction entries generalizing table with
  | nil => exact .inr h
  | cons entry entries ih =>
    rcases ih h with ⟨call, hmem, hrule⟩ | htable
    · exact .inl ⟨call, by simp [hmem], hrule⟩
    · rw [get?_insert] at htable
      split at htable
      · rename_i hcode
        have hcode : code = entry.1 := hcode
        subst hcode
        exact .inl ⟨entry.2, by simp, (Option.some.inj htable).symm⟩
      · exact .inr htable

/-- The usual rules are those for the methods of the manager. -/
theorem exists_call_of_standard {manager : Address} {code : UInt8} {rule : Rule}
    (h : (standard manager).get? code = some rule) :
    ∃ call, (code, call) ∈ ManagerCall.standard ∧ rule = .ofCall code call manager := by
  rcases get?_foldl_insert h with hcall | hnone
  · exact hcall
  · cases hnone

/-- Instructions for which the manager has no method have no usual rule. -/
theorem replace?_standard_eq_none {manager : Address} {P : UInt8 → Prop}
    (h : ∀ entry ∈ ManagerCall.standard, ¬ P entry.1) {i : Instruction} (hi : P i.code) :
    (standard manager).replace? i = none := by
  refine Option.eq_none_iff_forall_ne_some.2 fun replacement hreplace => ?_
  obtain ⟨rule, hget, -⟩ := replace?_eq_some_iff.1 hreplace
  obtain ⟨call, hmem, -⟩ := exists_call_of_standard hget
  exact h _ hmem hi

theorem callsManager_standard (manager : Address) : (standard manager).CallsManager manager := by
  intro code rule h
  obtain ⟨call, -, hrule⟩ := exists_call_of_standard h
  exact ⟨call, hrule⟩

/-- Rules that call the manager have one call for each code. -/
theorem exists_callOf {rules : RuleTable} {manager : Address} {P : UInt8 → ManagerCall → Prop}
    (h : ∀ code rule, rules.get? code = some rule →
      ∃ call, P code call ∧ rule = .ofCall code call manager) :
    ∃ callOf : UInt8 → ManagerCall, ∀ code rule, rules.get? code = some rule →
      P code (callOf code) ∧ rule = .ofCall code (callOf code) manager := by
  have hcall : ∀ code, ∃ call, ∀ rule, rules.get? code = some rule →
      P code call ∧ rule = .ofCall code call manager := by
    intro code
    cases hget : rules.get? code with
    | none => exact ⟨⟨.ofNat 4 0, [], .none⟩, by simp⟩
    | some rule =>
      obtain ⟨call, hcall⟩ := h code rule hget
      exact ⟨call, fun other hother => Option.some.inj hother ▸ hcall⟩
  choose callOf hcallOf using hcall
  exact ⟨callOf, hcallOf⟩

end RuleTable

namespace Layout

theorem expands_of_calls {rules : RuleTable} {manager : Address} {callOf : UInt8 → ManagerCall}
    (h : ∀ code rule, rules.get? code = some rule → rule = .ofCall code (callOf code) manager) :
    Expands rules fun code => (callOf code).operations manager := by
  have hbytes : ∀ {instruction : Instruction} {replacement : Replacement},
      rules.replace? instruction = some replacement →
        replacement.bytes = (callOf instruction.code).encode manager := by
    intro instruction replacement hrule
    obtain ⟨rule, hget, rfl⟩ := RuleTable.replace?_eq_some_iff.1 hrule
    rw [h _ _ hget]
    rfl
  refine ⟨hbytes, fun _ => ManagerCall.operations_ne_nil _ _, fun hrule hle hop => ?_⟩
  rw [hbytes hrule] at hle
  exact ManagerCall.operations_spec hle hop

theorem exists_expands_standard (manager : Address) : ∃ expand, Expands (.standard manager) expand := by
  obtain ⟨callOf, hcallOf⟩ := RuleTable.exists_callOf fun code rule hget =>
    @RuleTable.exists_call_of_standard manager code rule hget
  exact ⟨_, expands_of_calls fun code rule hget => (hcallOf code rule hget).2⟩

end Layout

/-! ## Successful transpilations -/

namespace Outcome

theorem bytecode?_eq_some_iff {outcome : Outcome} {code : Bytes} :
    outcome.bytecode? = some code ↔ outcome = .ok code := by
  cases outcome <;> simp [bytecode?]

theorem exists_ok {outcome : Outcome} (h : outcome.isSuccessful = true) :
    ∃ code, outcome = .ok code := by
  cases outcome with
  | error errors => cases h
  | ok code => exact ⟨code, rfl⟩

end Outcome

theorem RuntimeCopy.Patches.getD_table_none (count : Nat) :
    (fun i => (Patches.none.table count).getD i Option.none) =
      fun _ => (Option.none : Option Layout.PushValue) := by
  funext i
  rw [Array.getD_eq_getD_getElem?]
  simp only [table, none, List.foldr_nil, Array.getElem?_replicate]
  split <;> rfl

namespace Sandbox

theorem admits_iff {s : Sandbox} {code : UInt8} :
    s.admits code = true ↔ s.whitelist.isAllowed code = true ∨ s.rules.contains code = true := by
  rw [admits, Bool.or_eq_true]

theorem disallowed_eq_nil_iff {s : Sandbox} {instructions : List Instruction} :
    s.disallowed instructions = [] ↔ ∀ i ∈ instructions, s.admits i.code = true := by
  simp [disallowed]

theorem transpileCode_of_undecodable (s : Sandbox) {code : Bytes} {e : DecodeError}
    (h : Instruction.decode code = .error e) (runtime : Option RuntimeCopy.EmbeddedRuntime) :
    (s.transpileCode code runtime).value = .error [.ofDecode e] := by
  simp only [transpileCode, h]

theorem transpileCode_of_disallowed {s : Sandbox} {code : Bytes} {instructions : List Instruction}
    (hdecode : Instruction.decode code = .ok instructions) (h : s.disallowed instructions ≠ [])
    (runtime : Option RuntimeCopy.EmbeddedRuntime) :
    (s.transpileCode code runtime).value = .error (s.disallowed instructions) := by
  simp [transpileCode, hdecode, h]

/-- Admitted instructions become the code of their layout, or what the layout fails with. -/
theorem transpileCode_of_admitted {s : Sandbox} {code : Bytes} {instructions : List Instruction}
    {runtime : Option RuntimeCopy.EmbeddedRuntime} {patches : RuntimeCopy.Patches}
    (hdecode : Instruction.decode code = .ok instructions)
    (hadmits : ∀ i ∈ instructions, s.admits i.code = true)
    (hpatches : s.patches? instructions runtime = some patches) :
    (s.transpileCode code runtime).value = (Layout.ofInstructions s.rules
      (fun i => (patches.table instructions.length).getD i none) instructions).result.map Layout.code := by
  simp only [transpileCode, hdecode, disallowed_eq_nil_iff.2 hadmits, hpatches]
  cases (Layout.ofInstructions s.rules (fun i => (patches.table instructions.length).getD i none)
    instructions).result <;> rfl

/-- The sandbox admits the instructions, and the output is the code of their layout. -/
theorem transpileCode_eq_ok {s : Sandbox} {code output : Bytes}
    {runtime : Option RuntimeCopy.EmbeddedRuntime}
    (h : (s.transpileCode code runtime).value = .ok output) :
    ∃ instructions patches layout, Instruction.decode code = .ok instructions ∧
      (∀ i ∈ instructions, s.admits i.code = true) ∧
      s.patches? instructions runtime = some patches ∧
      (Layout.ofInstructions s.rules
        (fun i => (patches.table instructions.length).getD i none) instructions).result = .ok layout ∧
      layout.code = output := by
  simp only [transpileCode] at h
  split at h
  · cases h
  rename_i instructions hdecode
  split at h
  · cases h
  rename_i hadmits
  split at h
  · cases h
  rename_i patches hpatches
  split at h
  · cases h
  rename_i layout hlayout
  refine ⟨instructions, patches, layout, hdecode, fun i hi => ?_, hpatches, hlayout, Except.ok.inj h⟩
  by_contra hi'
  have hmem : i ∈ instructions.filter fun i => !s.admits i.code :=
    List.mem_filter.2 ⟨hi, by simpa using hi'⟩
  simp only [disallowed, List.isEmpty_map, Bool.not_eq_true', Bool.not_eq_false,
    List.isEmpty_iff] at hadmits
  rw [hadmits] at hmem
  cases hmem

/-- Deployed code is laid out without patches. -/
theorem transpileDeployed_eq_ok {s : Sandbox} {code output : Bytes}
    (h : (s.transpileDeployed code).value = .ok output) :
    ∃ instructions layout, Instruction.decode (Metadata.strip code) = .ok instructions ∧
      (∀ i ∈ instructions, s.admits i.code = true) ∧
      (Layout.ofInstructions s.rules (fun _ => none) instructions).result = .ok layout ∧
      layout.code = output := by
  obtain ⟨instructions, patches, layout, hdecode, hadmits, hpatches, hlayout, hcode⟩ :=
    transpileCode_eq_ok h
  refine ⟨instructions, layout, hdecode, hadmits, ?_, hcode⟩
  obtain rfl : RuntimeCopy.Patches.none = patches := Option.some.inj hpatches
  rw [RuntimeCopy.Patches.getD_table_none] at hlayout
  exact hlayout

theorem transpile_embedded {s : Sandbox} {constructor deployed output : Bytes} (hne : deployed ≠ [])
    (h : (s.transpileDeployed deployed).value = .ok output) (inputLength : Nat) :
    (s.transpile (constructor ++ deployed) deployed inputLength).value =
      ⟨(s.transpileCode constructor
          (some ⟨constructor.length, deployed.length, output.length⟩)).value, .ok output, true⟩ := by
  have hembeds : embeds (constructor ++ deployed) deployed = true := by
    simp [embeds, hne]
  simp [transpile, hembeds, h, runtimeOf, Outcome.bytecode?]

end Sandbox

end EvmSandbox
