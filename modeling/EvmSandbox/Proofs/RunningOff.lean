/-
What becomes of a run that ends behind the last instruction. The output has
nothing between its body and its jump table, so such a run comes to the jump
table if there is one, and what is left on the stack is taken for the
destination of a jump. There is a table exactly if some instruction is
replaced and some jump is not fed by a push right before it
(`routed_ne_zero_iff`); without one, the output stops as the code does.
-/
import EvmSandbox.Proofs.ControlFlow
import EvmSandbox.Proofs.Unreplaced

namespace EvmSandbox

/-! ## When there is a jump table -/

namespace Layout

/-- Some instruction is replaced, and some jump is not fed by a remapped push. -/
def NeedsTable (rules : RuleTable) (instructions : List Instruction) : Prop :=
  (∃ instruction ∈ instructions, rules.contains instruction.code = true) ∧
    ∃ (i : Nat) (jump : Instruction), instructions[i]? = some jump ∧
      Opcode.isJump jump.code = true ∧ rules.contains jump.code = false ∧
      ¬ FedByRemapped rules (fun _ => none) instructions i

theorem routed_ne_zero_iff {rules : RuleTable} {code : Bytes} {instructions : List Instruction}
    {layout : Layout} (hdecode : Instruction.decode code = .ok instructions)
    (h : (ofInstructions rules (fun _ => none) instructions).result = .ok layout) :
    layout.routed ≠ 0 ↔ NeedsTable rules instructions := by
  have hfinished := ofInstructions_spec h
  have hpatches : PatchesNoTarget fun _ => none := by simp [PatchesNoTarget]
  constructor
  · intro hrouted
    obtain ⟨i, jump, hi, hrule, hjump, hfed⟩ := hfinished.exists_unfed_jump hpatches hrouted
    refine ⟨?_, i, jump, hi, hjump, RuleTable.replace?_eq_none_iff.1 hrule, hfed⟩
    by_contra hnone
    push Not at hnone
    have hrules : ∀ instruction ∈ instructions, rules.replace? instruction = none :=
      fun instruction hmem =>
        RuleTable.replace?_eq_none_iff.2 (by simpa using hnone instruction hmem)
    exact hrouted (layout_unreplaced hdecode hrules (patchesKeepNumbers_none _ _) h).1
  · rintro ⟨⟨instruction, hmem, hcontains⟩, i, jump, hi, hjump, hrule, hfed⟩
    obtain ⟨j, hj⟩ := List.mem_iff_getElem?.1 hmem
    obtain ⟨replacement, hreplaced⟩ := RuleTable.exists_replace?_iff.2 hcontains
    exact hfinished.routed_of_unfed_jump hpatches hj hreplaced hi
      (RuleTable.replace?_eq_none_iff.2 hrule) rfl hjump hfed

end Layout

/-! ## Behind the last instruction -/

namespace Machine

open Layout (NeedsTable extent)

/-- In the state `t` the machine takes the word on top of the stack for the destination of a jump
of the old code. -/
structure EntersTable {Env : Type} (meaning : Meaning Env) (old new : List Instruction)
    (layout : Layout) (t : State Env) : Prop where
  empty : t.stack = [] → Leads meaning new t (.fault t.env)
  found : ∀ target rest k start, t.stack = target :: rest → MarkedAt old k target.toNat →
    layout.offsets.starts[k]? = some start → Leads meaning new t (.move ⟨start, rest, t.env⟩)
  missing : ∀ target rest, t.stack = target :: rest → (∀ k, ¬ MarkedAt old k target.toNat) →
    Leads meaning new t (.fault t.env)

/-- The output comes to the end of its body whenever the code runs off its end. It stops there as
the code does, unless there is a jump table, which it enters. -/
def RunsOff {Env : Type} (meaning : Meaning Env) (manager : Address) (code output : Bytes) : Prop :=
  ∃ old new layout, Transpiled manager code output old new layout ∧
    ∀ stack env s, Reaches meaning old ⟨0, stack, env⟩ s → fetch old s.pc = none →
      step meaning old s = .stop s.stack s.env ∧
      ∃ t, Reaches meaning new ⟨0, stack, env⟩ t ∧
        t = ⟨layout.offsets.bodyEnd, s.stack, s.env⟩ ∧
        (¬ NeedsTable (.standard manager) old →
          t.pc = output.length ∧ step meaning new t = .stop s.stack s.env) ∧
        (NeedsTable (.standard manager) old →
          t.pc < output.length ∧ EntersTable meaning old new layout t)

section LaidOut

variable {Env : Type} {meaning : Meaning Env} {rules : RuleTable} {expand : UInt8 → List Operation}
  {code : Bytes} {old : List Instruction} {layout : Layout}
  (h : LaidOut meaning rules expand code old layout)
include h

theorem LaidOut.eq_of_ended {s t : State Env} (hst : Corresponds rules code old layout s t)
    (hended : fetch old s.pc = none) : t = ⟨layout.offsets.bodyEnd, s.stack, s.env⟩ := by
  cases hst with
  | instruction hi => simp [h.fetch_eq hi] at hended
  | fedJump hi => simp [h.fetch_eq hi] at hended
  | ended => rfl

theorem LaidOut.stops_of_no_table (hrouted : layout.routed = 0) (stack : List Word) (env : Env) :
    layout.offsets.bodyEnd = layout.code.length ∧
      step meaning (layout.program expand) ⟨layout.offsets.bodyEnd, stack, env⟩ = .stop stack env := by
  have hend : layout.offsets.bodyEnd = layout.code.length := by
    rw [h.finished.length_code, h.finished.bodyEnd_eq, Layout.tableSize, hrouted]
    rfl
  refine ⟨hend, ?_⟩
  have hfetch : fetch (layout.program expand) layout.offsets.bodyEnd = none := by
    rw [hend, ← h.finished.encodeAll_operations h.faithful.expands]
    exact fetch_locate_end
  rw [step, hfetch]

theorem LaidOut.entersTable (hrouted : layout.routed ≠ 0) (stack : List Word) (env : Env) :
    layout.offsets.bodyEnd < layout.code.length ∧
      EntersTable meaning old (layout.program expand) layout ⟨layout.offsets.bodyEnd, stack, env⟩ := by
  refine ⟨?_, ?_, ?_, ?_⟩
  · have hfailure : 0 < Layout.tableFailureLength := by decide
    rw [h.finished.length_code, h.finished.bodyEnd_eq, Layout.tableSize, Layout.tableLength,
      if_neg hrouted]
    omega
  · rintro rfl
    exact leads_table_nil (h.at_table hrouted) env
  · rintro target rest k start rfl hk hstart
    obtain ⟨destination, hdestination, -⟩ := id hk
    rw [h.starts_eq hdestination, Option.some.injEq] at hstart
    rw [← hstart]
    exact (h.leads_lookup hrouted target rest env).1 k hk
  · rintro target rest rfl hnone
    exact (h.leads_lookup hrouted target rest env).2 hnone

end LaidOut

/-- **Running off the end is preserved unless there is a jump table**, that is, unless some
instruction is replaced and some jump is not fed by a push right before it. -/
theorem running_off_end {Env : Type} {meaning : Meaning Env} {manager : Address}
    {whitelist : Whitelist} {code output : Bytes} (hcalls : CallsFaithful meaning manager code)
    (h : ((Sandbox.standard manager whitelist).transpileDeployed code).value = .ok output) :
    RunsOff meaning manager code output := by
  obtain ⟨old, layout, expand, htranspiled, hlaidOut⟩ := exists_laidOut hcalls h
  have hneeds := Layout.routed_ne_zero_iff hlaidOut.decoded htranspiled.layout_eq
  refine ⟨old, _, layout, htranspiled, fun stack env s hrun hended => ?_⟩
  obtain ⟨t, hreaches, hcorresponds⟩ :=
    hlaidOut.reaches_corresponding hrun (hlaidOut.corresponds_start stack env)
  have ht := hlaidOut.eq_of_ended hcorresponds hended
  rw [← htranspiled.code_eq]
  refine ⟨by rw [step, hended], t, hreaches, ht, fun hneeds' => ?_, fun hneeds' => ?_⟩
  · rw [ht]
    exact hlaidOut.stops_of_no_table (by simpa using mt hneeds.1 hneeds') s.stack s.env
  · rw [ht]
    exact hlaidOut.entersTable (hneeds.2 hneeds') s.stack s.env

/-- `CALLER`, two zeros and `JUMPI`: the jump is not taken, and the code ends. -/
def endingCode : Bytes := [0x33, 0x5f, 0x5f, 0x57]

theorem running_off_end_endingCode :
    ∃ output, (∀ code, CallsFaithful zeroMeaning (.ofNat 20 0xee) code) ∧
      ((Sandbox.standard (.ofNat 20 0xee)).transpileDeployed endingCode).value = .ok output ∧
      RunsOff zeroMeaning (.ofNat 20 0xee) endingCode output := by
  have hcalls := callsFaithful_zeroMeaning (.ofNat 20 0xee)
  have hsuccessful : ((Sandbox.standard (.ofNat 20 0xee)).transpileDeployed
      endingCode).value.isSuccessful = true := by decide +kernel
  obtain ⟨output, h⟩ := Outcome.exists_ok hsuccessful
  exact ⟨output, hcalls, h, running_off_end (hcalls endingCode) h⟩

/-- With a jump table, a code that runs off its end and stops becomes one that halts
exceptionally. -/
theorem running_off_end_not_preserved :
    ∃ output old new, (∀ code, CallsFaithful zeroMeaning (.ofNat 20 0xee) code) ∧
      ((Sandbox.standard (.ofNat 20 0xee)).transpileDeployed endingCode).value = .ok output ∧
      Instruction.decode (Metadata.strip endingCode) = .ok old ∧
      Instruction.decode output = .ok new ∧
      (∃ s, Reaches zeroMeaning old ⟨0, [], ()⟩ s ∧ s.pc = endingCode.length ∧
        step zeroMeaning old s = .stop [0] ()) ∧
      ∀ t stack env, Reaches zeroMeaning new ⟨0, [], ()⟩ t →
        step zeroMeaning new t ≠ .stop stack env := by
  have hold : Instruction.decode (Metadata.strip endingCode) =
      .ok (Instruction.locate 0 [(0x33 : UInt8), (0x5f : UInt8), (0x5f : UInt8), (0x57 : UInt8)]) := by
    decide +kernel
  obtain ⟨output, new, houtput, hnew, hfault⟩ : ∃ output new,
      ((Sandbox.standard (.ofNat 20 0xee)).transpileDeployed endingCode).value = .ok output ∧
      Instruction.decode output = .ok new ∧
      step zeroMeaning new (advance zeroMeaning new 40 ⟨0, [], ()⟩) = .fault () := by
    have hrun : (((Sandbox.standard (.ofNat 20 0xee)).transpileDeployed
        endingCode).value.bytecode?.any fun output => (Instruction.decode output).toOption.any fun new =>
          step zeroMeaning new (advance zeroMeaning new 40 ⟨0, [], ()⟩) = .fault ()) = true := by
      decide +kernel
    obtain ⟨output, houtput, hrun⟩ := (Option.any_eq_true _ _).1 hrun
    cases hnew : Instruction.decode output with
    | error error => simp [hnew, Except.toOption] at hrun
    | ok new =>
      simp only [hnew, Except.toOption, Option.any_some, decide_eq_true_eq] at hrun
      exact ⟨output, new, Outcome.bytecode?_eq_some_iff.1 houtput, hnew, hrun⟩
  refine ⟨output, _, new, callsFaithful_zeroMeaning _, houtput, hold, hnew, ?_, ?_⟩
  · exact ⟨_, reaches_advance 4 _, by decide +kernel, by decide +kernel⟩
  · exact fun t stack env ht => not_stops_of_fault (reaches_advance 40 _) hfault ht

end Machine

end EvmSandbox
