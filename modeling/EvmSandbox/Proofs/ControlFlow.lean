/-
Control flow survives transpilation under the usual rules, provided that a
call to the manager does what the instruction does in whose place it stands:
the output simulates the code (`control_flow_preserved`). Only instructions
of the code count. The condition can be met in two ways: on a machine in
which all that is asked is answered with zero (`callsFaithful_zeroMeaning`),
and on any machine with memory and a world outside in which the instructions
ask the manager themselves (`callsFaithful_relaying`).
-/
import EvmSandbox.Proofs.HostMachine
import EvmSandbox.Proofs.Simulation
import EvmSandbox.Proofs.Transpilation

namespace EvmSandbox.Machine

open Layout (patchesOnlyPushes_none)

/-! ## Transpiled code -/

/-- Each call to the manager that stands in place of an instruction of the code does what the
instruction does. -/
def CallsFaithful {Env : Type} (meaning : Meaning Env) (manager : Address) (code : Bytes) : Prop :=
  ∀ instructions, Instruction.decode (Metadata.strip code) = .ok instructions →
    ∀ entry ∈ ManagerCall.standard, (∃ i ∈ instructions, i.code = entry.1) → ∀ stack env,
      performAll meaning (entry.2.operations manager) stack env =
        perform meaning ⟨entry.1, []⟩ stack env

theorem standard_ordinary : ∀ entry ∈ ManagerCall.standard, Opcode.isPush entry.1 = false ∧
    Opcode.isJump entry.1 = false ∧ entry.1 ≠ Opcode.jumpDest := by
  decide

theorem exists_faithful {Env : Type} {meaning : Meaning Env} {manager : Address} {code : Bytes}
    {old : List Instruction} (h : CallsFaithful meaning manager code)
    (hdecode : Instruction.decode (Metadata.strip code) = .ok old) :
    ∃ expand, Faithful meaning (RuleTable.standard manager) expand old := by
  obtain ⟨callOf, hcallOf⟩ := @RuleTable.exists_callOf (.standard manager) manager _
    fun _ _ => RuleTable.exists_call_of_standard
  refine ⟨fun code => (callOf code).operations manager,
    Layout.expands_of_calls fun code rule hget => (hcallOf code rule hget).2, ?_, ?_⟩
  · intro instruction replacement hrule
    obtain ⟨rule, hget, -⟩ := RuleTable.replace?_eq_some_iff.1 hrule
    exact (standard_ordinary _ (hcallOf _ _ hget).1).2
  · intro instruction replacement hold hrule hwell stack env
    obtain ⟨rule, hget, -⟩ := RuleTable.replace?_eq_some_iff.1 hrule
    have hmem := (hcallOf _ _ hget).1
    rw [hwell.eq_code rfl (standard_ordinary _ hmem).1]
    exact h old hdecode _ hmem ⟨instruction, hold, rfl⟩ stack env

/-- `layout` puts the instructions `new` of an output in the place of the instructions `old` of a
code, under the usual rules. -/
structure Transpiled (manager : Address) (code output : Bytes) (old new : List Instruction)
    (layout : Layout) : Prop where
  decode_code : Instruction.decode (Metadata.strip code) = .ok old
  decode_output : Instruction.decode output = .ok new
  layout_eq : (Layout.ofInstructions (.standard manager) (fun _ => none) old).result = .ok layout
  code_eq : layout.code = output

/-- Under the usual rules, an output is laid out so that it simulates the old code. -/
theorem exists_laidOut {Env : Type} {meaning : Meaning Env} {manager : Address}
    {whitelist : Whitelist} {code output : Bytes} (hcalls : CallsFaithful meaning manager code)
    (h : ((Sandbox.standard manager whitelist).transpileDeployed code).value = .ok output) :
    ∃ old layout expand, Transpiled manager code output old (layout.program expand) layout ∧
      LaidOut meaning (.standard manager) expand (Metadata.strip code) old layout := by
  obtain ⟨old, layout, hdecode, -, hlayout, rfl⟩ := Sandbox.transpileDeployed_eq_ok h
  obtain ⟨expand, hfaithful⟩ := exists_faithful hcalls hdecode
  have hfinished := Layout.ofInstructions_spec hlayout
  have hnew := hfinished.decode_code hfaithful.expands (patchesOnlyPushes_none old) hdecode
  exact ⟨old, layout, expand, ⟨hdecode, hnew, hlayout, rfl⟩, ⟨hfaithful, hdecode, hfinished⟩⟩

/-- Whatever the code does at an instruction in the course of a run, the output does from the new
offset of the instruction on, and it goes from there to the new offset of the next instruction. -/
def KeepsControlFlow {Env : Type} (meaning : Meaning Env) (manager : Address)
    (code output : Bytes) : Prop :=
  ∃ old new layout, Transpiled manager code output old new layout ∧
    ∀ stack env s, Reaches meaning old ⟨0, stack, env⟩ s →
      ∃ t, Reaches meaning new ⟨0, stack, env⟩ t ∧
        Corresponds (.standard manager) (Metadata.strip code) old layout s t ∧
        Simulated meaning (.standard manager) (Metadata.strip code) old new layout s t

/-- **Control flow is preserved** under the usual rules, if each call to the manager does what the
instruction of the code does in whose place it stands. -/
theorem control_flow_preserved {Env : Type} {meaning : Meaning Env} {manager : Address}
    {whitelist : Whitelist} {code output : Bytes} (hcalls : CallsFaithful meaning manager code)
    (h : ((Sandbox.standard manager whitelist).transpileDeployed code).value = .ok output) :
    KeepsControlFlow meaning manager code output := by
  obtain ⟨old, layout, expand, htranspiled, hlaidOut⟩ := exists_laidOut hcalls h
  refine ⟨old, _, layout, htranspiled, fun stack env s hrun => ?_⟩
  obtain ⟨t, hreaches, hcorresponds⟩ :=
    hlaidOut.reaches_corresponding hrun (hlaidOut.corresponds_start stack env)
  exact ⟨t, hreaches, hcorresponds, hlaidOut.simulated hcorresponds⟩

/-! ## A machine that answers with zero -/

/-- The stack without its first `count` words. -/
def drop? : Nat → List Word → Option (List Word)
  | 0, stack => some stack
  | _ + 1, [] => none
  | count + 1, _ :: stack => drop? count stack

/-- How many words the instruction takes from the stack, and how many it leaves there. -/
def arity? (code : UInt8) : Option (Nat × Nat) :=
  if code ∈ [Opcode.msize, Opcode.gas, Opcode.address, Opcode.origin, Opcode.caller,
      Opcode.callValue, Opcode.timestamp, Opcode.number, Opcode.gasLimit, Opcode.chainId,
      Opcode.selfBalance, Opcode.push0] then some (0, 1)
  else if code ∈ [Opcode.mload, Opcode.balance, Opcode.extCodeSize, Opcode.extCodeHash,
      Opcode.sload] then some (1, 1)
  else if code ∈ [Opcode.mstore, Opcode.sstore] then some (2, 0)
  else if code = Opcode.add then some (2, 1)
  else if code = Opcode.mcopy then some (3, 0)
  else if code = Opcode.create then some (3, 1)
  else if code = Opcode.create2 then some (4, 1)
  else if code ∈ [Opcode.delegateCall, Opcode.staticCall] then some (6, 1)
  else if code = Opcode.call then some (7, 1)
  else none

/-- Copies and swaps words on the stack, and computes nothing but zero. -/
def zeroMeaning : Meaning Unit := fun op stack env =>
  if op.code = Opcode.stop then .stop stack env
  else if Opcode.dup1 ≤ op.code ∧ op.code ≤ Opcode.dup16 then
    match stack[op.code.toNat - 0x80]? with
    | some x => .next (x :: stack) env
    | none => .fault
  else if Opcode.swap1 ≤ op.code ∧ op.code ≤ Opcode.swap16 then
    match stack, stack[op.code.toNat - 0x8f]? with
    | x :: rest, some y => .next (y :: rest.set (op.code.toNat - 0x90) x) env
    | _, _ => .fault
  else
    match arity? op.code with
    | none => .fault
    | some (taken, left) =>
      match drop? taken stack with
      | some rest => .next (List.replicate left 0 ++ rest) env
      | none => .fault

theorem callsFaithful_zeroMeaning (manager : Address) (code : Bytes) :
    CallsFaithful zeroMeaning manager code := by
  intro _ _ entry hentry _ stack env
  simp only [ManagerCall.standard, List.mem_cons, List.not_mem_nil, or_false] at hentry
  -- no instruction looks at more than seven words
  rcases hentry with rfl | rfl | rfl | rfl | rfl | rfl | rfl | rfl | rfl | rfl | rfl | rfl | rfl | rfl |
    rfl | rfl | rfl | rfl | rfl <;>
  match stack with
  | [] | [_] | [_, _] | [_, _, _] | [_, _, _, _] | [_, _, _, _, _] | [_, _, _, _, _, _] => rfl
  | _ :: _ :: _ :: _ :: _ :: _ :: _ :: _ => rfl

/-! ## A machine that asks the manager -/

/-- The host on which instructions ask the manager, if it has a method for them. `CALL` does not,
for the manager itself is asked with it. -/
def Host.relaying {World : Type} (host : Host World) (manager : Address) : Host World where
  gas := host.gas
  answer := host.answer
  other op stack frame :=
    match ManagerCall.standard.find? (·.1 == op.code) with
    | some entry => performAll (usual host) (entry.2.operations manager) stack frame
    | none => host.other op stack frame

section Relaying

variable {World : Type} {host : Host World}

/-- What the usual machine does with an operation that is neither a stack nor a memory operation nor
a call. -/
theorem usual_eq_other {op : Operation} (hshuffle : RuntimeCopy.isShuffle op.code = false)
    (h : op.code ∉ [Opcode.add, Opcode.msize, Opcode.gas, Opcode.mload, Opcode.mstore, Opcode.mcopy,
      Opcode.call]) (stack : List Word) (frame : Frame World) :
    usual host op stack frame = host.other op stack frame := by
  simp only [List.mem_cons, List.not_mem_nil, or_false, not_or] at h
  simp only [usual, hshuffle, h, Bool.false_eq_true, if_false]

/-- `CALL`, and an operation for which the manager has no method, does what it does without the
manager. -/
theorem perform_relaying {manager : Address} {op : Operation}
    (h : op.code = Opcode.call ∨ ∀ entry ∈ ManagerCall.standard, entry.1 ≠ op.code)
    (stack : List Word) (frame : Frame World) :
    perform (usual (host.relaying manager)) op stack frame =
      perform (usual host) op stack frame := by
  rcases h with hcall | hnone
  · have hpush : Opcode.isPush op.code = false := by rw [hcall]; rfl
    have hmeaning : op.code ∉ [Opcode.jumpDest, Opcode.invalid, Opcode.pop, Opcode.dup1,
        Opcode.swap1, Opcode.sub] := by rw [hcall]; decide
    rw [perform_eq_meaning hpush hmeaning, perform_eq_meaning hpush hmeaning]
    simp only [usual, hcall]
    rfl
  · have hfind : ManagerCall.standard.find? (·.1 == op.code) = none := by
      simpa using hnone
    have hother : (host.relaying manager).other op stack frame = host.other op stack frame := by
      simp only [Host.relaying, hfind]
    simp only [perform, usual, hother]
    rfl

/-- A call to the manager consists of such operations. -/
theorem performAll_relaying {manager : Address} {entry : UInt8 × ManagerCall}
    (hentry : entry ∈ ManagerCall.standard) (stack : List Word) (frame : Frame World) :
    performAll (usual (host.relaying manager)) (entry.2.operations manager) stack frame =
      performAll (usual host) (entry.2.operations manager) stack frame := by
  have hcodes : ∀ entry ∈ ManagerCall.standard,
      ∀ code ∈ (entry.2.operations default).map (fun op => op.code),
        code = Opcode.call ∨ ∀ other ∈ ManagerCall.standard, other.1 ≠ code := by
    decide +kernel
  have hops : ∀ op ∈ entry.2.operations manager,
      op.code = Opcode.call ∨ ∀ other ∈ ManagerCall.standard, other.1 ≠ op.code := by
    intro op hop
    refine hcodes entry hentry op.code ?_
    rw [← ManagerCall.codes_operations entry.2 manager]
    exact List.mem_map_of_mem hop
  generalize entry.2.operations manager = ops at hops
  induction ops generalizing stack frame with
  | nil => rfl
  | cons op ops ih =>
    rw [performAll_cons, performAll_cons, perform_relaying (hops op (by simp))]
    cases perform (usual host) op stack frame with
    | next stack frame => exact ih stack frame fun op hop => hops op (by simp [hop])
    | stop => rfl
    | fault => rfl

/-- Whatever the host, calls to the manager are faithful on the machine that asks the manager, in a
code without `CALL`. -/
theorem callsFaithful_relaying (host : Host World) (manager : Address) {code : Bytes}
    (hcode : ∀ instructions, Instruction.decode (Metadata.strip code) = .ok instructions →
      ∀ i ∈ instructions, i.code ≠ Opcode.call) :
    CallsFaithful (usual (host.relaying manager)) manager code := by
  have hstandard : ∀ entry ∈ ManagerCall.standard, entry.1 ≠ Opcode.call →
      ManagerCall.standard.find? (·.1 == entry.1) = some entry ∧
      RuntimeCopy.isShuffle entry.1 = false ∧
      entry.1 ∉ [Opcode.add, Opcode.msize, Opcode.gas, Opcode.mload, Opcode.mstore, Opcode.mcopy,
        Opcode.call] ∧
      Opcode.isPush entry.1 = false ∧
      entry.1 ∉ [Opcode.jumpDest, Opcode.invalid, Opcode.pop, Opcode.dup1, Opcode.swap1,
        Opcode.sub] := by
    decide +kernel
  rintro instructions hdecode entry hentry ⟨i, hi, hi'⟩ stack frame
  obtain ⟨hfind, hshuffle, husual, hpush, hmeaning⟩ :=
    hstandard entry hentry (hi' ▸ hcode instructions hdecode i hi)
  rw [performAll_relaying hentry, perform_eq_meaning hpush hmeaning, usual_eq_other hshuffle husual]
  simp only [Host.relaying, hfind]

end Relaying

/-- A host that answers every call with the number of calls before it. -/
def countingHost : Host Nat where
  gas frame := BitVec.ofNat 256 (1000000 - 1000 * frame.calls.length)
  answer _ count := ⟨true, wordBytes (BitVec.ofNat 256 count), count + 1⟩
  other op stack frame := if op.code = Opcode.stop then .stop stack frame else .fault

/-- Asks for the caller and returns through a jump to an address that was pushed before. -/
def returningCode : Bytes := [0x33, 0x50, 0x60, 7, 0x60, 9, 0x56, 0x5b, 0x00, 0x5b, 0x56]

theorem control_flow_preserved_returning :
    ∃ output, (∀ code, CallsFaithful zeroMeaning (.ofNat 20 0xee) code) ∧
      CallsFaithful (usual (countingHost.relaying (.ofNat 20 0xee))) (.ofNat 20 0xee)
        returningCode ∧
      ((Sandbox.standard (.ofNat 20 0xee)).transpileDeployed returningCode).value = .ok output ∧
      KeepsControlFlow zeroMeaning (.ofNat 20 0xee) returningCode output ∧
      KeepsControlFlow (usual (countingHost.relaying (.ofNat 20 0xee))) (.ofNat 20 0xee)
        returningCode output := by
  have hzero := callsFaithful_zeroMeaning (.ofNat 20 0xee)
  have hrelaying : CallsFaithful (usual (countingHost.relaying (.ofNat 20 0xee))) (.ofNat 20 0xee)
      returningCode := by
    refine callsFaithful_relaying countingHost _ fun instructions hdecode => ?_
    have hall : (Instruction.decode (Metadata.strip returningCode)).toOption.all fun instructions =>
        instructions.all fun i => i.code != Opcode.call := by
      decide +kernel
    simpa [hdecode, Except.toOption] using hall
  have hsuccessful : ((Sandbox.standard (.ofNat 20 0xee)).transpileDeployed
      returningCode).value.isSuccessful = true := by
    decide +kernel
  obtain ⟨output, h⟩ := Outcome.exists_ok hsuccessful
  exact ⟨output, hzero, hrelaying, h, control_flow_preserved (hzero returningCode) h,
    control_flow_preserved hrelaying h⟩

end EvmSandbox.Machine
