/-
What post-processing leaves in the bytecode objects of a selected contract. If
both of its objects can be read, each of them afterwards has the digits of the
transpiled code, or none if transpiling failed: code as it was compiled does
not survive (`no_stale_bytecode`). If one of them cannot be read, the contract
is left as it was, the readable object included: besides the record of the
error, compiled code is still there (`unreadable_object_keeps_bytecode`).
-/
import EvmSandbox.ContractBuild
import EvmSandbox.Proofs.HexDigits
import EvmSandbox.Proofs.Unchanged

namespace EvmSandbox

/-- The contract of this file and name. -/
def CompilerOutput.contract? (output : CompilerOutput) (file name : String) : Option ContractOutput :=
  (output.contracts.get? file).bind (·.get? name)

namespace ContractBuild

/-! ## The parts of a contract -/

/-- The object of a part. -/
def Part.output? (contract : ContractOutput) : Part → Option BytecodeOutput
  | .constructor => contract.evm.bind (·.bytecode)
  | .deployed => contract.evm.bind (·.deployedBytecode)

/-- The bytes of a part; none if the object is absent. -/
def Part.decode (contract : ContractOutput) (part : Part) : Except Hex.Error Bytes :=
  BytecodeOutput.decode (part.output? contract)

/-- What a part has been transpiled to. -/
def Part.code? (contract : TranspiledContract) : Part → Option Bytes
  | .constructor => contract.creation?
  | .deployed => contract.deployed.bytecode?

/-- The object reads as the code and has its digits; only code without bytes may be written in
another way. If there is no code, the object is empty. -/
def Fresh (code? : Option Bytes) (object : String) : Prop :=
  match code? with
  | some code => Hex.decode object.toList = .ok code ∧ (code ≠ [] → object = Hex.encode code)
  | none => object = ""

theorem fresh_object (code? : Option Bytes) : Fresh code? (object code?) := by
  cases code? with
  | none => rfl
  | some code => exact ⟨Hex.decode_encode code, fun _ => rfl⟩

theorem Part.output?_replaceObjects {contract : ContractOutput} {evm : EvmOutput}
    (hevm : contract.evm = some evm) (result : TranspiledContract) (part : Part) :
    part.output? { contract with evm := some (replaceObjects evm result) } =
      (part.output? contract).map fun b => { b with object := object (part.code? result) } := by
  cases part <;> simp [Part.output?, Part.code?, replaceObjects, hevm]

/-! ## One contract -/

/-- What becomes of a selected contract, with the records of its errors. -/
inductive Processed (s : Sandbox) (file name : String) (contract : ContractOutput) : Built → Prop where
  /-- The objects are read, and those for the transpiled code come in their place. -/
  | transpiled {creation deployed : Bytes} {result : TranspiledContract} {built : Built}
    (hcreation : Part.constructor.decode contract = .ok creation)
    (hdeployed : Part.deployed.decode contract = .ok deployed)
    (hresult : (s.transpile creation deployed creation.length).value = result)
    (hpresent : ∀ part : Part,
      (part.output? built.contract).isSome = (part.output? contract).isSome)
    (hfresh : ∀ (part : Part) (b : BytecodeOutput), part.output? built.contract = some b →
      Fresh (part.code? result) b.object)
    (herrors : built.errors = errorRecords file name result) : Processed s file name contract built
  /-- An object cannot be read, and nothing changes. The constructor is read first. -/
  | unreadable {part : Part} {e : Hex.Error} (h : part.decode contract = .error e)
    (hfirst : part = .constructor ∨ ∃ creation, Part.constructor.decode contract = .ok creation) :
    Processed s file name contract ⟨contract, [invalidHex file name part e]⟩

theorem transpile_empty (s : Sandbox) (inputLength : Nat) :
    (s.transpile [] [] inputLength).value = ⟨.ok [], .ok [], false⟩ := by
  have hsafe : s.IsSafe [] := ⟨[], by simp [Instruction.decode, Instruction.decodeFrom], by simp, by simp⟩
  have hvalue := hsafe.transpileCode
  simpa [Sandbox.transpile, Sandbox.embeds, Sandbox.transpileDeployed, Metadata.strip, Metadata.start?]
    using hvalue

/-- Where there are no bytes to transpile, the objects are those for no bytes already. -/
theorem processed_of_empty {s : Sandbox} (file name : String) {contract : ContractOutput}
    (hcreation : Part.constructor.decode contract = .ok [])
    (hdeployed : Part.deployed.decode contract = .ok []) :
    Processed s file name contract ⟨contract, []⟩ := by
  refine .transpiled hcreation hdeployed (transpile_empty s _) (fun _ => rfl) ?_ rfl
  intro part b hb
  have hdecode : part.decode contract = .ok [] := by cases part <;> assumption
  rw [Part.decode, hb] at hdecode
  have hcode : part.code? ⟨.ok [], .ok [], false⟩ = some [] := by cases part <;> rfl
  rw [hcode]
  exact ⟨hdecode, fun hne => absurd rfl hne⟩

theorem processed_transpile (s : Sandbox) (file name : String) (contract : ContractOutput) :
    Processed s file name contract (transpile s file name contract) := by
  cases hevm : contract.evm with
  | none =>
    simp only [transpile, hevm]
    exact processed_of_empty file name (by simp [Part.decode, Part.output?, hevm, BytecodeOutput.decode])
      (by simp [Part.decode, Part.output?, hevm, BytecodeOutput.decode])
  | some evm =>
    have hconstructor : Part.constructor.decode contract = BytecodeOutput.decode evm.bytecode := by
      simp [Part.decode, Part.output?, hevm]
    have hruntime : Part.deployed.decode contract = BytecodeOutput.decode evm.deployedBytecode := by
      simp [Part.decode, Part.output?, hevm]
    simp only [transpile, hevm, ← hconstructor, ← hruntime]
    cases hcreation : Part.constructor.decode contract with
    | error e => exact .unreadable hcreation (.inl rfl)
    | ok creation =>
      cases hdeployed : Part.deployed.decode contract with
      | error e => exact .unreadable hdeployed (.inr ⟨creation, hcreation⟩)
      | ok deployed =>
        simp only
        split
        · rename_i hempty
          simp only [Bool.and_eq_true, List.isEmpty_iff] at hempty
          obtain ⟨rfl, rfl⟩ := hempty
          exact processed_of_empty file name hcreation hdeployed
        · refine .transpiled hcreation hdeployed rfl (fun part => ?_) (fun part b hb => ?_) rfl
          · rw [Part.output?_replaceObjects hevm, Option.isSome_map]
          · rw [Part.output?_replaceObjects hevm] at hb
            obtain ⟨old, -, rfl⟩ := Option.map_eq_some_iff.1 hb
            exact fresh_object _

end ContractBuild

/-! ## All contracts -/

namespace CompilerOutput

open ContractBuild (Fresh Part Processed)

theorem contract?_transpileContracts (s : Sandbox) {selection : OutputSelection} {output : CompilerOutput}
    {file name : String} {contract : ContractOutput} (h : output.contract? file name = some contract)
    (hselected : selection.selects file name = true) :
    (output.transpileContracts s selection).contract? file name =
      some (ContractBuild.transpile s file name contract).contract := by
  obtain ⟨contracts, hfile, hname⟩ := Option.bind_eq_some_iff.1 h
  simp [contract?, transpileContracts, KeyMap.get?_map, hfile, hname, hselected]

theorem mem_errors_transpileContracts (s : Sandbox) {selection : OutputSelection}
    {output : CompilerOutput} {file name : String} {contract : ContractOutput}
    (h : output.contract? file name = some contract) (hselected : selection.selects file name = true)
    {record : ErrorRecord} (hrecord : record ∈ (ContractBuild.transpile s file name contract).errors) :
    record ∈ (output.transpileContracts s selection).errors := by
  obtain ⟨contracts, hfile, hname⟩ := Option.bind_eq_some_iff.1 h
  simp only [transpileContracts, List.mem_append, List.mem_flatMap]
  exact .inr ⟨_, KeyMap.mem_entries_map _ (KeyMap.mem_entries_of_get? hfile), _,
    KeyMap.mem_entries_map _ (KeyMap.mem_entries_of_get? hname), by simpa [hselected] using hrecord⟩

/-- **Compiled code does not survive in a contract that can be read.** A selected contract whose
objects can be read has the objects for its transpiled code afterwards. One with an object that
cannot be read stays as it was. The records of its errors are among the errors of the output. -/
theorem no_stale_bytecode (s : Sandbox) {selection : OutputSelection} {output : CompilerOutput}
    {file name : String} {contract : ContractOutput} (h : output.contract? file name = some contract)
    (hselected : selection.selects file name = true) :
    ∃ built, Processed s file name contract built ∧
      (output.transpileContracts s selection).contract? file name = some built.contract ∧
      ∀ record ∈ built.errors, record ∈ (output.transpileContracts s selection).errors :=
  ⟨_, ContractBuild.processed_transpile s file name contract,
    contract?_transpileContracts s h hselected, fun _ => mem_errors_transpileContracts s h hselected⟩

/-- The output for one contract `A` with these objects. -/
def ofObjects (creation deployed : String) : CompilerOutput :=
  ⟨[], .ofList [("A.sol", .ofList
    [("A", ⟨some ⟨some ⟨creation, .empty⟩, some ⟨deployed, .empty⟩, .empty⟩, .empty⟩)])], .empty⟩

/-- The object of the constructor is a code that stays as it is, and that of the runtime asks for
what the sandbox does not allow. -/
theorem no_stale_bytecode_refused :
    ∃ built, Processed (.standard (.ofNat 20 0xee)) "A.sol" "A"
        ⟨some ⟨some ⟨"60006000f3", .empty⟩, some ⟨"6000ff", .empty⟩, .empty⟩, .empty⟩ built ∧
      ((ofObjects "60006000f3" "6000ff").transpileContracts (.standard (.ofNat 20 0xee)) .all).contract?
        "A.sol" "A" = some built.contract ∧
      ∀ record ∈ built.errors, record ∈
        ((ofObjects "60006000f3" "6000ff").transpileContracts (.standard (.ofNat 20 0xee)) .all).errors :=
  no_stale_bytecode _ rfl rfl

/-- With a placeholder in the constructor, an error is recorded and the runtime is kept as it was
compiled, though there is no constructor with which it could be transpiled. -/
theorem unreadable_object_keeps_bytecode :
    ∃ built b record,
      OutputSelection.all.selects "A.sol" "A" = true ∧
      ((ofObjects "73__$abc$__" "ff").transpileContracts (.standard (.ofNat 20 0xee)) .all).contract?
        "A.sol" "A" = some built ∧
      ((ofObjects "73__$abc$__" "ff").transpileContracts (.standard (.ofNat 20 0xee)) .all).errors =
        [record] ∧
      Part.deployed.output? built = some b ∧ Hex.decode b.object.toList = .ok [0xff] ∧
      ∀ creation inputLength, ¬ Fresh (Part.deployed.code?
        ((Sandbox.standard (.ofNat 20 0xee)).transpile creation [0xff] inputLength).value) b.object := by
  have hfails : ((Sandbox.standard (.ofNat 20 0xee)).transpileDeployed [0xff]).value.bytecode? = none := by
    decide +kernel
  refine ⟨_, _, _, rfl, rfl, rfl, rfl, by decide +kernel, fun creation inputLength hfresh => ?_⟩
  have hcode : Part.deployed.code? ((Sandbox.standard (.ofNat 20 0xee)).transpile creation [0xff]
      inputLength).value = none := hfails
  rw [hcode] at hfresh
  exact absurd (show "ff" = "" from hfresh) (by decide)

end CompilerOutput

end EvmSandbox
