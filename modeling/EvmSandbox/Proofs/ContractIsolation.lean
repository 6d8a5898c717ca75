/-
Post-processing goes from contract to contract. Of a selected contract it
changes the texts of the two bytecode objects and nothing else, and what they
become depends on the sandbox and on these two texts alone; the contracts that
are not selected, the names and all other fields stay as they are. The records
of the errors come contract by contract behind the records that were there, in
the order of files and names. So another contract in one place changes neither
the objects nor the records of the contracts in other places
(`transpileContracts_isolates`).
-/
import EvmSandbox.Proofs.ErrorReports
import EvmSandbox.Proofs.StaleBytecode

namespace EvmSandbox

/-! ## Refusals have a reason -/

namespace Sandbox

theorem errors_ne_nil_of_transpileCode {s : Sandbox} {code : Bytes}
    {runtime : Option RuntimeCopy.EmbeddedRuntime} {errors : List TranspileError}
    (h : (s.transpileCode code runtime).value = .error errors) : errors ≠ [] := by
  cases hdecode : Instruction.decode code with
  | error e =>
    rw [s.transpileCode_of_undecodable hdecode] at h
    cases h
    simp
  | ok instructions =>
    by_cases hdisallowed : s.disallowed instructions = []
    · cases hpatches : s.patches? instructions runtime with
      | none =>
        simp only [transpileCode, hdecode, hdisallowed, hpatches] at h
        cases h
        simp
      | some patches =>
        rw [transpileCode_of_admitted hdecode (disallowed_eq_nil_iff.1 hdisallowed) hpatches,
          Layout.ofInstructions] at h
        rcases Layout.plan_cases with ⟨-, slots, hplan, -⟩ | ⟨hsome, hplan⟩
        · rw [hplan] at h
          rcases Layout.ofSlots_result slots with ⟨layout, hok⟩ | ⟨length, -, herror⟩
          · simp only [hok] at h
            cases h
          · simp only [herror] at h
            cases h
            simp
        · rw [hplan] at h
          cases h
          exact hsome
    · rw [transpileCode_of_disallowed hdecode hdisallowed] at h
      cases h
      exact hdisallowed

theorem errors_eq_nil_iff_of_transpileCode (s : Sandbox) (code : Bytes)
    (runtime : Option RuntimeCopy.EmbeddedRuntime) :
    Outcome.errors (s.transpileCode code runtime).value = [] ↔
      Outcome.isSuccessful (s.transpileCode code runtime).value = true := by
  cases h : (s.transpileCode code runtime).value with
  | ok output => simp [Outcome.errors, Outcome.isSuccessful]
  | error errors => simpa [Outcome.errors, Outcome.isSuccessful] using errors_ne_nil_of_transpileCode h

end Sandbox

namespace ContractBuild

theorem errorRecords_eq_nil_iff (s : Sandbox) (file name : String) (creation deployed : Bytes)
    (inputLength : Nat) :
    errorRecords file name (s.transpile creation deployed inputLength).value = [] ↔
      (s.transpile creation deployed inputLength).value.constructor.isSuccessful = true ∧
        (s.transpile creation deployed inputLength).value.deployed.isSuccessful = true := by
  rw [errorRecords, List.append_eq_nil_iff, List.map_eq_nil_iff, List.map_eq_nil_iff]
  simp only [Sandbox.transpile, Sandbox.transpileDeployed]
  split <;> simp only [Sandbox.errors_eq_nil_iff_of_transpileCode]

/-! ## The objects of a contract -/

/-- The texts of the objects that a contract has. -/
def objects (contract : ContractOutput) (part : Part) : Option String :=
  (part.output? contract).map (·.object)

/-- The contract with these texts in the objects that it has. -/
def withObjects (contract : ContractOutput) (text : Part → String) : ContractOutput :=
  { contract with
    evm := contract.evm.map fun evm =>
      { evm with
        bytecode := evm.bytecode.map fun b => { b with object := text .constructor }
        deployedBytecode := evm.deployedBytecode.map fun b => { b with object := text .deployed } } }

/-- The bytes of a text; none if it is absent. -/
def readObject (text? : Option String) : Except Hex.Error Bytes :=
  match text? with
  | none => .ok []
  | some text => Hex.decode text.toList

theorem readObject_objects (contract : ContractOutput) (part : Part) :
    readObject (objects contract part) = part.decode contract := by
  rw [objects, Part.decode]
  cases part.output? contract <;> rfl

/-- The texts that come in the place of `texts`, by part. -/
def newTexts (s : Sandbox) (texts : Part → Option String) (part : Part) : String :=
  match readObject (texts .constructor), readObject (texts .deployed) with
  | .ok creation, .ok deployed =>
    if creation.isEmpty && deployed.isEmpty then (texts part).getD ""
    else object (part.code? (s.transpile creation deployed creation.length).value)
  | _, _ => (texts part).getD ""

/-- A contract has the texts of its own objects. -/
theorem withObjects_self (contract : ContractOutput) {text : Part → String}
    (h : ∀ part, text part = (objects contract part).getD "") : withObjects contract text = contract := by
  obtain ⟨evm, other⟩ := contract
  have hconstructor := h .constructor
  have hdeployed := h .deployed
  rcases evm with _ | ⟨_ | ⟨creation, _⟩, _ | ⟨deployed, _⟩, _⟩ <;>
    simp_all [withObjects, objects, Part.output?]

/-- A contract is left alone if one of its parts cannot be read, or if there are no bytes in them;
else the transpiled parts come in their place. -/
theorem transpile_cases (s : Sandbox) (file name : String) (contract : ContractOutput) :
    (∃ part e, part.decode contract = .error e ∧
      transpile s file name contract = ⟨contract, [invalidHex file name part e]⟩) ∨
    ∃ creation deployed, Part.constructor.decode contract = .ok creation ∧
      Part.deployed.decode contract = .ok deployed ∧
      transpile s file name contract =
        if creation.isEmpty && deployed.isEmpty then ⟨contract, []⟩
        else
          ⟨withObjects contract fun part =>
              object (part.code? (s.transpile creation deployed creation.length).value),
            errorRecords file name (s.transpile creation deployed creation.length).value⟩ := by
  cases hevm : contract.evm with
  | none =>
    refine .inr ⟨[], [], ?_, ?_, by simp [transpile, hevm]⟩ <;>
      simp [Part.decode, Part.output?, hevm, BytecodeOutput.decode]
  | some evm =>
    have hconstructor : Part.constructor.decode contract = BytecodeOutput.decode evm.bytecode := by
      simp [Part.decode, Part.output?, hevm]
    have hruntime : Part.deployed.decode contract = BytecodeOutput.decode evm.deployedBytecode := by
      simp [Part.decode, Part.output?, hevm]
    simp only [transpile, hevm, ← hconstructor, ← hruntime]
    cases hcreation : Part.constructor.decode contract with
    | error e => exact .inl ⟨.constructor, e, hcreation, rfl⟩
    | ok creation =>
      cases hdeployed : Part.deployed.decode contract with
      | error e => exact .inl ⟨.deployed, e, hdeployed, rfl⟩
      | ok deployed =>
        refine .inr ⟨creation, deployed, rfl, rfl, ?_⟩
        simp [withObjects, replaceObjects, Part.code?, hevm]

/-- Only the texts of the objects change, and the new ones depend on the old ones alone. -/
theorem contract_transpile (s : Sandbox) (file name : String) (contract : ContractOutput) :
    (transpile s file name contract).contract =
      withObjects contract (newTexts s (objects contract)) := by
  rcases transpile_cases s file name contract with
    ⟨part, e, herror, heq⟩ | ⟨creation, deployed, hcreation, hdeployed, heq⟩
  · rw [heq, withObjects_self]
    intro other
    simp only [newTexts, readObject_objects]
    split
    · rename_i hcreation hdeployed
      cases part <;> simp_all
    · rfl
  · rw [heq]
    split
    · rename_i hempty
      rw [withObjects_self]
      intro part
      simp [newTexts, readObject_objects, hcreation, hdeployed, hempty]
    · rename_i hsome
      have htexts : newTexts s (objects contract) = fun part =>
          object (part.code? (s.transpile creation deployed creation.length).value) := by
        funext part
        simp [newTexts, readObject_objects, hcreation, hdeployed, hsome]
      rw [htexts]

theorem errors_transpile {s : Sandbox} {contract : ContractOutput} {creation deployed : Bytes}
    (hcreation : Part.constructor.decode contract = .ok creation)
    (hdeployed : Part.deployed.decode contract = .ok deployed) (file name : String) :
    (transpile s file name contract).errors =
      errorRecords file name (s.transpile creation deployed creation.length).value := by
  rcases transpile_cases s file name contract with
    ⟨part, e, herror, -⟩ | ⟨creation', deployed', hcreation', hdeployed', heq⟩
  · cases part <;> simp_all
  · rw [hcreation] at hcreation'
    rw [hdeployed] at hdeployed'
    cases hcreation'
    cases hdeployed'
    rw [heq]
    split
    · rename_i hempty
      simp only [Bool.and_eq_true, List.isEmpty_iff] at hempty
      obtain ⟨rfl, rfl⟩ := hempty
      rw [transpile_empty]
      rfl
    · rfl

end ContractBuild

/-! ## The contracts of an output in order -/

namespace CompilerOutput

open ContractBuild (Part errorRecord objects withObjects newTexts)

/-- A contract in its place. -/
structure Entry where
  file : String
  name : String
  contract : ContractOutput

/-- Files come in ascending order, and so do the contracts of one file. -/
def Entry.Before (a b : Entry) : Prop :=
  a.file < b.file ∨ a.file = b.file ∧ a.name < b.name

def entries (output : CompilerOutput) : List Entry :=
  output.contracts.entries.flatMap fun file =>
    file.2.entries.map fun contract => ⟨file.1, contract.1, contract.2⟩

/-- The contracts that are asked for. -/
def selected (output : CompilerOutput) (selection : OutputSelection) : List Entry :=
  output.entries.filter fun e => selection.selects e.file e.name

/-- The files with the names of their contracts. -/
def names (output : CompilerOutput) : List (String × List String) :=
  output.contracts.entries.map fun file => (file.1, file.2.entries.map (·.1))

theorem mem_entries_iff {output : CompilerOutput} {e : Entry} :
    e ∈ output.entries ↔ output.contract? e.file e.name = some e.contract := by
  simp only [entries, contract?, List.mem_flatMap, List.mem_map, Option.bind_eq_some_iff,
    ← KeyMap.mem_entries_iff]
  constructor
  · rintro ⟨file, hfile, contract, hcontract, rfl⟩
    exact ⟨file.2, hfile, hcontract⟩
  · rintro ⟨contracts, hfile, hcontract⟩
    exact ⟨_, hfile, _, hcontract, rfl⟩

theorem pairwise_entries (output : CompilerOutput) : output.entries.Pairwise Entry.Before := by
  rw [entries, List.pairwise_flatMap]
  refine ⟨fun file _ => ?_, output.contracts.sorted.imp ?_⟩
  · rw [List.pairwise_map]
    exact file.2.sorted.imp fun hlt => .inr ⟨rfl, hlt⟩
  · intro a b hlt x hx y hy
    obtain ⟨_, -, rfl⟩ := List.mem_map.1 hx
    obtain ⟨_, -, rfl⟩ := List.mem_map.1 hy
    exact .inl hlt

theorem mem_selected_iff {output : CompilerOutput} {selection : OutputSelection} {e : Entry} :
    e ∈ output.selected selection ↔
      output.contract? e.file e.name = some e.contract ∧ selection.selects e.file e.name = true := by
  rw [selected, List.mem_filter, mem_entries_iff]

/-! ## What comes out -/

/-- The records of the errors in a contract. -/
def Entry.records (s : Sandbox) (e : Entry) : List ErrorRecord :=
  (ContractBuild.transpile s e.file e.name e.contract).errors

/-- What a contract adds to the errors of the output: nothing if it is not selected. -/
def Entry.added (s : Sandbox) (selection : OutputSelection) (e : Entry) : List ErrorRecord :=
  if selection.selects e.file e.name then e.records s else []

theorem contract?_after (s : Sandbox) (selection : OutputSelection) (output : CompilerOutput)
    (file name : String) :
    (output.transpileContracts s selection).contract? file name =
      (output.contract? file name).map fun contract =>
        if selection.selects file name then withObjects contract (newTexts s (objects contract))
        else contract := by
  simp only [contract?, transpileContracts, KeyMap.get?_map, Option.map_map]
  cases output.contracts.get? file with
  | none => rfl
  | some contracts =>
    simp only [Option.map_some, Option.bind_some, Function.comp_apply, KeyMap.get?_map, Option.map_map]
    refine Option.map_congr fun contract _ => ?_
    simp only [Function.comp_apply]
    split
    · exact ContractBuild.contract_transpile s file name contract
    · rfl

theorem names_after (s : Sandbox) (selection : OutputSelection) (output : CompilerOutput) :
    (output.transpileContracts s selection).names = output.names := by
  simp [names, transpileContracts, KeyMap.map, Function.comp_def]

theorem errors_after (s : Sandbox) (selection : OutputSelection) (output : CompilerOutput) :
    (output.transpileContracts s selection).errors =
      output.errors ++ output.entries.flatMap (Entry.added s selection) := by
  simp only [transpileContracts, entries, KeyMap.map, List.flatMap_map, List.flatMap_assoc]
  refine congrArg (output.errors ++ ·) (List.flatMap_congr fun file _ => List.flatMap_congr fun c _ => ?_)
  simp only [Entry.added, Entry.records]
  split <;> rfl

theorem flatMap_added (s : Sandbox) (selection : OutputSelection) (entries : List Entry) :
    entries.flatMap (Entry.added s selection) =
      (entries.filter fun e => selection.selects e.file e.name).flatMap (Entry.records s) := by
  induction entries with
  | nil => rfl
  | cons e rest ih =>
    rw [List.flatMap_cons, ih, List.filter_cons, Entry.added]
    split <;> simp

/-! ## Another contract in one place -/

/-- The output with another contract in one place. -/
def withContract (output : CompilerOutput) (file name : String) (contract : ContractOutput) :
    CompilerOutput :=
  { output with
    contracts := output.contracts.map fun f contracts =>
      contracts.map fun n old => if f = file ∧ n = name then contract else old }

theorem contract?_withContract (output : CompilerOutput) (file name : String)
    (contract : ContractOutput) (f n : String) :
    (output.withContract file name contract).contract? f n =
      (output.contract? f n).map fun old => if f = file ∧ n = name then contract else old := by
  simp only [contract?, withContract, KeyMap.get?_map]
  cases output.contracts.get? f with
  | none => rfl
  | some contracts => simp [KeyMap.get?_map]

theorem entries_withContract (output : CompilerOutput) (file name : String)
    (contract : ContractOutput) :
    (output.withContract file name contract).entries =
      output.entries.map fun e =>
        if e.file = file ∧ e.name = name then { e with contract := contract } else e := by
  simp only [entries, withContract, KeyMap.map, List.flatMap_map, List.map_flatMap, List.map_map]
  refine List.flatMap_congr fun f _ => List.map_congr_left fun c _ => ?_
  simp only [Function.comp_apply]
  split <;> rfl

/-- The places of an output are different from each other, so that a place parts the others into
those before and those behind it. -/
theorem exists_split_entries {output : CompilerOutput} {e : Entry} (h : e ∈ output.entries) :
    ∃ before behind, output.entries = before ++ e :: behind ∧
      ∀ other ∈ before ++ behind, ¬ (other.file = e.file ∧ other.name = e.name) := by
  obtain ⟨before, behind, hsplit⟩ := List.append_of_mem h
  have hne : ∀ {a b : Entry}, a.Before b → ¬ (a.file = b.file ∧ a.name = b.name) := by
    rintro a b (hlt | ⟨-, hlt⟩) ⟨hfile, hname⟩
    · exact String.lt_irrefl _ (hfile ▸ hlt)
    · exact String.lt_irrefl _ (hname ▸ hlt)
  have hsorted := output.pairwise_entries
  rw [hsplit, List.pairwise_append, List.pairwise_cons] at hsorted
  obtain ⟨-, ⟨hbehind, -⟩, hbefore⟩ := hsorted
  refine ⟨before, behind, hsplit, fun other hother => ?_⟩
  rcases List.mem_append.1 hother with hother | hother
  · exact hne (hbefore other hother e List.mem_cons_self)
  · exact fun hsame => hne (hbehind other hother) ⟨hsame.1.symm, hsame.2.symm⟩

/-- The errors of the output are those of the contract in one place, among others that do not
depend on it. -/
theorem exists_errors_around (s : Sandbox) (selection : OutputSelection) {output : CompilerOutput}
    {file name : String} {contract : ContractOutput}
    (h : output.contract? file name = some contract) :
    ∃ before behind,
      (output.transpileContracts s selection).errors =
        before ++ Entry.added s selection ⟨file, name, contract⟩ ++ behind ∧
      ∀ other, ((output.withContract file name other).transpileContracts s selection).errors =
        before ++ Entry.added s selection ⟨file, name, other⟩ ++ behind := by
  have hmem : (⟨file, name, contract⟩ : Entry) ∈ output.entries := mem_entries_iff.2 h
  obtain ⟨before, behind, hsplit, hothers⟩ := exists_split_entries hmem
  have hsame : ∀ {entries : List Entry}, (∀ e ∈ entries, ¬ (e.file = file ∧ e.name = name)) →
      ∀ other, entries.map (fun e : Entry =>
        if e.file = file ∧ e.name = name then { e with contract := other } else e) = entries := by
    intro entries hentries other
    rw [List.map_congr_left fun e he => if_neg (hentries e he), List.map_id']
  obtain ⟨hbefore, hbehind⟩ := List.forall_mem_append.1 hothers
  refine ⟨output.errors ++ before.flatMap (Entry.added s selection),
    behind.flatMap (Entry.added s selection), ?_, fun other => ?_⟩
  · rw [errors_after, hsplit]
    simp
  · rw [errors_after, entries_withContract, hsplit, List.map_append, List.map_cons, hsame hbefore,
      hsame hbehind, if_pos ⟨rfl, rfl⟩]
    simp [withContract]

/-- What post-processing does to an output, if `newTexts` gives the new texts of the objects. -/
structure Isolated (s : Sandbox) (newTexts : (Part → Option String) → Part → String)
    (selection : OutputSelection) (output after : CompilerOutput) : Prop where
  other : after.other = output.other
  names : after.names = output.names
  /-- Contracts that are not selected stay as they are. Of the others only the texts of the objects
  change. -/
  contract : ∀ file name, after.contract? file name =
    (output.contract? file name).map fun contract =>
      if selection.selects file name then withObjects contract (newTexts (objects contract))
      else contract
  /-- The records of the selected contracts follow, contract by contract. -/
  errors : after.errors = output.errors ++ (output.selected selection).flatMap (Entry.records s)
  complete : ∀ e, e ∈ output.selected selection ↔
    output.contract? e.file e.name = some e.contract ∧ selection.selects e.file e.name = true
  ordered : (output.selected selection).Pairwise Entry.Before
  /-- A contract that can be read has one record for each error of its parts, and none if and only
  if both of them have been transpiled. -/
  records : ∀ e ∈ output.selected selection, ∀ creation deployed,
    Part.constructor.decode e.contract = .ok creation → Part.deployed.decode e.contract = .ok deployed →
    ∀ result, (s.transpile creation deployed creation.length).value = result →
      e.records s = result.constructor.errors.map (errorRecord e.file e.name .constructor) ++
        result.deployed.errors.map (errorRecord e.file e.name .deployed) ∧
      (e.records s = [] ↔
        result.constructor.isSuccessful = true ∧ result.deployed.isSuccessful = true)

/-- **Contracts are post-processed in isolation.** The new objects of a contract depend on the
sandbox and its own objects alone, the output is otherwise what it was, and the new records come in
order behind the old ones. If there is another contract in one place, the contracts in other places
come out as before, and so do all records that are not of that place. -/
theorem transpileContracts_isolates (s : Sandbox) :
    ∃ newTexts : (Part → Option String) → Part → String,
      ∀ (selection : OutputSelection) (output : CompilerOutput),
        Isolated s newTexts selection output (output.transpileContracts s selection) ∧
        ∀ file name contract, output.contract? file name = some contract →
          (∀ (other : ContractOutput) (f n : String), (f, n) ≠ (file, name) →
            ((output.withContract file name other).transpileContracts s selection).contract? f n =
              (output.transpileContracts s selection).contract? f n) ∧
          ∃ before behind,
            (output.transpileContracts s selection).errors =
              before ++ Entry.added s selection ⟨file, name, contract⟩ ++ behind ∧
            ∀ other, ((output.withContract file name other).transpileContracts s selection).errors =
              before ++ Entry.added s selection ⟨file, name, other⟩ ++ behind := by
  refine ⟨ContractBuild.newTexts s, fun selection output => ⟨?_, fun file name contract h => ⟨?_, ?_⟩⟩⟩
  · exact {
      other := rfl
      names := names_after s selection output
      contract := contract?_after s selection output
      errors := by rw [errors_after, flatMap_added, selected]
      complete := fun e => mem_selected_iff
      ordered := output.pairwise_entries.filter _
      records := by
        rintro e - creation deployed hcreation hdeployed result rfl
        rw [Entry.records, ContractBuild.errors_transpile hcreation hdeployed]
        exact ⟨rfl, ContractBuild.errorRecords_eq_nil_iff s _ _ creation deployed _⟩ }
  · intro other f n hne
    have hplace : ¬ (f = file ∧ n = name) := fun hsame => hne (Prod.ext hsame.1 hsame.2)
    rw [contract?_after, contract?_after, contract?_withContract]
    simp [hplace]
  · exact exists_errors_around s selection h

/-- A contract with these objects. -/
def contractOf (creation deployed : String) : ContractOutput :=
  ⟨some ⟨some ⟨creation, .empty⟩, some ⟨deployed, .empty⟩, .empty⟩, .empty⟩

/-- Two contracts in one file, of which the first asks for what the sandbox does not allow. -/
def neighbours : CompilerOutput :=
  ⟨[], .ofList [("A.sol", .ofList
    [("A", contractOf "60006000f3" "6000ff"), ("B", contractOf "00" "335000")])], .empty⟩

theorem transpileContracts_isolates_neighbours :
    neighbours.contract? "A.sol" "A" = some (contractOf "60006000f3" "6000ff") ∧
      (∀ other : ContractOutput, ((neighbours.withContract "A.sol" "A" other).transpileContracts
          (.standard (.ofNat 20 0xee)) .all).contract? "A.sol" "B" =
        (neighbours.transpileContracts (.standard (.ofNat 20 0xee)) .all).contract? "A.sol" "B") ∧
      ∃ before behind,
        (neighbours.transpileContracts (.standard (.ofNat 20 0xee)) .all).errors =
          before ++ Entry.added (.standard (.ofNat 20 0xee)) .all
            ⟨"A.sol", "A", contractOf "60006000f3" "6000ff"⟩ ++ behind ∧
        ∀ other, ((neighbours.withContract "A.sol" "A" other).transpileContracts
            (.standard (.ofNat 20 0xee)) .all).errors =
          before ++ Entry.added (.standard (.ofNat 20 0xee)) .all ⟨"A.sol", "A", other⟩ ++ behind := by
  obtain ⟨newTexts, hisolates⟩ := transpileContracts_isolates (.standard (.ofNat 20 0xee))
  obtain ⟨hothers, herrors⟩ := (hisolates .all neighbours).2 "A.sol" "A" _ rfl
  exact ⟨rfl, fun other => hothers other "A.sol" "B" (by decide), herrors⟩

end CompilerOutput

end EvmSandbox
