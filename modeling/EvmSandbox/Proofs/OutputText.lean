/-
Compiler output as text. Numbers and lists of output that is read come from
the same places of the text (`CompilerOutput.carries_of_ofDocument`), so it
keeps to the limits of all that is read, and transpiling does not change that
(`CompilerOutput.within_transpile`).
-/
import EvmSandbox.Proofs.JsonLimits
import EvmSandbox.Proofs.OutputRoundTrip

namespace EvmSandbox

open Json (Document Fault)
open Json.Document

/-! ## Fields that are carried along -/

namespace OtherFields

theorem carries_take {docs : List (Option String × Document)} {other next : OtherFields}
    (h : ∀ entry ∈ other.entries, CarriesField docs entry) {key : String} {member : Document}
    (hmember : (some key, member) ∈ docs) (hnext : other.take key member = .ok next) :
    ∀ entry ∈ next.entries, CarriesField docs entry := by
  obtain ⟨j, hj, rfl⟩ := ok_of_map hnext
  intro entry hentry
  rcases KeyMap.mem_entries_insert hentry with rfl | hentry
  · exact .inr ⟨member, hmember, carries_of_value member hj⟩
  · exact h entry hentry

theorem Sound.distinct {names : List String} {other : OtherFields} (h : Sound names other)
    (hnames : names.Nodup) {named : List (String × Json)}
    (hnamed : (named.map Prod.fst).Sublist names) (hvalues : ∀ field ∈ named, field.2.Distinct) :
    (Json.object (named ++ other.entries)).Distinct :=
  .object (h.nodup_keys hnames hnamed) (List.forall_mem_append.mpr
    ⟨hvalues, fun entry hentry => (h.ordered entry hentry).distinct⟩)

end OtherFields

section OptionalFields

variable {α : Type} {name : String} {toJson : α → Json}

theorem carries_optionalField {read : Document → Except Fault α}
    (hread : ∀ member v, read member = .ok v → Carries member (toJson v))
    {docs : List (Option String × Document)} {member : Document}
    (hmember : (some name, member) ∈ docs) {met value : Option (Option α)}
    (h : once met (Document.optional read) member = .ok value) :
    ∀ field ∈ optionalField name toJson value.join, CarriesField docs field := by
  intro field hfield
  obtain ⟨v, hv, rfl⟩ := mem_optionalField.mp hfield
  cases Option.join_eq_some_iff.mp hv
  exact .inr ⟨member, hmember, hread member v (read_of_optional (read_of_once h))⟩

theorem distinct_optionalField {value : Option α} (h : ∀ v, value = some v → (toJson v).Distinct) :
    ∀ field ∈ optionalField name toJson value, field.2.Distinct := by
  intro field hfield
  obtain ⟨v, hv, rfl⟩ := mem_optionalField.mp hfield
  exact h v hv

theorem forall_mem_optionalField {value : Option α} {P : String × Json → Prop} :
    (∀ field ∈ optionalField name toJson value, P field) ↔ ∀ v ∈ value, P (name, toJson v) := by
  cases value <;> simp [optionalField]

end OptionalFields

/-! ## Bytecode objects -/

namespace BytecodeOutput

theorem carries_of_ofDocument (d : Document) (b : BytecodeOutput) (h : ofDocument d = .ok b) :
    Carries d b.toJson := by
  obtain ⟨⟨object, other⟩, hfold, h⟩ := ok_of_bind h
  cases h
  obtain ⟨docs, rfl, hinv⟩ := foldFields_fields hfold
  refine .object (carriesFields_of_forall (List.forall_mem_cons.mpr ⟨.inl trivial, ?_⟩))
  refine hinv (fun met => ∀ entry ∈ met.2.entries, CarriesField docs entry)
    (by simp [KeyMap.empty]) ?_
  intro state key member next hmember hstate hnext
  rw [take] at hnext
  split at hnext
  · obtain ⟨object, hobject, hnext⟩ := ok_of_bind hnext
    cases hnext
    exact hstate
  · obtain ⟨other, hother, hnext⟩ := ok_of_bind hnext
    cases hnext
    exact OtherFields.carries_take hstate hmember hother

theorem distinct_toJson {b : BytecodeOutput} (h : b.WellFormed) : b.toJson.Distinct := by
  have hnamed : ([("object", Json.string b.object)].map Prod.fst).Sublist fieldNames := .refl _
  exact h.distinct (by decide) hnamed (by simpa using .plain trivial)

theorem within_toJson {P : Json.Number → Prop} {b : BytecodeOutput} {depth : Nat} :
    b.toJson.Within P (depth + 1) ↔ ∀ entry ∈ b.other.entries, entry.2.Within P depth := by
  simp [toJson]

end BytecodeOutput

/-! ## The parts of a contract -/

namespace EvmOutput

/-- The fields that would be written of what has been met. -/
def Met.fields (m : Met) : List (String × Json) :=
  optionalField "bytecode" BytecodeOutput.toJson m.bytecode.join ++
    optionalField "deployedBytecode" BytecodeOutput.toJson m.deployedBytecode.join ++
    m.other.entries

theorem Met.carries_take {docs : List (Option String × Document)} {m next : Met}
    (h : ∀ field ∈ m.fields, CarriesField docs field) {key : String} {member : Document}
    (hmember : (some key, member) ∈ docs) (hnext : m.take key member = .ok next) :
    ∀ field ∈ next.fields, CarriesField docs field := by
  simp only [Met.fields, List.forall_mem_append] at h ⊢
  obtain ⟨⟨hbytecode, hdeployed⟩, hother⟩ := h
  rw [Met.take] at hnext
  split at hnext
  · rename_i hkey
    rw [eq_of_beq hkey] at hmember
    obtain ⟨value, hvalue, hnext⟩ := ok_of_bind hnext
    cases hnext
    exact ⟨⟨carries_optionalField BytecodeOutput.carries_of_ofDocument hmember hvalue, hdeployed⟩,
      hother⟩
  · split at hnext
    · rename_i hkey
      rw [eq_of_beq hkey] at hmember
      obtain ⟨value, hvalue, hnext⟩ := ok_of_bind hnext
      cases hnext
      exact ⟨⟨hbytecode, carries_optionalField BytecodeOutput.carries_of_ofDocument hmember hvalue⟩,
        hother⟩
    · obtain ⟨other, hnew, hnext⟩ := ok_of_bind hnext
      cases hnext
      exact ⟨⟨hbytecode, hdeployed⟩, OtherFields.carries_take hother hmember hnew⟩

theorem carries_of_ofDocument (d : Document) (e : EvmOutput) (h : ofDocument d = .ok e) :
    Carries d e.toJson := by
  obtain ⟨met, hfold, h⟩ := ok_of_bind h
  cases h
  obtain ⟨docs, rfl, hinv⟩ := foldFields_fields hfold
  exact .object (carriesFields_of_forall (hinv (fun m => ∀ field ∈ m.fields, CarriesField docs field)
    (by simp [Met.fields, optionalField, KeyMap.empty])
    fun _ _ _ _ hmember hstate => Met.carries_take hstate hmember))

theorem distinct_toJson {e : EvmOutput} (h : e.WellFormed) : e.toJson.Distinct := by
  refine h.other.distinct (by decide) (keys_named e) (List.forall_mem_append.mpr
    ⟨distinct_optionalField fun b hb => ?_, distinct_optionalField fun b hb => ?_⟩)
  · exact BytecodeOutput.distinct_toJson (h.bytecode b hb)
  · exact BytecodeOutput.distinct_toJson (h.deployedBytecode b hb)

theorem within_toJson {P : Json.Number → Prop} {e : EvmOutput} {depth : Nat} :
    e.toJson.Within P (depth + 2) ↔
      (∀ b ∈ e.bytecode, ∀ entry ∈ b.other.entries, entry.2.Within P depth) ∧
      (∀ b ∈ e.deployedBytecode, ∀ entry ∈ b.other.entries, entry.2.Within P depth) ∧
      ∀ entry ∈ e.other.entries, entry.2.Within P (depth + 1) := by
  simp only [toJson, Json.within_object, List.forall_mem_append, forall_mem_optionalField,
    BytecodeOutput.within_toJson, and_assoc]

end EvmOutput

namespace ContractOutput

theorem carries_of_ofDocument (d : Document) (c : ContractOutput) (h : ofDocument d = .ok c) :
    Carries d c.toJson := by
  obtain ⟨⟨evm, other⟩, hfold, h⟩ := ok_of_bind h
  cases h
  obtain ⟨docs, rfl, hinv⟩ := foldFields_fields hfold
  refine .object (carriesFields_of_forall (hinv
    (fun met => ∀ field ∈ optionalField "evm" EvmOutput.toJson met.1.join ++ met.2.entries,
      CarriesField docs field) (by simp [optionalField, KeyMap.empty]) ?_))
  intro state key member next hmember hstate hnext
  rw [List.forall_mem_append] at hstate ⊢
  rw [take] at hnext
  split at hnext
  · rename_i hkey
    rw [eq_of_beq hkey] at hmember
    obtain ⟨value, hvalue, hnext⟩ := ok_of_bind hnext
    cases hnext
    exact ⟨carries_optionalField EvmOutput.carries_of_ofDocument hmember hvalue, hstate.2⟩
  · obtain ⟨other, hother, hnext⟩ := ok_of_bind hnext
    cases hnext
    exact ⟨hstate.1, OtherFields.carries_take hstate.2 hmember hother⟩

theorem distinct_toJson {c : ContractOutput} (h : c.WellFormed) : c.toJson.Distinct :=
  h.other.distinct (by decide) (keys_optionalField _ _ _)
    (distinct_optionalField fun e he => EvmOutput.distinct_toJson (h.evm e he))

theorem within_toJson {P : Json.Number → Prop} {c : ContractOutput} {depth : Nat} :
    c.toJson.Within P (depth + 1) ↔
      (∀ e ∈ c.evm, e.toJson.Within P depth) ∧
      ∀ entry ∈ c.other.entries, entry.2.Within P depth := by
  simp only [toJson, Json.within_object, List.forall_mem_append, forall_mem_optionalField]

end ContractOutput

/-! ## Error records -/

namespace ErrorRecord

theorem plain_named (r : ErrorRecord) : ∀ field ∈ r.named, field.2.Plain := by
  simp only [named, List.forall_mem_append, forall_mem_optionalField]
  exact ⟨by simp [required, Json.Plain], fun _ _ => trivial⟩

theorem carries_of_ofDocument (d : Document) (r : ErrorRecord) (h : ofDocument d = .ok r) :
    Carries d r.toJson := by
  obtain ⟨met, hfold, hrecord⟩ := ok_of_bind h
  obtain ⟨docs, rfl, hinv⟩ := foldFields_fields hfold
  have hmet : ∀ entry ∈ met.other.entries, CarriesField docs entry := by
    refine hinv (fun m => ∀ entry ∈ m.other.entries, CarriesField docs entry)
      (by simp [KeyMap.empty]) ?_
    intro state key member next hmember hstate hnext
    rw [Met.take] at hnext
    -- the named fields leave the others alone
    iterate 5
      split at hnext
      · obtain ⟨value, _, hnext⟩ := ok_of_bind hnext
        cases hnext
        exact hstate
    obtain ⟨other, hother, hnext⟩ := ok_of_bind hnext
    cases hnext
    exact OtherFields.carries_take hstate hmember hother
  split at hrecord
  · cases hrecord
    exact .object (carriesFields_of_forall (List.forall_mem_append.mpr
      ⟨fun field hfield => .inl (plain_named _ field hfield), hmet⟩))
  · cases hrecord

theorem distinct_toJson {r : ErrorRecord} (h : r.WellFormed) : r.toJson.Distinct :=
  h.distinct (by decide) (keys_named r) fun field hfield => .plain (plain_named r field hfield)

theorem within_transpilation (P : Json.Number → Prop) (message : String) (depth : Nat) :
    (transpilation message).toJson.Within P (depth + 1) := by
  refine .object (List.forall_mem_append.mpr
    ⟨fun field hfield => (plain_named _ field hfield).within depth, ?_⟩)
  simp [transpilation, KeyMap.empty]

end ErrorRecord

/-! ## The whole output -/

namespace CompilerOutput

/-- What has been met so far stands in the fields of the document. -/
structure Met.Carried (docs : List (Option String × Document)) (m : Met) : Prop where
  errors : ∀ records ∈ m.errors,
    CarriesField docs ("errors", .array (records.map ErrorRecord.toJson))
  contracts : ∀ contracts ∈ m.contracts, CarriesField docs ("contracts", contractsJson contracts)
  other : ∀ entry ∈ m.other.entries, CarriesField docs entry

theorem Met.Carried.take {docs : List (Option String × Document)} {m next : Met}
    (h : m.Carried docs) {key : String} {member : Document} (hmember : (some key, member) ∈ docs)
    (hnext : m.take key member = .ok next) : next.Carried docs := by
  rw [Met.take] at hnext
  split at hnext
  · rename_i hkey
    rw [eq_of_beq hkey] at hmember
    obtain ⟨value, hvalue, hnext⟩ := ok_of_bind hnext
    cases hnext
    refine ⟨fun records hrecords => .inr ⟨member, hmember, ?_⟩, h.contracts, h.other⟩
    cases hrecords
    exact carries_of_arrayOf ErrorRecord.carries_of_ofDocument (read_of_once hvalue)
  · split at hnext
    · rename_i hkey
      rw [eq_of_beq hkey] at hmember
      obtain ⟨value, hvalue, hnext⟩ := ok_of_bind hnext
      cases hnext
      refine ⟨h.errors, fun contracts hcontracts => .inr ⟨member, hmember, ?_⟩, h.other⟩
      cases hcontracts
      exact carries_of_mapOf (fun _ _ => carries_of_mapOf ContractOutput.carries_of_ofDocument)
        (read_of_once hvalue)
    · obtain ⟨other, hother, hnext⟩ := ok_of_bind hnext
      cases hnext
      exact ⟨h.errors, h.contracts, OtherFields.carries_take h.other hmember hother⟩

theorem forall_mem_named {output : CompilerOutput} {P : String × Json → Prop} :
    (∀ field ∈ output.named, P field) ↔
      (output.errors ≠ [] → P ("errors", .array (output.errors.map ErrorRecord.toJson))) ∧
      (output.contracts.isEmpty = false → P ("contracts", contractsJson output.contracts)) := by
  rw [named, List.forall_mem_append]
  refine and_congr ?_ ?_
  · cases output.errors <;> simp
  · cases output.contracts.isEmpty <;> simp

theorem carries_of_ofDocument {d : Document} {output : CompilerOutput}
    (h : ofDocument d = .ok output) : Carries d output.toJson := by
  obtain ⟨met, hfold, h⟩ := ok_of_bind h
  cases h
  obtain ⟨docs, rfl, hinv⟩ := foldFields_fields hfold
  have hmet : met.Carried docs :=
    hinv (Met.Carried docs) ⟨by simp, by simp, by simp [KeyMap.empty]⟩
      fun _ _ _ _ hmember hstate => hstate.take hmember
  refine .object (carriesFields_of_forall (List.forall_mem_append.mpr
    ⟨forall_mem_named.mpr ⟨fun hne => ?_, fun hne => ?_⟩, hmet.other⟩))
  · cases herrors : met.errors with
    | none => simp [herrors] at hne
    | some records => exact hmet.errors records herrors
  · cases hcontracts : met.contracts with
    | none => simp [hcontracts, KeyMap.isEmpty, KeyMap.empty] at hne
    | some contracts => exact hmet.contracts contracts hcontracts

theorem distinct_toJson {output : CompilerOutput} (h : output.WellFormed) :
    output.toJson.Distinct := by
  refine h.other.distinct (by decide) output.keys_named
    (forall_mem_named.mpr ⟨fun _ => .array ?_, fun _ => ?_⟩)
  · exact List.forall_mem_map.mpr fun r hr => ErrorRecord.distinct_toJson (h.errors r hr)
  · refine distinct_objectOf fun file hfile => distinct_objectOf fun contract hcontract => ?_
    refine ContractOutput.distinct_toJson (h.contracts file.1 contract.1 contract.2 ?_)
    exact contract?_eq_some_iff.mpr ⟨file.2, hfile, hcontract⟩

theorem within_toJson {P : Json.Number → Prop} {output : CompilerOutput} {depth : Nat} :
    output.toJson.Within P (depth + 3) ↔
      (∀ r ∈ output.errors, r.toJson.Within P (depth + 1)) ∧
      (∀ file name contract, output.contract? file name = some contract →
        contract.toJson.Within P depth) ∧
      ∀ entry ∈ output.other.entries, entry.2.Within P (depth + 2) := by
  have hfields : output.toJson = .object (output.named ++ output.other.entries) := rfl
  rw [hfields, Json.within_object, List.forall_mem_append, forall_mem_named, and_assoc]
  refine and_congr ?_ (and_congr_left' ?_)
  · rw [Json.within_array, List.forall_mem_map]
    exact ⟨fun h r hr => h (List.ne_nil_of_mem hr) r hr, fun h _ => h⟩
  · have hobject : contractsJson output.contracts =
      objectOf (objectOf ContractOutput.toJson) output.contracts := rfl
    simp only [hobject, within_objectOf]
    refine ⟨fun h file name contract hcontract => ?_, fun h _ file hfile contract hcontract => ?_⟩
    · obtain ⟨contracts, hfile, hname⟩ := contract?_eq_some_iff.mp hcontract
      exact h (by simpa [KeyMap.isEmpty] using List.ne_nil_of_mem hfile) _ hfile _ hname
    · exact h file.1 contract.1 contract.2 (contract?_eq_some_iff.mpr ⟨file.2, hfile, hcontract⟩)

end CompilerOutput

/-! ## Transpiled output -/

theorem ContractBuild.within_withObjects {P : Json.Number → Prop} {contract : ContractOutput}
    {depth : Nat} (h : contract.toJson.Within P (depth + 3)) (text : Part → String) :
    (withObjects contract text).toJson.Within P (depth + 3) := by
  rw [ContractOutput.within_toJson] at h ⊢
  refine ⟨fun evm hevm => ?_, h.2⟩
  obtain ⟨old, hold, rfl⟩ := Option.map_eq_some_iff.mp hevm
  have hparts := EvmOutput.within_toJson.mp (h.1 old hold)
  refine EvmOutput.within_toJson.mpr ⟨fun b hb => ?_, fun b hb => ?_, hparts.2.2⟩
  all_goals obtain ⟨was, hwas, rfl⟩ := Option.map_eq_some_iff.mp hb
  · exact hparts.1 was hwas
  · exact hparts.2.1 was hwas

namespace CompilerOutput

theorem within_transpileContracts {P : Json.Number → Prop} (s : Sandbox)
    (selection : OutputSelection) {output : CompilerOutput} {depth : Nat}
    (h : output.toJson.Within P (depth + 6)) :
    (output.transpileContracts s selection).toJson.Within P (depth + 6) := by
  rw [within_toJson] at h ⊢
  obtain ⟨herrors, hcontracts, hother⟩ := h
  refine ⟨fun r hr => ?_, fun file name contract hcontract => ?_, hother⟩
  · rcases mem_errors_cases hr with hr | ⟨message, rfl⟩
    · exact herrors r hr
    · exact ErrorRecord.within_transpilation P message _
  · rw [contract?_after] at hcontract
    obtain ⟨old, hold, rfl⟩ := Option.map_eq_some_iff.mp hcontract
    split
    · exact ContractBuild.within_withObjects (hcontracts file name old hold) _
    · exact hcontracts file name old hold

/-- Transpiling brings no numbers and nests nothing deeper. -/
theorem within_transpile {P : Json.Number → Prop} (settings : Settings) {output : CompilerOutput}
    {depth : Nat} (h : output.toJson.Within P (depth + 6)) :
    (output.transpile settings).toJson.Within P (depth + 6) := by
  rw [transpile]
  split
  · exact within_transpileContracts _ _ h
  · refine within_toJson.mpr
      ⟨fun r hr => ?_, fun file name contract hcontract => ?_, by simp [KeyMap.empty]⟩
    · cases List.mem_singleton.mp hr
      exact ErrorRecord.within_transpilation P _ _
    · cases hcontract

/-! ## Written and read again -/

theorem parse_text (output : CompilerOutput) (pretty : Bool) :
    parse (output.text pretty) = ofDocument (.written 0 output.toJson) := by
  have hparse : Json.Reader.parse (output.text pretty) = ⟨.written 0 output.toJson, false⟩ := by
    cases pretty with
    | true => exact Json.parse_render .indented 0 output.toJson
    | false => exact Json.parse_render .oneLine 0 output.toJson
  rw [parse, Json.read, hparse]
  cases ofDocument (.written 0 output.toJson) <;> rfl

/-- The numbers of output that is read can be held, and it is not nested too deeply. -/
theorem within_of_parse {text : String} {output : CompilerOutput} (h : parse text = .ok output) :
    output.toJson.Within Json.Number.Held Json.maxDepth :=
  within_of_carries _ (Json.Reader.limited_parse text)
    (carries_of_ofDocument (ofDocument_of_parse h))

theorem parse_text_iff (output : CompilerOutput) (pretty : Bool) :
    parse (output.text pretty) = .ok output ↔
      output.WellFormed ∧ output.toJson.Within Json.Number.Survives Json.maxDepth := by
  rw [parse_text]
  refine ⟨fun h => ?_, fun h => ?_⟩
  · have hformed := wellFormed_of_ofDocument h
    exact ⟨hformed, within_of_written _ (distinct_toJson hformed) (carries_of_ofDocument h)⟩
  · have hwritten : written 0 output.toJson = .ofJson output.toJson := written_eq_ofJson _ h.2
    rw [hwritten]
    exact ofDocument_of_shows h.1 (shows_ofJson output.toJson)

/-- Where whole numbers fit, only floating point numbers can be read as others. -/
theorem survives_iff_of_held {output : CompilerOutput}
    (h : output.toJson.Within Json.Number.Held Json.maxDepth) :
    output.toJson.Within Json.Number.Survives Json.maxDepth ↔
      output.toJson.Within (fun n => n.IsReal → n.Survives) Json.maxDepth := by
  refine ⟨Json.Within.imp fun _ hn _ => hn, fun hreal => ?_⟩
  refine (h.and hreal).imp fun n hn => ?_
  by_cases hwhole : n.IsReal
  · exact hn.2 hwhole
  · exact Json.Number.survives_of_held hn.1 hwhole

/-- Compiler output that has been read is well-formed, and transpiling keeps it so. Just the
well-formed output is read back as it was from the value that is written for it, and then also from
any document that shows the value, in whatever order the fields come.

From its text, output is read back as it was just if it is well-formed, all its numbers are read as
they are written, and no more values are open at a time than reading allows. Of output that has been
read and transpiled, only the floating point numbers can fail that. -/
theorem output_round_trip :
    (∀ text output, parse text = .ok output → output.WellFormed) ∧
    (∀ settings output, output.WellFormed → (transpile settings output).WellFormed) ∧
    (∀ output : CompilerOutput,
      (output.WellFormed ↔ ofDocument (.ofJson output.toJson) = .ok output) ∧
      (output.WellFormed → ∀ d : Document, d.Shows output.toJson → ofDocument d = .ok output) ∧
      ∀ pretty, parse (output.text pretty) = .ok output ↔
        output.WellFormed ∧ output.toJson.Within Json.Number.Survives Json.maxDepth) ∧
    ∀ text settings output pretty, parse text = .ok output →
      (parse ((transpile settings output).text pretty) = .ok (transpile settings output) ↔
        (transpile settings output).toJson.Within (fun n => n.IsReal → n.Survives)
          Json.maxDepth) := by
  refine ⟨fun _ _ => wellFormed_of_parse, fun settings _ => wellFormed_transpile settings,
    fun output => ⟨⟨fun h => ?_, wellFormed_of_ofDocument⟩, fun h d => ofDocument_of_shows h,
      parse_text_iff output⟩, fun text settings output pretty h => ?_⟩
  · exact ofDocument_of_shows h (shows_ofJson output.toJson)
  · have hformed := wellFormed_transpile settings (wellFormed_of_parse h)
    have hheld : (transpile settings output).toJson.Within Json.Number.Held Json.maxDepth :=
      within_transpile settings (within_of_parse h)
    rw [parse_text_iff, survives_iff_of_held hheld, and_iff_right hformed]

/-- A warning without a formatted message, a contract with one object, and one without code. -/
def mixedOutput : CompilerOutput where
  errors := [⟨"", "unused", .warning, "Warning", none, ⟨[("errorCode", .string "2072")], by simp⟩⟩]
  contracts := ⟨[("A.sol",
    ⟨[("A", ⟨some ⟨none, some ⟨"00", .empty⟩, ⟨[("gasEstimates", .null)], by simp⟩⟩, .empty⟩),
      ("I", ⟨none, ⟨[("abi", .array [])], by simp⟩⟩)], by decide⟩)], by simp⟩
  other := ⟨[("sources", .object [("A.sol", .null), ("B.sol", .null)])], by simp⟩

theorem wellFormed_mixedOutput : mixedOutput.WellFormed where
  errors := by
    intro r hr
    cases List.mem_singleton.mp hr
    exact ⟨by simp [ErrorRecord.fieldNames], by simp [Json.Ordered.string]⟩
  contracts := by
    intro file name contract hcontract
    obtain ⟨contracts, hfile, hname⟩ := Option.bind_eq_some_iff.mp hcontract
    rw [← KeyMap.mem_entries_iff] at hfile hname
    cases List.mem_singleton.mp hfile
    simp only [List.mem_cons, List.not_mem_nil, or_false, Prod.mk.injEq] at hname
    rcases hname with ⟨-, rfl⟩ | ⟨-, rfl⟩
    · refine ⟨fun evm hevm => ?_, OtherFields.sound_empty _⟩
      cases hevm
      refine ⟨by simp, fun b hb => ?_, by simp [EvmOutput.fieldNames], by simp [Json.Ordered.null]⟩
      cases hb
      exact OtherFields.sound_empty _
    · exact ⟨by simp, by simp [ContractOutput.fieldNames], by simp [Json.Ordered.array]⟩
  other := by
    refine ⟨by simp [mixedOutput, fieldNames], fun entry hentry => ?_⟩
    cases List.mem_singleton.mp hentry
    exact .object (by decide) (by simp [Json.Ordered.null])

/-- Output with one field that is carried along, a number. -/
def numberOutput (n : Json.Number) : CompilerOutput := ⟨[], .empty, ⟨[("a", .number n)], by simp⟩⟩

/-- Settings that are complete. -/
def mixedSettings : Settings :=
  { managerAddress := some "0x00000000000000000000000000000000000000ee" }

/-- A text of an object with one field is read as it stands, up to its number. -/
theorem parse_of_tokens {text : String} {lexeme : Json.Number.Lexeme} {n : Json.Number}
    (htokens : Json.Lexer.tokens text =
      [.openObject, .string (some "a"), .colon, .number (Json.Number.ofLexeme lexeme), .closeObject])
    (hn : Json.Number.ofLexeme lexeme = some n) : parse text = .ok (numberOutput n) := by
  rw [parse, Json.read, Json.Reader.parse, htokens, hn]
  rfl

theorem within_numberOutput {P : Json.Number → Prop} {n : Json.Number} (h : P n) :
    (numberOutput n).toJson.Within P Json.maxDepth :=
  .object (by simpa [numberOutput, KeyMap.isEmpty, KeyMap.empty] using .number h)

theorem within_mixedOutput (P : Json.Number → Prop) (depth : Nat) :
    mixedOutput.toJson.Within P (depth + 6) := by
  refine within_toJson.mpr ⟨fun r hr => ?_, fun file name contract hcontract => ?_, ?_⟩
  · cases List.mem_singleton.mp hr
    exact .object (by simp [optionalField])
  · obtain ⟨contracts, hfile, hname⟩ := contract?_eq_some_iff.mp hcontract
    cases List.mem_singleton.mp hfile
    simp only [List.mem_cons, List.not_mem_nil, or_false, Prod.mk.injEq] at hname
    rcases hname with ⟨-, rfl⟩ | ⟨-, rfl⟩
    · refine ContractOutput.within_toJson.mpr ⟨fun evm hevm => ?_, by simp [KeyMap.empty]⟩
      cases hevm
      exact EvmOutput.within_toJson.mpr ⟨by simp, by simp [KeyMap.empty], by simpa using .null⟩
    · exact ContractOutput.within_toJson.mpr ⟨by simp, by simp⟩
  · simpa [mixedOutput] using .null

theorem output_round_trip_mixed :
    parse "\x7b\"a\":1.5\x7d" = .ok (numberOutput (.real 0x3ff8000000000000)) ∧
    (numberOutput (.real 0x3ff8000000000000)).WellFormed ∧
    parse ((transpile mixedSettings (numberOutput (.real 0x3ff8000000000000))).text true) =
      .ok (transpile mixedSettings (numberOutput (.real 0x3ff8000000000000))) ∧
    mixedOutput.WellFormed ∧ (transpile mixedSettings mixedOutput).WellFormed ∧
    ofDocument (.ofJson (transpile mixedSettings mixedOutput).toJson) =
      .ok (transpile mixedSettings mixedOutput) ∧
    parse ((transpile mixedSettings mixedOutput).text false) =
      .ok (transpile mixedSettings mixedOutput) := by
  have hparse : parse "\x7b\"a\":1.5\x7d" = .ok (numberOutput (.real 0x3ff8000000000000)) :=
    parse_of_tokens rfl (by decide +kernel)
  have hsurvives : (Json.Number.real 0x3ff8000000000000).Survives := by decide +kernel
  obtain ⟨hformed, hkept, hvalue, htext⟩ := output_round_trip
  have htranspiled := hkept mixedSettings mixedOutput wellFormed_mixedOutput
  refine ⟨hparse, hformed _ _ hparse, ?_, wellFormed_mixedOutput, htranspiled,
    (hvalue _).1.mp htranspiled, ?_⟩
  · exact (htext _ mixedSettings _ true hparse).mpr (within_numberOutput fun _ => hsurvives)
  · exact ((hvalue _).2.2 false).mpr
      ⟨htranspiled, within_transpile mixedSettings (within_mixedOutput _ 121)⟩

/-- A number that is written with more digits than reading keeps exactly: the text of the output
that is read from `5e32` is read as other output. -/
theorem written_number_read_as_another :
    parse "\x7b\"a\":5e32\x7d" = .ok (numberOutput (.real 0x46b8a6e32246c99d)) ∧
    transpile mixedSettings (numberOutput (.real 0x46b8a6e32246c99d)) =
      numberOutput (.real 0x46b8a6e32246c99d) ∧
    (numberOutput (.real 0x46b8a6e32246c99d)).text false =
      "\x7b\"a\":5.0000000000000004e+32\x7d" ∧
    parse "\x7b\"a\":5.0000000000000004e+32\x7d" =
      .ok (numberOutput (.real 0x46b8a6e32246c99c)) ∧
    numberOutput (.real 0x46b8a6e32246c99c) ≠ numberOutput (.real 0x46b8a6e32246c99d) := by
  refine ⟨parse_of_tokens rfl (by decide +kernel), rfl, ?_, parse_of_tokens rfl (by decide +kernel),
    ?_⟩
  · decide +kernel
  · simp [numberOutput]

end CompilerOutput

end EvmSandbox
