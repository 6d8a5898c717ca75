/-
Compiler output survives being written as a value and read again. Reading gives
output in which no field that is carried along has the name of a field of its
own (`CompilerOutput.wellFormed_of_ofDocument`), and transpiling keeps it that
way (`CompilerOutput.wellFormed_transpile`). Such output is read back as it was,
in whatever order the fields of the objects come
(`CompilerOutput.ofDocument_of_shows`).
-/
import EvmSandbox.Proofs.ContractIsolation
import EvmSandbox.Proofs.JsonValues

namespace EvmSandbox

open Json (Document Fault)
open Json.Document

/-! ## Fields that are carried along -/

/-- None of the fields has one of these names. Objects in their values are in the order of their
keys, as in every value that is read. -/
structure OtherFields.Sound (names : List String) (other : OtherFields) : Prop where
  avoids : ∀ entry ∈ other.entries, entry.1 ∉ names
  ordered : ∀ entry ∈ other.entries, entry.2.Ordered

namespace OtherFields

variable {names : List String} {other : OtherFields}

theorem sound_empty (names : List String) : Sound names .empty where
  avoids := by simp [KeyMap.empty]
  ordered := by simp [KeyMap.empty]

theorem Sound.keep_insert (h : Sound names other) {name : String} (hname : name ∈ names)
    (seen : Finset String) : other.keep (insert name seen) = other.keep seen := by
  refine KeyMap.keep_insert_of_none ?_ seen
  rw [Option.eq_none_iff_forall_ne_some]
  intro j hj
  exact h.avoids (name, j) (KeyMap.mem_entries_iff.mpr hj) hname

theorem Sound.take (h : Sound names other) {key : String} {d : Document} {next : OtherFields}
    (hkey : key ∉ names) (hnext : other.take key d = .ok next) : Sound names next := by
  obtain ⟨j, hj, rfl⟩ := ok_of_map hnext
  refine ⟨fun entry hentry => ?_, fun entry hentry => ?_⟩
  all_goals rcases KeyMap.mem_entries_insert hentry with rfl | hentry
  · exact hkey
  · exact h.avoids entry hentry
  · exact ordered_of_value d hj
  · exact h.ordered entry hentry

theorem Sound.take_keep (h : Sound names other) {key : String} {j : Json} {d : Document}
    (hmem : (key, j) ∈ other.entries) (hd : d.Shows j) (seen : Finset String) :
    OtherFields.take (other.keep seen) key d = .ok (other.keep (insert key seen)) := by
  rw [OtherFields.take, value_of_shows d hd (h.ordered _ hmem), ← KeyMap.insert_keep hmem]
  rfl

/-- The keys of a record, named fields first. -/
theorem Sound.nodup_keys (h : Sound names other) (hnames : names.Nodup)
    {named : List (String × Json)} (hnamed : (named.map Prod.fst).Sublist names) :
    ((named ++ other.entries).map Prod.fst).Nodup := by
  rw [List.map_append, List.nodup_append]
  refine ⟨hnamed.nodup hnames, other.nodup_keys, ?_⟩
  rintro name hname key hkey rfl
  obtain ⟨entry, hentry, rfl⟩ := List.mem_map.mp hkey
  exact h.avoids entry hentry (hnamed.subset hname)

/-- Reading a record: named fields, of which some may be left out, and others. In the end the
reader holds the others and those of the named fields that were there. -/
theorem Sound.foldFields_of_shows {σ : Type} {step : σ → String → Document → Except Fault σ}
    {met : Finset String → σ} {start : σ} (h : Sound names other) (hnames : names.Nodup)
    (hstart : met ∅ = start) {named : List (String × Json)}
    (hnamed : (named.map Prod.fst).Sublist names) {d : Document}
    (hd : d.Shows (.object (named ++ other.entries)))
    (htakes : ∀ field ∈ named, Takes step met field)
    (hothers : ∀ field ∈ other.entries, Takes step met field) :
    ∃ keys : Finset String, d.foldFields step start = .ok (met keys) ∧ other.keep keys = other ∧
      ∀ name ∈ names, name ∈ keys ↔ name ∈ named.map Prod.fst := by
  refine ⟨((named ++ other.entries).map Prod.fst).toFinset, ?_, ?_, fun name hname => ?_⟩
  · rw [← hstart]
    exact Json.Document.foldFields_of_shows hd (h.nodup_keys hnames hnamed)
      (List.forall_mem_append.mpr ⟨htakes, hothers⟩)
  · refine KeyMap.keep_eq_self fun entry hentry => ?_
    rw [List.mem_toFinset]
    exact List.mem_map_of_mem (List.mem_append_right _ hentry)
  · rw [List.mem_toFinset, List.map_append, List.mem_append]
    refine or_iff_left fun hkey => ?_
    obtain ⟨entry, hentry, rfl⟩ := List.mem_map.mp hkey
    exact h.avoids entry hentry hname

end OtherFields

theorem mem_optionalField {α : Type} {name : String} {toJson : α → Json} {value : Option α}
    {field : String × Json} :
    field ∈ optionalField name toJson value ↔ ∃ v, value = some v ∧ field = (name, toJson v) := by
  cases value <;> simp [optionalField]

theorem keys_optionalField {α : Type} (name : String) (toJson : α → Json) (value : Option α) :
    ((optionalField name toJson value).map Prod.fst).Sublist [name] := by
  cases value <;> simp [optionalField]

/-! ## Bytecode objects -/

namespace BytecodeOutput

/-- The names of the fields of a bytecode object. -/
def fieldNames : List String := ["object"]

def WellFormed (b : BytecodeOutput) : Prop := b.other.Sound fieldNames

/-- What has been met of the object once these fields have come. -/
def met (b : BytecodeOutput) (seen : Finset String) : Option String × OtherFields :=
  (held seen "object" b.object, b.other.keep seen)

theorem takes_named {b : BytecodeOutput} (h : b.WellFormed) :
    ∀ field ∈ [("object", Json.string b.object)], Takes take b.met field := by
  intro field hfield seen member hnew hmember
  cases List.mem_singleton.mp hfield
  cases hmember
  simp [take, met, once_held hnew, text, Except.map,
    h.keep_insert (show "object" ∈ fieldNames by decide)]

theorem takes_other {b : BytecodeOutput} (h : b.WellFormed) :
    ∀ field ∈ b.other.entries, Takes take b.met field := by
  intro field hfield seen member _ hmember
  have hkey := h.avoids field hfield
  simp only [fieldNames, List.mem_singleton] at hkey
  simp [take, met, hkey, h.take_keep hfield hmember, held_insert_of_ne]

theorem ofDocument_of_shows {b : BytecodeOutput} (h : b.WellFormed) {d : Document}
    (hd : d.Shows b.toJson) : ofDocument d = .ok b := by
  have hstart : b.met ∅ = (none, .empty) := by simp [met]
  obtain ⟨keys, hfold, hother, hkeys⟩ :=
    h.foldFields_of_shows (by decide) hstart (.refl _) hd (takes_named h) (takes_other h)
  have hobject : "object" ∈ keys := (hkeys _ (by decide)).mpr (by simp)
  rw [ofDocument, hfold]
  simp [met, held_of_mem hobject, hother]

theorem optional_ofDocument {b : BytecodeOutput} (h : b.WellFormed) {d : Document}
    (hd : d.Shows b.toJson) : optional ofDocument d = .ok (some b) :=
  optional_of_shows hd (by simp [toJson]) (ofDocument_of_shows h hd)

theorem wellFormed_of_ofDocument {d : Document} {b : BytecodeOutput} (h : ofDocument d = .ok b) :
    b.WellFormed := by
  obtain ⟨⟨object, other⟩, hfold, h⟩ := ok_of_bind h
  cases h
  refine foldFields_invariant (fun met => met.2.Sound fieldNames) (OtherFields.sound_empty _)
    ?_ hfold
  intro state key member next hstate hnext
  simp only [take] at hnext
  split at hnext
  · obtain ⟨object, hobject, hnext⟩ := ok_of_bind hnext
    cases hnext
    exact hstate
  · rename_i hkey
    obtain ⟨other, hother, hnext⟩ := ok_of_bind hnext
    cases hnext
    exact hstate.take (by simpa [fieldNames] using hkey) hother

end BytecodeOutput

/-! ## The parts of a contract -/

namespace EvmOutput

def fieldNames : List String := ["bytecode", "deployedBytecode"]

structure WellFormed (e : EvmOutput) : Prop where
  bytecode : ∀ b, e.bytecode = some b → b.WellFormed
  deployedBytecode : ∀ b, e.deployedBytecode = some b → b.WellFormed
  other : e.other.Sound fieldNames

def met (e : EvmOutput) (seen : Finset String) : Met where
  bytecode := held seen "bytecode" e.bytecode
  deployedBytecode := held seen "deployedBytecode" e.deployedBytecode
  other := e.other.keep seen

/-- The fields with a name of their own, as they are written. -/
def named (e : EvmOutput) : List (String × Json) :=
  optionalField "bytecode" BytecodeOutput.toJson e.bytecode ++
    optionalField "deployedBytecode" BytecodeOutput.toJson e.deployedBytecode

theorem keys_named (e : EvmOutput) : (e.named.map Prod.fst).Sublist fieldNames := by
  rw [named, List.map_append]
  exact (keys_optionalField _ _ _).append (keys_optionalField _ _ _)

theorem takes_named {e : EvmOutput} (h : e.WellFormed) :
    ∀ field ∈ e.named, Takes Met.take e.met field := by
  intro field hfield seen member hnew hmember
  simp only [named, List.mem_append, mem_optionalField] at hfield
  rcases hfield with ⟨b, hb, rfl⟩ | ⟨b, hb, rfl⟩
  · simp [Met.take, met, once_held hnew, hb, Except.map, held_insert_of_ne,
      BytecodeOutput.optional_ofDocument (h.bytecode b hb) hmember,
      h.other.keep_insert (show "bytecode" ∈ fieldNames by decide)]
  · simp [Met.take, met, once_held hnew, hb, Except.map, held_insert_of_ne,
      BytecodeOutput.optional_ofDocument (h.deployedBytecode b hb) hmember,
      h.other.keep_insert (show "deployedBytecode" ∈ fieldNames by decide)]

theorem takes_other {e : EvmOutput} (h : e.WellFormed) :
    ∀ field ∈ e.other.entries, Takes Met.take e.met field := by
  intro field hfield seen member _ hmember
  have hkey := h.other.avoids field hfield
  simp only [fieldNames, List.mem_cons, List.not_mem_nil, or_false, not_or] at hkey
  simp [Met.take, met, hkey, h.other.take_keep hfield hmember, held_insert_of_ne]

theorem ofDocument_of_shows {e : EvmOutput} (h : e.WellFormed) {d : Document}
    (hd : d.Shows e.toJson) : ofDocument d = .ok e := by
  have hstart : e.met ∅ = {} := by simp [met]
  obtain ⟨keys, hfold, hother, hkeys⟩ :=
    h.other.foldFields_of_shows (by decide) hstart e.keys_named hd (takes_named h) (takes_other h)
  have hbytecode : "bytecode" ∉ keys → e.bytecode = none := by
    rw [hkeys _ (by decide)]
    cases hb : e.bytecode <;> simp [named, optionalField, hb]
  have hdeployed : "deployedBytecode" ∉ keys → e.deployedBytecode = none := by
    rw [hkeys _ (by decide)]
    cases hb : e.deployedBytecode <;> simp [named, optionalField, hb]
  rw [ofDocument, hfold]
  simp [met, join_held hbytecode, join_held hdeployed, hother]

theorem optional_ofDocument {e : EvmOutput} (h : e.WellFormed) {d : Document}
    (hd : d.Shows e.toJson) : optional ofDocument d = .ok (some e) :=
  optional_of_shows hd (by simp [toJson]) (ofDocument_of_shows h hd)

/-- What has been met so far is well-formed. -/
structure Met.WellFormed (m : Met) : Prop where
  bytecode : ∀ b, m.bytecode = some (some b) → b.WellFormed
  deployedBytecode : ∀ b, m.deployedBytecode = some (some b) → b.WellFormed
  other : m.other.Sound fieldNames

theorem Met.WellFormed.take {m next : Met} (h : m.WellFormed) {key : String} {d : Document}
    (hnext : m.take key d = .ok next) : next.WellFormed := by
  rw [Met.take] at hnext
  split at hnext
  · obtain ⟨value, hvalue, hnext⟩ := ok_of_bind hnext
    cases hnext
    refine ⟨fun b hb => ?_, h.deployedBytecode, h.other⟩
    cases hb
    exact BytecodeOutput.wellFormed_of_ofDocument (read_of_optional (read_of_once hvalue))
  · rename_i hbytecode
    split at hnext
    · obtain ⟨value, hvalue, hnext⟩ := ok_of_bind hnext
      cases hnext
      refine ⟨h.bytecode, fun b hb => ?_, h.other⟩
      cases hb
      exact BytecodeOutput.wellFormed_of_ofDocument (read_of_optional (read_of_once hvalue))
    · rename_i hdeployed
      obtain ⟨other, hother, hnext⟩ := ok_of_bind hnext
      cases hnext
      have hkey : key ∉ fieldNames := by simpa [fieldNames] using And.intro hbytecode hdeployed
      exact ⟨h.bytecode, h.deployedBytecode, h.other.take hkey hother⟩

theorem wellFormed_of_ofDocument {d : Document} {e : EvmOutput} (h : ofDocument d = .ok e) :
    e.WellFormed := by
  obtain ⟨met, hfold, h⟩ := ok_of_bind h
  cases h
  have hmet : met.WellFormed :=
    foldFields_invariant Met.WellFormed ⟨by simp, by simp, OtherFields.sound_empty _⟩
      (fun state key member next hstate => hstate.take) hfold
  exact ⟨fun b hb => hmet.bytecode b (Option.join_eq_some_iff.mp hb),
    fun b hb => hmet.deployedBytecode b (Option.join_eq_some_iff.mp hb), hmet.other⟩

end EvmOutput

namespace ContractOutput

def fieldNames : List String := ["evm"]

structure WellFormed (c : ContractOutput) : Prop where
  evm : ∀ e, c.evm = some e → e.WellFormed
  other : c.other.Sound fieldNames

def met (c : ContractOutput) (seen : Finset String) : Option (Option EvmOutput) × OtherFields :=
  (held seen "evm" c.evm, c.other.keep seen)

theorem takes_named {c : ContractOutput} (h : c.WellFormed) :
    ∀ field ∈ optionalField "evm" EvmOutput.toJson c.evm, Takes take c.met field := by
  intro field hfield seen member hnew hmember
  obtain ⟨e, he, rfl⟩ := mem_optionalField.mp hfield
  simp [take, met, once_held hnew, he, Except.map,
    EvmOutput.optional_ofDocument (h.evm e he) hmember,
    h.other.keep_insert (show "evm" ∈ fieldNames by decide)]

theorem takes_other {c : ContractOutput} (h : c.WellFormed) :
    ∀ field ∈ c.other.entries, Takes take c.met field := by
  intro field hfield seen member _ hmember
  have hkey := h.other.avoids field hfield
  simp only [fieldNames, List.mem_singleton] at hkey
  simp [take, met, hkey, h.other.take_keep hfield hmember, held_insert_of_ne]

theorem ofDocument_of_shows {c : ContractOutput} (h : c.WellFormed) {d : Document}
    (hd : d.Shows c.toJson) : ofDocument d = .ok c := by
  have hstart : c.met ∅ = (none, .empty) := by simp [met]
  obtain ⟨keys, hfold, hother, hkeys⟩ :=
    h.other.foldFields_of_shows (by decide) hstart (keys_optionalField _ _ _) hd
      (takes_named h) (takes_other h)
  have hevm : "evm" ∉ keys → c.evm = none := by
    rw [hkeys _ (by decide)]
    cases he : c.evm <;> simp [optionalField]
  rw [ofDocument, hfold]
  simp [met, join_held hevm, hother]

theorem wellFormed_of_ofDocument {d : Document} {c : ContractOutput} (h : ofDocument d = .ok c) :
    c.WellFormed := by
  obtain ⟨⟨evm, other⟩, hfold, h⟩ := ok_of_bind h
  cases h
  have hmet := foldFields_invariant
    (fun met : Option (Option EvmOutput) × OtherFields =>
      (∀ e, met.1 = some (some e) → e.WellFormed) ∧ met.2.Sound fieldNames)
    ⟨by simp, OtherFields.sound_empty _⟩ ?_ hfold
  · exact ⟨fun e he => hmet.1 e (Option.join_eq_some_iff.mp he), hmet.2⟩
  intro state key member next hstate hnext
  rw [take] at hnext
  split at hnext
  · obtain ⟨value, hvalue, hnext⟩ := ok_of_bind hnext
    cases hnext
    refine ⟨fun e he => ?_, hstate.2⟩
    cases he
    exact EvmOutput.wellFormed_of_ofDocument (read_of_optional (read_of_once hvalue))
  · rename_i hkey
    obtain ⟨other, hother, hnext⟩ := ok_of_bind hnext
    cases hnext
    exact ⟨hstate.1, hstate.2.take (by simpa [fieldNames] using hkey) hother⟩

end ContractOutput

/-! ## Error records -/

theorem Severity.ofName_name (severity : Severity) : ofName severity.name = .ok severity := by
  cases severity <;> rfl

namespace ErrorRecord

def fieldNames : List String := ["component", "message", "severity", "type", "formattedMessage"]

def WellFormed (r : ErrorRecord) : Prop := r.other.Sound fieldNames

def met (r : ErrorRecord) (seen : Finset String) : Met where
  component := held seen "component" r.component
  message := held seen "message" r.message
  severity := held seen "severity" r.severity
  kind := held seen "type" r.kind
  formattedMessage := held seen "formattedMessage" r.formattedMessage
  other := r.other.keep seen

/-- The fields that are always written. -/
def required (r : ErrorRecord) : List (String × Json) :=
  [("component", .string r.component), ("message", .string r.message),
    ("severity", .string r.severity.name), ("type", .string r.kind)]

/-- The fields with a name of their own, as they are written. -/
def named (r : ErrorRecord) : List (String × Json) :=
  r.required ++ optionalField "formattedMessage" .string r.formattedMessage

theorem keys_named (r : ErrorRecord) : (r.named.map Prod.fst).Sublist fieldNames := by
  rw [named, List.map_append]
  exact (List.Sublist.refl _).append (keys_optionalField _ _ _)

theorem takes_named {r : ErrorRecord} (h : r.WellFormed) :
    ∀ field ∈ r.named, Takes Met.take r.met field := by
  intro field hfield seen member hnew hmember
  have absent : ∀ name ∈ fieldNames, r.other.keep (insert name seen) = r.other.keep seen :=
    fun name hname => h.keep_insert hname seen
  simp only [fieldNames, List.forall_mem_cons] at absent
  simp only [named, required, List.mem_append, List.mem_cons, List.not_mem_nil, or_false,
    mem_optionalField] at hfield
  rcases hfield with (rfl | rfl | rfl | rfl) | ⟨formatted, hformatted, rfl⟩
  -- each of the five is shown by a string, and only its own slot is filled
  all_goals
    cases hmember
    simp [Met.take, met, once_held hnew, held_insert_of_ne, text, Severity.ofDocument,
      Severity.ofName_name, Document.optional, Except.map, *]

theorem takes_other {r : ErrorRecord} (h : r.WellFormed) :
    ∀ field ∈ r.other.entries, Takes Met.take r.met field := by
  intro field hfield seen member _ hmember
  have hkey := h.avoids field hfield
  simp only [fieldNames, List.mem_cons, List.not_mem_nil, or_false, not_or] at hkey
  simp [Met.take, met, hkey, h.take_keep hfield hmember, held_insert_of_ne]

theorem ofDocument_of_shows {r : ErrorRecord} (h : r.WellFormed) {d : Document}
    (hd : d.Shows r.toJson) : ofDocument d = .ok r := by
  have hstart : r.met ∅ = {} := by simp [met]
  obtain ⟨keys, hfold, hother, hkeys⟩ :=
    h.foldFields_of_shows (by decide) hstart r.keys_named hd (takes_named h) (takes_other h)
  have hrequired : ∀ name ∈ ["component", "message", "severity", "type"], name ∈ keys := by
    intro name hname
    rw [hkeys name (List.mem_append_left ["formattedMessage"] hname), named, List.map_append]
    exact List.mem_append_left _ hname
  have hformatted : "formattedMessage" ∉ keys → r.formattedMessage = none := by
    rw [hkeys _ (by decide)]
    cases hf : r.formattedMessage <;> simp [named, optionalField, hf]
  simp only [List.forall_mem_cons] at hrequired
  rw [ofDocument, hfold]
  simp [bind, Except.bind, met, held_of_mem, hrequired, join_held hformatted, hother]
  rfl

theorem wellFormed_of_ofDocument {d : Document} {r : ErrorRecord} (h : ofDocument d = .ok r) :
    r.WellFormed := by
  obtain ⟨met, hfold, h⟩ := ok_of_bind h
  have hmet : met.other.Sound fieldNames := by
    refine foldFields_invariant (fun m : Met => m.other.Sound fieldNames)
      (OtherFields.sound_empty _) ?_ hfold
    intro state key member next hstate hnext
    rw [Met.take] at hnext
    -- the named fields leave the others alone
    iterate 5
      split at hnext
      · obtain ⟨value, _, hnext⟩ := ok_of_bind hnext
        cases hnext
        exact hstate
    obtain ⟨other, hother, hnext⟩ := ok_of_bind hnext
    cases hnext
    have hkey : key ∉ fieldNames := by simp_all [fieldNames]
    exact hstate.take hkey hother
  split at h
  · cases h
    exact hmet
  · cases h

end ErrorRecord

/-! ## The whole output -/

namespace CompilerOutput

def fieldNames : List String := ["errors", "contracts"]

/-- No field that is carried along, in any record of the output, has the name of a field of that
record. -/
structure WellFormed (output : CompilerOutput) : Prop where
  errors : ∀ r ∈ output.errors, r.WellFormed
  contracts : ∀ file name contract, output.contract? file name = some contract →
    contract.WellFormed
  other : output.other.Sound fieldNames

def met (output : CompilerOutput) (seen : Finset String) : Met where
  errors := held seen "errors" output.errors
  contracts := held seen "contracts" output.contracts
  other := output.other.keep seen

/-- The fields with a name of their own, as they are written. -/
def named (output : CompilerOutput) : List (String × Json) :=
  (if output.errors.isEmpty then []
    else [("errors", .array (output.errors.map ErrorRecord.toJson))]) ++
    (if output.contracts.isEmpty then [] else [("contracts", contractsJson output.contracts)])

theorem contract?_eq_some_iff {output : CompilerOutput} {file name : String}
    {contract : ContractOutput} :
    output.contract? file name = some contract ↔
      ∃ contracts, (file, contracts) ∈ output.contracts.entries ∧
        (name, contract) ∈ contracts.entries := by
  simp only [contract?, Option.bind_eq_some_iff, KeyMap.mem_entries_iff]

theorem read_errors {output : CompilerOutput} (h : output.WellFormed) {d : Document}
    (hd : d.Shows (.array (output.errors.map ErrorRecord.toJson))) :
    arrayOf ErrorRecord.ofDocument d = .ok output.errors :=
  arrayOf_of_shows hd fun r hr _ => ErrorRecord.ofDocument_of_shows (h.errors r hr)

theorem read_contracts {output : CompilerOutput} (h : output.WellFormed) {d : Document}
    (hd : d.Shows (contractsJson output.contracts)) :
    mapOf (mapOf ContractOutput.ofDocument) d = .ok output.contracts := by
  have hobject : contractsJson output.contracts =
    objectOf (objectOf ContractOutput.toJson) output.contracts := rfl
  refine mapOf_of_shows (hobject ▸ hd) fun file hfile member hmember => ?_
  refine mapOf_of_shows hmember fun contract hcontract _ => ?_
  refine ContractOutput.ofDocument_of_shows (h.contracts file.1 contract.1 contract.2 ?_)
  exact contract?_eq_some_iff.mpr ⟨file.2, hfile, hcontract⟩

theorem takes_named {output : CompilerOutput} (h : output.WellFormed) :
    ∀ field ∈ output.named, Takes Met.take output.met field := by
  intro field hfield seen member hnew hmember
  rcases List.mem_append.mp hfield with hfield | hfield
  · split at hfield
    · cases hfield
    · cases List.mem_singleton.mp hfield
      simp [Met.take, met, once_held hnew, read_errors h hmember, Except.map, held_insert_of_ne,
        h.other.keep_insert (show "errors" ∈ fieldNames by decide)]
  · split at hfield
    · cases hfield
    · cases List.mem_singleton.mp hfield
      simp [Met.take, met, once_held hnew, read_contracts h hmember, Except.map,
        held_insert_of_ne, h.other.keep_insert (show "contracts" ∈ fieldNames by decide)]

theorem takes_other {output : CompilerOutput} (h : output.WellFormed) :
    ∀ field ∈ output.other.entries, Takes Met.take output.met field := by
  intro field hfield seen member _ hmember
  have hkey := h.other.avoids field hfield
  simp only [fieldNames, List.mem_cons, List.not_mem_nil, or_false, not_or] at hkey
  simp [Met.take, met, hkey, h.other.take_keep hfield hmember, held_insert_of_ne]

theorem keys_named (output : CompilerOutput) : (output.named.map Prod.fst).Sublist fieldNames := by
  rw [named, List.map_append]
  refine List.Sublist.append (?_ : List.Sublist _ ["errors"]) (?_ : List.Sublist _ ["contracts"])
  all_goals split <;> simp

theorem ofDocument_of_shows {output : CompilerOutput} (h : output.WellFormed) {d : Document}
    (hd : d.Shows output.toJson) : ofDocument d = .ok output := by
  have hstart : output.met ∅ = {} := by simp [met]
  obtain ⟨keys, hfold, hother, hkeys⟩ :=
    h.other.foldFields_of_shows (by decide) hstart output.keys_named hd (takes_named h)
      (takes_other h)
  have herrors : "errors" ∉ keys → output.errors = [] := by
    rw [hkeys _ (by decide)]
    cases he : output.errors <;> simp [named, he]
  have hcontracts : "contracts" ∉ keys → output.contracts = .empty := by
    rw [hkeys _ (by decide)]
    cases he : output.contracts.isEmpty
    · simp [named, he]
    · exact fun _ => KeyMap.eq_empty_of_isEmpty he
  rw [ofDocument, hfold]
  simp [met, getD_held herrors, getD_held hcontracts, hother]

/-- What has been met so far is well-formed. -/
structure Met.WellFormed (m : Met) : Prop where
  errors : ∀ records, m.errors = some records → ∀ r ∈ records, r.WellFormed
  contracts : ∀ contracts, m.contracts = some contracts → ∀ file ∈ contracts.entries,
    ∀ contract ∈ file.2.entries, contract.2.WellFormed
  other : m.other.Sound fieldNames

theorem Met.WellFormed.take {m next : Met} (h : m.WellFormed) {key : String} {d : Document}
    (hnext : m.take key d = .ok next) : next.WellFormed := by
  rw [Met.take] at hnext
  split at hnext
  · obtain ⟨value, hvalue, hnext⟩ := ok_of_bind hnext
    cases hnext
    refine ⟨fun records hrecords r hr => ?_, h.contracts, h.other⟩
    cases hrecords
    obtain ⟨member, hmember⟩ := read_of_arrayOf (read_of_once hvalue) r hr
    exact ErrorRecord.wellFormed_of_ofDocument hmember
  · rename_i herrors
    split at hnext
    · obtain ⟨value, hvalue, hnext⟩ := ok_of_bind hnext
      cases hnext
      refine ⟨h.errors, fun contracts hcontracts file hfile contract hcontract => ?_, h.other⟩
      cases hcontracts
      obtain ⟨inner, hinner⟩ := read_of_mapOf (read_of_once hvalue) file hfile
      obtain ⟨member, hmember⟩ := read_of_mapOf hinner contract hcontract
      exact ContractOutput.wellFormed_of_ofDocument hmember
    · rename_i hcontracts
      obtain ⟨other, hother, hnext⟩ := ok_of_bind hnext
      cases hnext
      have hkey : key ∉ fieldNames := by simpa [fieldNames] using And.intro herrors hcontracts
      exact ⟨h.errors, h.contracts, h.other.take hkey hother⟩

theorem wellFormed_of_ofDocument {d : Document} {output : CompilerOutput}
    (h : ofDocument d = .ok output) : output.WellFormed := by
  obtain ⟨met, hfold, h⟩ := ok_of_bind h
  cases h
  have hmet : met.WellFormed :=
    foldFields_invariant Met.WellFormed ⟨by simp, by simp, OtherFields.sound_empty _⟩
      (fun state key member next hstate => hstate.take) hfold
  refine ⟨?_, fun file name contract hcontract => ?_, hmet.other⟩
  · cases herrors : met.errors with
    | none => simp
    | some records => exact hmet.errors records herrors
  · obtain ⟨contracts, hfile, hname⟩ := contract?_eq_some_iff.mp hcontract
    cases hcontracts : met.contracts with
    | none =>
      rw [hcontracts] at hfile
      cases hfile
    | some found =>
      rw [hcontracts] at hfile
      exact hmet.contracts found hcontracts _ hfile _ hname

theorem ofDocument_of_parse {text : String} {output : CompilerOutput}
    (h : parse text = .ok output) : ofDocument (Json.Reader.parse text).document = .ok output := by
  obtain ⟨value, hvalue, h⟩ := ok_of_bind h
  split at h
  · cases h
  · cases h
    exact hvalue

theorem wellFormed_of_parse {text : String} {output : CompilerOutput}
    (h : parse text = .ok output) : output.WellFormed :=
  wellFormed_of_ofDocument (ofDocument_of_parse h)

end CompilerOutput

/-! ## Transpiled output -/

namespace ContractBuild

theorem wellFormed_withObjects {contract : ContractOutput} (h : contract.WellFormed)
    (text : Part → String) : (withObjects contract text).WellFormed := by
  refine ⟨fun evm hevm => ?_, h.other⟩
  obtain ⟨old, hold, rfl⟩ := Option.map_eq_some_iff.mp hevm
  refine ⟨fun b hb => ?_, fun b hb => ?_, (h.evm old hold).other⟩
  all_goals obtain ⟨was, hwas, rfl⟩ := Option.map_eq_some_iff.mp hb
  · exact (h.evm old hold).bytecode was hwas
  · exact (h.evm old hold).deployedBytecode was hwas

theorem wellFormed_transpilation (message : String) :
    (ErrorRecord.transpilation message).WellFormed :=
  OtherFields.sound_empty _

/-- All records of a contract are made in the same way. -/
theorem exists_message_of_mem_errors {s : Sandbox} {file name : String} {contract : ContractOutput}
    {r : ErrorRecord} (hr : r ∈ (transpile s file name contract).errors) :
    ∃ message, r = .transpilation message := by
  rcases transpile_cases s file name contract with
    ⟨part, e, -, heq⟩ | ⟨creation, deployed, -, -, heq⟩
  · rw [heq] at hr
    cases List.mem_singleton.mp hr
    exact ⟨_, rfl⟩
  · rw [heq] at hr
    split at hr
    · cases hr
    · rcases List.mem_append.mp hr with hr | hr
      all_goals
        obtain ⟨e, -, rfl⟩ := List.mem_map.mp hr
        exact ⟨_, rfl⟩

end ContractBuild

namespace CompilerOutput

/-- The records of the output stay, and those that come are made in one way. -/
theorem mem_errors_cases {s : Sandbox} {selection : OutputSelection}
    {output : CompilerOutput} {r : ErrorRecord}
    (hr : r ∈ (output.transpileContracts s selection).errors) :
    r ∈ output.errors ∨ ∃ message, r = .transpilation message := by
  rw [errors_after] at hr
  rcases List.mem_append.mp hr with hr | hr
  · exact .inl hr
  · obtain ⟨e, -, hr⟩ := List.mem_flatMap.mp hr
    rw [Entry.added] at hr
    split at hr
    · exact .inr (ContractBuild.exists_message_of_mem_errors hr)
    · cases hr

theorem wellFormed_transpileContracts (s : Sandbox) (selection : OutputSelection)
    {output : CompilerOutput} (h : output.WellFormed) :
    (output.transpileContracts s selection).WellFormed := by
  refine ⟨fun r hr => ?_, fun file name contract hcontract => ?_, h.other⟩
  · rcases mem_errors_cases hr with hr | ⟨message, rfl⟩
    · exact h.errors r hr
    · exact ContractBuild.wellFormed_transpilation message
  · rw [contract?_after] at hcontract
    obtain ⟨old, hold, rfl⟩ := Option.map_eq_some_iff.mp hcontract
    split
    · exact ContractBuild.wellFormed_withObjects (h.contracts file name old hold) _
    · exact h.contracts file name old hold

theorem wellFormed_transpile (settings : Settings) {output : CompilerOutput}
    (h : output.WellFormed) : (output.transpile settings).WellFormed := by
  rw [transpile]
  split
  · exact wellFormed_transpileContracts _ _ h
  · refine ⟨fun r hr => ?_, fun file name contract hcontract => ?_, OtherFields.sound_empty _⟩
    · cases List.mem_singleton.mp hr
      exact ContractBuild.wellFormed_transpilation _
    · cases hcontract

end CompilerOutput

end EvmSandbox
