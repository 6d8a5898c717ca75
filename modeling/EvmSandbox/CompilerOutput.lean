/-
The JSON output of a compiler. Only the parts that transpiling reads or
writes have names here; all other fields are carried along as they are.
-/
import EvmSandbox.Json.Reader
import EvmSandbox.Json.Writer

namespace EvmSandbox

open Json (Document Fault)

/-- The fields without a name of their own. -/
abbrev OtherFields := KeyMap Json

inductive Severity where
  | error
  | warning
  | info
  deriving DecidableEq

/-- An error, a warning or a remark. -/
structure ErrorRecord where
  component : String
  message : String
  severity : Severity
  kind : String
  formattedMessage : Option String
  other : OtherFields

/-- Bytecode in hexadecimal digits. -/
structure BytecodeOutput where
  object : String
  other : OtherFields

structure EvmOutput where
  bytecode : Option BytecodeOutput
  deployedBytecode : Option BytecodeOutput
  other : OtherFields

structure ContractOutput where
  evm : Option EvmOutput
  other : OtherFields

structure CompilerOutput where
  errors : List ErrorRecord
  /-- The contracts by file and name. -/
  contracts : KeyMap (KeyMap ContractOutput)
  other : OtherFields

/-! ## Reading

A named field may come only once. Of several other fields with one name the last counts. -/

/-- Takes a field without a name of its own. -/
def OtherFields.take (other : OtherFields) (key : String) (d : Document) :
    Except Fault OtherFields :=
  d.value.map (other.insert key)

namespace Severity

def ofName : String → Except Fault Severity
  | "error" => .ok .error
  | "warning" => .ok .warning
  | "info" => .ok .info
  | _ => .error .mismatched

/-- Reads a severity by its name, or by an object whose one key is the name and whose value is
`null`. Anything else is not even taken for a value. -/
def ofDocument : Document → Except Fault Severity
  | .string (some name) => ofName name
  | .string none => .error .malformed
  | .object true _ _ => .error .malformed
  | .object false [] (some b) => .error b.naming
  | .object false ((some name, value) :: rest) ending => do
    let severity ← ofName name
    match value with
    | .null =>
      match rest, ending with
      | [], none => return severity
      | [], some b => .error b.naming
      | _ :: _, _ => .error .malformed
    | d => .error d.mismatch
  | .broken b => .error b.naming
  | _ => .error .malformed

def name : Severity → String
  | .error => "error"
  | .warning => "warning"
  | .info => "info"

end Severity

namespace ErrorRecord

/-- What has been met of a record; a field that may come only once is none before it comes. -/
structure Met where
  component : Option String := none
  message : Option String := none
  severity : Option Severity := none
  kind : Option String := none
  formattedMessage : Option (Option String) := none
  other : OtherFields := .empty

def Met.take (m : Met) (key : String) (d : Document) : Except Fault Met :=
  if key == "component" then do
    return { m with component := ← Document.once m.component Document.text d }
  else if key == "message" then do
    return { m with message := ← Document.once m.message Document.text d }
  else if key == "severity" then do
    return { m with severity := ← Document.once m.severity Severity.ofDocument d }
  else if key == "type" then do
    return { m with kind := ← Document.once m.kind Document.text d }
  else if key == "formattedMessage" then do
    return { m with
      formattedMessage := ← Document.once m.formattedMessage (Document.optional Document.text) d }
  else do
    return { m with other := ← m.other.take key d }

def ofDocument (d : Document) : Except Fault ErrorRecord := do
  let met ← d.foldFields Met.take {}
  match met.message, met.severity, met.kind with
  | some message, some severity, some kind =>
    return ⟨met.component.getD "", message, severity, kind, met.formattedMessage.join, met.other⟩
  | _, _, _ => .error .mismatched

end ErrorRecord

namespace BytecodeOutput

def take (met : Option String × OtherFields) (key : String) (d : Document) :
    Except Fault (Option String × OtherFields) :=
  if key == "object" then do
    return (← Document.once met.1 Document.text d, met.2)
  else do
    return (met.1, ← met.2.take key d)

def ofDocument (d : Document) : Except Fault BytecodeOutput := do
  let (object, other) ← d.foldFields take (none, .empty)
  return ⟨object.getD "", other⟩

end BytecodeOutput

namespace EvmOutput

structure Met where
  bytecode : Option (Option BytecodeOutput) := none
  deployedBytecode : Option (Option BytecodeOutput) := none
  other : OtherFields := .empty

def Met.take (m : Met) (key : String) (d : Document) : Except Fault Met :=
  if key == "bytecode" then do
    let value ← Document.once m.bytecode (Document.optional BytecodeOutput.ofDocument) d
    return { m with bytecode := value }
  else if key == "deployedBytecode" then do
    let value ← Document.once m.deployedBytecode (Document.optional BytecodeOutput.ofDocument) d
    return { m with deployedBytecode := value }
  else do
    return { m with other := ← m.other.take key d }

def ofDocument (d : Document) : Except Fault EvmOutput := do
  let met ← d.foldFields Met.take {}
  return ⟨met.bytecode.join, met.deployedBytecode.join, met.other⟩

end EvmOutput

namespace ContractOutput

def take (met : Option (Option EvmOutput) × OtherFields) (key : String) (d : Document) :
    Except Fault (Option (Option EvmOutput) × OtherFields) :=
  if key == "evm" then do
    return (← Document.once met.1 (Document.optional EvmOutput.ofDocument) d, met.2)
  else do
    return (met.1, ← met.2.take key d)

def ofDocument (d : Document) : Except Fault ContractOutput := do
  let (evm, other) ← d.foldFields take (none, .empty)
  return ⟨evm.join, other⟩

end ContractOutput

namespace CompilerOutput

structure Met where
  errors : Option (List ErrorRecord) := none
  contracts : Option (KeyMap (KeyMap ContractOutput)) := none
  other : OtherFields := .empty

def Met.take (m : Met) (key : String) (d : Document) : Except Fault Met :=
  if key == "errors" then do
    return { m with errors := ← Document.once m.errors (Document.arrayOf ErrorRecord.ofDocument) d }
  else if key == "contracts" then do
    let read := Document.mapOf (Document.mapOf ContractOutput.ofDocument)
    return { m with contracts := ← Document.once m.contracts read d }
  else do
    return { m with other := ← m.other.take key d }

def ofDocument (d : Document) : Except Fault CompilerOutput := do
  let met ← d.foldFields Met.take {}
  return ⟨met.errors.getD [], met.contracts.getD .empty, met.other⟩

def parse (text : String) : Except Fault CompilerOutput :=
  Json.read ofDocument text

end CompilerOutput

/-! ## Writing

Named fields come first, in a fixed order, and then the others in the order of their keys. Fields
that hold nothing are left out. -/

/-- One field, or none if there is no value. -/
def optionalField {α : Type} (key : String) (toJson : α → Json) (value : Option α) :
    List (String × Json) :=
  match value with
  | none => []
  | some v => [(key, toJson v)]

def ErrorRecord.toJson (r : ErrorRecord) : Json :=
  .object
    ([("component", .string r.component), ("message", .string r.message),
      ("severity", .string r.severity.name), ("type", .string r.kind)] ++
      optionalField "formattedMessage" .string r.formattedMessage ++ r.other.entries)

def BytecodeOutput.toJson (b : BytecodeOutput) : Json :=
  .object (("object", .string b.object) :: b.other.entries)

def EvmOutput.toJson (e : EvmOutput) : Json :=
  .object
    (optionalField "bytecode" BytecodeOutput.toJson e.bytecode ++
      optionalField "deployedBytecode" BytecodeOutput.toJson e.deployedBytecode ++
      e.other.entries)

def ContractOutput.toJson (c : ContractOutput) : Json :=
  .object (optionalField "evm" EvmOutput.toJson c.evm ++ c.other.entries)

namespace CompilerOutput

/-- The contracts by file and name as an object of objects. -/
def contractsJson (contracts : KeyMap (KeyMap ContractOutput)) : Json :=
  .object (contracts.entries.map fun file =>
    (file.1, .object (file.2.entries.map fun contract => (contract.1, contract.2.toJson))))

def toJson (output : CompilerOutput) : Json :=
  .object
    ((if output.errors.isEmpty then []
      else [("errors", .array (output.errors.map ErrorRecord.toJson))]) ++
      (if output.contracts.isEmpty then []
       else [("contracts", contractsJson output.contracts)]) ++
      output.other.entries)

end CompilerOutput

end EvmSandbox
