/-
Which contracts are to be transpiled: for each file and each contract in it
the outputs that are asked for. A star stands for any file or contract that
has no entry of its own.
-/
import EvmSandbox.Json.Document
import EvmSandbox.Json.Writer

namespace EvmSandbox

/-- A JSON value that is not of the kind that is needed. -/
structure Json.Mismatch where
  found : Json
  expected : String

namespace Json

/-- What a value is said to be where another kind is needed. -/
def describe : Json → String
  | .null => "null"
  | .bool true => "boolean `true`"
  | .bool false => "boolean `false`"
  | .number n@(.real _) => s!"floating point `{n.text}`"
  | .number n => s!"integer `{n.text}`"
  | .string s => s!"string {Text.quoteString s}"
  | .array _ => "sequence"
  | .object _ => "map"

def Mismatch.message (m : Mismatch) : String :=
  s!"invalid type: {m.found.describe}, expected {m.expected}"

def asString : Json → Except Mismatch String
  | .string s => .ok s
  | v => .error ⟨v, "a string"⟩

def asArrayOf {α : Type} (read : Json → Except Mismatch α) : Json → Except Mismatch (List α)
  | .array items => items.mapM read
  | v => .error ⟨v, "a sequence"⟩

def asMapOf {α : Type} (read : Json → Except Mismatch α) : Json → Except Mismatch (KeyMap α)
  | .object fields => do
    let entries ← fields.mapM fun field => do return (field.1, ← read field.2)
    return .ofList entries
  | v => .error ⟨v, "a map"⟩

end Json

/-- The outputs asked for, by file and contract; `none` asks for all of every contract. -/
structure OutputSelection where
  files : Option (KeyMap (KeyMap (List String)))

namespace OutputSelection

def all : OutputSelection := ⟨none⟩

/-- The outputs that hold bytecode. -/
def bytecodeOutputs : List String :=
  ["*", "evm", "evm.bytecode", "evm.bytecode.object", "evm.deployedBytecode",
   "evm.deployedBytecode.object"]

/-- The entry of `key`, or that of the star. -/
def entry {α : Type} (map : KeyMap α) (key : String) : Option α :=
  (map.get? key).or (map.get? "*")

/-- Whether the bytecode of a contract is asked for. -/
def selects (selection : OutputSelection) (file contract : String) : Bool :=
  match selection.files with
  | none => true
  | some files =>
    match (entry files file).bind fun contracts => entry contracts contract with
    | none => false
    | some outputs => outputs.any bytecodeOutputs.contains

def ofJson : Json → Except Json.Mismatch OutputSelection
  | .null => .ok all
  | v => do return ⟨some (← Json.asMapOf (Json.asMapOf (Json.asArrayOf Json.asString)) v)⟩

def toJson (selection : OutputSelection) : Json :=
  match selection.files with
  | none => .null
  | some files =>
    .object (files.entries.map fun file =>
      (file.1, .object (file.2.entries.map fun contract =>
        (contract.1, .array (contract.2.map .string)))))

end OutputSelection

end EvmSandbox
