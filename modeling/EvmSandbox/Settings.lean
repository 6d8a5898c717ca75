/-
Settings as they are given, and what they mean once they have been looked at.
-/
import EvmSandbox.Json.Reader
import EvmSandbox.OutputSelection
import EvmSandbox.Sandbox

namespace EvmSandbox

/-- What is given: the address of the manager, a mask in place of the usual one, and a selection
of contracts. -/
structure Settings where
  managerAddress : Option String := none
  whitelistMask : Option String := none
  outputSelection : Option Json := none
  deriving Inhabited

inductive ConfigError where
  | missingManager
  | invalidManager (value : String) (cause : Hex.Error)
  | whitelist (cause : Whitelist.ParseError)
  | malformedSelection (cause : Json.Mismatch)

def ConfigError.message : ConfigError → String
  | .missingManager => "missing required option `executionManagerAddress`"
  | .invalidManager value cause =>
    s!"invalid execution manager address `{value}`: {cause.message}"
  | .whitelist cause => cause.message
  | .malformedSelection cause => s!"malformed output selection: {cause.message}"

namespace Settings

/-- The sandbox that the settings describe. -/
def sandbox (settings : Settings) : Except ConfigError Sandbox := do
  let some value := settings.managerAddress | .error .missingManager
  let manager ← (Address.parse (Text.trim value.toList)).mapError (.invalidManager value)
  let whitelist ←
    match settings.whitelistMask with
    | none => pure Whitelist.standard
    | some mask => (Whitelist.parse mask.toList).mapError .whitelist
  return .standard manager whitelist

def selection (settings : Settings) : Except ConfigError OutputSelection :=
  match settings.outputSelection with
  | none => .ok .all
  | some value => (OutputSelection.ofJson value).mapError .malformedSelection

/-- Everything the settings say; the first thing wrong with them counts. -/
def validate (settings : Settings) : Except ConfigError (Sandbox × OutputSelection) := do
  let sandbox ← settings.sandbox
  let selection ← settings.selection
  return (sandbox, selection)

/-! ## Reading and writing -/

open Json (Document Fault)

/-- The fields that were met, each with what it holds. -/
private structure Met where
  managerAddress : Option (Option String) := none
  whitelistMask : Option (Option String) := none
  outputSelection : Option (Option Json) := none

private def Met.settings (m : Met) : Settings :=
  ⟨m.managerAddress.join, m.whitelistMask.join, m.outputSelection.join⟩

/-- Takes a field; none may come twice, and those with other names do not matter. -/
private def takeField (m : Met) (key : String) (d : Document) : Except Fault Met :=
  if key == "executionManagerAddress" then do
    let value ← Document.once m.managerAddress (Document.optional Document.text) d
    return { m with managerAddress := value }
  else if key == "whitelistMask" then do
    let value ← Document.once m.whitelistMask (Document.optional Document.text) d
    return { m with whitelistMask := value }
  else if key == "outputSelection" then do
    let value ← Document.once m.outputSelection (Document.optional Document.value) d
    return { m with outputSelection := value }
  else do
    d.skip
    return m

/-- Reads the first of the members of an array that are left, as `null` if there is none. -/
private def takeItem {α : Type} (read : Document → Except Fault (Option α)) (items : List Document)
    (ending : Option Json.Break) : Except Fault (Option α × List Document) :=
  match items with
  | [] => do
    Document.finish ending
    return (none, [])
  | item :: rest => do
    let value ← read item
    return (value, rest)

/-- Reads settings from an object, or from an array of its values in order. -/
def ofDocument (d : Document) : Except Fault Settings :=
  match d with
  | .array .. => do
    let (items, ending) ← d.items
    let (managerAddress, items) ← takeItem (Document.optional Document.text) items ending
    let (whitelistMask, items) ← takeItem (Document.optional Document.text) items ending
    let (outputSelection, items) ← takeItem (Document.optional Document.value) items ending
    if !items.isEmpty then .error .malformed
    else
      Document.finish ending
      return ⟨managerAddress, whitelistMask, outputSelection⟩
  | _ => do
    let met ← d.foldFields takeField {}
    return met.settings

def parse (text : String) : Except Fault Settings :=
  Json.read ofDocument text

private def field? (key : String) (value : Option Json) : List (String × Json) :=
  match value with
  | none => []
  | some v => [(key, v)]

/-- The settings as an object of what is given. -/
def toJson (settings : Settings) : Json :=
  .object
    (field? "executionManagerAddress" (settings.managerAddress.map .string) ++
      field? "whitelistMask" (settings.whitelistMask.map .string) ++
      field? "outputSelection" settings.outputSelection)

end Settings

end EvmSandbox
