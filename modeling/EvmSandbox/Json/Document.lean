/-
JSON documents as far as they can be made out. A document is the tree of a
text up to the first place at which the text is not JSON; the fault stands
where it was found. Readers of typed values go through the tree in the order
of the text, so the first problem in the text is the one they report, be it a
fault of the text or a value of the wrong kind.

A value that nobody reads is skipped, and skipping is more lenient: it does
not care whether numbers are too large, escapes are halves of a pair, or
values are nested too deeply.
-/
import EvmSandbox.Json.Basic
import EvmSandbox.KeyMap

namespace EvmSandbox.Json

inductive Fault where
  /-- The text ended too early. -/
  | incomplete
  /-- The text is not JSON. -/
  | malformed
  /-- The value is not of the kind that is needed. -/
  | mismatched
  deriving DecidableEq

def Fault.message : Fault → String
  | .incomplete => "the text ends too early"
  | .malformed => "the text is not JSON"
  | .mismatched => "a value is not of the kind that is needed"

/-- Where a text stops being JSON: what a reader says of it, what skipping does, and what is said
where one of several names is needed. -/
structure Break where
  reading : Fault
  skipping : Fault
  naming : Fault
  deriving DecidableEq

namespace Break

/-- All say the same. -/
def all (fault : Fault) : Break := ⟨fault, fault, fault⟩

/-- Something begins that cannot be a name. -/
def unnamed (reading skipping : Fault) : Break := ⟨reading, skipping, .malformed⟩

end Break

inductive Document where
  | null
  | bool (value : Bool)
  /-- No value if the number is too large. -/
  | number (value : Option Number)
  /-- No value if the text has half of a pair of escapes. -/
  | string (value : Option String)
  /-- `deep` tells that the array is nested too deeply to be read. It is complete if nothing
  broke it off. -/
  | array (deep : Bool) (items : List Document) (ending : Option Break)
  /-- An object like an array of fields; a key may have no value, like any string. -/
  | object (deep : Bool) (fields : List (Option String × Document)) (ending : Option Break)
  | broken (fault : Break)
  deriving Inhabited

namespace Document

/-- Complains of a value that is not of the kind that is needed. A number or a text is made out
first; what is inside an array or an object is not looked at. -/
def mismatch : Document → Fault
  | .number none => .malformed
  | .string none => .malformed
  | .broken b => b.reading
  | _ => .mismatched

/-- What remains of a list after its last member. -/
def finish (ending : Option Break) : Except Fault Unit :=
  match ending with
  | none => .ok ()
  | some b => .error b.reading

def text : Document → Except Fault String
  | .string (some s) => .ok s
  | d => .error d.mismatch

/-- The members of an array, and what breaks it off. -/
def items : Document → Except Fault (List Document × Option Break)
  | .array true _ _ => .error .malformed
  | .array false items ending => .ok (items, ending)
  | d => .error d.mismatch

/-- The fields of an object, and what breaks it off. -/
def fields : Document → Except Fault (List (Option String × Document) × Option Break)
  | .object true _ _ => .error .malformed
  | .object false fields ending => .ok (fields, ending)
  | d => .error d.mismatch

/-- A value or `null`. -/
def optional {α : Type} (read : Document → Except Fault α) : Document → Except Fault (Option α)
  | .null => .ok none
  | d => (read d).map some

/-- Reads the members of an array one after the other. -/
def arrayOf {α : Type} (read : Document → Except Fault α) (d : Document) :
    Except Fault (List α) := do
  let (items, ending) ← d.items
  let values ← items.mapM read
  finish ending
  return values

/-- Reads one field with `step`, once its key has been made out. -/
def takeField {σ : Type} (step : σ → String → Document → Except Fault σ) (state : σ)
    (field : Option String × Document) : Except Fault σ :=
  match field.1 with
  | none => .error .malformed
  | some key => step state key field.2

/-- Reads the fields of an object one after the other, with `step` for each. -/
def foldFields {σ : Type} (step : σ → String → Document → Except Fault σ) (start : σ)
    (d : Document) : Except Fault σ := do
  let (fields, ending) ← d.fields
  let result ← fields.foldlM (takeField step) start
  finish ending
  return result

/-- Reads a field that may come only once; `met` is what it held before. -/
def once {α : Type} (met : Option α) (read : Document → Except Fault α) (d : Document) :
    Except Fault (Option α) :=
  match met with
  | some _ => .error .mismatched
  | none => (read d).map some

/-- Reads an object all of whose fields are of one kind. -/
def mapOf {α : Type} (read : Document → Except Fault α) (d : Document) :
    Except Fault (KeyMap α) :=
  d.foldFields (fun map key value => (read value).map (map.insert key)) .empty

mutual

/-- Passes over a value that is not needed. -/
def skip : Document → Except Fault Unit
  | .array _ items ending => do
    skipItems items
    match ending with
    | none => .ok ()
    | some b => .error b.skipping
  | .object _ fields ending => do
    skipFields fields
    match ending with
    | none => .ok ()
    | some b => .error b.skipping
  | .broken b => .error b.skipping
  | _ => .ok ()

def skipItems : List Document → Except Fault Unit
  | [] => .ok ()
  | item :: items => do
    skip item
    skipItems items

def skipFields : List (Option String × Document) → Except Fault Unit
  | [] => .ok ()
  | (_, value) :: fields => do
    skip value
    skipFields fields

end

mutual

/-- Reads any value. The fields of an object are put in ascending order of their keys; of several
with one key the last counts. -/
def value : Document → Except Fault Json
  | .null => .ok .null
  | .bool b => .ok (.bool b)
  | .number (some n) => .ok (.number n)
  | .number none => .error .malformed
  | .string (some s) => .ok (.string s)
  | .string none => .error .malformed
  | .array true _ _ => .error .malformed
  | .array false items ending => do
    let values ← valueItems items
    finish ending
    return .array values
  | .object true _ _ => .error .malformed
  | .object false fields ending => do
    let entries ← valueFields fields
    finish ending
    return .object (KeyMap.ofList entries).entries
  | .broken b => .error b.reading

def valueItems : List Document → Except Fault (List Json)
  | [] => .ok []
  | item :: items => do
    let first ← value item
    let rest ← valueItems items
    return first :: rest

def valueFields : List (Option String × Document) → Except Fault (List (String × Json))
  | [] => .ok []
  | (none, _) :: _ => .error .malformed
  | (some key, item) :: fields => do
    let first ← value item
    let rest ← valueFields fields
    return (key, first) :: rest

end

end Document

end EvmSandbox.Json
