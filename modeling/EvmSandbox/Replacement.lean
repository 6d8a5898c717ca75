/-
Replacement rules: what stands in the output in place of an instruction.
There is at most one rule for each instruction code.
-/
import EvmSandbox.ManagerCall

namespace EvmSandbox

/-- The bytes that stand for an instruction. Their number is kept beside them, because a layout
asks for it more often than for the bytes. -/
structure Replacement where
  bytes : Bytes
  size : Nat
  size_eq : size = bytes.length

def Replacement.ofBytes (bytes : Bytes) : Replacement :=
  ⟨bytes, bytes.length, rfl⟩

/-- A rule replaces the instructions with one code. -/
structure Rule where
  code : UInt8
  replace : Instruction → Replacement

/-- The rule that puts a call to `manager` in place of an instruction. -/
def Rule.ofCall (code : UInt8) (call : ManagerCall) (manager : Address) : Rule :=
  let replacement := Replacement.ofBytes (call.encode manager)
  ⟨code, fun _ => replacement⟩

/-- The rules in force, by instruction code. -/
structure RuleTable where
  get? : UInt8 → Option Rule

namespace RuleTable

def empty : RuleTable := ⟨fun _ => none⟩

def insert (table : RuleTable) (rule : Rule) : RuleTable :=
  ⟨fun code => if code = rule.code then some rule else table.get? code⟩

def erase (table : RuleTable) (code : UInt8) : RuleTable :=
  ⟨fun other => if other = code then none else table.get? other⟩

@[simp] theorem get?_insert (table : RuleTable) (rule : Rule) (code : UInt8) :
    (table.insert rule).get? code = if code = rule.code then some rule else table.get? code :=
  rfl

@[simp] theorem get?_erase (table : RuleTable) (code other : UInt8) :
    (table.erase code).get? other = if other = code then none else table.get? other :=
  rfl

/-- Whether there is a rule for `code`. -/
def contains (table : RuleTable) (code : UInt8) : Bool :=
  (table.get? code).isSome

/-- The codes that have a rule, in ascending order. -/
def codes (table : RuleTable) : List UInt8 :=
  ((List.range 256).map UInt8.ofNat).filter table.contains

/-- What stands for `instruction`, `none` if it stays as it is. -/
def replace? (table : RuleTable) (instruction : Instruction) : Option Replacement :=
  (table.get? instruction.code).map fun rule => rule.replace instruction

/-- The rules that put a call to `manager` in place of each instruction the manager stands in
for. -/
def standard (manager : Address) : RuleTable :=
  ManagerCall.standard.foldl
    (fun table entry => table.insert (.ofCall entry.1 entry.2 manager)) empty

end RuleTable

end EvmSandbox
