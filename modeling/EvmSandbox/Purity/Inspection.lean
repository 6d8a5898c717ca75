/-
The inspection of one contract: each of its instructions must be allowed or
belong to a complete call to the manager, and the target of each call must be
a constant, pushed right before the gas.
-/
import EvmSandbox.ManagerCall
import EvmSandbox.Metadata
import EvmSandbox.Purity.CodeSource
import EvmSandbox.Whitelist

namespace EvmSandbox.Purity

/-- Why a contract is not pure. -/
inductive Impurity where
  | missingCode (address : Address)
  | sourceFailed (address : Address) (message : String)
  | undecodable (address : Address) (error : DecodeError)
  | disallowed (address : Address) (offset : Nat) (code : UInt8)
  | unresolvableTarget (address : Address) (offset : Nat)
  | depthExceeded (address : Address) (maxDepth : Nat)
  deriving DecidableEq

namespace Impurity

/-- The contract at fault. -/
def address : Impurity → Address
  | .missingCode address => address
  | .sourceFailed address _ => address
  | .undecodable address _ => address
  | .disallowed address _ _ => address
  | .unresolvableTarget address _ => address
  | .depthExceeded address _ => address

def message : Impurity → String
  | .missingCode address => s!"no code at {address.text}"
  | .sourceFailed address message => s!"failed to fetch code at {address.text}: {message}"
  | .undecodable address error => s!"undecodable code at {address.text}: {error.message}"
  | .disallowed address offset code =>
    s!"disallowed opcode {Opcode.codeText code} at {address.text} offset {offset}"
  | .unresolvableTarget address offset =>
    s!"unresolvable call target at {address.text} offset {offset}"
  | .depthExceeded address maxDepth =>
    s!"call depth of {maxDepth} exceeded reaching {address.text}"

end Impurity

/-- What a check goes by. -/
structure Checker where
  source : CodeSource
  manager : Address
  whitelist : Whitelist
  /-- The largest number of calls that are followed from the contract in question. -/
  maxDepth : Nat

/-- The number of calls that are followed if nothing else is said. -/
def defaultMaxDepth : Nat := 32

/-- The calls to the manager that stand for instructions, with those instructions. -/
def sequences (manager : Address) : List (UInt8 × Bytes) :=
  ManagerCall.standard.map fun entry => (entry.1, entry.2.encode manager)

/-- The sequence that the bytes begin with. -/
def sequenceAt (sequences : List (UInt8 × Bytes)) (bytes : Bytes) : Option (UInt8 × Bytes) :=
  sequences.find? fun entry => entry.2.isPrefixOf bytes

/-- Whether the instruction may push the gas of a call. -/
def pushesGas (code : UInt8) : Bool :=
  code == Opcode.gas || code == Opcode.push0 || Opcode.isPush code

/-- The target of a call, given the instructions before it, nearest first. -/
def callTarget (before : List Instruction) : Option Address :=
  match before with
  | gas :: push :: _ =>
    if pushesGas gas.code && push.code == Opcode.push20 then
      FixedBytes.ofBytes? 20 push.immediate
    else none
  | _ => none

/-- Where an inspection stands in the code. -/
structure Position where
  /-- The bytes from the next instruction on. -/
  bytes : Bytes
  /-- The instructions before, nearest first. -/
  before : List Instruction
  /-- The end of the sequence that was entered last. -/
  resume : Nat

/-- Goes on to the next instruction. -/
def Position.step (p : Position) (i : Instruction) : Position :=
  { p with bytes := p.bytes.drop i.size, before := i :: p.before }

/-- The target of a call at `i`, or no target if it is no call. -/
def resolveCall (address : Address) (target : Option Address) (i : Instruction) (calls : Bool) :
    Except Impurity (List Address) :=
  if calls then
    match target with
    | some target => .ok [target]
    | none => .error (.unresolvableTarget address i.offset)
  else .ok []

/-- Inspects one instruction: the position after it, and the target if it calls. An instruction
inside the sequence entered last is passed over. -/
def inspectOne (whitelist : Whitelist) (sequences : List (UInt8 × Bytes)) (address : Address)
    (p : Position) (i : Instruction) : Except Impurity (Position × List Address) :=
  let next := p.step i
  if i.offset < p.resume then .ok (next, [])
  else
    match sequenceAt sequences p.bytes with
    | some (replaced, sequence) => do
      let targets ← resolveCall address (callTarget p.before) i (Opcode.isCall replaced)
      return ({ next with resume := i.offset + sequence.length }, targets)
    | none =>
      if whitelist.isAllowed i.code then do
        let targets ← resolveCall address (callTarget p.before) i (Opcode.isCall i.code)
        return (next, targets)
      else .error (.disallowed address i.offset i.code)

/-- Inspects the instructions from a position on, with the targets of the calls before it, last
one first. -/
def inspectFrom (whitelist : Whitelist) (sequences : List (UInt8 × Bytes)) (address : Address)
    (p : Position) (targets : List Address) : List Instruction → Except Impurity (List Address)
  | [] => .ok targets.reverse
  | i :: rest =>
    match inspectOne whitelist sequences address p i with
    | .error reason => .error reason
    | .ok (next, found) =>
      inspectFrom whitelist sequences address next (found ++ targets) rest

/-- The targets of the calls of the contract at `address`, in the order of its code, or why the
contract is not pure. -/
def Checker.inspect (c : Checker) (address : Address) : Except Impurity (List Address) :=
  match c.source.code address with
  | .error message => .error (.sourceFailed address message)
  | .ok none => .error (.missingCode address)
  | .ok (some stored) =>
    let code := Metadata.strip stored
    match Instruction.decode code with
    | .error error => .error (.undecodable address error)
    | .ok instructions =>
      inspectFrom c.whitelist (sequences c.manager) address ⟨code, [], 0⟩ [] instructions

end EvmSandbox.Purity
