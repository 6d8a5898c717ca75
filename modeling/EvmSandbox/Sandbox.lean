/-
Transpiling: code becomes safe to run in the sandbox when each of its
instructions is allowed or replaced by a call to the manager.
-/
import EvmSandbox.Layout
import EvmSandbox.Log
import EvmSandbox.Metadata
import EvmSandbox.RuntimeCopy
import EvmSandbox.Whitelist

namespace EvmSandbox

open RuntimeCopy (EmbeddedRuntime Patches)

/-- What runs in the sandbox: the codes that are allowed and the rules for those that are
replaced. -/
structure Sandbox where
  manager : Address
  whitelist : Whitelist
  rules : RuleTable

/-- The longest code that a contract can be deployed with. -/
def maxContractSize : Nat := 0x6000

/-- An outcome and what happened on the way to it. -/
structure Report (α : Type) where
  value : α
  events : List Event

namespace Sandbox

/-- The sandbox around `manager` with the usual rules. -/
def standard (manager : Address) (whitelist : Whitelist := .standard) : Sandbox :=
  ⟨manager, whitelist, .standard manager⟩

/-- Whether code with this instruction can be made safe. -/
def admits (s : Sandbox) (code : UInt8) : Bool :=
  s.whitelist.isAllowed code || s.rules.contains code

/-- One error for each instruction that is neither allowed nor replaced. -/
def disallowed (s : Sandbox) (instructions : List Instruction) : List TranspileError :=
  (instructions.filter fun i => !s.admits i.code).map fun i => ⟨i.offset, .disallowed i.code⟩

/-- The patches of a constructor; none are needed where nothing moves. -/
def patches? (s : Sandbox) (instructions : List Instruction) :
    Option EmbeddedRuntime → Option Patches
  | none => some .none
  | some runtime =>
    match RuntimeCopy.patches? runtime instructions with
    | some patches => some patches
    | none =>
      if runtime.keepsLength && !instructions.any fun i => s.rules.contains i.code then
        some .none
      else none

private def undecodable (error : DecodeError) : Event :=
  ⟨.debug, "Bytecode could not be decoded", [("err", .text error.message)]⟩

private def foundDisallowed (count : Nat) : Event :=
  ⟨.debug, "Bytecode contains disallowed opcodes", [("errors", .number count)]⟩

private def copyNotFound (offset : Nat) : Event :=
  ⟨.debug, "Runtime copy not found in constructor", [("runtime_offset", .number offset)]⟩

private def layoutStable (pass : Layout.Pass) : Event :=
  ⟨.trace, "Jump layout stable",
    [("rounds", .number pass.rounds), ("table_len", .number pass.tableLength)]⟩

private def transpiled (input output : Nat) (layout : Layout) (patched : Nat) : Event :=
  ⟨.debug, "Bytecode transpiled",
    [("input_len", .number input), ("output_len", .number output),
     ("replaced", .number layout.replaced), ("routed_jumps", .number layout.routed),
     ("jump_destinations", .number layout.jumpMap.length), ("patched", .number patched)]⟩

private def exceedsLimit (input output : Nat) : Event :=
  ⟨.warn, "Transpiled deployed bytecode exceeds the contract size limit",
    [("original_len", .number input), ("transpiled_len", .number output),
     ("limit", .number maxContractSize)]⟩

/-- Transpiles the bytes of `code` as they are; `runtime` is the runtime that follows them, if
they are a constructor. -/
def transpileCode (s : Sandbox) (code : Bytes) (runtime : Option EmbeddedRuntime) :
    Report Outcome :=
  match Instruction.decode code with
  | .error error => ⟨.error [.ofDecode error], [undecodable error]⟩
  | .ok instructions =>
    let errors := s.disallowed instructions
    if !errors.isEmpty then ⟨.error errors, [foundDisallowed errors.length]⟩
    else
      match s.patches? instructions runtime with
      | none =>
        let offset := (runtime.map (·.offset)).getD 0
        ⟨.error [⟨0, .unrecognizedRuntimeCopy⟩], [copyNotFound offset]⟩
      | some patches =>
        let table := patches.table instructions.length
        let attempt := Layout.ofInstructions s.rules (fun i => table.getD i none) instructions
        let passes := attempt.passes.map layoutStable
        match attempt.result with
        | .error errors => ⟨.error errors, passes⟩
        | .ok layout =>
          let output := layout.code
          let patched := table.countP Option.isSome
          ⟨.ok output, passes ++ [transpiled code.length output.length layout patched]⟩

/-- Transpiles deployed code, without its metadata. -/
def transpileDeployed (s : Sandbox) (code : Bytes) : Report Outcome :=
  s.transpileCode (Metadata.strip code) none

end Sandbox

/-- The outcomes for the two codes of a contract. -/
structure TranspiledContract where
  /-- Only the constructor, if the creation code ends with the deployed code. -/
  constructor : Outcome
  deployed : Outcome
  /-- Whether the creation code ends with the deployed code. -/
  embedsRuntime : Bool

namespace TranspiledContract

/-- The new creation code, if both parts that make it up succeeded. -/
def creation? (contract : TranspiledContract) : Option Bytes :=
  match contract.constructor with
  | .error _ => none
  | .ok constructor =>
    if contract.embedsRuntime then
      match contract.deployed with
      | .error _ => none
      | .ok deployed => some (constructor ++ deployed)
    else some constructor

def isSuccessful (contract : TranspiledContract) : Bool :=
  contract.constructor.isSuccessful && contract.deployed.isSuccessful

end TranspiledContract

namespace Sandbox

/-- Whether the creation code ends with the deployed code. -/
def embeds (bytecode deployed : Bytes) : Bool :=
  !deployed.isEmpty && deployed.isSuffixOf bytecode

/-- Where the deployed code lies at the end of the creation code, and the length of what it
became. -/
def runtimeOf (bytecode deployed : Bytes) (outcome : Outcome) : Option EmbeddedRuntime :=
  outcome.bytecode?.map fun code =>
    ⟨bytecode.length - deployed.length, deployed.length, code.length⟩

/-- Transpiles the creation code and the deployed code of a contract. `inputLength` is what the
log gives as the length before. -/
def transpile (s : Sandbox) (bytecode deployed : Bytes) (inputLength : Nat) :
    Report TranspiledContract :=
  let embedsRuntime := embeds bytecode deployed
  let runtime := s.transpileDeployed deployed
  let constructor :=
    if embedsRuntime then
      s.transpileCode (bytecode.take (bytecode.length - deployed.length))
        (runtimeOf bytecode deployed runtime.value)
    else s.transpileCode (Metadata.strip bytecode) none
  let warnings :=
    match runtime.value with
    | .ok code => if maxContractSize < code.length then [exceedsLimit inputLength code.length] else []
    | .error _ => []
  ⟨⟨constructor.value, runtime.value, embedsRuntime⟩,
    runtime.events ++ constructor.events ++ warnings⟩

end Sandbox

end EvmSandbox
