/-
The first emissions of a code. A replacement rule comes first, then a patch,
then the new target of a static jump: a push right before a jump. A static
jump must go to the start of an instruction.
-/
import EvmSandbox.Layout.Slot
import EvmSandbox.Outcome

namespace EvmSandbox.Layout

/-- Looks for the instruction at offset `target` from index `low` up to `high`, in halves: the
offsets of a decoded code ascend. -/
def searchOffset (decoded : Array Instruction) (target low high : Nat) : Option Nat :=
  if low < high then
    let middle := low + (high - low) / 2
    match decoded[middle]? with
    | none => none
    | some i =>
      if i.offset = target then some middle
      else if i.offset < target then searchOffset decoded target (middle + 1) high
      else searchOffset decoded target low middle
  else none
  termination_by high - low

/-- The index of the instruction at the offset that the bytes spell. Offsets have 32 bits, so there
is none if more than four bytes count. -/
def resolveTarget (decoded : Array Instruction) (immediate : Bytes) : Option Nat :=
  let significant := Bytes.significant immediate
  if 4 < significant.length then none
  else
    let target : UInt32 :=
      significant.foldl (fun (value : UInt32) byte => (value <<< 8) ||| byte.toUInt32) 0
    searchOffset decoded target.toNat 0 decoded.size

/-- Whether the instruction is a push whose number is consumed by the jump after it. -/
def isStaticJump (instruction : Instruction) (next : Option Instruction) : Bool :=
  Opcode.isPush instruction.code && next.any fun i => Opcode.isJump i.code

/-- The emission of one instruction, given its patch and the instruction after it. -/
def choose (rules : RuleTable) (decoded : Array Instruction) (patch : Option PushValue)
    (instruction : Instruction) (next : Option Instruction) : Except TranspileError Slot :=
  match rules.replace? instruction, patch with
  | some replacement, _ => .ok ⟨instruction, .replaced replacement⟩
  | none, some value => .ok ⟨instruction, .push value instruction.immediate.length⟩
  | none, none =>
    if isStaticJump instruction next then
      match resolveTarget decoded instruction.immediate with
      | some index => .ok ⟨instruction, .push (.target index) instruction.immediate.length⟩
      | none =>
        .error ⟨instruction.offset, .invalidJumpTarget (Bytes.toNat instruction.immediate)⟩
    else .ok ⟨instruction, .kept⟩

/-- The instruction after each instruction. -/
def successors (instructions : List Instruction) : List (Option Instruction) :=
  (instructions.drop 1).map some ++ [none]

/-- The slots of a code, or every static jump that goes astray. -/
def plan (rules : RuleTable) (patch? : Nat → Option PushValue) (instructions : List Instruction) :
    Except (List TranspileError) (List Slot) :=
  let decoded := instructions.toArray
  let chosen := (instructions.zipIdx.zip (successors instructions)).map fun entry =>
    choose rules decoded (patch? entry.1.2) entry.1.1 entry.2
  let errors := chosen.filterMap fun
    | .error e => some e
    | .ok _ => none
  let slots := chosen.filterMap fun
    | .error _ => none
    | .ok slot => some slot
  if errors.isEmpty then .ok slots else .error errors

end EvmSandbox.Layout
