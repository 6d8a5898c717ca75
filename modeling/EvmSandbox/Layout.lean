/-
The layout of the new code: one block of bytes for each instruction, in
order, and the jump table if some jump goes through it.

A push right before a jump is given the new offset of its target. The target
of any other jump is known only when it runs; as soon as the code shifts,
such jumps go through the jump table.
-/
import EvmSandbox.Layout.JumpTable
import EvmSandbox.Layout.Plan

namespace EvmSandbox

structure Layout where
  slots : List Layout.Slot
  offsets : Layout.Offsets

namespace Layout

/-- A finished relaxation: how many rounds it took, and the length of the jump table in it. -/
structure Pass where
  rounds : Nat
  tableLength : Nat
  deriving DecidableEq

/-- A layout or the reasons why there is none, and the relaxations finished on the way. -/
structure Attempt where
  result : Except (List TranspileError) Layout
  passes : List Pass

/-- The number of jumps through the jump table. -/
def routed (layout : Layout) : Nat :=
  layout.slots.countP Slot.isRouted

def replaced (layout : Layout) : Nat :=
  layout.slots.countP Slot.isReplaced

/-- The `JUMPDEST` instructions with their old and new offsets. -/
def jumpMap (layout : Layout) : List Destination :=
  destinations layout.slots layout.offsets

/-- The number of `JUMPDEST` instructions. -/
def countDestinations (slots : List Slot) : Nat :=
  slots.countP fun slot => slot.instruction.code == Opcode.jumpDest

/-- The bytes of one slot. -/
def block (offsets : Offsets) (tableLength : Nat) (slot : Slot) : Bytes :=
  match slot.emission with
  | .kept => slot.instruction.encode
  | .replaced replacement => replacement.bytes
  | .push value width => (Operation.push width (resolve offsets tableLength value)).encode
  | .tableJump =>
    Operation.encodeAll [.push tableOffsetWidth offsets.bodyEnd, Opcode.jump]
  | .tableJumpI =>
    Operation.encodeAll
      [Opcode.swap1, .push tableOffsetWidth offsets.bodyEnd, Opcode.jumpI, Opcode.pop]

/-- The new code. -/
def code (layout : Layout) : Bytes :=
  let length := tableLength layout.routed (countDestinations layout.slots)
  let body := layout.slots.flatMap (block layout.offsets length)
  if layout.routed = 0 then body
  else body ++ Operation.encodeAll (table layout.jumpMap layout.offsets.bodyEnd)

/-- Whether some instruction has moved. -/
def isShifted (slots : List Slot) (offsets : Offsets) : Bool :=
  (slots.zip offsets.starts.toList).any fun entry => entry.1.instruction.offset != entry.2

private def tooLarge (length : Nat) : List TranspileError :=
  [⟨0, .outputTooLarge length⟩]

/-- Relaxes `slots` after their jumps have been routed, or not. -/
def settle (passes : List Pass) (slots : List Slot) : Attempt × Option Relaxed :=
  let length := tableLength (slots.countP Slot.isRouted) (countDestinations slots)
  match relax length slots with
  | .error total => (⟨.error (tooLarge total), passes⟩, none)
  | .ok relaxed =>
    (⟨.ok ⟨relaxed.slots, relaxed.offsets⟩, passes ++ [⟨relaxed.rounds, length⟩]⟩, some relaxed)

/-- Lays out planned slots. Where instructions are replaced, jumps are routed at once; else only
if widened pushes have shifted the code. -/
def ofSlots (slots : List Slot) : Attempt :=
  let planned := if slots.any Slot.isReplaced then routeJumps slots else slots
  match settle [] planned with
  | (first, none) => first
  | (first, some relaxed) =>
    if relaxed.slots.any Slot.isRouted || !isShifted relaxed.slots relaxed.offsets then first
    else
      let rerouted := routeJumps relaxed.slots
      if rerouted.any Slot.isRouted then (settle first.passes rerouted).1 else first

/-- Lays out `instructions` under the replacement `rules`, with the numbers of the pushes that
`patch?` names by their index. -/
def ofInstructions (rules : RuleTable) (patch? : Nat → Option PushValue)
    (instructions : List Instruction) : Attempt :=
  match plan rules patch? instructions with
  | .error errors => ⟨.error errors, []⟩
  | .ok slots => ofSlots slots

end Layout

end EvmSandbox
