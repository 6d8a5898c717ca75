/-
What the instructions of a code turn into. A slot holds an instruction and
its emission; the slots of a code, in order, make up the body of the new
code.
-/
import EvmSandbox.Replacement

namespace EvmSandbox.Layout

/-- A number that a push needs and that only the finished layout knows. -/
inductive PushValue where
  /-- The new offset of the instruction with this index. -/
  | target (index : Nat)
  /-- The length of the new code and its jump table, plus a constant. -/
  | pastEnd (extra : UInt64)
  | constant (value : UInt64)
  deriving DecidableEq

inductive Emission where
  /-- The instruction as it is. -/
  | kept
  | replaced (replacement : Replacement)
  /-- A push of `value` in `width` bytes. -/
  | push (value : PushValue) (width : Nat)
  /-- A jump by way of the jump table. -/
  | tableJump
  /-- A conditional jump by way of the jump table. -/
  | tableJumpI

structure Slot where
  instruction : Instruction
  emission : Emission

/-- The number of bytes in which the jump table and the jumps to it write offsets. -/
def tableOffsetWidth : Nat := 4

namespace Slot

/-- The number of bytes the slot takes in the new code. -/
def size (slot : Slot) : Nat :=
  match slot.emission with
  | .kept => slot.instruction.size
  | .replaced replacement => replacement.size
  | .push _ width => 1 + width
  | .tableJump => tableOffsetWidth + 2
  | .tableJumpI => tableOffsetWidth + 4

def isReplaced (slot : Slot) : Bool :=
  match slot.emission with
  | .replaced _ => true
  | _ => false

/-- Whether the jump goes by way of the jump table. -/
def isRouted (slot : Slot) : Bool :=
  match slot.emission with
  | .tableJump | .tableJumpI => true
  | _ => false

/-- Whether the slot pushes the new offset of a jump target. -/
def pushesTarget (slot : Slot) : Bool :=
  match slot.emission with
  | .push (.target _) _ => true
  | _ => false

/-- Sends a jump that stands as it is to the jump table. -/
def route (slot : Slot) : Slot :=
  match slot.emission with
  | .kept =>
    if slot.instruction.code == Opcode.jump then { slot with emission := .tableJump }
    else if slot.instruction.code == Opcode.jumpI then { slot with emission := .tableJumpI }
    else slot
  | _ => slot

end Slot

/-- Routes every jump but those right after a push of their new target. -/
def routeJumps (slots : List Slot) : List Slot :=
  List.zipWith (fun fed slot => if fed then slot else slot.route)
    (false :: slots.map Slot.pushesTarget) slots

end EvmSandbox.Layout
