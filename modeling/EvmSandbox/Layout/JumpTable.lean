/-
The jump table, appended to the new code when jumps go through it. Each of
its entries compares the destination on the stack with the old offset of a
`JUMPDEST` and jumps to its new offset, or goes on to the next entry. A
destination in no entry ends at `INVALID`.
-/
import EvmSandbox.Layout.Relaxation

namespace EvmSandbox.Layout

/-- Where a `JUMPDEST` was and where it is now. -/
structure Destination where
  old : Nat
  new : Nat
  deriving DecidableEq

/-- The `JUMPDEST` instructions, in the order of the code. -/
def destinations (slots : List Slot) (offsets : Offsets) : List Destination :=
  (slots.zip offsets.starts.toList).filterMap fun entry =>
    if entry.1.instruction.code == Opcode.jumpDest then
      some ⟨entry.1.instruction.offset, entry.2⟩
    else none

/-- The number of bytes of an entry of the jump table. -/
def tableEntryLength : Nat := 21

/-- The number of bytes of the end of the jump table. -/
def tableFailureLength : Nat := 2

/-- The entry for `destination`, when the entry after it starts at `next`. -/
def tableEntry (destination : Destination) (next : Nat) : List Operation :=
  [Opcode.jumpDest, Opcode.dup1, .push tableOffsetWidth destination.old, Opcode.sub,
   .push tableOffsetWidth next, Opcode.jumpI, Opcode.pop,
   .push tableOffsetWidth destination.new, Opcode.jump]

def tableFailure : List Operation :=
  [Opcode.jumpDest, Opcode.invalid]

/-- The jump table that starts at offset `start`. -/
def table (destinations : List Destination) (start : Nat) : List Operation :=
  destinations.zipIdx.flatMap
      (fun entry => tableEntry entry.1 (start + (entry.2 + 1) * tableEntryLength)) ++
    tableFailure

/-- The length of the jump table, which is there only if some jump goes through it. -/
def tableLength (routed destinations : Nat) : Nat :=
  if routed = 0 then 0 else destinations * tableEntryLength + tableFailureLength

end EvmSandbox.Layout
