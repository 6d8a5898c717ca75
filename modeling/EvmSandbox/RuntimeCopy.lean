/-
How a constructor finds the runtime in its own code. It copies the runtime
out with `CODECOPY` from a pushed offset, the length of the constructor, and
a pushed size. One that takes arguments also pushes the length of the whole
creation code, where its arguments begin, and subtracts it from `CODESIZE`.
Once both parts have new lengths these numbers are patched.

The operands of a `CODECOPY` are followed back through the pushes, copies and
exchanges on the stack right before it.
-/
import EvmSandbox.Layout.Slot

namespace EvmSandbox.RuntimeCopy

open Layout (PushValue)

/-- The runtime inside creation code. -/
structure EmbeddedRuntime where
  /-- The length of the constructor, which is the offset of the runtime. -/
  offset : Nat
  length : Nat
  /-- The length of the transpiled runtime. -/
  newLength : Nat
  deriving DecidableEq

namespace EmbeddedRuntime

def creationLength (runtime : EmbeddedRuntime) : Nat :=
  runtime.offset + runtime.length

/-- Whether the transpiled runtime is as long as the runtime. -/
def keepsLength (runtime : EmbeddedRuntime) : Bool :=
  runtime.length == runtime.newLength

end EmbeddedRuntime

/-- An instruction with its index in the code. -/
abbrev Indexed := Instruction × Nat

/-! ## Operands of a copy -/

/-- Whether the instruction only pushes a constant, or copies or exchanges stack entries. -/
def isShuffle (code : UInt8) : Bool :=
  Opcode.push0 ≤ code && code ≤ Opcode.swap16

/-- The number of instructions that are followed back. -/
def windowLength : Nat := 8

/-- The run of shuffles right before an instruction, in the order of the code, given the
instructions before it, nearest first. -/
def window (before : List Indexed) : List Indexed :=
  ((before.take windowLength).takeWhile fun i => isShuffle i.1.code).reverse

/-- The top of a stack, topmost entry first: the index of the push that made the entry, or `none`
for an entry from before the window. Entries below the list are from before the window too. -/
abbrev Origins := List (Option Nat)

/-- `stack` with at least `depth` entries. -/
def pad (depth : Nat) (stack : Origins) : Origins :=
  stack ++ List.replicate (depth - stack.length) none

/-- The stack after a shuffle. -/
def shuffle (stack : Origins) (i : Indexed) : Origins :=
  let code := i.1.code
  if Opcode.dup1 ≤ code && code ≤ Opcode.dup16 then
    let padded := pad (code.toNat - 0x7f) stack
    padded.getD (code.toNat - 0x80) none :: padded
  else if Opcode.swap1 ≤ code && code ≤ Opcode.swap16 then
    let depth := code.toNat - 0x8f
    let padded := pad (depth + 1) stack
    (padded.set 0 (padded.getD depth none)).set depth (padded.getD 0 none)
  else some i.2 :: stack

/-- The pushes that made the three operands of a copy. -/
structure Operands where
  destination : Option Nat
  offset : Option Nat
  size : Option Nat
  deriving DecidableEq

/-- The operands on top of the stack after a run of shuffles. -/
def operands (shuffles : List Indexed) : Operands :=
  let stack := shuffles.foldl shuffle []
  ⟨stack.getD 0 none, stack.getD 1 none, stack.getD 2 none⟩

/-! ## Patches -/

/-- The number that an instruction with an immediate operand pushes. -/
def pushed? (i : Instruction) : Option Nat :=
  if Opcode.isPush i.code then some (Bytes.toNat i.immediate) else none

/-- Whether the push with index `index` among `shuffles` pushes `number`. -/
def pushes (shuffles : List Indexed) (index : Option Nat) (number : Nat) : Bool :=
  shuffles.any fun i => index == some i.2 && pushed? i.1 == some number

/-- New numbers for pushes, by index. -/
structure Patches where
  /-- The latest patch first; it counts where an index has several. -/
  assignments : List (Nat × PushValue)
  /-- Whether some instruction copies the runtime. -/
  copiesRuntime : Bool

/-- The patches that an instruction asks for, given the instructions before it, nearest first. -/
def patchesAt (runtime : EmbeddedRuntime) (before : List Indexed) (i : Instruction) : Patches :=
  let newLength := UInt64.ofNat runtime.newLength
  if i.code == Opcode.codeCopy then
    let shuffles := window before
    match operands shuffles with
    | ⟨_, some offset, size⟩ =>
      if pushes shuffles (some offset) runtime.offset then
        match size with
        | some size =>
          if pushes shuffles (some size) runtime.length then
            ⟨[(size, .constant newLength), (offset, .pastEnd 0)], true⟩
          else ⟨[], false⟩
        | none => ⟨[], false⟩
      else if pushes shuffles (some offset) runtime.creationLength then
        ⟨[(offset, .pastEnd newLength)], false⟩
      else ⟨[], false⟩
    | ⟨_, none, _⟩ => ⟨[], false⟩
  else if i.code == Opcode.codeSize then
    match before with
    | [] => ⟨[], false⟩
    | previous :: _ =>
      if pushed? previous.1 == some runtime.creationLength then
        ⟨[(previous.2, .pastEnd newLength)], false⟩
      else ⟨[], false⟩
  else ⟨[], false⟩

/-- Goes on through the code with the patches found in the instructions before. -/
def collect (runtime : EmbeddedRuntime) (before : List Indexed) (found : Patches) :
    List Indexed → Patches
  | [] => found
  | i :: rest =>
    let here := patchesAt runtime before i.1
    collect runtime (i :: before)
      ⟨here.assignments ++ found.assignments, here.copiesRuntime || found.copiesRuntime⟩ rest

/-- All patches of a constructor; `none` if no instruction copies the runtime. -/
def patches? (runtime : EmbeddedRuntime) (instructions : List Instruction) : Option Patches :=
  let found := collect runtime [] ⟨[], false⟩ instructions.zipIdx
  if found.copiesRuntime then some found else none

namespace Patches

def none : Patches := ⟨[], false⟩

/-- The patches by index, for a code of `count` instructions. -/
def table (patches : Patches) (count : Nat) : Array (Option PushValue) :=
  patches.assignments.foldr (fun entry table => table.setIfInBounds entry.1 (some entry.2))
    (Array.replicate count Option.none)

end Patches

end EvmSandbox.RuntimeCopy
