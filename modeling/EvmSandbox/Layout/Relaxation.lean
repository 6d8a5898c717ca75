/-
Offsets of the slots, and the widths of the pushes whose numbers depend on
them. A push that is too narrow for its number is widened, which moves all
that follows; this goes on until every number fits. A number has at most
eight bytes, so the widths cannot grow for ever.
-/
import EvmSandbox.Layout.Slot

namespace EvmSandbox.Layout

/-- Where the slots start in the new code, and where the last of them ends. -/
structure Offsets where
  starts : Array Nat
  bodyEnd : Nat
  deriving DecidableEq

def Offsets.ofSlots (slots : List Slot) : Offsets :=
  slots.foldl (fun acc slot => ⟨acc.starts.push acc.bodyEnd, acc.bodyEnd + slot.size⟩) ⟨#[], 0⟩

/-- The largest number a push can be made to hold. -/
def maxPushValue : Nat := 0xffffffffffffffff

/-- The number that `value` stands for when the slots lie at `offsets` and a jump table of
`tableLength` bytes follows them. -/
def resolve (offsets : Offsets) (tableLength : Nat) : PushValue → Nat
  | .target index => offsets.starts.getD index 0
  | .pastEnd extra => min (offsets.bodyEnd + tableLength + extra.toNat) maxPushValue
  | .constant value => value.toNat

/-- Widens a push that is too narrow for its number. -/
def Slot.widen (slot : Slot) (number : PushValue → Nat) : Slot :=
  match slot.emission with
  | .push value width =>
    { slot with emission := .push value (max width (byteWidth (number value))) }
  | _ => slot

/-- The number of bytes by which the push may still grow. -/
def Slot.room (slot : Slot) : Nat :=
  match slot.emission with
  | .push _ width => 8 - width
  | _ => 0

/-- The number of bytes by which all pushes may still grow. -/
def room (slots : List Slot) : Nat :=
  slots.foldl (fun sum slot => sum + slot.room) 0

/-- Widens the pushes that are too narrow for their numbers in the present layout. -/
def widenAll (current : Offsets) (tableLength : Nat) (slots : List Slot) : List Slot :=
  slots.map (·.widen (resolve current tableLength))

/-- Slots whose pushes hold their numbers. -/
structure Relaxed where
  slots : List Slot
  offsets : Offsets
  /-- How often the offsets were computed. -/
  rounds : Nat

/-- Widens pushes until every number fits, when a jump table of `tableLength` bytes follows the
slots. Fails with the length of the code if that is too long to address. -/
def relax (tableLength : Nat) (slots : List Slot) (round : Nat := 1) : Except Nat Relaxed :=
  let current := Offsets.ofSlots slots
  if maxCodeLength < current.bodyEnd + tableLength then
    .error (current.bodyEnd + tableLength)
  else
    let widened := widenAll current tableLength slots
    if room widened < room slots then relax tableLength widened (round + 1)
    else .ok ⟨slots, current, round⟩
  termination_by room slots

end EvmSandbox.Layout
