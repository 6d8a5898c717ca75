/-
Relaxation. A slot starts where the slots before it end (`starts_ofSlots`).
A finished relaxation has changed nothing but the widths of pushes, which
only grow and never beyond eight bytes or what they were, and every push
holds its number in the layout it leaves (`relax_spec`).

Widening a push that is too narrow uses up room, so a round that uses up no
room finds every push wide enough.
-/
import EvmSandbox.Layout.Relaxation
import EvmSandbox.Proofs.Bytes

namespace EvmSandbox.Layout

/-! ## Offsets of slots -/

/-- The number of bytes that slots take. -/
def extent (slots : List Slot) : Nat :=
  (slots.map Slot.size).sum

@[simp] theorem extent_append (a b : List Slot) : extent (a ++ b) = extent a + extent b := by
  simp [extent]

@[simp] theorem extent_singleton (slot : Slot) : extent [slot] = slot.size := by
  simp [extent]

theorem extent_take_succ {slots : List Slot} {i : Nat} {slot : Slot} (h : slots[i]? = some slot) :
    extent (slots.take (i + 1)) = extent (slots.take i) + slot.size := by
  rw [List.take_add_one, h]
  simp

theorem extent_take_le (slots : List Slot) (i : Nat) : extent (slots.take i) ≤ extent slots := by
  have := extent_append (slots.take i) (slots.drop i)
  rw [List.take_append_drop] at this
  omega

theorem ofSlots_concat (slots : List Slot) (slot : Slot) :
    Offsets.ofSlots (slots ++ [slot]) =
      ⟨(Offsets.ofSlots slots).starts.push (Offsets.ofSlots slots).bodyEnd,
        (Offsets.ofSlots slots).bodyEnd + slot.size⟩ := by
  simp [Offsets.ofSlots]

@[simp] theorem bodyEnd_ofSlots (slots : List Slot) :
    (Offsets.ofSlots slots).bodyEnd = extent slots := by
  induction slots using List.reverseRecOn with
  | nil => rfl
  | append_singleton slots slot ih => rw [ofSlots_concat, ih, extent_append, extent_singleton]

@[simp] theorem size_starts_ofSlots (slots : List Slot) :
    (Offsets.ofSlots slots).starts.size = slots.length := by
  induction slots using List.reverseRecOn with
  | nil => rfl
  | append_singleton slots slot ih => simp [ofSlots_concat, ih]

theorem starts_ofSlots {slots : List Slot} {i : Nat} (h : i < slots.length) :
    (Offsets.ofSlots slots).starts[i]? = some (extent (slots.take i)) := by
  induction slots using List.reverseRecOn with
  | nil => simp at h
  | append_singleton slots slot ih =>
    rw [List.length_append, List.length_singleton] at h
    rw [ofSlots_concat, Array.getElem?_push, size_starts_ofSlots, List.take_append_of_le_length (by omega)]
    split
    · rename_i heq
      rw [heq, bodyEnd_ofSlots, List.take_length]
    · exact ih (by omega)

/-! ## The numbers of pushes -/

/-- In a layout that is not too long, every number has at most eight bytes. -/
theorem resolve_le {slots : List Slot} {tableLength : Nat}
    (h : extent slots + tableLength ≤ maxCodeLength) (value : PushValue) :
    resolve (.ofSlots slots) tableLength value ≤ maxPushValue := by
  cases value with
  | target index =>
    simp only [resolve, Array.getD_eq_getD_getElem?]
    by_cases hlt : index < slots.length
    · have := extent_take_le slots index
      rw [starts_ofSlots hlt]
      simp only [Option.getD_some, maxPushValue, maxCodeLength] at h ⊢
      omega
    · rw [Array.getElem?_eq_none (by simpa using hlt)]
      simp
  | pastEnd extra => exact Nat.min_le_right _ _
  | constant value =>
    have := value.toNat_lt
    simp only [resolve, maxPushValue]
    omega

theorem byteWidth_resolve_le {slots : List Slot} {tableLength : Nat}
    (h : extent slots + tableLength ≤ maxCodeLength) (value : PushValue) :
    byteWidth (resolve (.ofSlots slots) tableLength value) ≤ 8 :=
  (byteWidth_le_iff (by decide)).2 (lt_of_le_of_lt (resolve_le h value) (by decide))

/-- `slot` holds its number, if it pushes one. -/
def Slot.Holds (number : PushValue → Nat) (slot : Slot) : Prop :=
  ∀ value width, slot.emission = .push value width → byteWidth (number value) ≤ width

theorem room_eq_sum (slots : List Slot) : room slots = (slots.map Slot.room).sum := by
  simp only [room, List.sum_eq_foldl, List.foldl_map]

theorem room_widen_le (number : PushValue → Nat) (slot : Slot) :
    (slot.widen number).room ≤ slot.room := by
  obtain ⟨instruction, emission⟩ := slot
  cases emission <;> simp only [Slot.widen, Slot.room] <;> omega

theorem holds_of_room_le {number : PushValue → Nat} (hnumber : ∀ value, byteWidth (number value) ≤ 8)
    {slot : Slot} (h : slot.room ≤ (slot.widen number).room) : slot.Holds number := by
  obtain ⟨instruction, emission⟩ := slot
  intro value width hemission
  simp only at hemission
  subst hemission
  have := hnumber value
  simp only [Slot.widen, Slot.room] at h
  omega

/-- A round that uses up no room finds every push wide enough. -/
theorem holds_of_room_not_lt {number : PushValue → Nat}
    (hnumber : ∀ value, byteWidth (number value) ≤ 8) {slots : List Slot}
    (h : ¬ room (slots.map (·.widen number)) < room slots) : ∀ slot ∈ slots, slot.Holds number := by
  rw [room_eq_sum, room_eq_sum] at h
  induction slots with
  | nil => simp
  | cons slot slots ih =>
    have hle := room_widen_le number slot
    have hsum : ((slots.map (·.widen number)).map Slot.room).sum ≤ (slots.map Slot.room).sum := by
      rw [List.map_map]
      exact List.sum_le_sum fun s _ => room_widen_le number s
    simp only [List.map_cons, List.sum_cons] at h
    intro s hs
    rcases List.mem_cons.1 hs with rfl | hs
    · exact holds_of_room_le hnumber (by omega)
    · exact ih (by omega) s hs

/-! ## Relaxation -/

/-- What relaxation may do to a slot: a push is widened, to eight bytes at most. -/
inductive Slot.Widens : Slot → Slot → Prop where
  | same (slot : Slot) : Widens slot slot
  | push (instruction : Instruction) (value : PushValue) {width wider : Nat}
    (hle : width ≤ wider) (hmax : wider ≤ max width 8) :
    Widens ⟨instruction, .push value width⟩ ⟨instruction, .push value wider⟩

theorem Slot.Widens.trans {a b c : Slot} (hab : a.Widens b) (hbc : b.Widens c) : a.Widens c := by
  cases hab with
  | same => exact hbc
  | push instruction value hle hmax =>
    cases hbc with
    | same => exact .push instruction value hle hmax
    | push _ _ hle' hmax' => exact .push instruction value (by omega) (by omega)

theorem Slot.widens_widen {number : PushValue → Nat}
    (hnumber : ∀ value, byteWidth (number value) ≤ 8) (slot : Slot) :
    slot.Widens (slot.widen number) := by
  obtain ⟨instruction, emission⟩ := slot
  cases emission with
  | push value width =>
    have := hnumber value
    exact .push instruction value (by omega) (by omega)
  | _ => exact .same _

theorem forall₂_widens_trans {a b c : List Slot} (hab : List.Forall₂ Slot.Widens a b)
    (hbc : List.Forall₂ Slot.Widens b c) : List.Forall₂ Slot.Widens a c := by
  induction hab generalizing c with
  | nil => exact hbc
  | cons hslot _ ih =>
    cases hbc with
    | cons hslot' hrest' => exact .cons (hslot.trans hslot') (ih hrest')

/-- Relaxation leaves slots that only grew, whose offsets are right, whose code can be addressed,
and whose pushes hold their numbers. -/
theorem relax_spec {tableLength : Nat} {slots : List Slot} {round : Nat} {relaxed : Relaxed}
    (h : relax tableLength slots round = .ok relaxed) :
    List.Forall₂ Slot.Widens slots relaxed.slots ∧ relaxed.offsets = .ofSlots relaxed.slots ∧
      extent relaxed.slots + tableLength ≤ maxCodeLength ∧
      ∀ slot ∈ relaxed.slots, slot.Holds (resolve relaxed.offsets tableLength) := by
  fun_induction relax tableLength slots round with
  | case1 => cases h
  | case2 slots round current hsmall widened hroom ih =>
    obtain ⟨hwidens, hrest⟩ := ih h
    refine ⟨forall₂_widens_trans ?_ hwidens, hrest⟩
    have hle : extent slots + tableLength ≤ maxCodeLength := by simpa [current] using hsmall
    have hnumber := byteWidth_resolve_le hle
    exact List.forall₂_map_right_iff.2 (List.forall₂_same.2 fun slot _ => slot.widens_widen hnumber)
  | case3 slots round current hsmall widened hroom =>
    cases h
    have hle : extent slots + tableLength ≤ maxCodeLength := by simpa [current] using hsmall
    refine ⟨List.forall₂_same.2 fun slot _ => .same slot, rfl, hle, ?_⟩
    exact holds_of_room_not_lt (byteWidth_resolve_le hle) hroom

/-- Relaxation fails only with a length that cannot be addressed. -/
theorem lt_of_relax_eq_error {tableLength : Nat} {slots : List Slot} {round length : Nat}
    (h : relax tableLength slots round = .error length) : maxCodeLength < length := by
  fun_induction relax tableLength slots round with
  | case1 slots round current hlarge =>
    cases h
    exact hlarge
  | case2 slots round current hsmall widened hroom ih => exact ih h
  | case3 => cases h

theorem Slot.Holds.widen_eq {number : PushValue → Nat} {slot : Slot} (h : slot.Holds number) :
    slot.widen number = slot := by
  obtain ⟨instruction, emission⟩ := slot
  cases emission with
  | push value width => simp only [Slot.widen, max_eq_left (h value width rfl)]
  | _ => rfl

/-- Where every push holds its number already, there is nothing to relax. -/
theorem relax_of_holds {tableLength : Nat} {slots : List Slot}
    (hsmall : extent slots + tableLength ≤ maxCodeLength)
    (hholds : ∀ slot ∈ slots, slot.Holds (resolve (.ofSlots slots) tableLength)) (round : Nat) :
    relax tableLength slots round = .ok ⟨slots, .ofSlots slots, round⟩ := by
  have hwiden : widenAll (.ofSlots slots) tableLength slots = slots := by
    rw [widenAll, List.map_congr_left fun slot hslot => (hholds slot hslot).widen_eq, List.map_id']
  rw [relax, bodyEnd_ofSlots, if_neg (by omega), hwiden, if_neg (lt_irrefl _)]

end EvmSandbox.Layout
