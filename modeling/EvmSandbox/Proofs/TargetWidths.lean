/-
How wide the pushes of jump targets become. The offsets of a code that can be
addressed have four bytes, so no push of a target is widened beyond four bytes
(`Finished` layouts are only known to stay within eight, which is what patches
may need). What widening and routing leave true of a slot is true of the slots
of every layout (`ofInstructions_preserves`).
-/
import EvmSandbox.Proofs.Routing

namespace EvmSandbox.Layout

/-! ## What layouts preserve -/

/-- Widening, in slots that can be addressed, and routing leave `P` true. -/
structure Preserved (P : Slot → Prop) : Prop where
  widen : ∀ {slots : List Slot} {tableLength : Nat} {slot : Slot},
    extent slots + tableLength ≤ maxCodeLength → P slot →
      P (slot.widen (resolve (.ofSlots slots) tableLength))
  route : ∀ {slot : Slot}, P slot → P slot.route

section Preserved

variable {P : Slot → Prop} (hP : Preserved P)
include hP

theorem relax_preserves {tableLength : Nat} {slots : List Slot} {round : Nat} {relaxed : Relaxed}
    (h : relax tableLength slots round = .ok relaxed) (hslots : ∀ slot ∈ slots, P slot) :
    ∀ slot ∈ relaxed.slots, P slot := by
  fun_induction relax tableLength slots round with
  | case1 => cases h
  | case2 slots round current hsmall widened hroom ih =>
    refine ih h fun slot hslot => ?_
    obtain ⟨old, hold, rfl⟩ := List.mem_map.1 hslot
    exact hP.widen (by simpa [current] using hsmall) (hslots old hold)
  | case3 slots round current hsmall widened hroom =>
    cases h
    exact hslots

theorem routeJumps_preserves {slots : List Slot} (hslots : ∀ slot ∈ slots, P slot) :
    ∀ slot ∈ routeJumps slots, P slot := by
  intro slot hslot
  obtain ⟨i, hi⟩ := List.mem_iff_getElem?.1 hslot
  rw [getElem?_routeJumps] at hi
  obtain ⟨old, hold, rfl⟩ := Option.map_eq_some_iff.1 hi
  have hold := hslots old (List.mem_of_getElem? hold)
  split
  · exact hold
  · exact hP.route hold

theorem ofSlots_preserves {slots : List Slot} {layout : Layout}
    (h : (ofSlots slots).result = .ok layout) (hslots : ∀ slot ∈ slots, P slot) :
    ∀ slot ∈ layout.slots, P slot := by
  have hfirst : ∀ slot ∈ firstRouting slots, P slot := by
    rw [firstRouting]
    split
    · exact routeJumps_preserves hP hslots
    · exact hslots
  have hlaid := laid_ofSlots slots
  generalize ofSlots slots = attempt at h hlaid
  cases hlaid with
  | tooLong => cases h
  | tooLongAgain => cases h
  | once hrelax =>
    cases h
    exact relax_preserves hP hrelax hfirst
  | twice hrelax _ _ _ hagain =>
    cases h
    exact relax_preserves hP hagain (routeJumps_preserves hP (relax_preserves hP hrelax hfirst))

theorem ofInstructions_preserves {rules : RuleTable} {patch? : Nat → Option PushValue}
    {instructions : List Instruction} {layout : Layout}
    (h : (ofInstructions rules patch? instructions).result = .ok layout)
    (hplan : ∀ slots, plan rules patch? instructions = .ok slots → ∀ slot ∈ slots, P slot) :
    ∀ slot ∈ layout.slots, P slot := by
  rw [ofInstructions] at h
  split at h
  · cases h
  · rename_i slots hslots
    exact ofSlots_preserves hP h (hplan slots hslots)

end Preserved

/-! ## Pushes of targets -/

/-- A push of a jump target keeps its width or has at most four bytes. -/
def Slot.NarrowTarget (slot : Slot) : Prop :=
  ∀ k width, slot.emission = .push (.target k) width → width ≤ max slot.instruction.immediate.length 4

theorem byteWidth_resolve_target_le {slots : List Slot} {tableLength : Nat}
    (h : extent slots + tableLength ≤ maxCodeLength) (k : Nat) :
    byteWidth (resolve (.ofSlots slots) tableLength (.target k)) ≤ 4 := by
  rw [byteWidth_le_iff (by decide), resolve, Array.getD_eq_getD_getElem?]
  by_cases hlt : k < slots.length
  · have hle := extent_take_le slots k
    have hbound : maxCodeLength < 256 ^ 4 := by decide
    rw [starts_ofSlots hlt, Option.getD_some]
    omega
  · rw [Array.getElem?_eq_none (by simpa using hlt)]
    decide

theorem preserved_narrowTarget : Preserved Slot.NarrowTarget where
  widen := by
    intro slots tableLength slot hsmall hslot k width hemission
    obtain ⟨instruction, emission⟩ := slot
    cases emission with
    | push value old =>
      simp only [Slot.widen, Emission.push.injEq] at hemission
      obtain ⟨rfl, rfl⟩ := hemission
      have hold := hslot k old rfl
      have hnumber := byteWidth_resolve_target_le hsmall k
      simp only [Slot.widen] at hold ⊢
      omega
    | _ => cases hemission
  route := by
    intro slot hslot
    rcases slot.route_cases with ⟨hsame, -⟩ | ⟨-, -, hsent⟩ | ⟨-, -, hsent⟩
    · rw [hsame]
      exact hslot
    · rw [hsent]
      intro k width hemission
      cases hemission
    · rw [hsent]
      intro k width hemission
      cases hemission

/-- In a layout, every push of a jump target keeps its width or has at most four bytes. -/
theorem narrowTarget_of_ofInstructions {rules : RuleTable} {patch? : Nat → Option PushValue}
    {instructions : List Instruction} {layout : Layout}
    (h : (ofInstructions rules patch? instructions).result = .ok layout)
    (hpatches : ∀ i k, patch? i ≠ some (.target k)) :
    ∀ slot ∈ layout.slots, slot.NarrowTarget := by
  refine ofInstructions_preserves preserved_narrowTarget h fun slots hplan slot hslot k width hemission => ?_
  obtain ⟨i, hi⟩ := List.mem_iff_getElem?.1 hslot
  have hchosen := ((plan_spec hplan).2 i slot hi).2
  rw [hemission] at hchosen
  cases hchosen with
  | patched _ hpatch => exact absurd hpatch (hpatches i k)
  | target => exact le_max_left _ _

end EvmSandbox.Layout
