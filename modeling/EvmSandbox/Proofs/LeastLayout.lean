/-
The least layout. The widths of pushes and the numbers they push depend on
each other, and wider pushes only make numbers larger (`resolve_mono`). So
widths that hold their numbers are an upper bound for every round of a
relaxation that starts below them (`relax_below`): a relaxation that comes to
an end has found the least such widths, and one that fails for the length of
the code fails where all of them make the code too long.

A second relaxation starts from the widths of the first, which ran without the
jump table and with shorter jumps. Widths that hold their numbers with routed
jumps hold them without as well (`Fits.of_routeJumps`), so nothing is lost by
not starting afresh.
-/
import EvmSandbox.Proofs.Placement
import Mathlib.Order.Bounds.Defs

namespace EvmSandbox.Layout

/-! ## Numbers grow with the slots -/

theorem byteWidth_mono {a b : Nat} (h : a ≤ b) : byteWidth a ≤ byteWidth b := by
  have hpos := byteWidth_pos b
  exact (byteWidth_le_iff hpos).2 (lt_of_le_of_lt h ((byteWidth_le_iff hpos).1 le_rfl))

/-- Each slot of `a` takes at most as many bytes as the one of `b`. -/
abbrev Smaller (a b : List Slot) : Prop :=
  List.Forall₂ (fun x y => x.size ≤ y.size) a b

theorem Smaller.extent_take_le {a b : List Slot} (h : Smaller a b) (i : Nat) :
    extent (a.take i) ≤ extent (b.take i) := by
  induction h generalizing i with
  | nil => exact le_rfl
  | cons hsize _ ih =>
    cases i with
    | zero => exact le_rfl
    | succ i =>
      have hrest := ih i
      simp only [extent, List.take_succ_cons, List.map_cons, List.sum_cons] at hrest ⊢
      omega

theorem Smaller.extent_le {a b : List Slot} (h : Smaller a b) : extent a ≤ extent b := by
  have := h.extent_take_le a.length
  rwa [List.take_length, h.length_eq, List.take_length] at this

theorem resolve_mono {a b : List Slot} {tableA tableB : Nat} (h : Smaller a b)
    (htable : tableA ≤ tableB) (value : PushValue) :
    resolve (.ofSlots a) tableA value ≤ resolve (.ofSlots b) tableB value := by
  cases value with
  | target index =>
    simp only [resolve, Array.getD_eq_getD_getElem?]
    by_cases hlt : index < a.length
    · rw [starts_ofSlots hlt, starts_ofSlots (h.length_eq ▸ hlt)]
      exact h.extent_take_le index
    · rw [Array.getElem?_eq_none (by simpa using hlt)]
      exact Nat.zero_le _
  | pastEnd extra =>
    have := h.extent_le
    simp only [resolve, bodyEnd_ofSlots]
    omega
  | constant value => exact le_rfl

/-! ## Widths for the pushes of slots -/

namespace Slot

/-- The width of the push, 0 if the slot is none. -/
def width (slot : Slot) : Nat :=
  match slot.emission with
  | .push _ width => width
  | _ => 0

/-- The slot with its push, if it is one, in `width` bytes. -/
def withWidth (slot : Slot) (width : Nat) : Slot :=
  match slot.emission with
  | .push value _ => { slot with emission := .push value width }
  | _ => slot

@[simp] theorem withWidth_width (slot : Slot) : slot.withWidth slot.width = slot := by
  obtain ⟨instruction, emission⟩ := slot
  cases emission <;> rfl

@[simp] theorem withWidth_widen (slot : Slot) (number : PushValue → Nat) (width : Nat) :
    (slot.widen number).withWidth width = slot.withWidth width := by
  obtain ⟨instruction, emission⟩ := slot
  cases emission <;> rfl

@[simp] theorem withWidth_route (slot : Slot) (width : Nat) :
    slot.route.withWidth width = (slot.withWidth width).route := by
  rcases slot.route_cases with ⟨hsame, -⟩ | ⟨hkept, -, hsent⟩ | ⟨hkept, -, hsent⟩
  · rw [hsame]
    obtain ⟨instruction, emission⟩ := slot
    cases emission with
    | kept => exact hsame.symm
    | _ => rfl
  · rw [hsent]
    simp only [withWidth, hkept, hsent]
  · rw [hsent]
    simp only [withWidth, hkept, hsent]

@[simp] theorem width_route (slot : Slot) : slot.route.width = slot.width := by
  rcases slot.route_cases with ⟨hsame, -⟩ | ⟨hkept, -, hsent⟩ | ⟨hkept, -, hsent⟩
  · rw [hsame]
  · simp only [hsent, width, hkept]
  · simp only [hsent, width, hkept]

@[simp] theorem pushesTarget_withWidth (slot : Slot) (width : Nat) :
    (slot.withWidth width).pushesTarget = slot.pushesTarget := by
  obtain ⟨instruction, emission⟩ := slot
  cases emission with
  | push value _ => cases value <;> rfl
  | _ => rfl

@[simp] theorem instruction_withWidth (slot : Slot) (width : Nat) :
    (slot.withWidth width).instruction = slot.instruction := by
  obtain ⟨instruction, emission⟩ := slot
  cases emission <;> rfl

theorem size_withWidth_le (slot : Slot) {width wider : Nat} (h : width ≤ wider) :
    (slot.withWidth width).size ≤ (slot.withWidth wider).size := by
  obtain ⟨instruction, emission⟩ := slot
  cases emission with
  | push value old => exact Nat.add_le_add_left h 1
  | _ => exact le_rfl

theorem Widens.withWidth_eq {a b : Slot} (h : a.Widens b) (width : Nat) :
    a.withWidth width = b.withWidth width := by
  cases h <;> rfl

end Slot

/-- The slots with their pushes in the widths `widths`, by the numbers of the slots. -/
def withWidths (widths : Nat → Nat) (slots : List Slot) : List Slot :=
  slots.mapIdx fun i slot => slot.withWidth (widths i)

/-- The widths of the pushes, by the numbers of the slots. -/
def widthsOf (slots : List Slot) (i : Nat) : Nat :=
  (slots[i]?.map Slot.width).getD 0

section Widths

variable {widths : Nat → Nat} {slots : List Slot}

@[simp] theorem getElem?_withWidths (widths : Nat → Nat) (slots : List Slot) (i : Nat) :
    (withWidths widths slots)[i]? = slots[i]?.map (·.withWidth (widths i)) :=
  List.getElem?_mapIdx

@[simp] theorem length_withWidths (widths : Nat → Nat) (slots : List Slot) :
    (withWidths widths slots).length = slots.length :=
  List.length_mapIdx

@[simp] theorem withWidths_widthsOf (slots : List Slot) : withWidths (widthsOf slots) slots = slots := by
  refine List.ext_getElem? fun i => ?_
  rw [getElem?_withWidths]
  cases hi : slots[i]? with
  | none => rfl
  | some slot => simp [widthsOf, hi]

theorem withWidths_widenAll (current : Offsets) (tableLength : Nat) :
    withWidths widths (widenAll current tableLength slots) = withWidths widths slots := by
  refine List.ext_getElem? fun i => ?_
  rw [getElem?_withWidths, getElem?_withWidths, widenAll, List.getElem?_map, Option.map_map]
  congr 1
  funext slot
  exact slot.withWidth_widen _ _

theorem withWidths_eq_of_widens {a b : List Slot} (h : List.Forall₂ Slot.Widens a b) :
    withWidths widths a = withWidths widths b := by
  refine List.ext_getElem? fun i => ?_
  rw [getElem?_withWidths, getElem?_withWidths]
  cases hi : b[i]? with
  | none =>
    rw [List.getElem?_eq_none_iff, ← h.length_eq] at hi
    rw [List.getElem?_eq_none hi]
  | some y =>
    obtain ⟨x, hx, hxy⟩ := widens_getElem? h hi
    rw [hx, Option.map_some, Option.map_some, hxy.withWidth_eq]

theorem smaller_withWidths {wider : Nat → Nat} (h : widths ≤ wider) (slots : List Slot) :
    Smaller (withWidths widths slots) (withWidths wider slots) := by
  refine List.forall₂_iff_get.2 ⟨by simp, fun i hi hi' => ?_⟩
  simpa [withWidths] using Slot.size_withWidth_le _ (h i)

theorem smaller_of_widthsOf_le (h : widthsOf slots ≤ widths) :
    Smaller slots (withWidths widths slots) := by
  have := smaller_withWidths h slots
  rwa [withWidths_widthsOf] at this

theorem routeJumps_withWidths (widths : Nat → Nat) (slots : List Slot) :
    withWidths widths (routeJumps slots) = routeJumps (withWidths widths slots) := by
  have hfed : ∀ i, fed (withWidths widths slots) i = fed slots i := fun i => by
    have hmap : (withWidths widths slots).map Slot.pushesTarget = slots.map Slot.pushesTarget := by
      refine List.ext_getElem? fun k => ?_
      rw [List.getElem?_map, getElem?_withWidths, List.getElem?_map, Option.map_map]
      congr 1
      funext slot
      exact slot.pushesTarget_withWidth _
    rw [fed, fed, hmap]
  refine List.ext_getElem? fun i => ?_
  rw [getElem?_withWidths, getElem?_routeJumps, getElem?_routeJumps, getElem?_withWidths,
    Option.map_map, Option.map_map, hfed]
  congr 1
  funext slot
  simp only [Function.comp]
  split
  · rfl
  · exact slot.withWidth_route _

@[simp] theorem widthsOf_routeJumps (slots : List Slot) :
    widthsOf (routeJumps slots) = widthsOf slots := by
  funext i
  rw [widthsOf, widthsOf, getElem?_routeJumps, Option.map_map]
  congr 2
  funext slot
  simp only [Function.comp]
  split
  · rfl
  · exact slot.width_route

end Widths

/-! ## Relaxation stays below -/

/-- Slots whose pushes have the width of the instruction at least, and hold their numbers. -/
structure Fits (tableLength : Nat) (slots : List Slot) : Prop where
  original : ∀ instruction value width, (⟨instruction, .push value width⟩ : Slot) ∈ slots →
    instruction.immediate.length ≤ width
  holds : ∀ slot ∈ slots, slot.Holds (resolve (.ofSlots slots) tableLength)

section Below

variable {tableLength : Nat} {slots : List Slot} {widths : Nat → Nat}

theorem Fits.byteWidth_le (hfits : Fits tableLength (withWidths widths slots)) {i : Nat}
    {instruction : Instruction} {value : PushValue} {width : Nat}
    (hi : slots[i]? = some ⟨instruction, .push value width⟩) :
    instruction.immediate.length ≤ widths i ∧
      byteWidth (resolve (.ofSlots (withWidths widths slots)) tableLength value) ≤ widths i := by
  have hmem : (⟨instruction, .push value (widths i)⟩ : Slot) ∈ withWidths widths slots := by
    refine List.mem_of_getElem? (i := i) ?_
    rw [getElem?_withWidths, hi]
    rfl
  exact ⟨hfits.original _ _ _ hmem, hfits.holds _ hmem value _ rfl⟩

/-- A round of relaxation below widths that hold their numbers stays below them. -/
theorem widthsOf_widenAll_le (hfits : Fits tableLength (withWidths widths slots))
    (hbelow : widthsOf slots ≤ widths) :
    widthsOf (widenAll (.ofSlots slots) tableLength slots) ≤ widths := by
  intro i
  have hi := hbelow i
  rw [widthsOf] at hi ⊢
  rw [widenAll, List.getElem?_map]
  cases hslot : slots[i]? with
  | none => exact Nat.zero_le _
  | some slot =>
    obtain ⟨instruction, emission⟩ := slot
    rw [hslot] at hi
    cases emission with
    | push value width =>
      have hnumber := (byteWidth_mono (resolve_mono (smaller_of_widthsOf_le hbelow) le_rfl value)).trans
        (hfits.byteWidth_le hslot).2
      exact max_le hi hnumber
    | _ => exact Nat.zero_le _

/-- A relaxation below widths that hold their numbers ends below them, or with a length that the code
has with these widths at least. -/
theorem relax_below {round : Nat} (hfits : Fits tableLength (withWidths widths slots))
    (hbelow : widthsOf slots ≤ widths) :
    (∀ relaxed, relax tableLength slots round = .ok relaxed → widthsOf relaxed.slots ≤ widths) ∧
      ∀ length, relax tableLength slots round = .error length →
        length ≤ extent (withWidths widths slots) + tableLength := by
  fun_induction relax tableLength slots round with
  | case1 slots round current hlarge =>
    refine ⟨fun _ h => (by cases h), fun length h => ?_⟩
    cases h
    have := (smaller_of_widthsOf_le hbelow).extent_le
    simp only [current, bodyEnd_ofSlots]
    omega
  | case2 slots round current hsmall widened hroom ih =>
    have hsame : withWidths widths widened = withWidths widths slots := withWidths_widenAll _ _
    rw [hsame] at ih
    exact ih hfits (widthsOf_widenAll_le hfits hbelow)
  | case3 slots round current hsmall widened hroom =>
    refine ⟨fun _ h => ?_, fun _ h => (by cases h)⟩
    cases h
    exact hbelow

/-- Each round but the last uses up room. -/
theorem rounds_le {round : Nat} {relaxed : Relaxed}
    (h : relax tableLength slots round = .ok relaxed) : relaxed.rounds ≤ round + room slots := by
  fun_induction relax tableLength slots round with
  | case1 => cases h
  | case2 slots round current hsmall widened hroom ih =>
    have := ih h
    omega
  | case3 slots round current hsmall widened hroom =>
    cases h
    exact Nat.le_add_right _ _

theorem room_le (slots : List Slot) : room slots ≤ 8 * slots.length := by
  rw [room_eq_sum, Nat.mul_comm]
  refine (List.sum_le_card_nsmul _ 8 fun n hn => ?_).trans (by simp)
  obtain ⟨slot, -, rfl⟩ := List.mem_map.1 hn
  obtain ⟨instruction, emission⟩ := slot
  cases emission <;> simp [Slot.room]

/-! ## Routing -/

theorem getElem?_routeJumps_push_iff {i : Nat} {instruction : Instruction} {value : PushValue}
    {width : Nat} : (routeJumps slots)[i]? = some ⟨instruction, .push value width⟩ ↔
      slots[i]? = some ⟨instruction, .push value width⟩ := by
  rw [getElem?_routeJumps, Option.map_eq_some_iff]
  constructor
  · rintro ⟨slot, hslot, heq⟩
    split at heq
    · rw [hslot, heq]
    · rcases slot.route_cases with ⟨hsame, -⟩ | ⟨-, -, hsent⟩ | ⟨-, -, hsent⟩
      · rw [hslot, ← hsame, heq]
      · rw [hsent] at heq
        cases heq
      · rw [hsent] at heq
        cases heq
  · intro h
    exact ⟨_, h, by split <;> rfl⟩

theorem mem_routeJumps_push_iff {instruction : Instruction} {value : PushValue} {width : Nat} :
    (⟨instruction, .push value width⟩ : Slot) ∈ routeJumps slots ↔
      (⟨instruction, .push value width⟩ : Slot) ∈ slots := by
  simp only [List.mem_iff_getElem?, getElem?_routeJumps_push_iff]

/-- Jumps have no operand. -/
def BareJumps (slots : List Slot) : Prop :=
  ∀ slot ∈ slots, Opcode.isJump slot.instruction.code = true → slot.instruction.immediate = []

theorem BareJumps.smaller_routeJumps (h : BareJumps slots) : Smaller slots (routeJumps slots) := by
  refine List.forall₂_iff_get.2 ⟨by simp, fun i hi hi' => ?_⟩
  have hget := getElem?_routeJumps slots i
  rw [List.getElem?_eq_getElem hi, List.getElem?_eq_getElem hi', Option.map_some, Option.some.injEq]
    at hget
  have hbare := h slots[i] (List.getElem_mem hi)
  rw [List.get_eq_getElem, List.get_eq_getElem, hget]
  generalize slots[i] = slot at hbare
  split
  · exact le_rfl
  · rcases slot.route_cases with ⟨hsame, -⟩ | ⟨hkept, hcode, hsent⟩ | ⟨hkept, hcode, hsent⟩
    · rw [hsame]
    · simp [hsent, Slot.size, hkept, Operation.size, hbare (by rw [hcode]; rfl), tableOffsetWidth]
    · simp [hsent, Slot.size, hkept, Operation.size, hbare (by rw [hcode]; rfl), tableOffsetWidth]

/-- Widths that hold their numbers with routed jumps and a jump table hold them without. -/
theorem Fits.of_routeJumps {shorter : Nat} (h : Fits tableLength (routeJumps slots))
    (hbare : BareJumps slots) (htable : shorter ≤ tableLength) : Fits shorter slots where
  original instruction value width hmem := h.original _ _ _ (mem_routeJumps_push_iff.2 hmem)
  holds slot hmem value width hemission := by
    obtain ⟨instruction, emission⟩ := slot
    simp only at hemission
    subst hemission
    exact (byteWidth_mono (resolve_mono hbare.smaller_routeJumps htable value)).trans
      (h.holds _ (mem_routeJumps_push_iff.2 hmem) value width rfl)

/-! ## The least widths -/

/-- Slots from which a relaxation finds the least widths: no narrower than their instructions, and
no wider than widths that hold their numbers. -/
structure Starts (tableLength : Nat) (slots : List Slot) : Prop where
  original : ∀ instruction value width, (⟨instruction, .push value width⟩ : Slot) ∈ slots →
    instruction.immediate.length ≤ width
  below : ∀ widths, Fits tableLength (withWidths widths slots) → widthsOf slots ≤ widths

theorem Starts.of_original (h : ∀ instruction value width,
      (⟨instruction, .push value width⟩ : Slot) ∈ slots → instruction.immediate.length = width) :
    Starts tableLength slots where
  original instruction value width hmem := (h instruction value width hmem).le
  below widths hfits i := by
    rw [widthsOf]
    cases hslot : slots[i]? with
    | none => exact Nat.zero_le _
    | some slot =>
      obtain ⟨instruction, emission⟩ := slot
      cases emission with
      | push value width =>
        exact (h _ _ _ (List.mem_of_getElem? hslot)).symm.trans_le (hfits.byteWidth_le hslot).1
      | _ => exact Nat.zero_le _

theorem fits_of_isLeast
    (h : IsLeast {widths | Fits tableLength (withWidths widths slots)} (widthsOf slots)) :
    Fits tableLength slots := by
  have hfits := h.1
  rwa [Set.mem_ofPred_eq, withWidths_widthsOf] at hfits

theorem Starts.isLeast (h : Starts tableLength slots) {round : Nat} {relaxed : Relaxed}
    (hrelax : relax tableLength slots round = .ok relaxed) :
    IsLeast {widths | Fits tableLength (withWidths widths relaxed.slots)} (widthsOf relaxed.slots) := by
  obtain ⟨hwidens, hoffsets, -, hholds⟩ := relax_spec hrelax
  rw [hoffsets] at hholds
  constructor
  · rw [Set.mem_ofPred_eq, withWidths_widthsOf]
    refine ⟨fun instruction value width hmem => ?_, hholds⟩
    obtain ⟨i, hi⟩ := List.mem_iff_getElem?.1 hmem
    obtain ⟨old, hold, hwider⟩ := widens_getElem? hwidens hi
    cases hwider with
    | same => exact h.original _ _ _ (List.mem_of_getElem? hold)
    | push _ _ hle _ => exact (h.original _ _ _ (List.mem_of_getElem? hold)).trans hle
  · intro widths hfits
    rw [Set.mem_ofPred_eq, ← withWidths_eq_of_widens hwidens] at hfits
    exact (relax_below hfits (h.below widths hfits)).1 relaxed hrelax

theorem Starts.tooLong (h : Starts tableLength slots) {round length : Nat}
    (hrelax : relax tableLength slots round = .error length)
    (hfits : Fits tableLength (withWidths widths slots)) :
    maxCodeLength < extent (withWidths widths slots) + tableLength :=
  (lt_of_relax_eq_error hrelax).trans_le
    ((relax_below hfits (h.below widths hfits)).2 length hrelax)

/-- The slots that a relaxation without routed jumps leaves are a start for one with them. -/
theorem Starts.routeJumps {shorter : Nat} {round : Nat} {relaxed : Relaxed}
    (h : Starts shorter slots) (hbare : BareJumps slots) (htable : shorter ≤ tableLength)
    (hrelax : relax shorter slots round = .ok relaxed) :
    Starts tableLength (routeJumps relaxed.slots) where
  original instruction value width hmem :=
    (fits_of_isLeast (h.isLeast hrelax)).original _ _ _ (mem_routeJumps_push_iff.1 hmem)
  below widths hfits := by
    have hwidens := (relax_spec hrelax).1
    rw [routeJumps_withWidths, ← withWidths_eq_of_widens hwidens] at hfits
    have hbare : BareJumps (withWidths widths slots) := by
      intro slot hmem hjump
      obtain ⟨i, hi⟩ := List.mem_iff_getElem?.1 hmem
      rw [getElem?_withWidths] at hi
      obtain ⟨old, hold, rfl⟩ := Option.map_eq_some_iff.1 hi
      rw [Slot.instruction_withWidth] at hjump ⊢
      exact hbare old (List.mem_of_getElem? hold) hjump
    have hunrouted := hfits.of_routeJumps hbare htable
    rw [widthsOf_routeJumps]
    exact (relax_below hunrouted (h.below widths hunrouted)).1 relaxed hrelax

/-- The widths that the pushes of `slots` need for the numbers they have in these slots. -/
def neededWidths (tableLength : Nat) (slots : List Slot) (i : Nat) : Nat :=
  match slots[i]? with
  | some ⟨instruction, .push value _⟩ =>
    max instruction.immediate.length (byteWidth (resolve (.ofSlots slots) tableLength value))
  | _ => 0

theorem neededWidths_eq {i : Nat} {instruction : Instruction} {value : PushValue} {width : Nat}
    (hi : slots[i]? = some ⟨instruction, .push value width⟩) :
    neededWidths tableLength slots i = max instruction.immediate.length
      (byteWidth (resolve (.ofSlots slots) tableLength value)) := by
  rw [neededWidths, hi]

/-- Where all numbers fit, they fit in the widths they need: narrower pushes have smaller numbers. -/
theorem Fits.neededWidths_spec (h : Fits tableLength slots) :
    neededWidths tableLength slots ≤ widthsOf slots ∧
      Fits tableLength (withWidths (neededWidths tableLength slots) slots) := by
  have hle : neededWidths tableLength slots ≤ widthsOf slots := by
    intro i
    rw [neededWidths, widthsOf]
    split
    · rename_i instruction value width hi
      rw [hi]
      have hmem := List.mem_of_getElem? hi
      exact max_le (h.original _ _ _ hmem) (h.holds _ hmem value width rfl)
    · exact Nat.zero_le _
  have hsmaller := smaller_withWidths hle slots
  rw [withWidths_widthsOf] at hsmaller
  have hwidth : ∀ instruction value width, (⟨instruction, .push value width⟩ : Slot) ∈
      withWidths (neededWidths tableLength slots) slots →
      width = max instruction.immediate.length
        (byteWidth (resolve (.ofSlots slots) tableLength value)) := by
    intro instruction value width hmem
    obtain ⟨i, hi⟩ := List.mem_iff_getElem?.1 hmem
    rw [getElem?_withWidths] at hi
    obtain ⟨⟨other, emission⟩, hold, heq⟩ := Option.map_eq_some_iff.1 hi
    cases emission with
    | push value' width' =>
      cases heq
      exact neededWidths_eq hold
    | _ => cases heq
  refine ⟨hle, fun instruction value width hmem => ?_, fun slot hmem value width hemission => ?_⟩
  · rw [hwidth _ _ _ hmem]
    exact le_max_left _ _
  · obtain ⟨instruction, emission⟩ := slot
    simp only at hemission
    subst hemission
    rw [hwidth _ _ _ hmem]
    exact (byteWidth_mono (resolve_mono hsmaller le_rfl value)).trans (le_max_right _ _)

/-- With the least widths, every push is as wide as its instruction was or as its number asks for. -/
theorem width_eq_of_isLeast
    (h : IsLeast {widths | Fits tableLength (withWidths widths slots)} (widthsOf slots)) {i : Nat}
    {instruction : Instruction} {value : PushValue} {width : Nat}
    (hi : slots[i]? = some ⟨instruction, .push value width⟩) :
    width = max instruction.immediate.length
      (byteWidth (resolve (.ofSlots slots) tableLength value)) := by
  have hneeded := (fits_of_isLeast h).neededWidths_spec
  rw [← neededWidths_eq hi]
  have hwidth : widthsOf slots i = width := by
    rw [widthsOf, hi]
    rfl
  rw [← hwidth]
  exact le_antisymm (h.2 hneeded.2 i) (hneeded.1 i)

end Below

/-! ## Layouts of instructions -/

/-- The push with index `i` is given the number `value`, which depends on the layout: it is patched,
or it is right before a jump. -/
inductive Renumbered (rules : RuleTable) (patch? : Nat → Option PushValue)
    (instructions : List Instruction) (i : Nat) : PushValue → Prop where
  | patched {instruction : Instruction} {value : PushValue}
    (hi : instructions[i]? = some instruction) (hrule : rules.replace? instruction = none)
    (hpatch : patch? i = some value) : Renumbered rules patch? instructions i value
  | remapped {instruction destination : Instruction} {k : Nat}
    (hi : instructions[i]? = some instruction) (hremapped : Remapped rules patch? instructions i)
    (hk : instructions[k]? = some destination)
    (hoffset : destination.offset = Bytes.toNat instruction.immediate) :
    Renumbered rules patch? instructions i (.target k)

/-- A layout with the least widths: every push that is given a number is as wide as it was or as its
number in the layout asks for, and no widths that hold their numbers are smaller anywhere. -/
structure Least (rules : RuleTable) (patch? : Nat → Option PushValue)
    (instructions : List Instruction) (layout : Layout) : Prop where
  offsets_eq : layout.offsets = .ofSlots layout.slots
  small : extent layout.slots + layout.tableSize ≤ maxCodeLength
  width : ∀ i instruction value, instructions[i]? = some instruction →
    Renumbered rules patch? instructions i value →
    ∃ width, layout.slots[i]? = some ⟨instruction, .push value width⟩ ∧
      width = max instruction.immediate.length
        (byteWidth (resolve layout.offsets layout.tableSize value))
  least : IsLeast {widths | Fits layout.tableSize (withWidths widths layout.slots)}
    (widthsOf layout.slots)

/-- The slots, with their jumps routed, that a relaxation may start from. -/
inductive InForce (rules : RuleTable) (patch? : Nat → Option PushValue)
    (instructions : List Instruction) : List Slot → Prop where
  | first {slots : List Slot} (hplan : plan rules patch? instructions = .ok slots) :
    InForce rules patch? instructions (firstRouting slots)
  | again {slots : List Slot} {relaxed : Relaxed} (hplan : plan rules patch? instructions = .ok slots)
    (hrelax : relax (ownTable (firstRouting slots)) (firstRouting slots) = .ok relaxed)
    (hunrouted : relaxed.slots.any Slot.isRouted = false)
    (hshifted : isShifted relaxed.slots relaxed.offsets = true)
    (hrouted : (routeJumps relaxed.slots).any Slot.isRouted = true) :
    InForce rules patch? instructions (routeJumps relaxed.slots)

/-- The code is too long to be addressed, whatever widths that hold their numbers the pushes have. -/
def TooLong (slots : List Slot) : Prop :=
  ∀ widths, Fits (ownTable slots) (withWidths widths slots) →
    maxCodeLength < extent (withWidths widths slots) + ownTable slots

section Instructions

variable {rules : RuleTable} {patch? : Nat → Option PushValue} {instructions : List Instruction}
  {code : Bytes}

theorem Planned.exists_push {slots : List Slot} (h : Planned rules patch? instructions slots)
    (hdecode : Instruction.decode code = .ok instructions) {i : Nat} {instruction : Instruction}
    {value : PushValue} (hi : instructions[i]? = some instruction)
    (hvalue : Renumbered rules patch? instructions i value) :
    ∃ width, slots[i]? = some ⟨instruction, .push value width⟩ := by
  have hlt : i < slots.length := h.length_eq ▸ (List.getElem?_eq_some_iff.1 hi).1
  have hslot := List.getElem?_eq_getElem hlt
  generalize slots[i] = slot at hslot
  have hemits := h.emits hslot
  have hinstruction := h.instruction_eq hslot
  rw [hi, Option.some.injEq] at hinstruction
  obtain ⟨_, emission⟩ := slot
  simp only at hinstruction hemits
  subst hinstruction
  cases hvalue with
  | patched hi' hrule hpatch =>
    cases hi.symm.trans hi'
    cases hemits with
    | patched _ hpatch' =>
      cases hpatch.symm.trans hpatch'
      exact ⟨_, hslot⟩
    | replaced hrule' => simp [hrule] at hrule'
    | target _ hpatch' => simp [hpatch] at hpatch'
    | kept _ hpatch' => simp [hpatch] at hpatch'
    | tableJump _ hpatch' => simp [hpatch] at hpatch'
    | tableJumpI _ hpatch' => simp [hpatch] at hpatch'
  | remapped hi' hremapped hk hoffset =>
    cases hi.symm.trans hi'
    obtain ⟨hrule, hpatch, hstatic⟩ := (remapped_iff hi).1 hremapped
    have hpush := isPush_of_isStaticJump hstatic
    cases hemits with
    | target _ _ _ hstart =>
      obtain ⟨other, hother, hoffset'⟩ := (resolveTarget_iff hdecode).1 hstart
      cases Instruction.index_unique_of_decode hdecode hk hother (hoffset.trans hoffset'.symm)
      exact ⟨_, hslot⟩
    | replaced hrule' => simp [hrule] at hrule'
    | patched _ hpatch' => simp [hpatch] at hpatch'
    | kept _ _ hstatic' => simp [hstatic] at hstatic'
    | tableJump _ _ hcode => rw [hcode] at hpush; cases hpush
    | tableJumpI _ _ hcode => rw [hcode] at hpush; cases hpush

/-- There is a plan if every push right before a jump pushes the offset of an instruction. -/
theorem exists_plan (hdecode : Instruction.decode code = .ok instructions)
    (hjumps : ∀ i instruction, instructions[i]? = some instruction →
      Remapped rules patch? instructions i →
      ∃ destination ∈ instructions, destination.offset = Bytes.toNat instruction.immediate) :
    ∃ slots, plan rules patch? instructions = .ok slots := by
  rcases @plan_cases rules patch? instructions with ⟨-, slots, hplan, -⟩ | ⟨hne, -⟩
  · exact ⟨slots, hplan⟩
  · obtain ⟨e, he⟩ := List.exists_mem_of_ne_nil _ hne
    obtain ⟨i, instruction, hi, hrule, hpatch, hstatic, hastray, -⟩ := (mem_misdirected_iff hdecode).1 he
    obtain ⟨destination, hmem, hoffset⟩ :=
      hjumps i instruction hi ⟨instruction, hi, hrule, hpatch, hstatic⟩
    exact absurd hoffset (hastray destination hmem)

section Plan

variable {slots : List Slot} (hplan : plan rules patch? instructions = .ok slots)
include hplan

/-- The first relaxation starts from the widths of the instructions. -/
theorem starts_firstRouting (tableLength : Nat) : Starts tableLength (firstRouting slots) := by
  refine .of_original fun instruction value width hmem => ?_
  have hmem : (⟨instruction, .push value width⟩ : Slot) ∈ slots := by
    rw [firstRouting] at hmem
    split at hmem
    · exact mem_routeJumps_push_iff.1 hmem
    · exact hmem
  obtain ⟨i, hi⟩ := List.mem_iff_getElem?.1 hmem
  have hchosen := ((plan_spec hplan).2 i _ hi).2
  simp only at hchosen
  cases hchosen <;> rfl

theorem bareJumps_firstRouting (hdecode : Instruction.decode code = .ok instructions) :
    BareJumps (firstRouting slots) := by
  intro slot hmem hjump
  obtain ⟨i, hi⟩ := List.mem_iff_getElem?.1 hmem
  have hinstruction := List.mem_of_getElem? ((plan_planned hplan).firstRouting.instruction_eq hi)
  have hwell := Instruction.wellFormed_of_decode hdecode hinstruction
  have hpush : Opcode.isPush slot.instruction.code = false := by
    by_contra hpush
    rw [Opcode.isJump_of_isPush (by simpa using hpush)] at hjump
    cases hjump
  rw [← List.length_eq_zero_iff, hwell.operand, Opcode.immediateLength_eq_zero hpush]

/-- The second relaxation starts where the first one ended. -/
theorem starts_again (hdecode : Instruction.decode code = .ok instructions) {first : Relaxed}
    (hrelax : relax (ownTable (firstRouting slots)) (firstRouting slots) = .ok first)
    (hunrouted : first.slots.any Slot.isRouted = false) :
    Starts (ownTable (routeJumps first.slots)) (routeJumps first.slots) := by
  refine (starts_firstRouting hplan _).routeJumps (bareJumps_firstRouting hplan hdecode) ?_ hrelax
  have hnone : first.slots.countP Slot.isRouted = 0 := by
    rw [List.countP_eq_zero]
    exact List.any_eq_false.1 hunrouted
  rw [ownTable_eq_of_widens (relax_spec hrelax).1, ownTable, tableLength, if_pos hnone]
  exact Nat.zero_le _

end Plan

/-- A finished relaxation with its own jump table leaves a layout with the least widths. -/
theorem Starts.least {slots : List Slot} {relaxed : Relaxed} (h : Starts (ownTable slots) slots)
    (hrelax : relax (ownTable slots) slots = .ok relaxed)
    (hdecode : Instruction.decode code = .ok instructions)
    (hplanned : Planned rules patch? instructions slots) :
    Least rules patch? instructions ⟨relaxed.slots, relaxed.offsets⟩ := by
  have hrelaxes := relaxes_of_relax hrelax
  have htable : tableSize ⟨relaxed.slots, relaxed.offsets⟩ = ownTable slots :=
    (ownTable_eq_of_widens hrelaxes.widens).symm
  have hleast := h.isLeast hrelax
  rw [← htable] at hleast
  refine ⟨hrelaxes.offsets_eq, hrelaxes.small, fun i instruction value hi hvalue => ?_, hleast⟩
  obtain ⟨width, hslot⟩ := (hplanned.widens hrelaxes.widens).exists_push hdecode hi hvalue
  refine ⟨width, hslot, ?_⟩
  rw [hrelaxes.offsets_eq]
  exact width_eq_of_isLeast hleast hslot

/-- **Relaxation finds the least layout.** If every push right before a jump pushes the offset of an
instruction, laying out takes at most two relaxations of a bounded number of rounds. It gives a layout
with the least widths, or it fails for the length of the code, and then there are no widths with
which the code, its jumps as they are routed at that point, could be addressed. -/
theorem layout_least (hdecode : Instruction.decode code = .ok instructions)
    (hjumps : ∀ i instruction, instructions[i]? = some instruction →
      Remapped rules patch? instructions i →
      ∃ destination ∈ instructions, destination.offset = Bytes.toNat instruction.immediate) :
    ((ofInstructions rules patch? instructions).passes.length ≤ 2 ∧
      ∀ pass ∈ (ofInstructions rules patch? instructions).passes,
        pass.rounds ≤ 8 * instructions.length + 1) ∧
    ((∃ layout, (ofInstructions rules patch? instructions).result = .ok layout ∧
        Least rules patch? instructions layout) ∨
      ∃ length slots,
        (ofInstructions rules patch? instructions).result = .error [⟨0, .outputTooLarge length⟩] ∧
        InForce rules patch? instructions slots ∧ TooLong slots) := by
  obtain ⟨slots, hplan⟩ := exists_plan hdecode hjumps
  have hstarts := starts_firstRouting hplan (ownTable (firstRouting slots))
  have hplanned := (plan_planned hplan).firstRouting
  have hrounds : ∀ {slots : List Slot} {relaxed : Relaxed},
      Planned rules patch? instructions slots → relax (ownTable slots) slots = .ok relaxed →
      relaxed.rounds ≤ 8 * instructions.length + 1 := by
    intro slots relaxed hplanned hrelax
    have hle := rounds_le hrelax
    have hroom := room_le slots
    rw [hplanned.length_eq] at hroom
    omega
  have hlaid : Laid (firstRouting slots) (ofInstructions rules patch? instructions) := by
    rw [ofInstructions, hplan]
    exact laid_ofSlots slots
  generalize ofInstructions rules patch? instructions = attempt at hlaid ⊢
  cases hlaid with
  | tooLong h =>
    exact ⟨by simp, .inr ⟨_, _, rfl, .first hplan, fun _ => hstarts.tooLong h⟩⟩
  | once h =>
    exact ⟨by simpa using hrounds hplanned h, .inl ⟨_, rfl, hstarts.least h hdecode hplanned⟩⟩
  | tooLongAgain h hunrouted hshifted hrouted hlong =>
    have hagain := starts_again hplan hdecode h hunrouted
    exact ⟨by simpa using hrounds hplanned h,
      .inr ⟨_, _, rfl, .again hplan h hunrouted hshifted hrouted, fun _ => hagain.tooLong hlong⟩⟩
  | twice h hunrouted _ _ hok =>
    have hagain := starts_again hplan hdecode h hunrouted
    have hrouted := (hplanned.widens (relax_spec h).1).routeJumps
    exact ⟨by simpa using ⟨hrounds hplanned h, hrounds hrouted hok⟩,
      .inl ⟨_, rfl, hagain.least hok hdecode hrouted⟩⟩

end Instructions

/-! ## A layout that is relaxed twice -/

/-- Two pushes, a jump to wherever the second of them says, and a place to jump to. -/
def steppingCode : Bytes := [0x60, 0, 0x60, 0, 0x56, 0x5b]

/-- The first push needs two bytes, which moves the jump; the second needs two bytes once the jump
goes through the table. -/
def steppingPatch? (i : Nat) : Option PushValue :=
  [some (.constant 0x1234), some (.pastEnd 230)].getD i none

theorem layout_least_steppingCode :
    ∃ instructions layout, Instruction.decode steppingCode = .ok instructions ∧
      (∀ i instruction, instructions[i]? = some instruction →
        Remapped .empty steppingPatch? instructions i →
        ∃ destination ∈ instructions, destination.offset = Bytes.toNat instruction.immediate) ∧
      (ofInstructions .empty steppingPatch? instructions).result = .ok layout ∧
      (ofInstructions .empty steppingPatch? instructions).passes = [⟨2, 0⟩, ⟨2, 23⟩] ∧
      widthsOf layout.slots 0 = 2 ∧ widthsOf layout.slots 1 = 2 ∧
      Least .empty steppingPatch? instructions layout := by
  obtain ⟨instructions, hdecode, hstatic, hpasses, hwidths⟩ : ∃ instructions,
      Instruction.decode steppingCode = .ok instructions ∧
      (∀ i < instructions.length, (steppingPatch? i).isNone = true →
        (instructions[i]?.any fun instruction => Opcode.isPush instruction.code) = false) ∧
      (ofInstructions .empty steppingPatch? instructions).passes = [⟨2, 0⟩, ⟨2, 23⟩] ∧
      ((ofInstructions .empty steppingPatch? instructions).result.toOption.any fun layout =>
        widthsOf layout.slots 0 = 2 ∧ widthsOf layout.slots 1 = 2) = true :=
    ⟨Instruction.locate 0 [⟨0x60, [0]⟩, ⟨0x60, [0]⟩, (0x56 : UInt8), (0x5b : UInt8)],
      by decide +kernel, by decide +kernel, by decide +kernel, by decide +kernel⟩
  -- both pushes are patched, so none is remapped
  have hjumps : ∀ i instruction, instructions[i]? = some instruction →
      Remapped .empty steppingPatch? instructions i →
      ∃ destination ∈ instructions, destination.offset = Bytes.toNat instruction.immediate := by
    intro i instruction hi hremapped
    have hnone := hstatic i (List.getElem?_eq_some_iff.1 hi).1
      (by rw [((remapped_iff hi).1 hremapped).2.1]; rfl)
    rw [hi, Option.any_some, hremapped.isPush hi] at hnone
    cases hnone
  cases hresult : (ofInstructions .empty steppingPatch? instructions).result with
  | error errors => simp [hresult, Except.toOption] at hwidths
  | ok layout =>
    simp only [hresult, Except.toOption, Option.any_some, decide_eq_true_eq] at hwidths
    refine ⟨instructions, layout, hdecode, hjumps, hresult, hpasses, hwidths.1, hwidths.2, ?_⟩
    rcases (layout_least hdecode hjumps).2 with ⟨other, hother, hleast⟩ | ⟨_, _, herror, -⟩
    · cases hresult.symm.trans hother
      exact hleast
    · cases hresult.symm.trans herror

end EvmSandbox.Layout
