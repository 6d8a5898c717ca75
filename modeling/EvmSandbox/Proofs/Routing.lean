/-
Routing, and what a finished layout is (`Finished`, `ofInstructions_spec`).

Jumps are routed before the first relaxation or after it, or not at all. In
each case either no jump that stands as it is depends on a number computed
at run time (`Settled`), or nothing has moved and nothing goes through the
jump table.
-/
import EvmSandbox.Layout
import EvmSandbox.Proofs.Plan
import EvmSandbox.Proofs.Relaxation

namespace EvmSandbox.Layout

/-- Whether the slot before number `i` pushes the new offset of a jump target. -/
def fed (slots : List Slot) (i : Nat) : Bool :=
  (false :: slots.map Slot.pushesTarget).getD i false

theorem fed_iff {slots : List Slot} {i : Nat} :
    fed slots i = true ↔
      ∃ j slot, i = j + 1 ∧ slots[j]? = some slot ∧ slot.pushesTarget = true := by
  cases i with
  | zero => simp [fed]
  | succ j =>
    rw [fed, List.getD_cons_succ, List.getD_eq_getElem?_getD, List.getElem?_map]
    cases hj : slots[j]? <;> simp [hj]

/-- No jump stands as it is but those right after a push of their new target. -/
def Settled (slots : List Slot) : Prop :=
  ∀ i slot, slots[i]? = some slot → slot.emission = .kept →
    Opcode.isJump slot.instruction.code = true → fed slots i = true

/-- Only jumps that are not right after a push of their new target are routed. -/
def RoutesUnfed (slots : List Slot) : Prop :=
  ∀ i slot, slots[i]? = some slot → slot.isRouted = true → fed slots i = false

/-! ## Widening keeps the kind of a slot -/

theorem Slot.Widens.isRouted_eq {a b : Slot} (h : a.Widens b) : a.isRouted = b.isRouted := by
  cases h <;> rfl

theorem Slot.Widens.isReplaced_eq {a b : Slot} (h : a.Widens b) : a.isReplaced = b.isReplaced := by
  cases h <;> rfl

theorem Slot.Widens.pushesTarget_eq {a b : Slot} (h : a.Widens b) :
    a.pushesTarget = b.pushesTarget := by
  cases h with
  | same => rfl
  | push _ value _ _ => cases value <;> rfl

theorem Slot.Widens.instruction_eq {a b : Slot} (h : a.Widens b) : a.instruction = b.instruction := by
  cases h <;> rfl

theorem Slot.Widens.kept {a b : Slot} (h : a.Widens b) (hb : b.emission = .kept) :
    a.emission = .kept := by
  cases h with
  | same => exact hb
  | push => cases hb

section Widened

variable {a b : List Slot} (h : List.Forall₂ Slot.Widens a b)
include h

theorem map_eq_of_widens {α : Type} {f : Slot → α} (hf : ∀ {x y : Slot}, x.Widens y → f x = f y) :
    a.map f = b.map f := by
  induction h with
  | nil => rfl
  | cons hslot _ ih => rw [List.map_cons, List.map_cons, hf hslot, ih]

theorem countP_eq_of_widens {f : Slot → Bool} (hf : ∀ {x y : Slot}, x.Widens y → f x = f y) :
    a.countP f = b.countP f := by
  induction h with
  | nil => rfl
  | cons hslot _ ih => rw [List.countP_cons, List.countP_cons, hf hslot, ih]

theorem any_eq_of_widens {f : Slot → Bool} (hf : ∀ {x y : Slot}, x.Widens y → f x = f y) :
    a.any f = b.any f := by
  induction h with
  | nil => rfl
  | cons hslot _ ih => rw [List.any_cons, List.any_cons, hf hslot, ih]

theorem fed_eq_of_widens (i : Nat) : fed a i = fed b i := by
  rw [fed, fed, map_eq_of_widens h Slot.Widens.pushesTarget_eq]

theorem widens_getElem? {i : Nat} {y : Slot} (hi : b[i]? = some y) :
    ∃ x, a[i]? = some x ∧ x.Widens y := by
  induction h generalizing i with
  | nil => simp at hi
  | cons hslot _ ih =>
    cases i with
    | zero =>
      simp only [List.getElem?_cons_zero, Option.some.injEq] at hi
      subst hi
      exact ⟨_, rfl, hslot⟩
    | succ i => exact ih hi

theorem Settled.widens (ha : Settled a) : Settled b := by
  intro i y hi hkept hjump
  obtain ⟨x, hx, hxy⟩ := widens_getElem? h hi
  rw [← fed_eq_of_widens h]
  exact ha i x hx (hxy.kept hkept) (by rw [hxy.instruction_eq]; exact hjump)

theorem RoutesUnfed.widens (ha : RoutesUnfed a) : RoutesUnfed b := by
  intro i y hi hrouted
  obtain ⟨x, hx, hxy⟩ := widens_getElem? h hi
  rw [← fed_eq_of_widens h]
  exact ha i x hx (by rw [hxy.isRouted_eq]; exact hrouted)

end Widened

/-! ## Routing the jumps of a list of slots -/

/-- What routing does to a slot: it sends a jump that stands as it is to the jump table. -/
theorem Slot.route_cases (slot : Slot) :
    (slot.route = slot ∧
      (slot.emission = .kept → Opcode.isJump slot.instruction.code = false)) ∨
    (slot.emission = .kept ∧ slot.instruction.code = Opcode.jump ∧
      slot.route = ⟨slot.instruction, .tableJump⟩) ∨
    (slot.emission = .kept ∧ slot.instruction.code = Opcode.jumpI ∧
      slot.route = ⟨slot.instruction, .tableJumpI⟩) := by
  obtain ⟨instruction, emission⟩ := slot
  cases emission with
  | kept =>
    by_cases hjump : instruction.code = Opcode.jump
    · exact .inr (.inl ⟨rfl, hjump, by simp [Slot.route, hjump]⟩)
    by_cases hjumpI : instruction.code = Opcode.jumpI
    · exact .inr (.inr ⟨rfl, hjumpI, by simp [Slot.route, hjumpI, Opcode.jump, Opcode.jumpI]⟩)
    exact .inl ⟨by simp [Slot.route, hjump, hjumpI], fun _ => by simp [Opcode.isJump, hjump, hjumpI]⟩
  | _ => exact .inl ⟨rfl, fun h => by cases h⟩

theorem Slot.pushesTarget_route (slot : Slot) : slot.route.pushesTarget = slot.pushesTarget := by
  rcases slot.route_cases with ⟨h, -⟩ | ⟨hkept, -, h⟩ | ⟨hkept, -, h⟩
  · rw [h]
  · simp [h, Slot.pushesTarget, hkept]
  · simp [h, Slot.pushesTarget, hkept]

theorem getElem?_routeJumps (slots : List Slot) (i : Nat) :
    (routeJumps slots)[i]? =
      slots[i]?.map fun slot => if fed slots i then slot else slot.route := by
  by_cases hi : i < slots.length
  · have hfed : (false :: slots.map Slot.pushesTarget)[i]? = some (fed slots i) := by
      rw [fed, List.getD_eq_getElem?_getD, List.getElem?_eq_getElem (by simp; omega)]
      rfl
    rw [routeJumps, List.getElem?_zipWith, hfed, List.getElem?_eq_getElem hi]
    rfl
  · rw [List.getElem?_eq_none (by simp [routeJumps]; omega), List.getElem?_eq_none (by omega)]
    rfl

@[simp] theorem length_routeJumps (slots : List Slot) : (routeJumps slots).length = slots.length := by
  simp [routeJumps]

@[simp] theorem fed_routeJumps (slots : List Slot) (i : Nat) : fed (routeJumps slots) i = fed slots i := by
  have hmap : (routeJumps slots).map Slot.pushesTarget = slots.map Slot.pushesTarget := by
    apply List.ext_getElem?
    intro k
    rw [List.getElem?_map, getElem?_routeJumps, List.getElem?_map, Option.map_map]
    congr 1
    funext slot
    simp only [Function.comp]
    split <;> simp [Slot.pushesTarget_route]
  rw [fed, fed, hmap]

theorem settled_routeJumps (slots : List Slot) : Settled (routeJumps slots) := by
  intro i slot hi hkept hjump
  rw [fed_routeJumps]
  by_contra hfed
  rw [getElem?_routeJumps] at hi
  obtain ⟨old, -, rfl⟩ := Option.map_eq_some_iff.1 hi
  rw [if_neg hfed] at hkept hjump
  rcases old.route_cases with ⟨h, hnot⟩ | ⟨-, -, h⟩ | ⟨-, -, h⟩ <;> rw [h] at hkept hjump
  · simp [hnot hkept] at hjump
  · cases hkept
  · cases hkept

theorem RoutesUnfed.routeJumps {slots : List Slot} (h : RoutesUnfed slots) :
    RoutesUnfed (routeJumps slots) := by
  intro i slot hi hrouted
  rw [fed_routeJumps]
  by_contra hfed
  rw [Bool.not_eq_false] at hfed
  rw [getElem?_routeJumps] at hi
  obtain ⟨old, hold, rfl⟩ := Option.map_eq_some_iff.1 hi
  rw [hfed, if_pos rfl] at hrouted
  exact absurd (h i old hold hrouted) (by simp [hfed])

/-- Where routing sends no jump to the table, it changes nothing. -/
theorem routeJumps_eq_self {slots : List Slot} (h : (routeJumps slots).any Slot.isRouted = false) :
    routeJumps slots = slots := by
  apply List.ext_getElem?
  intro i
  rw [getElem?_routeJumps]
  cases hi : slots[i]? with
  | none => rfl
  | some slot =>
    simp only [Option.map_some, Option.some.injEq]
    split
    · rfl
    · rename_i hfed
      have hmem : slot.route ∈ routeJumps slots := by
        apply List.mem_of_getElem? (i := i)
        rw [getElem?_routeJumps, hi, Option.map_some, if_neg hfed]
      have hroute := (List.any_eq_false.1 h) _ hmem
      rcases slot.route_cases with ⟨hsame, -⟩ | ⟨-, -, hsent⟩ | ⟨-, -, hsent⟩
      · exact hsame
      · simp [hsent, Slot.isRouted] at hroute
      · simp [hsent, Slot.isRouted] at hroute

/-! ## Finished layouts -/

/-- The emission of an instruction in a layout, given its patch and the instruction after it. -/
inductive Emits (rules : RuleTable) (decoded : Array Instruction) (patch : Option PushValue)
    (instruction : Instruction) (next : Option Instruction) : Emission → Prop where
  | replaced {replacement : Replacement} (hrule : rules.replace? instruction = some replacement) :
    Emits rules decoded patch instruction next (.replaced replacement)
  | patched {value : PushValue} {width : Nat} (hrule : rules.replace? instruction = none)
    (hpatch : patch = some value) (hle : instruction.immediate.length ≤ width)
    (hmax : width ≤ max instruction.immediate.length 8) :
    Emits rules decoded patch instruction next (.push value width)
  | target {k width : Nat} (hrule : rules.replace? instruction = none) (hpatch : patch = none)
    (hstatic : isStaticJump instruction next = true)
    (hk : resolveTarget decoded instruction.immediate = some k)
    (hle : instruction.immediate.length ≤ width)
    (hmax : width ≤ max instruction.immediate.length 8) :
    Emits rules decoded patch instruction next (.push (.target k) width)
  | kept (hrule : rules.replace? instruction = none) (hpatch : patch = none)
    (hstatic : isStaticJump instruction next = false) :
    Emits rules decoded patch instruction next .kept
  | tableJump (hrule : rules.replace? instruction = none) (hpatch : patch = none)
    (hcode : instruction.code = Opcode.jump) :
    Emits rules decoded patch instruction next .tableJump
  | tableJumpI (hrule : rules.replace? instruction = none) (hpatch : patch = none)
    (hcode : instruction.code = Opcode.jumpI) :
    Emits rules decoded patch instruction next .tableJumpI

section Emits

variable {rules : RuleTable} {decoded : Array Instruction} {patch : Option PushValue}
  {next : Option Instruction}

theorem Chosen.emits {instruction : Instruction} {emission : Emission}
    (h : Chosen rules decoded patch instruction next emission) :
    Emits rules decoded patch instruction next emission := by
  cases h with
  | replaced hrule => exact .replaced hrule
  | patched hrule hpatch => exact .patched hrule hpatch le_rfl (le_max_left _ _)
  | target hrule hpatch hstatic hk => exact .target hrule hpatch hstatic hk le_rfl (le_max_left _ _)
  | kept hrule hpatch hstatic => exact .kept hrule hpatch hstatic

theorem Emits.widens {a b : Slot} (h : Emits rules decoded patch a.instruction next a.emission)
    (hab : a.Widens b) : Emits rules decoded patch b.instruction next b.emission := by
  cases hab with
  | same => exact h
  | push instruction value hle hmax =>
    cases h with
    | patched hrule hpatch hle' hmax' =>
      exact .patched hrule hpatch (hle'.trans hle) (by simp only at hmax' ⊢; omega)
    | target hrule hpatch hstatic hk hle' hmax' =>
      exact .target hrule hpatch hstatic hk (hle'.trans hle) (by simp only at hmax' ⊢; omega)

theorem Emits.route {slot : Slot} (h : Emits rules decoded patch slot.instruction next slot.emission) :
    Emits rules decoded patch slot.route.instruction next slot.route.emission := by
  rcases slot.route_cases with ⟨hsame, -⟩ | ⟨hkept, hcode, hsent⟩ | ⟨hkept, hcode, hsent⟩
  · rw [hsame]
    exact h
  · rw [hkept] at h
    cases h with
    | kept hrule hpatch _ => rw [hsent]; exact .tableJump hrule hpatch hcode
  · rw [hkept] at h
    cases h with
    | kept hrule hpatch _ => rw [hsent]; exact .tableJumpI hrule hpatch hcode

end Emits

/-- One slot for each instruction, with an emission that the instruction may have. -/
structure Planned (rules : RuleTable) (patch? : Nat → Option PushValue)
    (instructions : List Instruction) (slots : List Slot) : Prop where
  length_eq : slots.length = instructions.length
  instruction_eq : ∀ {i : Nat} {slot : Slot}, slots[i]? = some slot →
    instructions[i]? = some slot.instruction
  emits : ∀ {i : Nat} {slot : Slot}, slots[i]? = some slot →
    Emits rules instructions.toArray (patch? i) slot.instruction instructions[i + 1]?
      slot.emission

/-- The length of the jump table that the jumps and destinations of `slots` ask for. -/
def ownTable (slots : List Slot) : Nat :=
  tableLength (slots.countP Slot.isRouted) (countDestinations slots)

theorem ownTable_eq_of_widens {a b : List Slot} (h : List.Forall₂ Slot.Widens a b) :
    ownTable a = ownTable b := by
  have hrouted := countP_eq_of_widens h Slot.Widens.isRouted_eq
  have hdestinations : countDestinations a = countDestinations b :=
    countP_eq_of_widens h fun hslot => by rw [hslot.instruction_eq]
  rw [ownTable, ownTable, hrouted, hdestinations]

/-- The length of the jump table of a layout. -/
def tableSize (layout : Layout) : Nat :=
  tableLength layout.routed (countDestinations layout.slots)

/-- What is known of a finished layout. -/
structure Finished (rules : RuleTable) (patch? : Nat → Option PushValue)
    (instructions : List Instruction) (layout : Layout) : Prop where
  planned : Planned rules patch? instructions layout.slots
  offsets_eq : layout.offsets = .ofSlots layout.slots
  small : extent layout.slots + layout.tableSize ≤ maxCodeLength
  holds : ∀ slot ∈ layout.slots, slot.Holds (resolve layout.offsets layout.tableSize)
  unfed : RoutesUnfed layout.slots
  settled : Settled layout.slots ∨
    layout.routed = 0 ∧ isShifted layout.slots layout.offsets = false ∧
      ∀ slot ∈ layout.slots, slot.isReplaced = false

section Finished

variable {rules : RuleTable} {patch? : Nat → Option PushValue} {instructions : List Instruction}

theorem Planned.map_instruction {slots : List Slot} (h : Planned rules patch? instructions slots) :
    slots.map Slot.instruction = instructions := by
  refine List.ext_getElem? fun i => ?_
  rw [List.getElem?_map]
  cases hslot : slots[i]? with
  | some slot => exact (h.instruction_eq hslot).symm
  | none =>
    rw [List.getElem?_eq_none_iff, h.length_eq] at hslot
    exact (List.getElem?_eq_none hslot).symm

theorem Planned.widens {a b : List Slot} (h : Planned rules patch? instructions a)
    (hab : List.Forall₂ Slot.Widens a b) : Planned rules patch? instructions b where
  length_eq := by rw [← hab.length_eq, h.length_eq]
  instruction_eq := by
    intro i slot hi
    obtain ⟨old, hold, hwidens⟩ := widens_getElem? hab hi
    rw [← hwidens.instruction_eq]
    exact h.instruction_eq hold
  emits := by
    intro i slot hi
    obtain ⟨old, hold, hwidens⟩ := widens_getElem? hab hi
    exact (h.emits hold).widens hwidens

theorem Planned.routeJumps {slots : List Slot} (h : Planned rules patch? instructions slots) :
    Planned rules patch? instructions (routeJumps slots) where
  length_eq := by rw [length_routeJumps, h.length_eq]
  instruction_eq := by
    intro i slot hi
    rw [getElem?_routeJumps] at hi
    obtain ⟨old, hold, rfl⟩ := Option.map_eq_some_iff.1 hi
    have hroute : old.route.instruction = old.instruction := by
      rcases old.route_cases with ⟨hsame, -⟩ | ⟨-, -, hsent⟩ | ⟨-, -, hsent⟩ <;> simp_all
    rw [h.instruction_eq hold]
    split
    · rfl
    · rw [hroute]
  emits := by
    intro i slot hi
    rw [getElem?_routeJumps] at hi
    obtain ⟨old, hold, rfl⟩ := Option.map_eq_some_iff.1 hi
    split
    · exact h.emits hold
    · exact (h.emits hold).route

theorem plan_planned {slots : List Slot} (h : plan rules patch? instructions = .ok slots) :
    Planned rules patch? instructions slots where
  length_eq := (plan_spec h).1
  instruction_eq hi := ((plan_spec h).2 _ _ hi).1
  emits hi := ((plan_spec h).2 _ _ hi).2.emits

theorem plan_not_routed {slots : List Slot} (h : plan rules patch? instructions = .ok slots) :
    ∀ slot ∈ slots, slot.isRouted = false := by
  intro slot hslot
  obtain ⟨i, hi⟩ := List.mem_iff_getElem?.1 hslot
  have hchosen := ((plan_spec h).2 i slot hi).2
  cases hemission : slot.emission with
  | tableJump => rw [hemission] at hchosen; cases hchosen
  | tableJumpI => rw [hemission] at hchosen; cases hchosen
  | _ => simp [Slot.isRouted, hemission]

/-- Slots that a relaxation with their own jump table turned into `layout`. -/
structure Relaxes (slots : List Slot) (layout : Layout) : Prop where
  widens : List.Forall₂ Slot.Widens slots layout.slots
  offsets_eq : layout.offsets = .ofSlots layout.slots
  small : extent layout.slots + layout.tableSize ≤ maxCodeLength
  holds : ∀ slot ∈ layout.slots, slot.Holds (resolve layout.offsets layout.tableSize)

theorem relaxes_of_relax {slots : List Slot} {relaxed : Relaxed}
    (h : relax (ownTable slots) slots = .ok relaxed) :
    Relaxes slots ⟨relaxed.slots, relaxed.offsets⟩ := by
  obtain ⟨hwidens, hoffsets, hsmall, hholds⟩ := relax_spec h
  have hsize : tableSize ⟨relaxed.slots, relaxed.offsets⟩ = ownTable slots :=
    (ownTable_eq_of_widens hwidens).symm
  exact ⟨hwidens, hoffsets, by rw [hsize]; exact hsmall, by rw [hsize]; exact hholds⟩

theorem Relaxes.finished {slots : List Slot} {layout : Layout} (h : Relaxes slots layout)
    (hplanned : Planned rules patch? instructions slots) (hunfed : RoutesUnfed slots)
    (hsettled : Settled layout.slots ∨
      layout.routed = 0 ∧ isShifted layout.slots layout.offsets = false ∧
        ∀ slot ∈ layout.slots, slot.isReplaced = false) :
    Finished rules patch? instructions layout :=
  ⟨hplanned.widens h.widens, h.offsets_eq, h.small, h.holds, hunfed.widens h.widens, hsettled⟩

/-- The slots that go into the first relaxation. -/
def firstRouting (slots : List Slot) : List Slot :=
  if slots.any Slot.isReplaced then routeJumps slots else slots

theorem Planned.firstRouting {slots : List Slot} (h : Planned rules patch? instructions slots) :
    Planned rules patch? instructions (firstRouting slots) := by
  rw [Layout.firstRouting]
  split
  · exact h.routeJumps
  · exact h

theorem firstRouting_spec {slots : List Slot} (hrouted : ∀ slot ∈ slots, slot.isRouted = false) :
    RoutesUnfed (firstRouting slots) ∧ (Settled (firstRouting slots) ∨
      ∀ slot ∈ firstRouting slots, slot.isRouted = false ∧ slot.isReplaced = false) := by
  have hunfed : RoutesUnfed slots := fun i slot hi hslot =>
    absurd hslot (by simp [hrouted slot (List.mem_of_getElem? hi)])
  rw [firstRouting]
  split
  · exact ⟨hunfed.routeJumps, .inl (settled_routeJumps slots)⟩
  · rename_i hreplaced
    refine ⟨hunfed, .inr fun slot hslot => ⟨hrouted slot hslot, ?_⟩⟩
    simpa using fun h => hreplaced (List.any_eq_true.2 ⟨slot, hslot, h⟩)

/-- What comes of laying out slots whose jumps are routed as `planned`: the first relaxation fails for
the length of the code, or is the last, or a second one follows, of slots with routed jumps. -/
inductive Laid (planned : List Slot) : Attempt → Prop where
  | tooLong {length : Nat} (h : relax (ownTable planned) planned = .error length) :
    Laid planned ⟨.error [⟨0, .outputTooLarge length⟩], []⟩
  | once {first : Relaxed} (h : relax (ownTable planned) planned = .ok first)
    (hdone : first.slots.any Slot.isRouted = true ∨ isShifted first.slots first.offsets = false ∨
      (routeJumps first.slots).any Slot.isRouted = false) :
    Laid planned ⟨.ok ⟨first.slots, first.offsets⟩, [⟨first.rounds, ownTable planned⟩]⟩
  | tooLongAgain {first : Relaxed} {length : Nat} (h : relax (ownTable planned) planned = .ok first)
    (hunrouted : first.slots.any Slot.isRouted = false)
    (hshifted : isShifted first.slots first.offsets = true)
    (hrouted : (routeJumps first.slots).any Slot.isRouted = true)
    (hagain : relax (ownTable (routeJumps first.slots)) (routeJumps first.slots) = .error length) :
    Laid planned ⟨.error [⟨0, .outputTooLarge length⟩], [⟨first.rounds, ownTable planned⟩]⟩
  | twice {first again : Relaxed} (h : relax (ownTable planned) planned = .ok first)
    (hunrouted : first.slots.any Slot.isRouted = false)
    (hshifted : isShifted first.slots first.offsets = true)
    (hrouted : (routeJumps first.slots).any Slot.isRouted = true)
    (hagain : relax (ownTable (routeJumps first.slots)) (routeJumps first.slots) = .ok again) :
    Laid planned ⟨.ok ⟨again.slots, again.offsets⟩,
      [⟨first.rounds, ownTable planned⟩, ⟨again.rounds, ownTable (routeJumps first.slots)⟩]⟩

theorem settle_eq (passes : List Pass) (slots : List Slot) :
    settle passes slots =
      match relax (ownTable slots) slots with
      | .error length => (⟨.error [⟨0, .outputTooLarge length⟩], passes⟩, none)
      | .ok relaxed => (⟨.ok ⟨relaxed.slots, relaxed.offsets⟩,
          passes ++ [⟨relaxed.rounds, ownTable slots⟩]⟩, some relaxed) :=
  rfl

theorem laid_ofSlots (slots : List Slot) : Laid (firstRouting slots) (ofSlots slots) := by
  rw [firstRouting, ofSlots]
  generalize (if slots.any Slot.isReplaced then routeJumps slots else slots) = planned
  simp only [settle_eq]
  cases h : relax (ownTable planned) planned with
  | error length => exact .tooLong h
  | ok first =>
    simp only
    split
    · rename_i hdone
      simp only [Bool.or_eq_true, Bool.not_eq_true'] at hdone
      exact .once h (hdone.imp_right .inl)
    · rename_i hgoesOn
      simp only [Bool.or_eq_true, Bool.not_eq_true', not_or, Bool.not_eq_true,
        Bool.not_eq_false] at hgoesOn
      obtain ⟨hunrouted, hshifted⟩ := hgoesOn
      split
      · rename_i hrouted
        cases hagain : relax (ownTable (routeJumps first.slots)) (routeJumps first.slots) with
        | error length => exact .tooLongAgain h hunrouted hshifted hrouted hagain
        | ok again => exact .twice h hunrouted hshifted hrouted hagain
      · rename_i hnone
        exact .once h (.inr (.inr (by simpa using hnone)))

/-- Laying out planned slots gives a finished layout, if it gives one. -/
theorem ofSlots_spec {slots : List Slot} {layout : Layout}
    (hplanned : Planned rules patch? instructions slots)
    (hrouted : ∀ slot ∈ slots, slot.isRouted = false)
    (h : (ofSlots slots).result = .ok layout) : Finished rules patch? instructions layout := by
  have hplanned := hplanned.firstRouting
  obtain ⟨hunfed, hsettled⟩ := firstRouting_spec hrouted
  have hlaid := laid_ofSlots slots
  generalize ofSlots slots = attempt at h hlaid
  cases hlaid with
  | tooLong => cases h
  | tooLongAgain => cases h
  | @once first hrelax hdone =>
    cases h
    have hrelax := relaxes_of_relax hrelax
    refine hrelax.finished hplanned hunfed ?_
    rcases hsettled with hsettled | hplain
    · exact .inl (hsettled.widens hrelax.widens)
    -- nothing was routed before the relaxation
    have hnone : first.slots.any Slot.isRouted = false := by
      rw [← any_eq_of_widens hrelax.widens Slot.Widens.isRouted_eq, List.any_eq_false]
      exact fun slot hslot => by simp [(hplain slot hslot).1]
    rcases hdone with hsome | hunshifted | hunrouted
    · rw [hnone] at hsome
      cases hsome
    · refine .inr ⟨?_, hunshifted, fun slot hslot => ?_⟩
      · rw [routed, List.countP_eq_zero]
        exact List.any_eq_false.1 hnone
      · obtain ⟨i, hi⟩ := List.mem_iff_getElem?.1 hslot
        obtain ⟨old, hold, hwidens⟩ := widens_getElem? hrelax.widens hi
        rw [← hwidens.isReplaced_eq]
        exact (hplain old (List.mem_of_getElem? hold)).2
    · -- the code has moved, but there is no jump to route
      rw [← routeJumps_eq_self hunrouted]
      exact .inl (settled_routeJumps first.slots)
  | @twice first again hrelax _ _ _ hagain =>
    cases h
    have hrelax := relaxes_of_relax hrelax
    have hagain := relaxes_of_relax hagain
    exact hagain.finished (hplanned.widens hrelax.widens).routeJumps
      (hunfed.widens hrelax.widens).routeJumps
      (.inl ((settled_routeJumps first.slots).widens hagain.widens))

/-- Laying out planned slots gives a layout, or the code is too long to be addressed. -/
theorem ofSlots_result (slots : List Slot) :
    (∃ layout, (ofSlots slots).result = .ok layout) ∨
      ∃ length, maxCodeLength < length ∧
        (ofSlots slots).result = .error [⟨0, .outputTooLarge length⟩] := by
  have hlaid := laid_ofSlots slots
  generalize ofSlots slots = attempt at hlaid
  cases hlaid with
  | tooLong h => exact .inr ⟨_, lt_of_relax_eq_error h, rfl⟩
  | tooLongAgain _ _ _ _ h => exact .inr ⟨_, lt_of_relax_eq_error h, rfl⟩
  | once => exact .inl ⟨_, rfl⟩
  | twice => exact .inl ⟨_, rfl⟩

/-- A layout of instructions is a finished one. -/
theorem ofInstructions_spec {layout : Layout}
    (h : (ofInstructions rules patch? instructions).result = .ok layout) :
    Finished rules patch? instructions layout := by
  rw [ofInstructions] at h
  split at h
  · cases h
  · rename_i slots hplan
    exact ofSlots_spec (plan_planned hplan) (plan_not_routed hplan) h

end Finished

end EvmSandbox.Layout
