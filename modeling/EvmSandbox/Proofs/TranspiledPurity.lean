/-
The inspection of transpiled code: it finds what the original code calls, and
it fails only if the target of a call is not a constant.

A call to the manager begins with its only `MSIZE` and has a `CALL` further
on. In transpiled code every `CALL` belongs to such a call, so it has an
`MSIZE` between it and any instruction that was kept (`Guarded`), and no call
to the manager is found but at the start of one. What stands before a call is
what stood there in the original, as far as a target is looked for
(`pushed`): the pushes that a layout changes are right before jumps.
-/
import EvmSandbox.Proofs.InspectionScan
import EvmSandbox.Proofs.TargetWidths

namespace EvmSandbox

/-! ## Classes of codes -/

theorem Opcode.isCall_of_isJump {code : UInt8} (h : isJump code = true) : isCall code = false := by
  rcases isJump_iff.1 h with rfl | rfl <;> rfl

theorem Purity.pushesGas_of_isJump {code : UInt8} (h : Opcode.isJump code = true) :
    pushesGas code = false := by
  rcases Opcode.isJump_iff.1 h with rfl | rfl <;> rfl

theorem RuleTable.contains_call_standard (manager : Address) :
    (standard manager).contains Opcode.call = true := rfl

/-! ## The codes of the standard calls -/

namespace ManagerCall

/-- A standard call begins with its only `MSIZE`, has a `CALL`, and does not end with what may push
the gas of another call. -/
theorem standard_spec {entry : UInt8 × ManagerCall} (hentry : entry ∈ standard) (manager : Address) :
    ∃ front last, entry.2.operations manager = (Opcode.msize : Operation) :: (front ++ [last]) ∧
      Opcode.call ∈ (front ++ [last]).map (·.code) ∧ Opcode.msize ∉ (front ++ [last]).map (·.code) ∧
      Purity.pushesGas last.code = false := by
  have hdefault : ∀ entry ∈ standard,
      Opcode.call ∈ ((entry.2.operations default).map (·.code)).tail ∧
      Opcode.msize ∉ ((entry.2.operations default).map (·.code)).tail ∧
      ((entry.2.operations default).map (·.code)).tail.getLast?.any (!Purity.pushesGas ·) = true := by
    decide +kernel
  obtain ⟨rest, hrest⟩ : ∃ rest, entry.2.operations manager = (Opcode.msize : Operation) :: rest :=
    ⟨_, rfl⟩
  have hcodes := hdefault entry hentry
  rw [← codes_operations entry.2 manager, hrest, List.map_cons, List.tail_cons] at hcodes
  obtain ⟨hcall, hmsize, hlast⟩ := hcodes
  obtain ⟨code, hcode, hgas⟩ := (Option.any_eq_true _ _).1 hlast
  rw [List.getLast?_map] at hcode
  obtain ⟨last, hlast, rfl⟩ := Option.map_eq_some_iff.1 hcode
  obtain ⟨front, rfl⟩ := List.getLast?_eq_some_iff.1 hlast
  exact ⟨front, last, hrest, hcall, hmsize, by simpa using hgas⟩

theorem not_pushesGas_standard {code : UInt8} {call : ManagerCall} (h : (code, call) ∈ standard) :
    Purity.pushesGas code = false := by
  have hcodes : ∀ entry ∈ standard, Purity.pushesGas entry.1 = false := by decide +kernel
  exact hcodes _ h

end ManagerCall

namespace Purity

open Operation (encodeAll)
open Instruction (locate)

/-! ## Where calls to the manager are found -/

/-- Every `CALL` among the operations has an `MSIZE` before it. -/
def Guarded : List Operation → Prop
  | [] => True
  | op :: ops => op.code = Opcode.msize ∨ op.code ≠ Opcode.call ∧ Guarded ops

theorem Guarded.append {a b : List Operation} (ha : ∀ op ∈ a, op.code ≠ Opcode.call)
    (hb : Guarded b) : Guarded (a ++ b) := by
  induction a with
  | nil => exact hb
  | cons op a ih => exact .inr ⟨ha op (by simp), ih fun o ho => ha o (by simp [ho])⟩

/-- Operations with a `CALL` and no `MSIZE` do not begin guarded ones. -/
theorem Guarded.not_begins {block ops : List Operation} (hops : Guarded ops)
    (hcall : Opcode.call ∈ block.map (·.code)) (hmsize : Opcode.msize ∉ block.map (·.code)) :
    ¬ block <+: ops := by
  rintro ⟨rest, rfl⟩
  induction block with
  | nil => cases hcall
  | cons op block ih =>
    rw [List.map_cons, List.mem_cons, not_or] at hmsize
    rcases hops with hop | ⟨hop, hops⟩
    · exact hmsize.1 hop.symm
    · rw [List.map_cons, List.mem_cons] at hcall
      rcases hcall with hcall | hcall
      · exact hop hcall.symm
      · exact ih hcall hmsize.2 hops

/-- No call to the manager begins with an operation before guarded ones. -/
theorem sequenceAt_of_guarded (manager : Address) {op : Operation} {ops : List Operation}
    (hwell : ∀ o ∈ op :: ops, o.WellFormed) (h : Guarded ops) :
    sequenceAt (sequences manager) (encodeAll (op :: ops)) = none := by
  rcases sequenceAt_cases manager hwell with ⟨entry, hentry, hbegins, -⟩ | ⟨-, hnone⟩
  · obtain ⟨front, last, heq, hcall, hmsize, -⟩ := ManagerCall.standard_spec hentry manager
    rw [heq] at hbegins
    exact absurd (List.cons_prefix_cons.1 hbegins).2 (h.not_begins hcall hmsize)
  · exact hnone

/-- Where a call to the manager stands, it is found. -/
theorem sequenceAt_of_standard {manager : Address} {entry : UInt8 × ManagerCall}
    (hentry : entry ∈ ManagerCall.standard) {rest : List Operation}
    (hwell : ∀ o ∈ entry.2.operations manager ++ rest, o.WellFormed) :
    sequenceAt (sequences manager) (encodeAll (entry.2.operations manager ++ rest)) =
      some (entry.1, entry.2.encode manager) := by
  rcases sequenceAt_cases manager hwell with ⟨other, hother, hbegins, hsome⟩ | ⟨hnone, -⟩
  · -- the selectors tell the calls apart
    have hselector : other.2.selector = entry.2.selector := by
      obtain ⟨a, ha⟩ := entry.2.operations_eq_cons manager
      obtain ⟨b, hb⟩ := other.2.operations_eq_cons manager
      rw [ha, hb] at hbegins
      have hbytes := (List.cons_prefix_cons.1 (List.cons_prefix_cons.1 hbegins).2).1
      simp only [Operation.mk.injEq, true_and, List.append_cancel_right_eq] at hbytes
      exact FixedBytes.eq_of_bytes hbytes
    obtain rfl := ManagerCall.selector_injective other hother entry hentry hselector
    exact hsome
  · exact absurd (List.prefix_append _ _) (hnone entry hentry)

/-! ## What is looked for before a call -/

/-- The operations right before a call that may push its gas, nearest first. The push of a target
is one of them. -/
def pushed (before : List Instruction) : List Operation :=
  (before.map (·.toOperation)).takeWhile fun op => pushesGas op.code

theorem pushed_eq_nil {i : Instruction} (h : pushesGas i.code = false) (before : List Instruction) :
    pushed (i :: before) = [] := by
  simp [pushed, h]

theorem pushed_cons {i j : Instruction} {a b : List Instruction}
    (hij : i.toOperation = j.toOperation) (h : pushed a = pushed b) :
    pushed (i :: a) = pushed (j :: b) := by
  rw [pushed, pushed] at h ⊢
  rw [List.map_cons, List.map_cons, List.takeWhile_cons, List.takeWhile_cons, hij, h]

theorem pushed_block {last : Operation} (h : pushesGas last.code = false) (offset : Nat)
    (front : List Operation) (before : List Instruction) :
    pushed ((locate offset (front ++ [last])).reverse ++ before) = [] := by
  rw [Instruction.locate_append, List.reverse_append]
  exact pushed_eq_nil h _

theorem callTarget_eq (before : List Instruction) :
    callTarget before =
      match pushed before with
      | _ :: push :: _ =>
        if push.code == Opcode.push20 then FixedBytes.ofBytes? 20 push.immediate else none
      | _ => none := by
  have hpush20 : pushesGas Opcode.push20 = true := by decide
  match before with
  | [] => rfl
  | [gas] => cases hgas : pushesGas gas.code <;> simp [callTarget, pushed, hgas]
  | gas :: push :: rest =>
    cases hgas : pushesGas gas.code with
    | false => simp [callTarget, pushed, hgas]
    | true =>
      cases hpush : pushesGas push.code with
      | false =>
        have hne : push.code ≠ Opcode.push20 := fun heq => by simp [heq, hpush20] at hpush
        simp [callTarget, pushed, hgas, hpush, hne]
      | true => simp [callTarget, pushed, hgas, hpush]

theorem callTarget_congr {a b : List Instruction} (h : pushed a = pushed b) :
    callTarget a = callTarget b := by
  rw [callTarget_eq, callTarget_eq, h]

/-! ## The calls of the original -/

/-- The targets of the calls among `rest`, behind the instructions `before`, nearest first. -/
def callTargets (before : List Instruction) : List Instruction → List (Option Address)
  | [] => []
  | i :: rest =>
    if Opcode.isCall i.code then callTarget before :: callTargets (i :: before) rest
    else callTargets (i :: before) rest

/-- The inspection goes on from `targets` with the targets `found`, unless there is a call
without one. -/
def Answers (address : Address) (targets : List Address) (found : List (Option Address))
    (result : Except Impurity (List Address)) : Prop :=
  (∃ resolved, found = resolved.map some ∧ result = .ok (targets.reverse ++ resolved)) ∨
    none ∈ found ∧ ∃ offset, result = .error (.unresolvableTarget address offset)

theorem Answers.nil (address : Address) (targets : List Address) :
    Answers address targets [] (.ok targets.reverse) :=
  .inl ⟨[], rfl, by simp⟩

/-- One instruction of the original. -/
theorem Answers.cons {address : Address} {targets : List Address} {i at' : Instruction}
    {before newBefore rest : List Instruction}
    {next : List Address → Except Impurity (List Address)}
    (hnext : ∀ found, Answers address (found ++ targets) (callTargets (i :: before) rest) (next found))
    (hbefore : Opcode.isCall i.code = true → callTarget before = callTarget newBefore) :
    Answers address targets (callTargets before (i :: rest))
      ((resolveCall address (callTarget newBefore) at' (Opcode.isCall i.code)).bind next) := by
  rw [callTargets, resolveCall.eq_def]
  cases hcall : Opcode.isCall i.code with
  | false => exact hnext []
  | true =>
    simp only [if_true]
    rw [hbefore hcall]
    cases callTarget newBefore with
    | none => exact .inr ⟨by simp, _, rfl⟩
    | some target =>
      rcases hnext [target] with ⟨resolved, hfound, hresult⟩ | ⟨hnone, hresult⟩
      · exact .inl ⟨target :: resolved, by simp [hfound], by simpa [Except.bind] using hresult⟩
      · exact .inr ⟨by simp [hnone], hresult⟩

/-! ## Transpiled operations -/

/-- An allowed operation that calls nothing. -/
def Harmless (whitelist : Whitelist) (op : Operation) : Prop :=
  whitelist.isAllowed op.code = true ∧ Opcode.isCall op.code = false

theorem Harmless.ne_call {whitelist : Whitelist} {op : Operation} (h : Harmless whitelist op) :
    op.code ≠ Opcode.call := fun heq => by
  have := h.2
  rw [heq] at this
  cases this

/-- Whether a jump comes first. -/
def startsWithJump (rest : List Instruction) : Bool :=
  rest.head?.any fun i => Opcode.isJump i.code

theorem not_startsWithJump {i : Instruction} (h : Opcode.isCall i.code = true)
    (rest : List Instruction) : ¬ startsWithJump (i :: rest) = true := fun hjump => by
  rw [Opcode.isCall_of_isJump hjump] at h
  cases h

/-- The operations stand for the instructions, with a jump table behind them. -/
inductive Renders (whitelist : Whitelist) (manager : Address) :
    List Instruction → List Operation → Prop where
  | table {ops : List Operation} (hops : ∀ op ∈ ops, Harmless whitelist op) :
    Renders whitelist manager [] ops
  | call {i : Instruction} {call : ManagerCall} {rest : List Instruction} {ops : List Operation}
    (hcall : (i.code, call) ∈ ManagerCall.standard) (h : Renders whitelist manager rest ops) :
    Renders whitelist manager (i :: rest) (call.operations manager ++ ops)
  | kept {i : Instruction} {rest : List Instruction} {ops : List Operation}
    (hallowed : whitelist.isAllowed i.code = true) (hcode : i.code ≠ Opcode.call)
    (h : Renders whitelist manager rest ops) :
    Renders whitelist manager (i :: rest) (i.toOperation :: ops)
  | target {i : Instruction} {op : Operation} {rest : List Instruction} {ops : List Operation}
    (hcall : Opcode.isCall i.code = false) (hop : Harmless whitelist op)
    (hjump : startsWithJump rest = true) (h : Renders whitelist manager rest ops) :
    Renders whitelist manager (i :: rest) (op :: ops)
  | jump {i : Instruction} {front : List Operation} {last : Operation} {rest : List Instruction}
    {ops : List Operation} (hjump : Opcode.isJump i.code = true)
    (hplain : ∀ op ∈ front ++ [last], Harmless whitelist op) (hlast : pushesGas last.code = false)
    (h : Renders whitelist manager rest ops) :
    Renders whitelist manager (i :: rest) (front ++ [last] ++ ops)

theorem Renders.guarded {whitelist : Whitelist} {manager : Address} {old : List Instruction}
    {ops : List Operation} (h : Renders whitelist manager old ops) : Guarded ops := by
  induction h with
  | @table ops hops => simpa using @Guarded.append ops [] (fun op hop => (hops op hop).ne_call) trivial
  | call => exact .inl rfl
  | kept _ hcode _ ih => exact .inr ⟨hcode, ih⟩
  | target _ hop _ _ ih => exact .inr ⟨hop.ne_call, ih⟩
  | jump _ hplain _ _ ih => exact .append (fun op hop => (hplain op hop).ne_call) ih

section Scan

variable {whitelist : Whitelist} {manager address : Address}

/-- Harmless operations are passed over. -/
theorem scan_harmless {block rest : List Operation} (hblock : ∀ op ∈ block, Harmless whitelist op)
    (hwell : ∀ op ∈ block ++ rest, op.WellFormed) (hrest : Guarded rest) (before : List Instruction)
    (offset : Nat) (targets : List Address) :
    scan whitelist manager address before offset targets (block ++ rest) =
      scan whitelist manager address ((locate offset block).reverse ++ before)
        (offset + (encodeAll block).length) targets rest := by
  induction block generalizing before offset with
  | nil => rfl
  | cons op block ih =>
    rw [List.forall_mem_cons] at hblock
    have hguarded : Guarded (block ++ rest) := .append (fun o ho => (hblock.2 o ho).ne_call) hrest
    rw [List.cons_append] at hwell ⊢
    rw [scan_single (sequenceAt_of_guarded manager hwell hguarded), if_pos hblock.1.1, hblock.1.2]
    have hrec := ih hblock.2 (fun o ho => hwell o (by simp [ho])) (⟨op, offset⟩ :: before)
      (offset + op.size)
    refine hrec.trans ?_
    simp [locate, Nat.add_assoc]

/-- The inspection of transpiled operations finds the targets of the original's calls. -/
theorem Renders.answers {old : List Instruction} {ops : List Operation}
    (h : Renders whitelist manager old ops) (hwell : ∀ op ∈ ops, op.WellFormed)
    {before newBefore : List Instruction}
    (hbefore : startsWithJump old = true ∨ pushed before = pushed newBefore) (offset : Nat)
    (targets : List Address) :
    Answers address targets (callTargets before old)
      (scan whitelist manager address newBefore offset targets ops) := by
  induction h generalizing before newBefore offset targets with
  | @table ops hops =>
    have hscan := @scan_harmless whitelist manager address ops [] hops (by simpa using hwell) trivial
      newBefore offset targets
    rw [List.append_nil] at hscan
    rw [hscan, scan_nil]
    exact .nil _ _
  | @call i call rest ops hcall h ih =>
    obtain ⟨front, last, heq, -, -, hlast⟩ := ManagerCall.standard_spec hcall manager
    rw [@scan_sequence whitelist manager address (i.code, call) ops (sequenceAt_of_standard hcall hwell)]
    refine .cons (fun found => ?_) fun hisCall => ?_
    · refine ih (fun op hop => hwell op (by simp [hop])) (.inr ?_) _ _
      rw [pushed_eq_nil (ManagerCall.not_pushesGas_standard hcall), heq, ← List.cons_append,
        pushed_block hlast]
    · exact callTarget_congr (hbefore.resolve_left (not_startsWithJump hisCall rest))
  | @kept i rest ops hallowed hcode h ih =>
    rw [scan_single (sequenceAt_of_guarded manager hwell h.guarded), if_pos hallowed]
    refine .cons (fun found => ih (fun op hop => hwell op (by simp [hop])) (.inr ?_) _ _) fun hisCall => ?_
    · cases hgas : pushesGas i.code with
      | false => exact (pushed_eq_nil hgas _).trans (pushed_eq_nil hgas _).symm
      | true =>
        refine pushed_cons rfl (hbefore.resolve_left fun hjump => ?_)
        rw [pushesGas_of_isJump hjump] at hgas
        cases hgas
    · exact callTarget_congr (hbefore.resolve_left (not_startsWithJump hisCall rest))
  | @target i op rest ops hcall hop hjump h ih =>
    have hscan := @scan_harmless whitelist manager address [op] ops (by simpa using hop) hwell h.guarded
      newBefore offset targets
    rw [callTargets, if_neg (by simp [hcall])]
    exact hscan ▸ ih (fun op hop => hwell op (by simp [hop])) (.inl hjump) _ _
  | @jump i front last rest ops hjump hplain hlast h ih =>
    rw [scan_harmless hplain hwell h.guarded, callTargets, if_neg (by simp [Opcode.isCall_of_isJump hjump])]
    refine ih (fun op hop => hwell op (by simp [hop])) (.inr ?_) _ _
    rw [pushed_eq_nil (pushesGas_of_isJump hjump), pushed_block hlast]

end Scan

/-! ## The operations of a layout -/

section Layout

variable {whitelist : Whitelist} {manager : Address}
  (hlayout : ∀ code ∈ Layout.unpatchedCodes, whitelist.isAllowed code = true)
include hlayout

theorem harmless_of_unpatched {op : Operation} (h : op.code ∈ Layout.unpatchedCodes) :
    Harmless whitelist op := by
  have hcalls : ∀ code ∈ Layout.unpatchedCodes, Opcode.isCall code = false := by
    decide +kernel
  exact ⟨hlayout _ h, hcalls _ h⟩

/-- A push keeps its code, which is allowed, or has at most four bytes. -/
theorem harmless_widened {i : Instruction} {width : Nat} (value : Nat)
    (hallowed : whitelist.isAllowed i.code = true) (hpush : Opcode.isPush i.code = true)
    (hwell : i.toOperation.WellFormed) (hle : i.immediate.length ≤ width)
    (hmax : width ≤ max i.immediate.length 4) : Harmless whitelist (Operation.push width value) := by
  rcases Operation.push_widened value hpush hwell hle hmax with ⟨hpos, h4⟩ | hcode
  · have hsmall : ∀ w : Fin 5, 0 < w.val → Opcode.push w ∈ Layout.unpatchedCodes := by decide
    exact harmless_of_unpatched hlayout (hsmall ⟨width, Nat.lt_succ_of_le h4⟩ hpos)
  · exact ⟨hcode ▸ hallowed, hcode ▸ (Opcode.plain_of_isPush hpush).2.1⟩

open Layout in
/-- One slot of a layout in which nothing is patched. -/
theorem renders_slot {callOf : UInt8 → ManagerCall} {decoded : Array Instruction} {layout : Layout}
    {slot : Slot} {rest : List Instruction} {ops : List Operation}
    (hcallOf : ∀ code rule, (RuleTable.standard manager).get? code = some rule →
      (code, callOf code) ∈ ManagerCall.standard)
    (hadmits : (Sandbox.standard manager whitelist).admits slot.instruction.code = true)
    (hwell : slot.instruction.toOperation.WellFormed) (hnarrow : slot.NarrowTarget)
    (hemits : Emits (.standard manager) decoded none slot.instruction rest.head? slot.emission)
    (h : Renders whitelist manager rest ops) :
    Renders whitelist manager (slot.instruction :: rest)
      (slot.operations (fun code => (callOf code).operations manager) layout ++ ops) := by
  obtain ⟨i, emission⟩ := slot
  simp only at hadmits hwell hemits
  have hallowed : (RuleTable.standard manager).replace? i = none → whitelist.isAllowed i.code = true :=
    fun hrule => Sandbox.allowed_of_admits hadmits hrule
  have hpush : Harmless whitelist (.push tableOffsetWidth layout.offsets.bodyEnd) :=
    harmless_of_unpatched hlayout (show Opcode.push tableOffsetWidth ∈ unpatchedCodes by decide)
  have hplain : ∀ {code : UInt8}, code ∈ unpatchedCodes → Harmless whitelist code :=
    fun hcode => harmless_of_unpatched hlayout hcode
  cases hemits with
  | replaced hrule =>
    obtain ⟨rule, hget, -⟩ := RuleTable.replace?_eq_some_iff.1 hrule
    exact .call (hcallOf _ _ hget) h
  | patched _ hpatch => cases hpatch
  | @target k width hrule _ hstatic _ hle _ =>
    have hisPush := isPush_of_isStaticJump hstatic
    refine .target (Opcode.plain_of_isPush hisPush).2.1 ?_ ?_ h
    · exact harmless_widened hlayout _ (hallowed hrule) hisPush hwell hle (hnarrow k width rfl)
    · exact (Bool.and_eq_true_iff.1 hstatic).2
  | kept hrule =>
    -- there is a rule for `CALL`
    refine .kept (hallowed hrule) (fun hcall => ?_) h
    have hnone := RuleTable.replace?_eq_none_iff.1 hrule
    rw [hcall, RuleTable.contains_call_standard] at hnone
    cases hnone
  | tableJump _ _ hcode =>
    refine @Renders.jump _ _ i [_] _ rest ops (by rw [hcode]; rfl) ?_ rfl h
    simpa using ⟨hpush, hplain (by decide)⟩
  | tableJumpI _ _ hcode =>
    refine @Renders.jump _ _ i [_, _, _] _ rest ops (by rw [hcode]; rfl) ?_ rfl h
    simpa using ⟨hplain (by decide), hpush, hplain (by decide), hplain (by decide)⟩

open Layout in
theorem renders_slots {callOf : UInt8 → ManagerCall} {code : Bytes} {instructions : List Instruction}
    {layout : Layout}
    (hcallOf : ∀ code rule, (RuleTable.standard manager).get? code = some rule →
      (code, callOf code) ∈ ManagerCall.standard)
    (hdecode : Instruction.decode code = .ok instructions)
    (hadmits : ∀ i ∈ instructions, (Sandbox.standard manager whitelist).admits i.code = true)
    (h : Finished (.standard manager) (fun _ => none) instructions layout)
    (hnarrow : ∀ slot ∈ layout.slots, slot.NarrowTarget) {k : Nat} (hk : k ≤ layout.slots.length) :
    Renders whitelist manager (instructions.drop k)
      ((layout.slots.drop k).flatMap
        (Slot.operations (fun code => (callOf code).operations manager) layout) ++
          layout.tableOperations) := by
  induction hk using Nat.decreasingInduction with
  | self =>
    rw [List.drop_length, List.drop_eq_nil_of_le h.planned.length_eq.ge]
    refine .table fun op hop => ?_
    rw [List.flatMap_nil, List.nil_append, tableOperations] at hop
    split at hop
    · cases hop
    · exact harmless_of_unpatched hlayout (mem_unpatchedCodes_of_table _ _ op hop)
  | of_succ k hlt ih =>
    have hslot : layout.slots[k]? = some layout.slots[k] := List.getElem?_eq_getElem hlt
    have hinstruction := h.planned.instruction_eq hslot
    have hmem := List.mem_of_getElem? hinstruction
    have hemits := h.planned.emits hslot
    rw [← List.head?_drop] at hemits
    obtain ⟨hlt', heq⟩ := List.getElem?_eq_some_iff.1 hinstruction
    rw [List.drop_eq_getElem_cons hlt, List.drop_eq_getElem_cons hlt', heq, List.flatMap_cons,
      List.append_assoc]
    exact renders_slot hlayout hcallOf (hadmits _ hmem) (Instruction.wellFormed_of_decode hdecode hmem)
      (hnarrow _ (List.getElem_mem hlt)) hemits ih

/-- What a code is transpiled to are operations that stand for its instructions. -/
theorem exists_renders {code output : Bytes}
    (h : ((Sandbox.standard manager whitelist).transpileDeployed code).value = .ok output) :
    ∃ old ops, Instruction.decode (Metadata.strip code) = .ok old ∧
      Instruction.decode output = .ok (locate 0 ops) ∧ output = encodeAll ops ∧
      (∀ op ∈ ops, op.WellFormed) ∧ Renders whitelist manager old ops := by
  obtain ⟨old, layout, hdecode, hadmits, hlaidOut, rfl⟩ := Sandbox.transpileDeployed_eq_ok h
  have hfinished := Layout.ofInstructions_spec hlaidOut
  have hnarrow := Layout.narrowTarget_of_ofInstructions hlaidOut (by simp)
  obtain ⟨callOf, hcallOf⟩ := RuleTable.exists_callOf fun code rule =>
    @RuleTable.exists_call_of_standard manager code rule
  have hexpands := Layout.expands_of_calls fun code rule hget => (hcallOf code rule hget).2
  have hpatches := Layout.patchesOnlyPushes_none old
  have hrenders := renders_slots hlayout (fun code rule hget => (hcallOf code rule hget).1) hdecode
    hadmits hfinished hnarrow (Nat.zero_le _)
  exact ⟨old, _, hdecode, hfinished.decode_code hexpands hpatches hdecode,
    (hfinished.encodeAll_operations hexpands).symm,
    hfinished.wellFormed_operations hexpands hpatches hdecode, hrenders⟩

end Layout

/-! ## Constant targets -/

/-- The indexes of the calls. -/
def callIndexes (instructions : List Instruction) : List Nat :=
  ((instructions.zipIdx).filter fun entry => Opcode.isCall entry.1.code).map (·.2)

/-- Right before the instruction with the index `k`, the address `target` is pushed and then the
gas. -/
def TargetPushed (instructions : List Instruction) (k : Nat) (target : Address) : Prop :=
  ∃ j push gas, k = j + 2 ∧ instructions[j]? = some push ∧ instructions[j + 1]? = some gas ∧
    push.toOperation = ⟨Opcode.push20, target.bytes⟩ ∧
    (gas.code = Opcode.gas ∨ gas.code = Opcode.push0 ∨ Opcode.isPush gas.code = true)

theorem callTarget_cons_eq_some_iff {gas push : Instruction} {rest : List Instruction}
    {target : Address} :
    callTarget (gas :: push :: rest) = some target ↔
      push.toOperation = ⟨Opcode.push20, target.bytes⟩ ∧
      (gas.code = Opcode.gas ∨ gas.code = Opcode.push0 ∨ Opcode.isPush gas.code = true) := by
  obtain ⟨⟨code, immediate⟩, offset⟩ := push
  have hgas : pushesGas gas.code = true ↔
      gas.code = Opcode.gas ∨ gas.code = Opcode.push0 ∨ Opcode.isPush gas.code = true := by
    simp [pushesGas, or_assoc]
  rw [callTarget, ← hgas, Operation.mk.injEq]
  split
  · rename_i h
    obtain ⟨hpushes, hcode⟩ : pushesGas gas.code = true ∧ code = Opcode.push20 := by simpa using h
    simp [hpushes, hcode, FixedBytes.ofBytes?_eq_some_iff]
  · rename_i h
    simp only [reduceCtorEq, false_iff]
    exact fun ⟨⟨hcode, _⟩, hpushes⟩ => h (by simp [hcode, hpushes])

theorem callTarget_take_eq_some_iff {instructions : List Instruction} {k : Nat} {target : Address}
    (hk : k < instructions.length) :
    callTarget (instructions.take k).reverse = some target ↔ TargetPushed instructions k target := by
  match k with
  | 0 => simp [callTarget, TargetPushed]
  | 1 =>
    have hone : callTarget (instructions.take 1).reverse = none := by
      rw [List.take_add_one, List.getElem?_eq_getElem (by omega)]
      rfl
    simp [hone, TargetPushed]
  | j + 2 =>
    have hgas : instructions[j + 1]? = some instructions[j + 1] := List.getElem?_eq_getElem (by omega)
    have hpush : instructions[j]? = some instructions[j] := List.getElem?_eq_getElem (by omega)
    have htake : (instructions.take (j + 2)).reverse =
        instructions[j + 1] :: instructions[j] :: (instructions.take j).reverse := by
      rw [List.take_add_one, List.take_add_one, hgas, hpush]
      simp
    rw [htake, callTarget_cons_eq_some_iff]
    constructor
    · rintro ⟨htarget, hpushes⟩
      exact ⟨j, _, _, rfl, hpush, hgas, htarget, hpushes⟩
    · rintro ⟨j', push, gas, hj, hpush', hgas', htarget, hpushes⟩
      obtain rfl : j = j' := by omega
      rw [hpush, Option.some.injEq] at hpush'
      rw [hgas, Option.some.injEq] at hgas'
      exact ⟨hpush' ▸ htarget, hgas' ▸ hpushes⟩

theorem callTargets_eq (before rest : List Instruction) :
    callTargets before rest =
      ((rest.zipIdx before.length).filter fun entry => Opcode.isCall entry.1.code).map fun entry =>
        callTarget ((before.reverse ++ rest).take entry.2).reverse := by
  induction rest generalizing before with
  | nil => rfl
  | cons i rest ih =>
    have hrest := ih (i :: before)
    rw [List.length_cons, List.reverse_cons, List.append_assoc, List.singleton_append] at hrest
    rw [callTargets, List.zipIdx_cons, List.filter_cons, hrest]
    cases Opcode.isCall i.code with
    | false => rfl
    | true => simp

theorem lt_of_mem_callIndexes {instructions : List Instruction} {k : Nat}
    (h : k ∈ callIndexes instructions) : k < instructions.length := by
  obtain ⟨entry, hentry, rfl⟩ := List.mem_map.1 h
  obtain ⟨hlt, -⟩ := List.getElem?_eq_some_iff.1
    (List.mem_zipIdx_iff_getElem?.1 (List.mem_of_mem_filter hentry))
  exact hlt

theorem callTargets_eq_map_callIndexes (instructions : List Instruction) :
    callTargets [] instructions =
      (callIndexes instructions).map fun k => callTarget (instructions.take k).reverse := by
  rw [callTargets_eq, callIndexes, List.map_map]
  rfl

theorem callTargets_eq_map_some_iff {instructions : List Instruction} {targets : List Address} :
    callTargets [] instructions = targets.map some ↔
      List.Forall₂ (TargetPushed instructions) (callIndexes instructions) targets := by
  rw [callTargets_eq_map_callIndexes, ← List.forall₂_eq_eq_eq, List.forall₂_map_left_iff,
    List.forall₂_map_right_iff, List.forall₂_iff_get, List.forall₂_iff_get]
  refine and_congr_right fun _ => forall_congr' fun i => forall_congr' fun hi => forall_congr' fun _ => ?_
  exact callTarget_take_eq_some_iff (lt_of_mem_callIndexes (List.get_mem _ _))

theorem none_mem_callTargets_iff {instructions : List Instruction} :
    none ∈ callTargets [] instructions ↔
      ∃ k ∈ callIndexes instructions, ∀ target, ¬ TargetPushed instructions k target := by
  rw [callTargets_eq_map_callIndexes, List.mem_map]
  refine exists_congr fun k => and_congr_right fun hk => ?_
  simp only [Option.eq_none_iff_forall_ne_some, ne_eq,
    callTarget_take_eq_some_iff (lt_of_mem_callIndexes hk)]

/-! ## The inspection of transpiled code -/

/-- `result` is what an inspection should answer for a contract at `address` that was transpiled
from `original`. -/
structure InspectedAs (address : Address) (original : List Instruction)
    (result : Except Impurity (List Address)) : Prop where
  targets : ∀ found, result = .ok found ↔
    List.Forall₂ (TargetPushed original) (callIndexes original) found
  resolves : (∃ found, result = .ok found) ↔
    ∀ k ∈ callIndexes original, ∃ target, TargetPushed original k target
  fails : (∃ k ∈ callIndexes original, ∀ target, ¬ TargetPushed original k target) →
    ∃ offset, result = .error (.unresolvableTarget address offset)

theorem Answers.inspectedAs {address : Address} {original : List Instruction}
    {result : Except Impurity (List Address)}
    (h : Answers address [] (callTargets [] original) result) : InspectedAs address original result := by
  rcases h with ⟨resolved, hresolved, rfl⟩ | ⟨hnone, offset, rfl⟩
  · have hall : ∀ k ∈ callIndexes original, ∃ target, TargetPushed original k target := by
      have hnone : none ∉ callTargets [] original := by simp [hresolved]
      rw [none_mem_callTargets_iff] at hnone
      push Not at hnone
      exact hnone
    refine ⟨fun found => ?_, iff_of_true ⟨_, rfl⟩ hall, fun ⟨k, hk, hnot⟩ => ?_⟩
    · rw [← callTargets_eq_map_some_iff, hresolved, Except.ok.injEq, List.reverse_nil, List.nil_append]
      exact (List.map_injective_iff.2 (Option.some_injective _)).eq_iff.symm
    · obtain ⟨target, htarget⟩ := hall k hk
      exact absurd htarget (hnot target)
  · refine ⟨fun found => iff_of_false (by simp) fun hfound => ?_, iff_of_false (by simp) fun hall => ?_,
      fun _ => ⟨offset, rfl⟩⟩
    · rw [callTargets_eq_map_some_iff.2 hfound] at hnone
      simp at hnone
    · obtain ⟨k, hk, hnot⟩ := none_mem_callTargets_iff.1 hnone
      obtain ⟨target, htarget⟩ := hall k hk
      exact hnot target htarget

/-- **The transpiler and the inspection agree.** The inspection of transpiled code finds the targets
of the calls of the original, in the order of the code, if each is pushed as a constant right before
the gas; otherwise it fails for a target that cannot be told, and it never fails for another
reason. -/
theorem inspect_transpiled {c : Checker} {address : Address} {code output : Bytes}
    (hlayout : ∀ code ∈ Layout.unpatchedCodes, c.whitelist.isAllowed code = true)
    (h : ((Sandbox.standard c.manager c.whitelist).transpileDeployed code).value = .ok output)
    (htrailer : Metadata.start? output = none)
    (hsource : c.source.code address = .ok (some output)) :
    ∃ original, Instruction.decode (Metadata.strip code) = .ok original ∧
      InspectedAs address original (c.inspect address) := by
  obtain ⟨original, ops, hdecode, hnew, houtput, hwell, hrenders⟩ := exists_renders hlayout h
  have hstrip : Metadata.strip output = output := by rw [Metadata.strip, htrailer]
  refine ⟨original, hdecode, ?_⟩
  rw [inspect_eq_scan hsource (by rwa [hstrip]) (by rwa [hstrip])]
  exact (hrenders.answers hwell (.inr rfl) 0 []).inspectedAs

/-- Calls the contract 1 with all gas and the contract 2 with one unit of it, and jumps to the end.
In between stands the beginning of a call to the manager. -/
def twoCalls : Bytes :=
  [Opcode.push20] ++ (FixedBytes.ofNat 20 1).bytes ++ [Opcode.gas, Opcode.call, Opcode.msize] ++
  [Opcode.push20] ++ (FixedBytes.ofNat 20 2).bytes ++ [Opcode.push1, 1, Opcode.staticCall] ++
  [Opcode.push1, 0x33, Opcode.jump, Opcode.jumpDest, Opcode.stop]

/-- A checker for which every contract has the code `output`. -/
def twoCallsChecker (output : Bytes) : Checker :=
  ⟨⟨fun _ => .ok (some output)⟩, .ofNat 20 0xee, .standard, defaultMaxDepth⟩

theorem inspect_transpiled_twoCalls :
    ∃ output, (∀ code ∈ Layout.unpatchedCodes, Whitelist.standard.isAllowed code = true) ∧
      ((Sandbox.standard (.ofNat 20 0xee)).transpileDeployed twoCalls).value = .ok output ∧
      Metadata.start? output = none ∧
      (twoCallsChecker output).inspect (.ofNat 20 7) = .ok [.ofNat 20 1, .ofNat 20 2] ∧
      ∃ original, Instruction.decode (Metadata.strip twoCalls) = .ok original ∧
        InspectedAs (.ofNat 20 7) original ((twoCallsChecker output).inspect (.ofNat 20 7)) := by
  have hlayout : ∀ code ∈ Layout.unpatchedCodes, Whitelist.standard.isAllowed code = true := by
    decide +kernel
  have hrun : ((Sandbox.standard (.ofNat 20 0xee)).transpileDeployed
      twoCalls).value.bytecode?.any (fun output => Metadata.start? output = none ∧
        (twoCallsChecker output).inspect (.ofNat 20 7) = .ok [.ofNat 20 1, .ofNat 20 2]) = true := by
    decide +kernel
  obtain ⟨output, houtput, hrun⟩ := (Option.any_eq_true _ _).1 hrun
  obtain ⟨htrailer, hinspect⟩ := of_decide_eq_true hrun
  have h := Outcome.bytecode?_eq_some_iff.1 houtput
  exact ⟨output, hlayout, h, htrailer, hinspect,
    @inspect_transpiled (twoCallsChecker output) _ _ _ hlayout h htrailer rfl⟩

end Purity

end EvmSandbox
