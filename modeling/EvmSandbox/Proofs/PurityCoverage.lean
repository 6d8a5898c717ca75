/-
What a pure verdict says of the code that runs. The inspection sees a contract
without its metadata trailer, and the trailer is recognised by one byte and a
length. A machine runs the whole code. So a verdict covers every instruction
outside the trailer (`covers_of_passes`), and control gets to an instruction
that is not covered only by passing into the trailer, which it can do: by
falling into it, or by a jump (`pure_verdict_misses_trailer`).
-/
import EvmSandbox.Proofs.AcceptedCode
import EvmSandbox.Proofs.PurityWalk

namespace EvmSandbox

/-! ## Control in a whole code -/

namespace Opcode

def selfDestruct : UInt8 := 0xff

/-- Whether control may go on behind the instruction. A byte that is no instruction halts. -/
def fallsThrough (code : UInt8) : Bool :=
  isDefined code && !([stop, jump, ret, revert, invalid, selfDestruct].contains code)

end Opcode

namespace Instruction

/-- The instructions of any byte string, the first of them at `offset`. A byte that is no instruction
stands alone, and a push at the end has the operand that is left of it. -/
def sweepFrom (offset : Nat) : Bytes → List Instruction
  | [] => []
  | code :: rest =>
    let operand := rest.take (Opcode.immediateLength code)
    ⟨⟨code, operand⟩, offset⟩ :: sweepFrom (offset + 1 + operand.length) (rest.drop operand.length)
  termination_by bytes => bytes.length
  decreasing_by simp only [List.length_drop, List.length_cons]; omega

def sweep (code : Bytes) : List Instruction :=
  sweepFrom 0 code

/-- Control may pass from one instruction to another: to the one behind it, or from a jump to the
destination that is pushed right before it. -/
inductive Flows (program : List Instruction) : Instruction → Instruction → Prop where
  | next (before after : List Instruction) {i j : Instruction}
    (hprogram : program = before ++ i :: j :: after) (hcode : Opcode.fallsThrough i.code = true) :
    Flows program i j
  | jump (before after : List Instruction) {push jump destination : Instruction}
    (hprogram : program = before ++ push :: jump :: after)
    (hpush : Opcode.isPush push.code = true ∨ push.code = Opcode.push0)
    (hjump : Opcode.isJump jump.code = true) (hmem : destination ∈ program)
    (hcode : destination.code = Opcode.jumpDest)
    (hoffset : destination.offset = Bytes.toNat push.immediate) : Flows program jump destination

/-- Control may come to the instruction `i`, from the first one on. -/
def ControlReaches (program : List Instruction) (i : Instruction) : Prop :=
  ∃ first, program[0]? = some first ∧ Relation.ReflTransGen (Flows program) first i

theorem Flows.mem {program : List Instruction} {i j : Instruction} (h : Flows program i j) :
    j ∈ program := by
  cases h with
  | next _ _ hprogram => simp [hprogram]
  | jump _ _ _ _ _ hmem => exact hmem

theorem ControlReaches.mem {program : List Instruction} {i : Instruction}
    (h : ControlReaches program i) : i ∈ program := by
  obtain ⟨first, hfirst, hflows⟩ := h
  cases hflows with
  | refl => exact List.mem_of_getElem? hfirst
  | tail _ hflow => exact hflow.mem

theorem le_offset_of_mem_sweepFrom {offset : Nat} {bytes : Bytes} {i : Instruction}
    (h : i ∈ sweepFrom offset bytes) : offset ≤ i.offset := by
  fun_induction sweepFrom offset bytes with
  | case1 => cases h
  | case2 offset code rest operand ih =>
    rcases List.mem_cons.1 h with rfl | h
    · exact le_rfl
    · have := ih h
      omega

/-- Code that decodes is swept as it is decoded, whatever follows it. -/
theorem sweepFrom_encodeAll_append (offset : Nat) {ops : List Operation}
    (hops : ∀ op ∈ ops, op.WellFormed) (tail : Bytes) :
    sweepFrom offset (Operation.encodeAll ops ++ tail) =
      locate offset ops ++ sweepFrom (offset + (Operation.encodeAll ops).length) tail := by
  induction ops generalizing offset with
  | nil => simp [locate]
  | cons op ops ih =>
    have hlength := (hops op (by simp)).operand
    rw [Operation.encodeAll_cons, Operation.encode, List.cons_append, List.cons_append, sweepFrom]
    simp only [← hlength, List.append_assoc, List.take_left', List.drop_left']
    rw [ih _ fun o ho => hops o (by simp [ho])]
    simp [locate, Operation.size, Nat.add_assoc, Nat.add_comm, Nat.add_left_comm]

end Instruction

/-! ## The trailer -/

namespace Metadata

/-- The trailer of `code` holds the byte at `offset`. -/
def InTrailer (code : Bytes) (offset : Nat) : Prop :=
  ∃ start, start? code = some start ∧ start ≤ offset

/-- The code is what is left of it without the trailer, and the trailer. -/
theorem exists_trailer (code : Bytes) :
    ∃ trailer, code = strip code ++ trailer ∧
      (trailer ≠ [] → start? code = some (strip code).length) := by
  cases hstart : start? code with
  | none => exact ⟨[], by simp [strip, hstart], fun h => absurd rfl h⟩
  | some start =>
    have hlt := lt_length_of_start? hstart
    refine ⟨code.drop start, by simp [strip, hstart], fun _ => ?_⟩
    simp only [strip, hstart, List.length_take]
    rw [min_eq_left hlt.le]

end Metadata

namespace Instruction

open Metadata (InTrailer)

/-- Control passes into the trailer of `code` on its way to `i`. -/
def CrossesInto (code : Bytes) (i : Instruction) : Prop :=
  ∃ outside inside, ControlReaches (sweep code) outside ∧ ¬ InTrailer code outside.offset ∧
    Flows (sweep code) outside inside ∧ InTrailer code inside.offset ∧
    Relation.ReflTransGen (Flows (sweep code)) inside i

theorem offset_of_getElem?_sweep_zero {code : Bytes} {i : Instruction}
    (h : (sweep code)[0]? = some i) : i.offset = 0 := by
  cases code with
  | nil => simp [sweep, sweepFrom] at h
  | cons byte rest =>
    simp only [sweep, sweepFrom, List.getElem?_cons_zero, Option.some.injEq] at h
    rw [← h]

/-- Control that is in the trailer has been there from the start or has passed into it. -/
theorem ControlReaches.crossesInto {code : Bytes} {i : Instruction}
    (h : ControlReaches (sweep code) i) (hi : InTrailer code i.offset) :
    InTrailer code 0 ∨ CrossesInto code i := by
  obtain ⟨first, hfirst, hflows⟩ := h
  induction hflows with
  | refl => exact .inl (offset_of_getElem?_sweep_zero hfirst ▸ hi)
  | @tail j k hbefore hflow ih =>
    by_cases hj : InTrailer code j.offset
    · rcases ih hj with hzero | ⟨outside, inside, hreaches, hout, hcross, hin, hafter⟩
      · exact .inl hzero
      · exact .inr ⟨outside, inside, hreaches, hout, hcross, hin, hafter.tail hflow⟩
    · exact .inr ⟨j, k, ⟨first, hfirst, hbefore⟩, hj, hflow, hi, .refl⟩

end Instruction

/-! ## What the verdict covers -/

namespace Purity

open Instruction (sweep sweepFrom locate ControlReaches CrossesInto)
open Metadata (InTrailer)

/-- The instruction `i` of `program` is allowed, or belongs to a call to the manager that stands for
an instruction. -/
def Checker.Covers (c : Checker) (program : List Instruction) (i : Instruction) : Prop :=
  c.whitelist.isAllowed i.code = true ∨
    ∃ entry ∈ ManagerCall.standard, ∃ before block after, program = before ++ block ++ after ∧
      i ∈ block ∧ block.map (·.toOperation) = entry.2.operations c.manager

theorem Checker.Covers.append {c : Checker} {program : List Instruction} {i : Instruction}
    (h : c.Covers program i) (rest : List Instruction) : c.Covers (program ++ rest) i := by
  rcases h with hallowed | ⟨entry, hentry, before, block, after, rfl, hi, hblock⟩
  · exact .inl hallowed
  · exact .inr ⟨entry, hentry, before, block, after ++ rest, by simp, hi, hblock⟩

/-- In operations that split into blocks the inspection lets pass, every instruction is covered. -/
theorem covers_of_splits {c : Checker} {ops : List Operation}
    (h : Operation.Splits (Checked c.whitelist c.manager) ops) {i : Instruction}
    (hi : i ∈ locate 0 ops) : c.Covers (locate 0 ops) i := by
  obtain ⟨blocks, rfl, hchecked⟩ := h
  obtain ⟨located, hflatten, hmap⟩ := Instruction.locate_flatten 0 blocks
  rw [← hflatten] at hi ⊢
  obtain ⟨block, hblock, hmem⟩ := List.mem_flatten.1 hi
  have hchecked := hchecked (block.map (·.toOperation)) (hmap ▸ List.mem_map_of_mem hblock)
  rcases hchecked with ⟨op, hop, hallowed⟩ | ⟨entry, hentry, hcall⟩
  · have hmem : i.toOperation ∈ block.map (·.toOperation) := List.mem_map_of_mem hmem
    rw [hop, List.mem_singleton] at hmem
    exact .inl (by rw [hmem, hallowed])
  · obtain ⟨before, after, rfl⟩ := List.append_of_mem hblock
    exact .inr ⟨entry, hentry, before.flatten, block, after.flatten, by simp, hmem, hcall⟩

theorem Block.checked {whitelist : Whitelist} {manager : Address} {block : Block}
    (h : block.Allowed whitelist) : Checked whitelist manager (block.operations manager) := by
  cases block with
  | single op => exact .inl ⟨op, rfl, h⟩
  | sequence code call => exact .inr ⟨(code, call), h, rfl⟩

/-- A contract that passes the inspection decodes, up to its trailer, to operations that split into
blocks the inspection lets pass. -/
theorem splits_of_passes {c : Checker} {a : Address} (h : c.Passes a) :
    ∃ stored ops, c.source.code a = .ok (some stored) ∧ (∀ op ∈ ops, op.WellFormed) ∧
      Metadata.strip stored = Operation.encodeAll ops ∧
      Operation.Splits (Checked c.whitelist c.manager) ops := by
  obtain ⟨targets, hinspect⟩ := h
  rcases hsource : c.source.code a with message | _ | stored
  · simp [Checker.inspect, hsource] at hinspect
  · simp [Checker.inspect, hsource] at hinspect
  · obtain ⟨blocks, haccepted⟩ := exists_accepted hsource hinspect
    exact ⟨stored, _, rfl, haccepted.wellFormed, haccepted.bytes,
      .flatMap fun block hblock => .block (Block.checked (haccepted.allowed block hblock))⟩

/-- All of a contract that passes the inspection is covered, up to its trailer. -/
theorem covers_of_passes {c : Checker} {a : Address} (h : c.Passes a) :
    ∃ stored, c.source.code a = .ok (some stored) ∧
      ∀ i ∈ sweep stored, ¬ InTrailer stored i.offset → c.Covers (sweep stored) i := by
  obtain ⟨stored, ops, hsource, hops, hcode, hsplits⟩ := splits_of_passes h
  obtain ⟨trailer, hstored, hstart⟩ := Metadata.exists_trailer stored
  refine ⟨stored, hsource, fun i hi hout => ?_⟩
  have hsweep : sweep stored =
      locate 0 ops ++ sweepFrom (0 + (Operation.encodeAll ops).length) trailer := by
    rw [← Instruction.sweepFrom_encodeAll_append 0 hops, ← hcode, ← hstored, sweep]
  rw [hsweep] at hi ⊢
  rcases List.mem_append.1 hi with hi | hi
  · exact (covers_of_splits hsplits hi).append _
  · have htrailer : trailer ≠ [] := by
      rintro rfl
      simp [sweepFrom] at hi
    have hle := Instruction.le_offset_of_mem_sweepFrom hi
    rw [Nat.zero_add, ← hcode] at hle
    exact absurd ⟨_, hstart htrailer, hle⟩ hout

/-- **A pure verdict covers all that runs outside the trailers.** Of every contract within reach,
each instruction before the trailer is allowed or belongs to a call to the manager. Control gets to
an instruction of which this is not true only in the trailer, after starting in it or passing into
it from a covered instruction. -/
theorem pure_covers_outside_trailer {c : Checker} {root a : Address}
    (hpure : (c.check root).1 = .pure) (hreaches : c.Reaches root a) :
    ∃ stored, c.source.code a = .ok (some stored) ∧
      (∀ i ∈ sweep stored, ¬ InTrailer stored i.offset → c.Covers (sweep stored) i) ∧
      ∀ i, ControlReaches (sweep stored) i → ¬ c.Covers (sweep stored) i →
        InTrailer stored i.offset ∧ (InTrailer stored 0 ∨ CrossesInto stored i) := by
  obtain ⟨hpasses, -⟩ := (check_eq_pure_iff_boundedPure c root).1 hpure a hreaches
  obtain ⟨stored, hsource, hcovers⟩ := covers_of_passes hpasses
  refine ⟨stored, hsource, hcovers, fun i hi hnot => ?_⟩
  have htrailer : InTrailer stored i.offset := by
    by_contra hout
    exact hnot (hcovers i hi.mem hout)
  exact ⟨htrailer, hi.crossesInto htrailer⟩

/-! ## A trailer that runs -/

/-- `PUSH0`, a jump to offset 5, and what looks like a trailer of three bytes and their length: the
opening byte, `JUMPDEST` and `SELFDESTRUCT`. -/
def trailerCode : Bytes := [0x5f, 0x60, 0x05, 0x56, 0xa1, 0x5b, 0xff, 0x00, 0x03]

def trailerChecker : Checker where
  source := ⟨fun a => .ok (if a = contractA then some trailerCode else none)⟩
  manager := .ofNat 20 0xee
  whitelist := .standard
  maxDepth := defaultMaxDepth

theorem pure_covers_outside_trailer_jump :
    (trailerChecker.check contractA).1 = .pure ∧
      trailerChecker.Covers (sweep trailerCode) ⟨Opcode.jump, 3⟩ := by
  have hpure : (trailerChecker.check contractA).1 = .pure := by decide +kernel
  obtain ⟨stored, hsource, hcovers, -⟩ := pure_covers_outside_trailer hpure .refl
  obtain rfl : trailerCode = stored := by simpa [trailerChecker] using hsource
  refine ⟨hpure, hcovers _ (by decide +kernel) ?_⟩
  have hstart : Metadata.start? trailerCode = some 4 := by decide +kernel
  rintro ⟨start, heq, hle⟩
  rw [hstart] at heq
  cases heq
  exact absurd hle (by decide)

/-- The verdict is pure, and control reaches a `SELFDESTRUCT` that is not covered. -/
theorem pure_verdict_misses_trailer :
    (trailerChecker.check contractA).1 = .pure ∧
      trailerChecker.source.code contractA = .ok (some trailerCode) ∧
      ControlReaches (sweep trailerCode) ⟨Opcode.selfDestruct, 6⟩ ∧
      ¬ trailerChecker.Covers (sweep trailerCode) ⟨Opcode.selfDestruct, 6⟩ := by
  have hsweep : sweep trailerCode = [⟨Opcode.push0, 0⟩, ⟨⟨Opcode.push1, [5]⟩, 1⟩, ⟨Opcode.jump, 3⟩,
      ⟨(0xa1 : UInt8), 4⟩, ⟨Opcode.jumpDest, 5⟩, ⟨Opcode.selfDestruct, 6⟩, ⟨Opcode.stop, 7⟩,
      ⟨Opcode.sub, 8⟩] := by decide +kernel
  refine ⟨by decide +kernel, by decide +kernel, ?_, ?_⟩
  · rw [hsweep]
    refine ⟨⟨Opcode.push0, 0⟩, rfl, ?_⟩
    refine .head (.next [] _ rfl rfl) (.head (.next [_] _ rfl rfl) ?_)
    refine .head (.jump [_] _ rfl (.inl rfl) rfl ?_ ?_ ?_) (.single (.next [_, _, _, _] _ rfl rfl))
    · simp
    · rfl
    · rfl
  · rintro (hallowed | ⟨entry, -, before, block, after, heq, -, hblock⟩)
    · exact absurd hallowed (by decide +kernel)
    · -- a call to the manager begins with `MSIZE`, and there is none
      obtain ⟨rest, hrest⟩ := entry.2.operations_eq_cons trailerChecker.manager
      have hmsize : Opcode.msize ∈ (sweep trailerCode).map (·.code) := by
        have : Opcode.msize ∈ (block.map (·.toOperation)).map (·.code) := by simp [hblock, hrest]
        rw [heq]
        simp only [List.map_append, List.mem_append]
        exact .inl (.inr (by simpa using this))
      rw [hsweep] at hmsize
      exact absurd hmsize (by decide)

end Purity

end EvmSandbox
