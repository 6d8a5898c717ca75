/-
The inspection of a contract, operation by operation. The inspection compares
bytes and passes over instructions by their offsets. On decoded code both
come to the same as working on the operations: a call to the manager is found
where its operations stand next (`sequenceAt_cases`), it is passed over as a
whole (`scan_sequence`), and any other operation is looked at by itself
(`scan_single`).
-/
import EvmSandbox.Purity.Inspection
import EvmSandbox.Proofs.SandboxSafety

namespace EvmSandbox

namespace Operation

theorem length_encodeAll (ops : List Operation) : (encodeAll ops).length = (ops.map size).sum := by
  induction ops with
  | nil => rfl
  | cons op ops ih => simp [ih]

end Operation

/-! ## The standard calls -/

namespace ManagerCall

theorem operations_eq_cons (call : ManagerCall) (manager : Address) :
    ∃ rest, call.operations manager = (Opcode.msize : Operation) ::
      ⟨Opcode.push32, call.selector.bytes ++ List.replicate 28 0⟩ :: rest :=
  ⟨_, rfl⟩

theorem selector_injective : ∀ entry ∈ standard, ∀ other ∈ standard,
    entry.2.selector = other.2.selector → entry = other := by
  decide +kernel

theorem wellFormed_standard {entry : UInt8 × ManagerCall} (hentry : entry ∈ standard)
    (manager : Address) : ∀ op ∈ entry.2.operations manager, op.WellFormed := by
  have hdefault : ∀ entry ∈ standard, (entry.2.encode default).length ≤ maxCodeLength := by
    decide +kernel
  have hsize : Operation.size ⟨Opcode.push20, manager.bytes⟩ =
      Operation.size ⟨Opcode.push20, (default : Address).bytes⟩ := by
    simp [Operation.size, FixedBytes.length_eq]
  have hlength : (entry.2.encode manager).length ≤ maxCodeLength := by
    have := hdefault entry hentry
    rw [encode, Operation.length_encodeAll] at this ⊢
    rwa [map_operations hsize]
  exact fun op hop => (operations_spec hlength hop).1

end ManagerCall

namespace Purity

open Operation (encodeAll encodeAll_prefix_iff)
open Instruction (locate)

/-- The sequence found is the one whose operations stand next, and none is found only where the
operations of none stand next. -/
theorem sequenceAt_cases (manager : Address) {ops : List Operation}
    (hops : ∀ op ∈ ops, op.WellFormed) :
    (∃ entry ∈ ManagerCall.standard, entry.2.operations manager <+: ops ∧
      sequenceAt (sequences manager) (encodeAll ops) = some (entry.1, entry.2.encode manager)) ∨
    (∀ entry ∈ ManagerCall.standard, ¬ entry.2.operations manager <+: ops) ∧
      sequenceAt (sequences manager) (encodeAll ops) = none := by
  have hbegins : ∀ entry ∈ ManagerCall.standard,
      (entry.2.encode manager).isPrefixOf (encodeAll ops) = true ↔
        entry.2.operations manager <+: ops := fun entry hentry => by
    rw [List.isPrefixOf_iff_prefix, ManagerCall.encode,
      encodeAll_prefix_iff (ManagerCall.wellFormed_standard hentry manager) hops]
  cases hfind : sequenceAt (sequences manager) (encodeAll ops) with
  | some found =>
    obtain ⟨entry, hentry, rfl⟩ := List.mem_map.1 (List.mem_of_find?_eq_some hfind)
    have hfound : (entry.2.encode manager).isPrefixOf (encodeAll ops) = true := by
      simpa using List.find?_some hfind
    exact .inl ⟨entry, hentry, (hbegins entry hentry).1 hfound, rfl⟩
  | none =>
    refine .inr ⟨fun entry hentry h => ?_, rfl⟩
    exact List.find?_eq_none.1 hfind _ (List.mem_map_of_mem hentry) ((hbegins entry hentry).2 h)

/-! ## One instruction -/

section Inspect

variable {whitelist : Whitelist} {seqs : List (UInt8 × Bytes)} {address : Address} {p : Position}
  {i : Instruction}

theorem inspectFrom_cons (targets : List Address) (rest : List Instruction) :
    inspectFrom whitelist seqs address p targets (i :: rest) =
      (inspectOne whitelist seqs address p i).bind fun result =>
        inspectFrom whitelist seqs address result.1 (result.2 ++ targets) rest := by
  rw [inspectFrom]
  cases inspectOne whitelist seqs address p i <;> rfl

theorem inspectOne_inside (h : i.offset < p.resume) :
    inspectOne whitelist seqs address p i = .ok (p.step i, []) :=
  if_pos h

theorem inspectOne_sequence {replaced : UInt8} {sequence : Bytes} (h : p.resume ≤ i.offset)
    (hsome : sequenceAt seqs p.bytes = some (replaced, sequence)) :
    inspectOne whitelist seqs address p i =
      (resolveCall address (callTarget p.before) i (Opcode.isCall replaced)).bind fun targets =>
        .ok ({ p.step i with resume := i.offset + sequence.length }, targets) := by
  simp only [inspectOne, if_neg (Nat.not_lt.2 h), hsome]
  rfl

theorem inspectOne_single (h : p.resume ≤ i.offset) (hnone : sequenceAt seqs p.bytes = none) :
    inspectOne whitelist seqs address p i =
      if whitelist.isAllowed i.code then
        (resolveCall address (callTarget p.before) i (Opcode.isCall i.code)).bind fun targets =>
          .ok (p.step i, targets)
      else .error (.disallowed address i.offset i.code) := by
  simp only [inspectOne, if_neg (Nat.not_lt.2 h), hnone]
  rfl

/-- The end of a sequence that lies behind does not matter. -/
theorem inspectFrom_resume (ops : List Operation) (bytes : Bytes) (before : List Instruction)
    {resume offset : Nat} (h : resume ≤ offset) (targets : List Address) :
    inspectFrom whitelist seqs address ⟨bytes, before, resume⟩ targets (locate offset ops) =
      inspectFrom whitelist seqs address ⟨bytes, before, 0⟩ targets (locate offset ops) := by
  induction ops generalizing bytes before offset targets with
  | nil => rfl
  | cons op ops ih =>
    have hstep := fun found => ih (bytes.drop op.size) (⟨op, offset⟩ :: before)
      (h.trans (Nat.le_add_right _ op.size)) (found ++ targets)
    rw [locate, inspectFrom_cons, inspectFrom_cons]
    cases hfind : sequenceAt seqs bytes with
    | some found => rw [inspectOne_sequence h hfind, inspectOne_sequence (Nat.zero_le _) hfind]; rfl
    | none =>
      rw [inspectOne_single h hfind, inspectOne_single (Nat.zero_le _) hfind]
      split
      · cases resolveCall address (callTarget before) ⟨op, offset⟩ (Opcode.isCall op.code) with
        | error reason => rfl
        | ok found => exact hstep found
      · rfl

theorem drop_size_encodeAll (op : Operation) (ops : List Operation) :
    (encodeAll (op :: ops)).drop op.size = encodeAll ops := by
  rw [Operation.encodeAll_cons, ← Operation.length_encode, List.drop_left]

/-- Instructions inside the sequence entered last are passed over. -/
theorem inspectFrom_inside (block rest : List Operation) (before : List Instruction) (offset : Nat)
    (targets : List Address) :
    inspectFrom whitelist seqs address
        ⟨encodeAll (block ++ rest), before, offset + (encodeAll block).length⟩ targets
        (locate offset (block ++ rest)) =
      inspectFrom whitelist seqs address
        ⟨encodeAll rest, (locate offset block).reverse ++ before, 0⟩ targets
        (locate (offset + (encodeAll block).length) rest) := by
  induction block generalizing before offset with
  | nil => exact inspectFrom_resume rest _ before (by simp) targets
  | cons op block ih =>
    have hlength : offset + (encodeAll (op :: block)).length =
        offset + op.size + (encodeAll block).length := by
      simp [Nat.add_assoc]
    have hinside : offset < offset + op.size + (encodeAll block).length := by
      have := op.size_pos
      omega
    rw [hlength, List.cons_append, locate, inspectFrom_cons, inspectOne_inside hinside]
    simp only [Except.bind, Position.step, List.nil_append, drop_size_encodeAll]
    rw [ih]
    simp [locate]

end Inspect

/-! ## Scanning operations -/

/-- Inspects the operations `ops`, which start at `offset` behind the instructions `before`. -/
def scan (whitelist : Whitelist) (manager address : Address) (before : List Instruction)
    (offset : Nat) (targets : List Address) (ops : List Operation) : Except Impurity (List Address) :=
  inspectFrom whitelist (sequences manager) address ⟨encodeAll ops, before, 0⟩ targets
    (locate offset ops)

/-- A block that the inspection lets pass. -/
def Checked (whitelist : Whitelist) (manager : Address) (block : List Operation) : Prop :=
  (∃ op, block = [op] ∧ whitelist.isAllowed op.code = true) ∨
    ∃ entry ∈ ManagerCall.standard, block = entry.2.operations manager

section Scan

variable {whitelist : Whitelist} {manager address : Address}

theorem scan_nil (before : List Instruction) (offset : Nat) (targets : List Address) :
    scan whitelist manager address before offset targets [] = .ok targets.reverse := rfl

/-- A call to the manager is passed over as a whole. -/
theorem scan_sequence {entry : UInt8 × ManagerCall} {rest : List Operation}
    (h : sequenceAt (sequences manager) (encodeAll (entry.2.operations manager ++ rest)) =
      some (entry.1, entry.2.encode manager))
    (before : List Instruction) (offset : Nat) (targets : List Address) :
    scan whitelist manager address before offset targets (entry.2.operations manager ++ rest) =
      (resolveCall address (callTarget before) ⟨Opcode.msize, offset⟩
        (Opcode.isCall entry.1)).bind fun found =>
        scan whitelist manager address ((locate offset (entry.2.operations manager)).reverse ++ before)
          (offset + (entry.2.encode manager).length) (found ++ targets) rest := by
  obtain ⟨block, hblock⟩ : ∃ block, entry.2.operations manager = (Opcode.msize : Operation) :: block :=
    ⟨_, rfl⟩
  rw [ManagerCall.encode, hblock] at h ⊢
  rw [scan, List.cons_append, locate, inspectFrom_cons, inspectOne_sequence (Nat.zero_le _) h]
  cases resolveCall address (callTarget before) ⟨Opcode.msize, offset⟩ (Opcode.isCall entry.1) with
  | error reason => rfl
  | ok found =>
    have hlength : offset + (encodeAll ((Opcode.msize : Operation) :: block)).length =
        offset + Operation.size ⟨Opcode.msize, []⟩ + (encodeAll block).length := by
      simp [Nat.add_assoc]
    simp only [Except.bind, Position.step, drop_size_encodeAll, hlength]
    rw [inspectFrom_inside, scan]
    simp [locate]

theorem scan_single {op : Operation} {rest : List Operation}
    (h : sequenceAt (sequences manager) (encodeAll (op :: rest)) = none) (before : List Instruction)
    (offset : Nat) (targets : List Address) :
    scan whitelist manager address before offset targets (op :: rest) =
      if whitelist.isAllowed op.code then
        (resolveCall address (callTarget before) ⟨op, offset⟩
          (Opcode.isCall op.code)).bind fun found =>
          scan whitelist manager address (⟨op, offset⟩ :: before) (offset + op.size)
            (found ++ targets) rest
      else .error (.disallowed address offset op.code) := by
  rw [scan, locate, inspectFrom_cons, inspectOne_single (Nat.zero_le _) h]
  split
  · cases resolveCall address (callTarget before) ⟨op, offset⟩ (Opcode.isCall op.code) with
    | error reason => rfl
    | ok found => simp only [Except.bind, Position.step, drop_size_encodeAll, scan]
  · rfl

end Scan

/-- The inspection of a contract scans its code without the trailer. -/
theorem inspect_eq_scan {c : Checker} {address : Address} {stored : Bytes} {ops : List Operation}
    (hsource : c.source.code address = .ok (some stored))
    (hdecode : Instruction.decode (Metadata.strip stored) = .ok (locate 0 ops))
    (hcode : Metadata.strip stored = encodeAll ops) :
    c.inspect address = scan c.whitelist c.manager address [] 0 [] ops := by
  rw [Checker.inspect, hsource]
  simp only [hdecode]
  rw [hcode, scan]

end Purity

end EvmSandbox
