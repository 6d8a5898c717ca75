/-
Which code the inspection accepts, and with which targets. The code without
its trailer is cut into blocks from the left: a whole call to the manager
where one begins, and a single instruction anywhere else (`Cut`). The
inspection accepts the code if and only if every single instruction is
allowed and the target of every block that calls is pushed by the two blocks
right before it, which are single instructions. It answers with these targets
in the order of the code (`inspect_accepts_iff`).
-/
import EvmSandbox.Proofs.TranspiledPurity

namespace EvmSandbox.Purity

open Operation (encodeAll)
open Instruction (locate)

/-! ## Blocks -/

/-- A part of inspected code: an instruction that stands alone, or a call to the manager in place
of the instruction `code`. -/
inductive Block where
  | single (op : Operation)
  | sequence (code : UInt8) (call : ManagerCall)

namespace Block

def operations (manager : Address) : Block → List Operation
  | .single op => [op]
  | .sequence _ call => call.operations manager

/-- Whether the block is a call, or stands for one. -/
def calls : Block → Bool
  | .single op => Opcode.isCall op.code
  | .sequence code _ => Opcode.isCall code

/-- A call to the manager is a standard one. -/
def Standard : Block → Prop
  | .single _ => True
  | .sequence code call => (code, call) ∈ ManagerCall.standard

def Allowed (whitelist : Whitelist) : Block → Prop
  | .single op => whitelist.isAllowed op.code = true
  | .sequence code call => (code, call) ∈ ManagerCall.standard

/-- The operations of blocks one after the other. -/
def operationsOf (manager : Address) (blocks : List Block) : List Operation :=
  blocks.flatMap (operations manager)

/-- Each block is a whole call to the manager, or a single instruction at which none begins. -/
def Cut (manager : Address) : List Block → Prop
  | [] => True
  | .single op :: rest =>
    (∀ entry ∈ ManagerCall.standard,
      ¬ entry.2.operations manager <+: op :: operationsOf manager rest) ∧ Cut manager rest
  | .sequence code call :: rest => (code, call) ∈ ManagerCall.standard ∧ Cut manager rest

/-- The indexes of the blocks that call, if the first block has the index `first`. -/
def callIndexes (first : Nat) (blocks : List Block) : List Nat :=
  ((blocks.zipIdx first).filter fun entry => entry.1.calls).map (·.2)

/-- Right before the block with the index `k`, the address `target` is pushed and then the gas, by
two instructions that stand alone. -/
def TargetPushed (blocks : List Block) (k : Nat) (target : Address) : Prop :=
  ∃ j gas, k = j + 2 ∧ blocks[j]? = some (.single ⟨Opcode.push20, target.bytes⟩) ∧
    blocks[j + 1]? = some (.single gas) ∧
    (gas.code = Opcode.gas ∨ gas.code = Opcode.push0 ∨ Opcode.isPush gas.code = true)

variable {manager : Address}

@[simp] theorem operationsOf_cons (block : Block) (rest : List Block) :
    operationsOf manager (block :: rest) = block.operations manager ++ operationsOf manager rest := rfl

theorem callIndexes_cons (first : Nat) (block : Block) (rest : List Block) :
    callIndexes first (block :: rest) =
      if block.calls then first :: callIndexes (first + 1) rest else callIndexes (first + 1) rest := by
  rw [callIndexes, List.zipIdx_cons, List.filter_cons]
  cases block.calls <;> rfl

/-- Every code can be cut into blocks. -/
theorem exists_cut {ops : List Operation} (hops : ∀ op ∈ ops, op.WellFormed) :
    ∃ blocks, operationsOf manager blocks = ops ∧ Cut manager blocks := by
  induction hn : ops.length using Nat.strong_induction_on generalizing ops with
  | _ n ih =>
    subst hn
    rcases sequenceAt_cases manager hops with ⟨entry, hentry, ⟨rest, rfl⟩, -⟩ | ⟨hnone, -⟩
    · have hshorter : rest.length < (entry.2.operations manager ++ rest).length := by
        have := List.length_pos_iff.2 (entry.2.operations_ne_nil manager)
        rw [List.length_append]
        omega
      obtain ⟨blocks, rfl, hcut⟩ := ih _ hshorter (fun op hop => hops op (by simp [hop])) rfl
      exact ⟨.sequence entry.1 entry.2 :: blocks, rfl, hentry, hcut⟩
    · cases ops with
      | nil => exact ⟨[], rfl, trivial⟩
      | cons op rest =>
        have hshorter : rest.length < (op :: rest).length := Nat.lt_succ_self _
        obtain ⟨blocks, rfl, hcut⟩ := ih _ hshorter (fun op hop => hops op (by simp [hop])) rfl
        exact ⟨.single op :: blocks, rfl, hnone, hcut⟩

/-! ## What stands before a block -/

/-- The instructions `before` are those of the blocks `done`, all nearest first. -/
def Behind (manager : Address) (done : List Block) (before : List Instruction) : Prop :=
  before.map (·.toOperation) = done.flatMap fun block => (block.operations manager).reverse

theorem Behind.cons {done : List Block} {before : List Instruction} (h : Behind manager done before)
    (block : Block) (offset : Nat) :
    Behind manager (block :: done)
      ((locate offset (block.operations manager)).reverse ++ before) := by
  rw [Behind] at h ⊢
  rw [List.map_append, List.map_reverse, Instruction.map_toOperation_locate, h, List.flatMap_cons]

theorem targetPushed_iff {done rest : List Block} {target : Address} :
    TargetPushed (done.reverse ++ rest) done.length target ↔
      ∃ gas earlier, done = .single gas :: .single ⟨Opcode.push20, target.bytes⟩ :: earlier ∧
        (gas.code = Opcode.gas ∨ gas.code = Opcode.push0 ∨ Opcode.isPush gas.code = true) := by
  constructor
  · rintro ⟨j, gas, hlength, hpush, hgas, hcode⟩
    match done, hlength with
    | last :: previous :: earlier, hlength =>
      obtain rfl : earlier.length = j := by simpa using hlength
      have hlast : last = .single gas := by simpa using hgas
      have hprevious : previous = .single ⟨Opcode.push20, target.bytes⟩ := by simpa using hpush
      exact ⟨gas, earlier, by rw [hlast, hprevious], hcode⟩
  · rintro ⟨gas, earlier, rfl, hcode⟩
    exact ⟨earlier.length, gas, rfl, by simp, by simp, hcode⟩

/-- The last operation of a call to the manager does not push the gas of another call. -/
theorem Behind.sequence {code : UInt8} {call : ManagerCall} {done : List Block}
    {before : List Instruction} (hcall : (code, call) ∈ ManagerCall.standard)
    (h : Behind manager (.sequence code call :: done) before) :
    ∃ last earlier, before = last :: earlier ∧ pushesGas last.code = false := by
  obtain ⟨front, last, hoperations, -, -, hlast⟩ := ManagerCall.standard_spec hcall manager
  rw [Behind, List.flatMap_cons, operations, show call.operations manager = _ from hoperations] at h
  simp only [List.reverse_cons, List.reverse_append, List.reverse_nil, List.nil_append,
    List.cons_append] at h
  obtain ⟨i, earlier, rfl, hi, -⟩ := List.map_eq_cons_iff.1 h
  exact ⟨i, earlier, rfl, by rw [hi]; exact hlast⟩

theorem Behind.single {op : Operation} {done : List Block} {before : List Instruction}
    (h : Behind manager (.single op :: done) before) :
    ∃ last earlier, before = last :: earlier ∧ last.toOperation = op ∧ Behind manager done earlier :=
  List.map_eq_cons_iff.1 h

/-- The target of a call is found if it is pushed by two instructions that stand alone. -/
theorem Behind.callTarget_eq_some_iff {done : List Block} {before : List Instruction}
    (h : Behind manager done before)
    (hdone : ∀ block ∈ done, block.Standard)
    {rest : List Block} {target : Address} :
    callTarget before = some target ↔ TargetPushed (done.reverse ++ rest) done.length target := by
  rw [targetPushed_iff]
  cases done with
  | nil =>
    obtain rfl : before = [] := List.map_eq_nil_iff.1 h
    simp [callTarget]
  | cons block done =>
    cases block with
    | sequence code call =>
      obtain ⟨last, earlier, rfl, hlast⟩ := h.sequence (hdone (.sequence code call) (by simp))
      have hnone : callTarget (last :: earlier) = none := by
        cases earlier <;> simp [callTarget, hlast]
      simp [hnone]
    | single gas =>
      obtain ⟨last, earlier, rfl, rfl, hearlier⟩ := h.single
      cases done with
      | nil =>
        obtain rfl : earlier = [] := List.map_eq_nil_iff.1 hearlier
        simp [callTarget]
      | cons block done =>
        cases block with
        | sequence code call =>
          obtain ⟨push, earliest, rfl, hpush⟩ := hearlier.sequence (hdone (.sequence code call) (by simp))
          rw [callTarget_cons_eq_some_iff]
          refine iff_of_false ?_ (by simp)
          rintro ⟨hoperation, -⟩
          rw [hoperation] at hpush
          cases hpush
        | single push =>
          obtain ⟨previous, earliest, rfl, rfl, -⟩ := hearlier.single
          rw [callTarget_cons_eq_some_iff]
          constructor
          · rintro ⟨hpush, hgas⟩
            exact ⟨_, _, by rw [hpush], hgas⟩
          · rintro ⟨gas, _, heq, hgas⟩
            simp only [List.cons.injEq, Block.single.injEq] at heq
            obtain ⟨rfl, hpush, -⟩ := heq
            exact ⟨hpush, hgas⟩

end Block

/-! ## The inspection of blocks -/

section Scan

variable {whitelist : Whitelist} {manager address : Address}

/-- The inspection goes on behind a block if the target of the block is told, in case it calls. -/
theorem bind_resolveCall_eq_ok_iff {before : List Instruction} {i : Instruction} {calls : Bool}
    {next : List Address → Except Impurity (List Address)} {targets result : List Address}
    {Rest : Prop} {Target : Nat → Address → Prop} {k : Nat} {later : List Nat}
    (htarget : ∀ target, callTarget before = some target ↔ Target k target)
    (hnext : ∀ found, next found = .ok result ↔ Rest ∧ ∃ more,
      result = (found ++ targets).reverse ++ more ∧ List.Forall₂ Target later more) :
    (resolveCall address (callTarget before) i calls).bind next = .ok result ↔ Rest ∧ ∃ found,
      result = targets.reverse ++ found ∧
        List.Forall₂ Target (if calls then k :: later else later) found := by
  unfold resolveCall
  cases calls with
  | false => exact hnext []
  | true =>
    simp only [if_true, List.forall₂_cons_left_iff]
    cases hsome : callTarget before with
    | none =>
      refine iff_of_false (by simp [Except.bind]) ?_
      rintro ⟨-, found, -, target, more, hpushed, -⟩
      rw [(htarget target).2 hpushed] at hsome
      cases hsome
    | some target =>
      refine (hnext [target]).trans (and_congr_right fun _ => ⟨?_, ?_⟩)
      · rintro ⟨more, rfl, hmore⟩
        exact ⟨target :: more, by simp, target, more, (htarget target).1 hsome, hmore, rfl⟩
      · rintro ⟨_, rfl, other, more, hother, hmore, rfl⟩
        obtain rfl : target = other := by simpa [hsome] using (htarget other).2 hother
        exact ⟨more, by simp, hmore⟩

open Block (operations operationsOf Cut Behind) in
/-- The inspection of code that is cut into blocks, the blocks `done` of which lie behind. -/
theorem scan_operationsOf_eq_ok_iff {blocks done : List Block} {before : List Instruction}
    (hcut : Cut manager blocks)
    (hwell : ∀ op ∈ operationsOf manager blocks, op.WellFormed)
    (hbefore : Behind manager done before)
    (hdone : ∀ block ∈ done, block.Standard)
    (offset : Nat) (targets result : List Address) :
    scan whitelist manager address before offset targets (operationsOf manager blocks) = .ok result ↔
      (∀ block ∈ blocks, block.Allowed whitelist) ∧ ∃ found, result = targets.reverse ++ found ∧
        List.Forall₂ (Block.TargetPushed (done.reverse ++ blocks))
          (Block.callIndexes done.length blocks) found := by
  induction blocks generalizing done before offset targets with
  | nil => simp [operationsOf, scan_nil, Block.callIndexes, eq_comm]
  | cons block rest ih =>
    have hblocks : done.reverse ++ block :: rest = (block :: done).reverse ++ rest := by simp
    have htarget := fun target =>
      @Behind.callTarget_eq_some_iff _ _ _ hbefore hdone (block :: rest) target
    have hrest : ∀ op ∈ operationsOf manager rest, op.WellFormed := fun op hop =>
      hwell op (by simp [hop])
    rw [hblocks] at htarget ⊢
    rw [Block.callIndexes_cons, List.forall_mem_cons]
    cases block with
    | single op =>
      have hnone :
          sequenceAt (sequences manager) (encodeAll (op :: operationsOf manager rest)) = none := by
        rcases sequenceAt_cases manager hwell with ⟨entry, hentry, hbegins, -⟩ | ⟨-, hnone⟩
        · exact absurd hbegins (hcut.1 entry hentry)
        · exact hnone
      have hdone : ∀ block ∈ Block.single op :: done, block.Standard :=
        List.forall_mem_cons.2 ⟨trivial, hdone⟩
      rw [Block.operationsOf_cons, operations, List.singleton_append, scan_single hnone]
      by_cases hallowed : whitelist.isAllowed op.code = true
      · rw [if_pos hallowed, and_iff_right (show (Block.single op).Allowed whitelist from hallowed)]
        exact bind_resolveCall_eq_ok_iff htarget fun found =>
          ih hcut.2 hrest (hbefore.cons (.single op) offset) hdone _ _
      · rw [if_neg hallowed]
        exact iff_of_false (by simp) fun haccepted => hallowed haccepted.1.1
    | sequence code call =>
      have hsome := @sequenceAt_of_standard manager (code, call) hcut.1 (operationsOf manager rest) hwell
      have hdone : ∀ block ∈ Block.sequence code call :: done, block.Standard :=
        List.forall_mem_cons.2 ⟨hcut.1, hdone⟩
      rw [Block.operationsOf_cons, operations, @scan_sequence _ _ _ (code, call) _ hsome,
        and_iff_right (show (Block.sequence code call).Allowed whitelist from hcut.1)]
      exact bind_resolveCall_eq_ok_iff htarget fun found =>
        ih hcut.2 hrest (hbefore.cons (.sequence code call) offset) hdone _ _

open Block (operationsOf Cut) in
theorem scan_all_eq_ok_iff {blocks : List Block} (hcut : Cut manager blocks)
    (hwell : ∀ op ∈ operationsOf manager blocks, op.WellFormed) (result : List Address) :
    scan whitelist manager address [] 0 [] (operationsOf manager blocks) = .ok result ↔
      (∀ block ∈ blocks, block.Allowed whitelist) ∧
        List.Forall₂ (Block.TargetPushed blocks) (Block.callIndexes 0 blocks) result := by
  have hscan := @scan_operationsOf_eq_ok_iff whitelist manager address _ [] [] hcut hwell rfl (by simp)
    0 [] result
  simpa using hscan

end Scan

/-! ## Accepted code -/

/-- The inspection by `c` accepts `code`, cut into `blocks`, with the targets `targets`. -/
structure Accepted (c : Checker) (code : Bytes) (blocks : List Block) (targets : List Address) :
    Prop where
  /-- The blocks are all the instructions of the code, in order. -/
  decode : Instruction.decode code = .ok (locate 0 (Block.operationsOf c.manager blocks))
  /-- The blocks are all the bytes of the code, in order. -/
  bytes : code = encodeAll (Block.operationsOf c.manager blocks)
  allowed : ∀ block ∈ blocks, block.Allowed c.whitelist
  cut : Block.Cut c.manager blocks
  targets : List.Forall₂ (Block.TargetPushed blocks) (Block.callIndexes 0 blocks) targets

theorem Accepted.wellFormed {c : Checker} {code : Bytes} {blocks : List Block} {targets : List Address}
    (h : Accepted c code blocks targets) :
    ∀ op ∈ Block.operationsOf c.manager blocks, op.WellFormed := by
  intro op hop
  rw [← Instruction.map_toOperation_locate 0 (Block.operationsOf c.manager blocks)] at hop
  obtain ⟨i, hi, rfl⟩ := List.mem_map.1 hop
  exact Instruction.wellFormed_of_decode h.decode hi

section Inspect

variable {c : Checker} {address : Address} {stored : Bytes}
  (hsource : c.source.code address = .ok (some stored)) {targets : List Address}
include hsource

theorem exists_accepted (hinspect : c.inspect address = .ok targets) :
    ∃ blocks, Accepted c (Metadata.strip stored) blocks targets := by
  cases hdecode : Instruction.decode (Metadata.strip stored) with
  | error error => simp [Checker.inspect, hsource, hdecode] at hinspect
  | ok instructions =>
    obtain ⟨-, ops, hops, hcode, rfl⟩ := Instruction.decode_eq_ok_iff.1 hdecode
    obtain ⟨blocks, rfl, hcut⟩ := @Block.exists_cut c.manager ops hops
    rw [inspect_eq_scan hsource hdecode hcode, scan_all_eq_ok_iff hcut hops] at hinspect
    exact ⟨blocks, hdecode, hcode, hinspect.1, hcut, hinspect.2⟩

/-- **What the inspection accepts.** The inspection of a contract succeeds if and only if its code
without the trailer is cut, with nothing left out, into allowed instructions and whole calls to the
manager, and the target of each call is pushed right before it and then its gas, by instructions
outside of every call to the manager. It answers with these targets in the order of the code. -/
theorem inspect_accepts_iff :
    c.inspect address = .ok targets ↔
      ∃ blocks, Accepted c (Metadata.strip stored) blocks targets := by
  refine ⟨exists_accepted hsource, ?_⟩
  rintro ⟨blocks, haccepted⟩
  rw [inspect_eq_scan hsource haccepted.decode haccepted.bytes,
    scan_all_eq_ok_iff haccepted.cut haccepted.wellFormed]
  exact ⟨haccepted.allowed, haccepted.targets⟩

end Inspect

/-- A `STATICCALL` to the contract 1, and what stands for a `CALL` to the contract 2. -/
def mixedCode : Bytes :=
  encodeAll [⟨Opcode.push20, (FixedBytes.ofNat 20 1).bytes⟩, Opcode.gas, Opcode.staticCall,
    ⟨Opcode.push20, (FixedBytes.ofNat 20 2).bytes⟩, Opcode.push0] ++
  (⟨.ofNat 4 0x5b99d1c5, [.word, .word, .word, .memory], .callStatus⟩ : ManagerCall).encode
    (.ofNat 20 0xee)

def mixedChecker : Checker where
  source := ⟨fun _ => .ok (some mixedCode)⟩
  manager := .ofNat 20 0xee
  whitelist := Whitelist.standard.allow Opcode.staticCall
  maxDepth := defaultMaxDepth

theorem inspect_accepts_iff_mixedCode :
    mixedChecker.inspect (.ofNat 20 0) = .ok [.ofNat 20 1, .ofNat 20 2] ∧
      ∃ blocks, Accepted mixedChecker (Metadata.strip mixedCode) blocks
        [.ofNat 20 1, .ofNat 20 2] := by
  have hinspect : mixedChecker.inspect (.ofNat 20 0) = .ok [.ofNat 20 1, .ofNat 20 2] := by
    decide +kernel
  exact ⟨hinspect, (inspect_accepts_iff rfl).1 hinspect⟩

end EvmSandbox.Purity
