/-
What the machine does in a jump table: with the destination of a jump on top
of the stack, it goes to the new offset of that destination, and it halts
exceptionally if the table does not list the destination. On the way it does
not leave the table.

One entry either goes to its new offset or hands on to the next entry
(`runsBehind_tableEntry`); the table as a whole follows by induction on the
entries. `table_computes_map` says it of the bytes of a table that stands
behind any code.
-/
import EvmSandbox.Proofs.Machine
import EvmSandbox.Proofs.LayoutOperations

namespace EvmSandbox.Machine

open Operation (At encodeAll)
open Instruction (locate)
open Layout (Destination table tableEntry tableFailure tableEntryLength tableOffsetWidth)

theorem toNat_word {value : Nat} (h : value < 256 ^ tableOffsetWidth) :
    (BitVec.ofNat 256 value).toNat = value := by
  rw [BitVec.toNat_ofNat]
  exact Nat.mod_eq_of_lt (lt_trans h (by decide))

/-- The difference that an entry of the table computes is zero for its own destination only. -/
theorem word_sub_eq_zero_iff {value : Nat} (h : value < 256 ^ tableOffsetWidth) (x : Word) :
    BitVec.ofNat 256 value - x = 0 ↔ value = x.toNat := by
  constructor
  · intro hzero
    have hx : BitVec.ofNat 256 value = x := by simpa using BitVec.sub_eq_iff_eq_add.1 hzero
    rw [← hx, toNat_word h]
  · rintro rfl
    simp

section Run

variable {Env : Type} {meaning : Meaning Env} {ops : List Operation}

theorem perform_pushOffset {value : Nat} (h : value < 256 ^ tableOffsetWidth) (stack : List Word)
    (env : Env) :
    perform meaning (.push tableOffsetWidth value) stack env =
      .next (BitVec.ofNat 256 value :: stack) env :=
  perform_push (by decide) (by decide) h stack env

theorem isDestination_of_at_table {destinations : List Destination} {start : Nat}
    (hat : At ops start (table destinations start)) : isDestination (locate 0 ops) start = true := by
  refine isDestination_iff.2 ⟨⟨Opcode.jumpDest, []⟩, ?_, rfl⟩
  cases destinations with
  | nil => exact hat.head
  | cons destination rest =>
    rw [Layout.table_cons] at hat
    exact hat.left.head

/-- `t` comes after `s` in a run that takes no step in front of the offset `start`, or is `s`. -/
def RunsBehind (meaning : Meaning Env) (program : List Instruction) (start : Nat) :
    State Env → State Env → Prop :=
  Relation.ReflTransGen fun s t => start ≤ s.pc ∧ Moves meaning program s t

theorem RunsBehind.reaches {program : List Instruction} {start : Nat} {s t : State Env}
    (h : RunsBehind meaning program start s t) : Reaches meaning program s t :=
  Relation.ReflTransGen.mono (fun _ _ hmove => hmove.2) _ _ h

theorem runsBehind_of_straight {start pc : Nat} {block : List Operation} (hat : At ops pc block)
    (hstart : start ≤ pc) (hstraight : (block.any fun op => Opcode.isJump op.code) = false)
    {stack stack' : List Word} {env env' : Env}
    (h : performAll meaning block stack env = .next stack' env') :
    RunsBehind meaning (locate 0 ops) start ⟨pc, stack, env⟩
      ⟨pc + (encodeAll block).length, stack', env'⟩ := by
  induction block generalizing pc stack env with
  | nil =>
    cases h
    exact .refl
  | cons op rest ih =>
    rw [List.any_cons, Bool.or_eq_false_iff] at hstraight
    rw [performAll_cons] at h
    cases hop : perform meaning op stack env with
    | next stack₁ env₁ =>
      rw [hop, bind_next] at h
      have hrest := ih hat.tail (by omega) hstraight.2 h
      rw [Operation.encodeAll_cons, List.length_append, Operation.length_encode, ← Nat.add_assoc]
      exact .head ⟨hstart, moves_of_perform hat.head hstraight.1 hop⟩ hrest
    | stop stack₁ env₁ => simp [hop, Effect.bind] at h
    | fault => simp [hop, Effect.bind] at h

/-- An entry goes to the new offset of its destination, or hands on to the next entry. -/
theorem runsBehind_tableEntry {destination : Destination} {start pc next : Nat}
    (hat : At ops pc (tableEntry destination next)) (hstart : start ≤ pc)
    (hdestination : isDestination (locate 0 ops) destination.new = true)
    (hhandsOn : isDestination (locate 0 ops) next = true)
    (hold : destination.old < 256 ^ tableOffsetWidth)
    (hnew : destination.new < 256 ^ tableOffsetWidth) (hnext : next < 256 ^ tableOffsetWidth)
    (x : Word) (stack : List Word) (env : Env) :
    RunsBehind meaning (locate 0 ops) start ⟨pc, x :: stack, env⟩
      (if destination.old = x.toNat then ⟨destination.new, stack, env⟩ else ⟨next, x :: stack, env⟩) := by
  have hat : At ops pc ([(Opcode.jumpDest : Operation), (Opcode.dup1 : Operation),
      .push tableOffsetWidth destination.old, (Opcode.sub : Operation), .push tableOffsetWidth next] ++
      ((Opcode.jumpI : Operation) :: ([(Opcode.pop : Operation),
        .push tableOffsetWidth destination.new] ++ [(Opcode.jump : Operation)]))) := hat
  have hcompare : RunsBehind meaning (locate 0 ops) start ⟨pc, x :: stack, env⟩
      ⟨_, BitVec.ofNat 256 next :: (BitVec.ofNat 256 destination.old - x) :: x :: stack, env⟩ :=
    runsBehind_of_straight hat.left hstart rfl
      (by simp [perform_pushOffset hold, perform_pushOffset hnext])
  refine Relation.ReflTransGen.trans hcompare ?_
  by_cases hx : destination.old = x.toNat
  · -- the destination is taken off the stack, and the last jump goes to its new offset
    rw [if_pos hx]
    have hzero := (word_sub_eq_zero_iff hold x).2 hx
    have hlast := hat.right.tail
    have hnewPush : RunsBehind meaning (locate 0 ops) start ⟨_, x :: stack, env⟩
        ⟨_, BitVec.ofNat 256 destination.new :: stack, env⟩ :=
      runsBehind_of_straight hlast.left (by omega) rfl (by simp [perform_pushOffset hnew])
    refine .head ⟨by simp only; omega, moves_jumpI_fallen hat.right.head hzero _ _ _⟩ ?_
    refine .tail hnewPush ⟨by simp only; omega, ?_⟩
    exact moves_jump hlast.right (toNat_word hnew) hdestination stack env
  · rw [if_neg hx]
    have hzero := fun h => hx ((word_sub_eq_zero_iff hold x).1 h)
    refine .single ⟨by simp only; omega, ?_⟩
    exact moves_jumpI_taken hat.right.head hzero (toNat_word hnext) hhandsOn _ _

section Table

variable {destinations : List Destination} {start : Nat}
  (hat : At ops start (table destinations start))

include hat

/-- The byte on which a destination ends that the table does not list. -/
theorem at_table_invalid :
    At ops (start + destinations.length * tableEntryLength + 1) [(Opcode.invalid : Operation)] := by
  induction destinations generalizing start with
  | nil =>
    have hat : At ops start ([(Opcode.jumpDest : Operation)] ++ [(Opcode.invalid : Operation)]) := hat
    simpa using hat.right
  | cons destination rest ih =>
    rw [Layout.table_cons] at hat
    have hrest := hat.right
    rw [Layout.length_tableEntry] at hrest
    have hinvalid := ih hrest
    rwa [List.length_cons, Nat.add_mul, Nat.one_mul, Nat.add_comm (rest.length * _), ← Nat.add_assoc]

variable (hdestinations : ∀ destination ∈ destinations,
    isDestination (locate 0 ops) destination.new = true ∧
      destination.old < 256 ^ tableOffsetWidth ∧ destination.new < 256 ^ tableOffsetWidth)
  (hsmall : start + destinations.length * tableEntryLength < 256 ^ tableOffsetWidth)

include hdestinations hsmall

theorem runsBehind_table {first : Nat} (hfirst : first ≤ start) (x : Word) (stack : List Word)
    (env : Env) :
    RunsBehind meaning (locate 0 ops) first ⟨start, x :: stack, env⟩
      (match destinations.find? (·.old == x.toNat) with
        | some destination => ⟨destination.new, stack, env⟩
        | none => ⟨start + destinations.length * tableEntryLength + 1, x :: stack, env⟩) := by
  induction destinations generalizing start with
  | nil =>
    have hat : At ops start ([(Opcode.jumpDest : Operation)] ++ [(Opcode.invalid : Operation)]) := hat
    have hmark : RunsBehind meaning (locate 0 ops) first ⟨start, x :: stack, env⟩ ⟨_, x :: stack, env⟩ :=
      runsBehind_of_straight hat.left hfirst rfl rfl
    simpa using hmark
  | cons destination rest ih =>
    rw [Layout.table_cons] at hat
    rw [List.length_cons, Nat.add_mul, Nat.one_mul] at hsmall
    obtain ⟨hdestination, hold, hnew⟩ := hdestinations destination (by simp)
    have hrest : At ops (start + tableEntryLength) (table rest (start + tableEntryLength)) := by
      have := hat.right
      rwa [Layout.length_tableEntry] at this
    have hentry : RunsBehind meaning (locate 0 ops) first ⟨start, x :: stack, env⟩ _ :=
      runsBehind_tableEntry hat.left hfirst hdestination (isDestination_of_at_table hrest) hold hnew
        (by omega) x stack env
    rw [List.find?_cons]
    by_cases hx : destination.old = x.toNat
    · rw [if_pos hx] at hentry
      rw [show (destination.old == x.toNat) = true from by simpa using hx]
      exact hentry
    · rw [if_neg hx] at hentry
      rw [show (destination.old == x.toNat) = false from by simpa using hx]
      have hhandedOn := ih hrest (fun d hd => hdestinations d (by simp [hd])) (by omega) (by omega)
      rw [List.length_cons, Nat.add_mul, Nat.one_mul, Nat.add_comm (rest.length * _), ← Nat.add_assoc]
      exact Relation.ReflTransGen.trans hentry hhandedOn

/-- **The jump table looks up the destination.** -/
theorem leads_table (x : Word) (stack : List Word) (env : Env) :
    Leads meaning (locate 0 ops) ⟨start, x :: stack, env⟩
      (match destinations.find? (·.old == x.toNat) with
        | some destination => .move ⟨destination.new, stack, env⟩
        | none => .fault env) := by
  have hrun : RunsBehind meaning (locate 0 ops) start ⟨start, x :: stack, env⟩ _ :=
    runsBehind_table hat hdestinations hsmall le_rfl x stack env
  have hreaches := hrun.reaches
  split at hreaches
  · rename_i destination _
    -- the destination is off the stack, so some step was made
    rcases Relation.reflTransGen_iff_eq_or_transGen.1 hreaches with heq | hsteps
    · have hstack : stack = x :: stack := congrArg State.stack heq
      simp at hstack
    · exact hsteps
  · exact .of_reaches hreaches (leads_execute (at_table_invalid hat) rfl)

end Table

/-- Without a destination on the stack the jump table halts exceptionally. -/
theorem leads_table_nil {destinations : List Destination} {start : Nat}
    (hat : At ops start (table destinations start)) (env : Env) :
    Leads meaning (locate 0 ops) ⟨start, [], env⟩ (.fault env) := by
  have hsecond : ∃ op : Operation, (op = ⟨Opcode.invalid, []⟩ ∨ op = ⟨Opcode.dup1, []⟩) ∧
      At ops start ([(Opcode.jumpDest : Operation)] ++ [op]) := by
    cases destinations with
    | nil => exact ⟨_, .inl rfl, hat⟩
    | cons destination rest =>
      rw [Layout.table_cons] at hat
      exact ⟨_, .inr rfl, hat.left.left⟩
  obtain ⟨op, hop, hat⟩ := hsecond
  have hmark : Reaches meaning (locate 0 ops) ⟨start, [], env⟩ ⟨_, [], env⟩ :=
    reaches_of_straight hat.left (by simp) rfl rfl
  refine .of_reaches hmark (leads_execute hat.right ?_)
  rcases hop with rfl | rfl <;> rfl

/-! ## A table behind any code -/

/-- The code `code` with a jump table behind it. -/
def withTable (code : Bytes) (destinations : List Destination) : Bytes :=
  code ++ encodeAll (table destinations code.length)

theorem length_withTable (code : Bytes) (destinations : List Destination) :
    (withTable code destinations).length =
      code.length + destinations.length * tableEntryLength + 2 := by
  rw [withTable, List.length_append, Layout.length_table, Layout.tableFailureLength, Nat.add_assoc]

theorem decode_withTable {before : List Operation} (hbefore : ∀ op ∈ before, op.WellFormed)
    {destinations : List Destination}
    (hsmall : (withTable (encodeAll before) destinations).length ≤ maxCodeLength) :
    Instruction.decode (withTable (encodeAll before) destinations) =
      .ok (locate 0 (before ++ table destinations (encodeAll before).length)) := by
  refine Instruction.decode_eq_ok_iff.2 ⟨hsmall, _, fun op hop => ?_, ?_, rfl⟩
  · exact (List.mem_append.1 hop).elim (hbefore op) (Layout.wellFormed_table destinations _ op)
  · rw [withTable, Operation.encodeAll_append]

/-- A `JUMPDEST` of code stays one when operations are put behind the code. -/
theorem isDestination_append {before : List Operation} (rest : List Operation) {pc : Nat}
    (h : isDestination (locate 0 before) pc = true) :
    isDestination (locate 0 (before ++ rest)) pc = true := by
  obtain ⟨op, ⟨front, back, rfl, hlength⟩, hcode⟩ := isDestination_iff.1 h
  exact isDestination_iff.2 ⟨op, ⟨front, back ++ rest, by simp, hlength⟩, hcode⟩

theorem lt_length_of_isDestination {code : Bytes} {instructions : List Instruction}
    (hdecode : Instruction.decode code = .ok instructions) {pc : Nat}
    (h : isDestination instructions pc = true) : pc < code.length := by
  obtain ⟨-, before, -, rfl, rfl⟩ := Instruction.decode_eq_ok_iff.1 hdecode
  obtain ⟨op, ⟨front, back, rfl, rfl⟩, -⟩ := isDestination_iff.1 h
  have hpos := op.size_pos
  simp only [Operation.encodeAll_append, Operation.encodeAll_cons, Operation.encodeAll_nil,
    List.length_append, Operation.length_encode, List.length_nil]
  omega

/-- Where the originals are distinct, the entry that is found is the one that lists the offset. -/
theorem find?_old_of_nodup {destinations : List Destination}
    (hdistinct : (destinations.map (·.old)).Nodup) {destination : Destination}
    (hmem : destination ∈ destinations) :
    destinations.find? (·.old == destination.old) = some destination := by
  have hsome : (destinations.find? (·.old == destination.old)).isSome :=
    List.find?_isSome.2 ⟨destination, hmem, by simp⟩
  obtain ⟨found, hfound⟩ := Option.isSome_iff_exists.1 hsome
  have hold : found.old = destination.old := by simpa using List.find?_some hfound
  rw [hfound, List.inj_on_of_nodup_map hdistinct (List.mem_of_find?_eq_some hfound) hmem hold]

/-- **The jump table computes the jump map.** Behind code that decodes, let a table list offsets
of four bytes, each once, with the new offset of each the start of a `JUMPDEST` of the code. From the
first byte of the table, with any word on the stack, the machine takes steps in the table only:
they end at the new offset of the word, with the word taken off the stack, or at the `INVALID` behind
the entries if the table does not list the word. -/
theorem table_computes_map {code : Bytes} {instructions : List Instruction}
    (hdecode : Instruction.decode code = .ok instructions) {destinations : List Destination}
    (hdistinct : (destinations.map (·.old)).Nodup)
    (hold : ∀ destination ∈ destinations, destination.old < 2 ^ 32)
    (hnew : ∀ destination ∈ destinations, isDestination instructions destination.new = true)
    (hsmall : (withTable code destinations).length < 2 ^ 32)
    (meaning : Meaning Env) (x : Word) (stack : List Word) (env : Env) :
    ∃ program, Instruction.decode (withTable code destinations) = .ok program ∧
      (∀ destination ∈ destinations, destination.old = x.toNat → destination.new < code.length ∧
        RunsBehind meaning program code.length ⟨code.length, x :: stack, env⟩
          ⟨destination.new, stack, env⟩) ∧
      ((∀ destination ∈ destinations, destination.old ≠ x.toNat) → ∃ pc,
        pc + 1 = (withTable code destinations).length ∧
        fetch program pc = some ⟨Opcode.invalid, []⟩ ∧
        RunsBehind meaning program code.length ⟨code.length, x :: stack, env⟩ ⟨pc, x :: stack, env⟩ ∧
        step meaning program ⟨pc, x :: stack, env⟩ = .fault env) := by
  have hlt := fun destination hmem => lt_length_of_isDestination hdecode (hnew destination hmem)
  obtain ⟨-, before, hbefore, rfl, rfl⟩ := Instruction.decode_eq_ok_iff.1 hdecode
  have hprogram := @decode_withTable before hbefore destinations (Nat.le_of_lt_succ hsmall)
  rw [length_withTable] at hsmall ⊢
  have hat : At (before ++ table destinations (encodeAll before).length) (encodeAll before).length
      (table destinations (encodeAll before).length) := ⟨before, [], by simp, rfl⟩
  have hbound : (256 : Nat) ^ tableOffsetWidth = 2 ^ 32 := by decide
  have hdestinations : ∀ destination ∈ destinations,
      isDestination (locate 0 (before ++ table destinations (encodeAll before).length))
          destination.new = true ∧
        destination.old < 256 ^ tableOffsetWidth ∧ destination.new < 256 ^ tableOffsetWidth := by
    intro destination hmem
    have hnewLt := hlt destination hmem
    rw [hbound]
    exact ⟨isDestination_append _ (hnew destination hmem), hold destination hmem, by omega⟩
  have hrun : RunsBehind meaning _ _ ⟨(encodeAll before).length, x :: stack, env⟩ _ :=
    runsBehind_table hat hdestinations (by omega) le_rfl x stack env
  refine ⟨_, hprogram, ?_, ?_⟩
  · intro destination hmem hx
    rw [← hx, find?_old_of_nodup hdistinct hmem] at hrun
    exact ⟨hlt destination hmem, hrun⟩
  · intro hnone
    have hfind : destinations.find? (·.old == x.toNat) = none := by
      simpa using hnone
    rw [hfind] at hrun
    have hinvalid := at_table_invalid hat
    exact ⟨_, rfl, fetch_locate_eq_some_iff.2 hinvalid, hrun, (step_of_at hinvalid).trans rfl⟩

end Run

/-- Two `JUMPDEST` instructions, and between them a push with the byte of a third. -/
def markedCode : Bytes := [0x5b, 0x60, 0x5b, 0x5b]

def markedDestinations : List Destination := [⟨0x10, 0⟩, ⟨0x07, 3⟩]

/-- The second word has the last four bytes of the first, which is the one that is listed. -/
theorem table_computes_map_markedCode :
    ∃ program, Instruction.decode (withTable markedCode markedDestinations) = .ok program ∧
      RunsBehind (fun _ _ _ => .fault) program 4 ⟨4, [0x07, 9], ()⟩ ⟨3, [9], ()⟩ ∧
      ∃ pc, fetch program pc = some ⟨Opcode.invalid, []⟩ ∧
        RunsBehind (fun _ _ _ => .fault) program 4 ⟨4, [0x100000007, 9], ()⟩
          ⟨pc, [0x100000007, 9], ()⟩ := by
  have hdecode : Instruction.decode markedCode =
      .ok (locate 0 [Opcode.jumpDest, ⟨Opcode.push1, [0x5b]⟩, Opcode.jumpDest]) := by
    decide +kernel
  have hdistinct : (markedDestinations.map (·.old)).Nodup := by decide
  have hmap := fun x => table_computes_map hdecode hdistinct (by decide) (by decide) (by decide)
    (fun _ _ _ => .fault) x [9] ()
  obtain ⟨program, hprogram, hlisted, -⟩ := hmap 0x07
  obtain ⟨program', hprogram', -, hunlisted⟩ := hmap 0x100000007
  obtain rfl : program = program' := by simpa [hprogram] using hprogram'
  obtain ⟨pc, -, hinvalid, hends, -⟩ := hunlisted (by decide)
  exact ⟨program, hprogram, (hlisted ⟨0x07, 3⟩ (by decide) (by decide)).2, pc, hinvalid, hends⟩

end EvmSandbox.Machine
