/-
A machine that runs decoded code, with an unbounded stack of words and an
environment of which nothing is known. Jumps go to `JUMPDEST` instructions
only; the machine stops when it runs off the end of the code. The operations
that a layout emits of its own accord have their usual meaning; of all
others the machine is told the meaning, as a function of the operation, the
stack and the environment that sees neither the code nor the position in it.

A run of operations without jumps does in the machine what its operations do
one after the other (`leads_of_straight`).
-/
import EvmSandbox.Proofs.Decoding
import Mathlib.Logic.Relation

namespace EvmSandbox.Machine

open Operation (At encodeAll)
open Instruction (locate)

abbrev Word := BitVec 256

/-- What an operation does that does not jump. -/
inductive Effect (Env : Type) where
  | next (stack : List Word) (env : Env)
  | stop (stack : List Word) (env : Env)
  | fault

structure State (Env : Type) where
  /-- The offset of the next instruction. -/
  pc : Nat
  stack : List Word
  env : Env
  deriving DecidableEq

/-- What the machine does in a state: it goes on, stops, or halts exceptionally. -/
inductive Transition (Env : Type) where
  | move (state : State Env)
  | stop (stack : List Word) (env : Env)
  | fault (env : Env)
  deriving DecidableEq

/-- What operations do. -/
abbrev Meaning (Env : Type) := Operation → List Word → Env → Effect Env

section Definitions

variable {Env : Type} (meaning : Meaning Env) (program : List Instruction)

/-- What `op` does, unless it is a jump. -/
def perform (op : Operation) (stack : List Word) (env : Env) : Effect Env :=
  if Opcode.isPush op.code then .next (BitVec.ofNat 256 (Bytes.toNat op.immediate) :: stack) env
  else if op.code = Opcode.jumpDest then .next stack env
  else if op.code = Opcode.invalid then .fault
  else if op.code = Opcode.pop then
    match stack with
    | _ :: rest => .next rest env
    | [] => .fault
  else if op.code = Opcode.dup1 then
    match stack with
    | x :: rest => .next (x :: x :: rest) env
    | [] => .fault
  else if op.code = Opcode.swap1 then
    match stack with
    | x :: y :: rest => .next (y :: x :: rest) env
    | _ => .fault
  else if op.code = Opcode.sub then
    match stack with
    | x :: y :: rest => .next ((x - y) :: rest) env
    | _ => .fault
  else meaning op stack env

def Effect.bind : Effect Env → (List Word → Env → Effect Env) → Effect Env
  | .next stack env, rest => rest stack env
  | .stop stack env, _ => .stop stack env
  | .fault, _ => .fault

/-- What operations that do not jump do one after the other. -/
def performAll : List Operation → List Word → Env → Effect Env
  | [], stack, env => .next stack env
  | op :: ops, stack, env => (perform meaning op stack env).bind (performAll ops)

/-- The operation at offset `pc`. -/
def fetch (pc : Nat) : Option Operation :=
  (program.find? (·.offset == pc)).map (·.toOperation)

def isDestination (pc : Nat) : Bool :=
  (fetch program pc).any (·.code == Opcode.jumpDest)

def jumpTo (target : Word) (stack : List Word) (env : Env) : Transition Env :=
  if isDestination program target.toNat then .move ⟨target.toNat, stack, env⟩ else .fault env

/-- The effect of an operation in the environment `env`, after which the machine goes on at
`pc`. -/
def Effect.advance (pc : Nat) (env : Env) : Effect Env → Transition Env
  | .next stack env' => .move ⟨pc, stack, env'⟩
  | .stop stack env' => .stop stack env'
  | .fault => .fault env

/-- What the machine does in the state `s` with the operation `op`. -/
def execute (op : Operation) (s : State Env) : Transition Env :=
  if op.code = Opcode.jump then
    match s.stack with
    | target :: rest => jumpTo program target rest s.env
    | [] => .fault s.env
  else if op.code = Opcode.jumpI then
    match s.stack with
    | target :: condition :: rest =>
      if condition = 0 then .move ⟨s.pc + op.size, rest, s.env⟩
      else jumpTo program target rest s.env
    | _ => .fault s.env
  else (perform meaning op s.stack s.env).advance (s.pc + op.size) s.env

/-- What the machine does in the state `s`. Behind the last instruction it stops. -/
def step (s : State Env) : Transition Env :=
  match fetch program s.pc with
  | none => .stop s.stack s.env
  | some op => execute meaning program op s

def Moves (s t : State Env) : Prop :=
  step meaning program s = .move t

/-- `t` comes after `s` in a run of the machine, or is `s`. -/
def Reaches : State Env → State Env → Prop :=
  Relation.ReflTransGen (Moves meaning program)

/-- From `s` the machine comes to do what `transition` says, after one or more steps if it is to
reach a state. -/
def Leads (s : State Env) : Transition Env → Prop
  | .move t => Relation.TransGen (Moves meaning program) s t
  | .stop stack env => ∃ t, Reaches meaning program s t ∧ step meaning program t = .stop stack env
  | .fault env => ∃ t, Reaches meaning program s t ∧ step meaning program t = .fault env

/-- The state in which the machine halts, or the one after `count` steps. -/
def advance : Nat → State Env → State Env
  | 0, s => s
  | count + 1, s =>
    match step meaning program s with
    | .move t => advance count t
    | _ => s

end Definitions

section Lemmas

variable {Env : Type} {meaning : Meaning Env} {program : List Instruction} {ops : List Operation}

/-! ## Operations with their usual meaning -/

theorem perform_of_isPush {op : Operation} (h : Opcode.isPush op.code = true) (stack : List Word)
    (env : Env) : perform meaning op stack env =
      .next (BitVec.ofNat 256 (Bytes.toNat op.immediate) :: stack) env :=
  if_pos h

theorem perform_push {width value : Nat} (hpos : 0 < width) (hle : width ≤ 32)
    (hvalue : value < 256 ^ width) (stack : List Word) (env : Env) :
    perform meaning (.push width value) stack env = .next (BitVec.ofNat 256 value :: stack) env := by
  have hpush : Opcode.isPush (Operation.push width value).code = true :=
    (Opcode.push_spec hpos hle).2.1
  rw [perform_of_isPush hpush, Operation.push, Bytes.toNat_ofNat hvalue]

@[simp] theorem perform_jumpDest (stack : List Word) (env : Env) :
    perform meaning ⟨Opcode.jumpDest, []⟩ stack env = .next stack env := rfl

@[simp] theorem perform_pop (x : Word) (stack : List Word) (env : Env) :
    perform meaning ⟨Opcode.pop, []⟩ (x :: stack) env = .next stack env := rfl

@[simp] theorem perform_dup1 (x : Word) (stack : List Word) (env : Env) :
    perform meaning ⟨Opcode.dup1, []⟩ (x :: stack) env = .next (x :: x :: stack) env := rfl

@[simp] theorem perform_swap1 (x y : Word) (stack : List Word) (env : Env) :
    perform meaning ⟨Opcode.swap1, []⟩ (x :: y :: stack) env = .next (y :: x :: stack) env := rfl

@[simp] theorem perform_sub (x y : Word) (stack : List Word) (env : Env) :
    perform meaning ⟨Opcode.sub, []⟩ (x :: y :: stack) env = .next ((x - y) :: stack) env := rfl

/-- The machine is told what any other operation does. -/
theorem perform_eq_meaning {op : Operation} (hpush : Opcode.isPush op.code = false)
    (h : op.code ∉ [Opcode.jumpDest, Opcode.invalid, Opcode.pop, Opcode.dup1, Opcode.swap1, Opcode.sub])
    (stack : List Word) (env : Env) : perform meaning op stack env = meaning op stack env := by
  simp only [List.mem_cons, List.not_mem_nil, or_false, not_or] at h
  simp only [perform, hpush, h, Bool.false_eq_true, if_false]

@[simp] theorem performAll_nil (stack : List Word) (env : Env) :
    performAll meaning [] stack env = .next stack env := rfl

@[simp] theorem performAll_cons (op : Operation) (rest : List Operation) (stack : List Word)
    (env : Env) :
    performAll meaning (op :: rest) stack env =
      (perform meaning op stack env).bind (performAll meaning rest) := rfl

@[simp] theorem bind_next (stack : List Word) (env : Env) (rest : List Word → Env → Effect Env) :
    (Effect.next stack env).bind rest = rest stack env := rfl

/-! ## Fetching -/

theorem fetch_locate_eq_some_iff {pc : Nat} {op : Operation} :
    fetch (locate 0 ops) pc = some op ↔ At ops pc [op] := by
  rw [fetch, Option.map_eq_some_iff]
  constructor
  · rintro ⟨i, hfind, rfl⟩
    have hoffset : i.offset = pc := by simpa using List.find?_some hfind
    rw [← hoffset]
    exact Instruction.mem_locate_iff.1 (List.mem_of_find?_eq_some hfind)
  · intro h
    cases hfind : (locate 0 ops).find? (·.offset == pc) with
    | none =>
      have hmem : (⟨op, pc⟩ : Instruction) ∈ locate 0 ops := Instruction.mem_locate_iff.2 h
      simpa using (List.find?_eq_none.1 hfind) _ hmem
    | some i =>
      have hoffset : i.offset = pc := by simpa using List.find?_some hfind
      have hi := Instruction.mem_locate_iff.1 (List.mem_of_find?_eq_some hfind)
      rw [hoffset] at hi
      exact ⟨i, rfl, hi.unique h⟩

/-- Nothing stands behind the last operation. -/
theorem fetch_locate_end : fetch (locate 0 ops) (encodeAll ops).length = none := by
  cases h : fetch (locate 0 ops) (encodeAll ops).length with
  | none => rfl
  | some op =>
    obtain ⟨before, after, heq, hlen⟩ := fetch_locate_eq_some_iff.1 h
    have hpos := op.size_pos
    have hlength := congrArg (fun ops => (encodeAll ops).length) heq
    simp only [Operation.encodeAll_append, Operation.encodeAll_cons, Operation.encodeAll_nil,
      List.length_append, Operation.length_encode, List.length_nil] at hlength
    omega

theorem isDestination_iff {pc : Nat} :
    isDestination (locate 0 ops) pc = true ↔ ∃ op, At ops pc [op] ∧ op.code = Opcode.jumpDest := by
  simp only [isDestination, Option.any_eq_true, fetch_locate_eq_some_iff, beq_iff_eq]

theorem step_of_at {op : Operation} {s : State Env} (h : At ops s.pc [op]) :
    step meaning (locate 0 ops) s = execute meaning (locate 0 ops) op s := by
  rw [step, fetch_locate_eq_some_iff.2 h]

/-! ## Steps -/

theorem execute_jump (target : Word) (stack : List Word) (env : Env) (pc : Nat) :
    execute meaning program ⟨Opcode.jump, []⟩ ⟨pc, target :: stack, env⟩ =
      jumpTo program target stack env := rfl

theorem execute_jumpI (target condition : Word) (stack : List Word) (env : Env) (pc : Nat) :
    execute meaning program ⟨Opcode.jumpI, []⟩ ⟨pc, target :: condition :: stack, env⟩ =
      if condition = 0 then .move ⟨pc + 1, stack, env⟩ else jumpTo program target stack env := rfl

theorem execute_of_not_jump {op : Operation} (h : Opcode.isJump op.code = false) (s : State Env) :
    execute meaning program op s =
      (perform meaning op s.stack s.env).advance (s.pc + op.size) s.env := by
  simp only [Opcode.isJump, Bool.or_eq_false_iff, beq_eq_false_iff_ne] at h
  rw [execute, if_neg h.1, if_neg h.2]

theorem jumpTo_of_isDestination {target : Word} (h : isDestination program target.toNat = true)
    (stack : List Word) (env : Env) :
    jumpTo program target stack env = .move ⟨target.toNat, stack, env⟩ :=
  if_pos h

theorem jumpTo_of_not_isDestination {target : Word}
    (h : isDestination program target.toNat = false) (stack : List Word) (env : Env) :
    jumpTo program target stack env = .fault env := by
  rw [jumpTo, h]
  rfl

/-! ## Runs -/

theorem leads_step {s : State Env} {transition : Transition Env}
    (h : step meaning program s = transition) : Leads meaning program s transition := by
  subst h
  cases h : step meaning program s with
  | move t => exact .single h
  | stop stack env => exact ⟨s, .refl, h⟩
  | fault env => exact ⟨s, .refl, h⟩

theorem leads_execute {op : Operation} {s : State Env} {transition : Transition Env}
    (hat : At ops s.pc [op]) (h : execute meaning (locate 0 ops) op s = transition) :
    Leads meaning (locate 0 ops) s transition :=
  leads_step ((step_of_at hat).trans h)

theorem Leads.of_reaches {s t : State Env} {transition : Transition Env}
    (hst : Reaches meaning program s t) (h : Leads meaning program t transition) :
    Leads meaning program s transition := by
  cases transition with
  | move u => exact Relation.TransGen.trans_right hst h
  | stop stack env =>
    obtain ⟨u, hu, hstep⟩ := h
    exact ⟨u, Relation.ReflTransGen.trans hst hu, hstep⟩
  | fault env =>
    obtain ⟨u, hu, hstep⟩ := h
    exact ⟨u, Relation.ReflTransGen.trans hst hu, hstep⟩

theorem Leads.reaches {s t : State Env} (h : Leads meaning program s (.move t)) :
    Reaches meaning program s t :=
  Relation.TransGen.to_reflTransGen h

theorem reaches_advance (count : Nat) (s : State Env) :
    Reaches meaning program s (advance meaning program count s) := by
  induction count generalizing s with
  | zero => exact .refl
  | succ count ih =>
    rw [advance]
    split
    · rename_i t hstep
      exact .head hstep (ih t)
    · exact .refl

/-- The machine is deterministic, so there is at most one state in which a run ends. -/
theorem eq_of_reaches {s t u : State Env} (ht : Reaches meaning program s t)
    (hu : Reaches meaning program s u) (hendT : ∀ v, ¬ Moves meaning program t v)
    (hendU : ∀ v, ¬ Moves meaning program u v) : t = u := by
  have hunique : Relator.RightUnique (Moves meaning program) := fun a b c hab hac => by
    have := hab.symm.trans hac
    cases this
    rfl
  rcases Relation.ReflTransGen.total_of_right_unique hunique ht hu with htu | hut
  · rcases htu.cases_head with heq | ⟨v, hmove, -⟩
    · exact heq
    · exact absurd hmove (hendT v)
  · rcases hut.cases_head with heq | ⟨v, hmove, -⟩
    · exact heq.symm
    · exact absurd hmove (hendU v)

/-- A run that halts exceptionally does not stop as well. -/
theorem not_stops_of_fault {s t u : State Env} {env env' : Env} {stack : List Word}
    (ht : Reaches meaning program s t) (hfault : step meaning program t = .fault env)
    (hu : Reaches meaning program s u) : step meaning program u ≠ .stop stack env' := by
  intro hstop
  have heq := eq_of_reaches ht hu (by simp [Moves, hfault]) (by simp [Moves, hstop])
  rw [heq, hstop] at hfault
  cases hfault

theorem moves_jump {pc offset : Nat} {target : Word} (hat : At ops pc [⟨Opcode.jump, []⟩])
    (htarget : target.toNat = offset) (hdestination : isDestination (locate 0 ops) offset = true)
    (stack : List Word) (env : Env) :
    Moves meaning (locate 0 ops) ⟨pc, target :: stack, env⟩ ⟨offset, stack, env⟩ := by
  subst htarget
  exact (step_of_at hat).trans (by rw [execute_jump, jumpTo_of_isDestination hdestination])

theorem moves_jumpI_taken {pc offset : Nat} {target condition : Word}
    (hat : At ops pc [⟨Opcode.jumpI, []⟩]) (hcondition : condition ≠ 0)
    (htarget : target.toNat = offset) (hdestination : isDestination (locate 0 ops) offset = true)
    (stack : List Word) (env : Env) :
    Moves meaning (locate 0 ops) ⟨pc, target :: condition :: stack, env⟩ ⟨offset, stack, env⟩ := by
  subst htarget
  refine (step_of_at hat).trans ?_
  rw [execute_jumpI, if_neg hcondition, jumpTo_of_isDestination hdestination]

theorem moves_jumpI_fallen {pc : Nat} {condition : Word} (hat : At ops pc [⟨Opcode.jumpI, []⟩])
    (hcondition : condition = 0) (target : Word) (stack : List Word) (env : Env) :
    Moves meaning (locate 0 ops) ⟨pc, target :: condition :: stack, env⟩ ⟨pc + 1, stack, env⟩ :=
  (step_of_at hat).trans (by rw [execute_jumpI, if_pos hcondition])

theorem moves_of_perform {op : Operation} {pc : Nat} (hat : At ops pc [op])
    (hstraight : Opcode.isJump op.code = false) {stack stack' : List Word} {env env' : Env}
    (h : perform meaning op stack env = .next stack' env') :
    Moves meaning (locate 0 ops) ⟨pc, stack, env⟩ ⟨pc + op.size, stack', env'⟩ :=
  (step_of_at hat).trans (by rw [execute_of_not_jump hstraight, h]; rfl)

theorem leads_jump {pc offset : Nat} {target : Word} (hat : At ops pc [⟨Opcode.jump, []⟩])
    (htarget : target.toNat = offset) (hdestination : isDestination (locate 0 ops) offset = true)
    (stack : List Word) (env : Env) :
    Leads meaning (locate 0 ops) ⟨pc, target :: stack, env⟩ (.move ⟨offset, stack, env⟩) :=
  leads_step (moves_jump hat htarget hdestination stack env)

theorem leads_jumpI_taken {pc offset : Nat} {target condition : Word}
    (hat : At ops pc [⟨Opcode.jumpI, []⟩]) (hcondition : condition ≠ 0)
    (htarget : target.toNat = offset) (hdestination : isDestination (locate 0 ops) offset = true)
    (stack : List Word) (env : Env) :
    Leads meaning (locate 0 ops) ⟨pc, target :: condition :: stack, env⟩
      (.move ⟨offset, stack, env⟩) :=
  leads_step (moves_jumpI_taken hat hcondition htarget hdestination stack env)

theorem leads_jumpI_fallen {pc : Nat} {condition : Word} (hat : At ops pc [⟨Opcode.jumpI, []⟩])
    (hcondition : condition = 0) (target : Word) (stack : List Word) (env : Env) :
    Leads meaning (locate 0 ops) ⟨pc, target :: condition :: stack, env⟩
      (.move ⟨pc + 1, stack, env⟩) :=
  leads_step (moves_jumpI_fallen hat hcondition target stack env)

/-- A run of operations without jumps goes through to its end, or to where one of them stops or
fails. -/
theorem leads_of_straight {pc : Nat} {block : List Operation} (hat : At ops pc block)
    (hne : block ≠ []) (hstraight : (block.any fun op => Opcode.isJump op.code) = false)
    (stack : List Word) (env : Env) :
    ∃ env', Leads meaning (locate 0 ops) ⟨pc, stack, env⟩
      ((performAll meaning block stack env).advance (pc + (encodeAll block).length) env') := by
  induction block generalizing pc stack env with
  | nil => exact absurd rfl hne
  | cons op rest ih =>
    rw [List.any_cons, Bool.or_eq_false_iff] at hstraight
    have hfirst : step meaning (locate 0 ops) ⟨pc, stack, env⟩ =
        (perform meaning op stack env).advance (pc + op.size) env := by
      rw [step_of_at (s := ⟨pc, stack, env⟩) hat.head,
        execute_of_not_jump hstraight.1]
    have hleads := leads_step hfirst
    rw [performAll_cons]
    cases heffect : perform meaning op stack env with
    | stop stack' env' => exact ⟨env, by rw [heffect] at hleads; exact hleads⟩
    | fault => exact ⟨env, by rw [heffect] at hleads; exact hleads⟩
    | next stack' env' =>
      rw [heffect] at hleads
      rw [bind_next]
      cases rest with
      | nil => exact ⟨env, by simpa [Effect.advance] using hleads⟩
      | cons op' rest =>
        obtain ⟨env'', hrest⟩ := ih hat.tail (by simp) hstraight.2 stack' env'
        refine ⟨env'', .of_reaches hleads.reaches ?_⟩
        rw [Operation.encodeAll_cons, List.length_append, Operation.length_encode, ← Nat.add_assoc]
        exact hrest

/-- The case of `leads_of_straight` in which nothing stops or fails. -/
theorem reaches_of_straight {pc : Nat} {block : List Operation} (hat : At ops pc block)
    (hne : block ≠ []) (hstraight : (block.any fun op => Opcode.isJump op.code) = false)
    {stack stack' : List Word} {env env' : Env}
    (h : performAll meaning block stack env = .next stack' env') :
    Reaches meaning (locate 0 ops) ⟨pc, stack, env⟩ ⟨pc + (encodeAll block).length, stack', env'⟩ := by
  obtain ⟨_, hleads⟩ := leads_of_straight hat hne hstraight stack env
  rw [h] at hleads
  exact hleads.reaches

end Lemmas

end EvmSandbox.Machine
