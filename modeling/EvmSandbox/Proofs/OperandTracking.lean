/-
What the operands that are followed back from a copy tell about its runs. The
window of the copy is the longest run of pushes, copies and exchanges right
before it, cut to its last eight instructions. On every stack with as many
entries as the window needs, an operand that is followed back to a push is
the word of that push, and any other operand is an entry of the stack before
the window, at a depth that the window fixes (`operands_traced`).
-/
import EvmSandbox.Proofs.RuntimeDeployment
import Mathlib.Data.List.DropRight

namespace EvmSandbox

/-! ## The window of a copy -/

namespace RuntimeCopy

/-- The last instructions of the run of shuffles right before the instruction with index `k`. -/
theorem windowAt_eq (instructions : List Instruction) (k : Nat) :
    windowAt instructions k =
      ((instructions.zipIdx.take k).rtakeWhile fun i => isShuffle i.1.code).rtake windowLength := by
  rw [windowAt, window, before, ← List.take_takeWhile, List.rtakeWhile,
    List.rtake_eq_reverse_take_reverse, List.reverse_reverse]

end RuntimeCopy

/-! ## Operands -/

namespace Machine

open RuntimeCopy (Indexed isShuffle kind source depthNeeded shuffledAll windowAt operands)

variable {Env : Type}

/-- The shuffles that neither copy nor exchange are the pushes from `PUSH0` to `PUSH32`. -/
theorem isPush_of_kind {code : UInt8} (hshuffle : isShuffle code = true) (hkind : kind code = .push) :
    Opcode.push0 ≤ code ∧ code ≤ Opcode.push32 := by
  rcases isShuffle_cases hshuffle with hpush0 | hpush | hdup | hswap
  · rw [hpush0]
    decide
  · rw [UInt8.le_iff_toNat_le, UInt8.le_iff_toNat_le]
    obtain ⟨hlow, hhigh⟩ := Opcode.isPush_iff.1 hpush
    exact ⟨(show 0x5f ≤ 0x60 by decide).trans hlow, hhigh⟩
  · simp [kind, hdup] at hkind
  · simp only [kind, hswap, decide_true, Bool.and_self, if_true] at hkind
    split at hkind <;> cases hkind

/-- What the operand at depth `n` is after `shuffles`, on every stack that is long enough for them:
the word that the push with an index pushes, or the entry at some depth of the stack before them,
whatever is on that stack. -/
inductive Traced (meaning : Meaning Env) (shuffles : List Indexed) (n : Nat) : Option Nat → Prop where
  | push {p : Nat} {push : Instruction} (hmem : (push, p) ∈ shuffles)
    (hcode : Opcode.push0 ≤ push.code ∧ push.code ≤ Opcode.push32)
    (h : ∀ stack env, depthNeeded shuffles ≤ stack.length → ∃ after,
      performAll meaning (shuffles.map (·.1.toOperation)) stack env = .next after env ∧
      after[n]? = some (word push.toOperation)) :
    Traced meaning shuffles n (some p)
  | entry {depth : Nat} (h : ∀ stack env, depthNeeded shuffles ≤ stack.length → ∃ after,
      performAll meaning (shuffles.map (·.1.toOperation)) stack env = .next after env ∧
      after[n]? = stack[depth]?) :
    Traced meaning shuffles n none

variable {meaning : Meaning Env} (hmeaning : Shuffles meaning) {value : Nat → Word}
  {shuffles : List Indexed}
  (hshuffles : ∀ i ∈ shuffles, i.1.toOperation.WellFormed ∧ isShuffle i.1.code = true ∧
    value i.2 = word i.1.toOperation)
include hmeaning hshuffles

theorem performAll_of_depthNeeded_le {stack : List Word} (h : depthNeeded shuffles ≤ stack.length)
    (env : Env) : ∃ after,
      performAll meaning (shuffles.map (·.1.toOperation)) stack env = .next after env ∧
      ∀ n, after[n]? = (source shuffles n).elim (fun p => some (value p)) (stack[·]?) := by
  obtain ⟨after, hrun⟩ := Option.isSome_iff_exists.1
    ((@RuntimeCopy.isSome_shuffledAll_iff _ value _ _).2 h)
  refine ⟨after, ?_, RuntimeCopy.getElem?_shuffledAll hrun⟩
  rw [performAll_shuffles hmeaning hshuffles, hrun]
  rfl

theorem performAll_of_lt_depthNeeded {stack : List Word} (h : stack.length < depthNeeded shuffles)
    (env : Env) : performAll meaning (shuffles.map (·.1.toOperation)) stack env = .fault := by
  have hnone : shuffledAll value shuffles stack = none := by
    rw [← Option.not_isSome_iff_eq_none, RuntimeCopy.isSome_shuffledAll_iff]
    omega
  rw [performAll_shuffles hmeaning hshuffles, hnone]
  rfl

/-- The origin that is tracked for an operand tells what the operand is. -/
theorem traced_origin (n : Nat) :
    Traced meaning shuffles n ((shuffles.foldl RuntimeCopy.shuffle []).getD n none) := by
  rw [RuntimeCopy.getD_origins]
  cases hsource : source shuffles n with
  | push p =>
    obtain ⟨⟨push, _⟩, hmem, rfl, hkind⟩ := RuntimeCopy.exists_of_source hsource
    obtain ⟨-, hshuffle, hvalue⟩ := hshuffles _ hmem
    refine .push hmem (isPush_of_kind hshuffle hkind) fun stack env hdepth => ?_
    obtain ⟨after, hrun, hafter⟩ := performAll_of_depthNeeded_le hmeaning hshuffles hdepth env
    refine ⟨after, hrun, ?_⟩
    rw [hafter, hsource, ← hvalue]
    rfl
  | entry depth =>
    refine @Traced.entry _ _ _ _ depth fun stack env hdepth => ?_
    obtain ⟨after, hrun, hafter⟩ := performAll_of_depthNeeded_le hmeaning hshuffles hdepth env
    refine ⟨after, hrun, ?_⟩
    rw [hafter, hsource]
    rfl

omit hshuffles

/-- **The operands of a copy are followed back to where they come from.** Let `window` be the
longest run of shuffles right before the instruction with index `k`, cut to its last eight. Of each of
the three operands of a copy at `k` it is tracked which push in the window made it, and it is the word
of that push on every stack that is long enough for the window; if no push is tracked, it is an entry
of that stack, at a depth fixed by the window. On a shorter stack the window fails. -/
theorem operands_traced {code : Bytes} {instructions : List Instruction}
    (hdecode : Instruction.decode code = .ok instructions) {k : Nat} (hk : k < instructions.length)
    {window : List Indexed}
    (hwindow : window =
      ((instructions.zipIdx.take k).rtakeWhile fun i => isShuffle i.1.code).rtake 8) :
    (∀ stack env, stack.length < depthNeeded window →
      performAll meaning (window.map (·.1.toOperation)) stack env = .fault) ∧
    Traced meaning window 0 (operands (windowAt instructions k)).destination ∧
    Traced meaning window 1 (operands (windowAt instructions k)).offset ∧
    Traced meaning window 2 (operands (windowAt instructions k)).size := by
  obtain rfl : window = windowAt instructions k := hwindow.trans (RuntimeCopy.windowAt_eq _ _).symm
  have hwords := oldWord_of_mem_windowAt hdecode hk.le
  have htraced := traced_origin hmeaning hwords
  exact ⟨fun stack env hshort => performAll_of_lt_depthNeeded hmeaning hwords hshort env,
    htraced 0, htraced 1, htraced 2⟩

omit hmeaning

/-- A copy behind `PUSH1 11`, `DUP2` and `SWAP1`; the push in front of the `POP` is not in its window. -/
def trackedInstructions : List Instruction :=
  Instruction.locate 0 [⟨Opcode.push1, [7]⟩, Opcode.pop, ⟨Opcode.push1, [11]⟩, Opcode.dup2,
    Opcode.swap1, Opcode.codeCopy]

theorem operands_traced_trackedInstructions :
    ∃ window, window.length = 3 ∧
      operands (windowAt trackedInstructions 5) = ⟨some 2, none, none⟩ ∧
      Traced zeroMeaning window 0 (some 2) ∧ Traced zeroMeaning window 1 none ∧
      Traced zeroMeaning window 2 none := by
  have hdecode : Instruction.decode [0x60, 7, 0x50, 0x60, 11, 0x81, 0x90, 0x39] =
      .ok trackedInstructions := by decide +kernel
  have hoperands : operands (windowAt trackedInstructions 5) = ⟨some 2, none, none⟩ := by decide
  obtain ⟨-, htraced⟩ := operands_traced shuffles_zeroMeaning hdecode (k := 5) (by decide) rfl
  rw [hoperands] at htraced
  exact ⟨_, by decide, hoperands, htraced⟩

end Machine

end EvmSandbox
