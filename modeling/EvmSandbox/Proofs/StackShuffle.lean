/-
Pushes, copies and exchanges on the stack. Such shuffles move entries and look
at none of them, so where an entry comes from can be followed back through
them without knowing the stack (`source`): to a push, or to an entry of the
stack before them. Every run finds its entries there (`getElem?_shuffledAll`),
and so does the run on the origins alone (`getD_foldl_shuffle`). Whether a run
goes through depends on the length of the stack only
(`isSome_shuffledAll_iff`).
-/
import EvmSandbox.RuntimeCopy
import EvmSandbox.Proofs.Machine

namespace EvmSandbox.RuntimeCopy

variable {α : Type}

/-! ## Shuffles on stacks of any kind -/

/-- The stack with a copy of the entry at `depth` on top. -/
def copied (depth : Nat) (stack : List α) : Option (List α) :=
  stack[depth]?.map (· :: stack)

/-- The stack with its top and the entry at `depth` exchanged. -/
def exchanged (depth : Nat) (stack : List α) : Option (List α) :=
  match stack, stack[depth]? with
  | x :: rest, some y => some (y :: rest.set (depth - 1) x)
  | _, _ => none

/-- The stack after a shuffle, which pushes `value` unless it copies or exchanges entries. There is
none if the stack is too short. -/
def shuffled (code : UInt8) (value : α) (stack : List α) : Option (List α) :=
  if Opcode.dup1 ≤ code && code ≤ Opcode.dup16 then copied (code.toNat - 0x80) stack
  else if Opcode.swap1 ≤ code && code ≤ Opcode.swap16 then exchanged (code.toNat - 0x8f) stack
  else some (value :: stack)

/-- The stack after shuffles one after the other; the push with index `i` pushes `value i`. -/
def shuffledAll (value : Nat → α) : List Indexed → List α → Option (List α)
  | [], stack => some stack
  | i :: rest, stack => (shuffled i.1.code (value i.2) stack).bind (shuffledAll value rest)

/-! ## Three kinds of shuffles -/

inductive Kind where
  /-- Puts a copy of the entry at `depth` on top. -/
  | copy (depth : Nat)
  /-- Exchanges the top with the entry at `depth + 1`. -/
  | exchange (depth : Nat)
  | push

def kind (code : UInt8) : Kind :=
  if Opcode.dup1 ≤ code && code ≤ Opcode.dup16 then .copy (code.toNat - 0x80)
  else if Opcode.swap1 ≤ code && code ≤ Opcode.swap16 then .exchange (code.toNat - 0x90)
  else .push

theorem shuffled_eq (code : UInt8) (value : α) (stack : List α) :
    shuffled code value stack =
      match kind code with
      | .copy depth => copied depth stack
      | .exchange depth => exchanged (depth + 1) stack
      | .push => some (value :: stack) := by
  rw [shuffled, kind]
  split
  · rfl
  · split
    · rename_i hswap
      simp only [Bool.and_eq_true, decide_eq_true_eq, UInt8.le_iff_toNat_le] at hswap
      have hle : 0x90 ≤ code.toNat := hswap.1
      rw [show code.toNat - 0x8f = code.toNat - 0x90 + 1 by omega]
    · rfl

theorem shuffle_eq (tracked : Origins) (i : Indexed) :
    shuffle tracked i =
      match kind i.1.code with
      | .copy depth => (pad (depth + 1) tracked).getD depth none :: pad (depth + 1) tracked
      | .exchange depth =>
        ((pad (depth + 2) tracked).set 0 ((pad (depth + 2) tracked).getD (depth + 1) none)).set
          (depth + 1) ((pad (depth + 2) tracked).getD 0 none)
      | .push => some i.2 :: tracked := by
  simp only [shuffle, kind]
  split
  · rename_i hdup
    simp only [Bool.and_eq_true, decide_eq_true_eq, UInt8.le_iff_toNat_le] at hdup
    have hle : 0x80 ≤ i.1.code.toNat := hdup.1
    rw [show i.1.code.toNat - 0x7f = i.1.code.toNat - 0x80 + 1 by omega]
  · split
    · rename_i hswap
      simp only [Bool.and_eq_true, decide_eq_true_eq, UInt8.le_iff_toNat_le] at hswap
      have hle : 0x90 ≤ i.1.code.toNat := hswap.1
      rw [show i.1.code.toNat - 0x8f = i.1.code.toNat - 0x90 + 1 by omega]
    · rfl

theorem kind_of_isPush {code : UInt8} (h : Opcode.isPush code = true) : kind code = .push := by
  have hrange := (Opcode.isPush_iff.1 h).2
  have hdup : ¬ (Opcode.dup1 ≤ code && code ≤ Opcode.dup16) = true := by
    simp only [Bool.and_eq_true, decide_eq_true_eq, UInt8.le_iff_toNat_le]
    exact fun hle => absurd (hle.1.trans hrange) (by decide)
  have hswap : ¬ (Opcode.swap1 ≤ code && code ≤ Opcode.swap16) = true := by
    simp only [Bool.and_eq_true, decide_eq_true_eq, UInt8.le_iff_toNat_le]
    exact fun hle => absurd (hle.1.trans hrange) (by decide)
  rw [kind, if_neg hdup, if_neg hswap]

theorem shuffled_of_isPush {code : UInt8} (h : Opcode.isPush code = true) (value : α)
    (stack : List α) : shuffled code value stack = some (value :: stack) := by
  rw [shuffled_eq, kind_of_isPush h]

/-! ## How many entries shuffles need -/

/-- The number of entries that a shuffle needs on the stack. -/
def Kind.needs : Kind → Nat
  | .copy depth => depth + 1
  | .exchange depth => depth + 2
  | .push => 0

/-- The number of entries by which a shuffle makes the stack longer. -/
def Kind.adds : Kind → Nat
  | .copy _ | .push => 1
  | .exchange _ => 0

/-- The number of entries that shuffles one after the other need on the stack. -/
def depthNeeded : List Indexed → Nat
  | [] => 0
  | i :: rest => max (kind i.1.code).needs (depthNeeded rest - (kind i.1.code).adds)

theorem isSome_shuffled_iff {code : UInt8} {value : α} {stack : List α} :
    (shuffled code value stack).isSome = true ↔ (kind code).needs ≤ stack.length := by
  rw [shuffled_eq]
  cases kind code with
  | copy depth => simp [copied, Kind.needs]
  | exchange depth =>
    cases stack with
    | nil => simp [exchanged, Kind.needs]
    | cons x rest =>
      cases hy : (x :: rest)[depth + 1]? with
      | none =>
        have hle := List.getElem?_eq_none_iff.1 hy
        simp only [exchanged, hy, Kind.needs]
        simpa using hle
      | some y =>
        have hlt := (List.getElem?_eq_some_iff.1 hy).1
        simp only [exchanged, hy, Kind.needs]
        simpa using hlt
  | push => simp [Kind.needs]

theorem length_shuffled {code : UInt8} {value : α} {stack stack' : List α}
    (h : shuffled code value stack = some stack') :
    stack'.length = stack.length + (kind code).adds := by
  rw [shuffled_eq] at h
  cases hkind : kind code with
  | copy depth =>
    rw [hkind] at h
    obtain ⟨x, -, rfl⟩ := Option.map_eq_some_iff.1 h
    rfl
  | exchange depth =>
    simp only [hkind, exchanged] at h
    split at h
    · cases h
      simp [Kind.adds]
    · cases h
  | push =>
    rw [hkind] at h
    cases h
    rfl

/-- Shuffles go through on every stack that is long enough, and on no other. -/
theorem isSome_shuffledAll_iff {value : Nat → α} {shuffles : List Indexed} {stack : List α} :
    (shuffledAll value shuffles stack).isSome = true ↔ depthNeeded shuffles ≤ stack.length := by
  induction shuffles generalizing stack with
  | nil => simp [shuffledAll, depthNeeded]
  | cons i rest ih =>
    rw [shuffledAll, depthNeeded, max_le_iff]
    cases hfirst : shuffled i.1.code (value i.2) stack with
    | none =>
      have hshort : ¬ (kind i.1.code).needs ≤ stack.length := by
        rw [← @isSome_shuffled_iff _ _ (value i.2), hfirst]
        simp
      simp [hshort]
    | some next =>
      have hlong := isSome_shuffled_iff.1 (Option.isSome_iff_exists.2 ⟨_, hfirst⟩)
      rw [Option.bind_some, ih, length_shuffled hfirst]
      omega

/-! ## Where entries come from -/

/-- Where an entry comes from: the push with an index, or the entry at a depth of the stack
before. -/
inductive Source where
  | push (index : Nat)
  | entry (depth : Nat)

def Source.elim {γ : Type} (onPush onEntry : Nat → γ) : Source → γ
  | .push index => onPush index
  | .entry depth => onEntry depth

/-- Where the entry at a depth comes from after the shuffle with index `index`. -/
def Kind.source (index : Nat) : Kind → Nat → Source
  | .copy depth, 0 => .entry depth
  | .push, 0 => .push index
  | .copy _, n + 1 | .push, n + 1 => .entry n
  | .exchange depth, n => .entry (if n = 0 then depth + 1 else if n = depth + 1 then 0 else n)

/-- Where the entry at a depth comes from after shuffles one after the other. -/
def source : List Indexed → Nat → Source
  | [], n => .entry n
  | i :: rest, n => (source rest n).elim .push ((kind i.1.code).source i.2)

theorem getElem?_shuffled {i : Indexed} {value : Nat → α} {stack stack' : List α}
    (h : shuffled i.1.code (value i.2) stack = some stack') (n : Nat) :
    stack'[n]? = ((kind i.1.code).source i.2 n).elim (fun p => some (value p)) (stack[·]?) := by
  rw [shuffled_eq] at h
  cases hkind : kind i.1.code with
  | copy depth =>
    rw [hkind] at h
    obtain ⟨x, hx, rfl⟩ := Option.map_eq_some_iff.1 h
    cases n with
    | zero => exact hx.symm
    | succ n => rfl
  | exchange depth =>
    simp only [hkind, exchanged] at h
    split at h
    · rename_i x rest y hy
      cases h
      have hlt : depth < rest.length := by simpa using (List.getElem?_eq_some_iff.1 hy).1
      cases n with
      | zero => exact hy.symm
      | succ n =>
        simp only [Kind.source, Source.elim, Nat.add_sub_cancel, List.getElem?_cons_succ,
          List.getElem?_set, Nat.add_right_cancel_iff, Nat.succ_ne_zero, if_false]
        by_cases hn : n = depth
        · simp [hn, hlt]
        · simp [hn, Ne.symm hn]
    · cases h
  | push =>
    rw [hkind] at h
    cases h
    cases n <;> rfl

/-- Every run finds an entry where `source` follows it back to. -/
theorem getElem?_shuffledAll {value : Nat → α} {shuffles : List Indexed} {stack stack' : List α}
    (h : shuffledAll value shuffles stack = some stack') (n : Nat) :
    stack'[n]? = (source shuffles n).elim (fun p => some (value p)) (stack[·]?) := by
  induction shuffles generalizing stack with
  | nil =>
    cases h
    rfl
  | cons i rest ih =>
    obtain ⟨next, hnext, hrest⟩ := Option.bind_eq_some_iff.1 h
    rw [ih hrest, source]
    cases source rest n with
    | push p => rfl
    | entry d => exact getElem?_shuffled hnext d

theorem getD_pad (depth : Nat) (stack : Origins) (j : Nat) :
    (pad depth stack).getD j none = stack.getD j none := by
  simp only [pad, List.getD_eq_getElem?_getD, List.getElem?_append, List.getElem?_replicate]
  split
  · rfl
  · rename_i hlt
    rw [List.getElem?_eq_none (Nat.not_lt.1 hlt)]
    split <;> rfl

theorem lt_length_pad (depth : Nat) (stack : Origins) : depth < (pad (depth + 1) stack).length := by
  simp only [pad, List.length_append, List.length_replicate]
  omega

theorem getD_set (stack : Origins) {depth : Nat} (h : depth < stack.length) (origin : Option Nat)
    (j : Nat) : (stack.set depth origin).getD j none = if depth = j then origin else stack.getD j none := by
  simp only [List.getD_eq_getElem?_getD, List.getElem?_set]
  split
  · rfl
  · rfl

theorem getD_shuffle (tracked : Origins) (i : Indexed) (n : Nat) :
    (shuffle tracked i).getD n none =
      ((kind i.1.code).source i.2 n).elim some (tracked.getD · none) := by
  rw [shuffle_eq]
  cases kind i.1.code with
  | copy depth =>
    cases n with
    | zero => exact getD_pad _ _ _
    | succ n => exact getD_pad _ _ _
  | exchange depth =>
    have hlength : depth + 1 < (pad (depth + 2) tracked).length := lt_length_pad (depth + 1) tracked
    simp only [Kind.source, Source.elim]
    rw [getD_set _ (by rwa [List.length_set]), getD_set _ (Nat.zero_lt_of_lt hlength)]
    simp only [getD_pad]
    by_cases hdepth : n = depth + 1
    · simp [hdepth]
    · by_cases hzero : n = 0
      · simp [hzero]
      · simp [hdepth, hzero, Ne.symm hdepth, Ne.symm hzero]
  | push => cases n <;> rfl

theorem getD_foldl_shuffle (tracked : Origins) (shuffles : List Indexed) (n : Nat) :
    (shuffles.foldl shuffle tracked).getD n none =
      (source shuffles n).elim some (tracked.getD · none) := by
  induction shuffles generalizing tracked with
  | nil => rfl
  | cons i rest ih =>
    rw [List.foldl_cons, ih, source]
    cases source rest n with
    | push p => rfl
    | entry d => exact getD_shuffle tracked i d

/-- The origin that is tracked is the push that `source` follows back to, if it does to any. -/
theorem getD_origins (shuffles : List Indexed) (n : Nat) :
    (shuffles.foldl shuffle []).getD n none = (source shuffles n).elim some fun _ => none := by
  rw [getD_foldl_shuffle]
  rfl

theorem source_of_origin {shuffles : List Indexed} {j k : Nat}
    (h : (shuffles.foldl shuffle []).getD j none = some k) : source shuffles j = .push k := by
  rw [getD_origins] at h
  cases hsource : source shuffles j with
  | push p =>
    rw [hsource] at h
    cases h
    rfl
  | entry d => simp [hsource, Source.elim] at h

/-- Whether shuffles find their entries does not depend on what is pushed, and an entry that is
followed back to a push is what that push pushed. -/
theorem shuffledAll_origin {value : Nat → α} {shuffles : List Indexed} {stack stack' : List α}
    (h : shuffledAll value shuffles stack = some stack') (other : Nat → α) :
    ∃ stack'', shuffledAll other shuffles stack = some stack'' ∧
      ∀ j i, (shuffles.foldl shuffle []).getD j none = some i → stack''[j]? = some (other i) := by
  have hdepth := isSome_shuffledAll_iff.1 (Option.isSome_iff_exists.2 ⟨_, h⟩)
  obtain ⟨stack'', hrun⟩ := Option.isSome_iff_exists.1
    ((@isSome_shuffledAll_iff _ other _ _).2 hdepth)
  refine ⟨stack'', hrun, fun j i hi => ?_⟩
  rw [getElem?_shuffledAll hrun, source_of_origin hi]
  rfl

/-- An entry is followed back to one of the shuffles, which pushes. -/
theorem exists_of_source {shuffles : List Indexed} {n p : Nat} (h : source shuffles n = .push p) :
    ∃ i ∈ shuffles, i.2 = p ∧ kind i.1.code = .push := by
  induction shuffles generalizing n with
  | nil => cases h
  | cons i rest ih =>
    rw [source] at h
    cases hrest : source rest n with
    | push p' =>
      rw [hrest] at h
      cases h
      obtain ⟨other, hother, heq⟩ := ih hrest
      exact ⟨other, by simp [hother], heq⟩
    | entry d =>
      rw [hrest] at h
      refine ⟨i, by simp, ?_⟩
      cases hkind : kind i.1.code <;> cases d <;> simp_all [Source.elim, Kind.source]

/-- An operand is followed back to one of the shuffles. -/
theorem exists_of_origin {shuffles : List Indexed} {j k : Nat}
    (h : (shuffles.foldl shuffle []).getD j none = some k) : ∃ i ∈ shuffles, i.2 = k := by
  obtain ⟨i, hi, heq, -⟩ := exists_of_source (source_of_origin h)
  exact ⟨i, hi, heq⟩

end EvmSandbox.RuntimeCopy

/-! ## Shuffles in the machine -/

namespace EvmSandbox.Machine

open RuntimeCopy (Indexed isShuffle shuffled shuffledAll)

variable {Env : Type}

/-- The word that a push pushes. -/
def word (op : Operation) : Word :=
  BitVec.ofNat 256 (Bytes.toNat op.immediate)

/-- The machine goes on with the stack, or fails if there is none. -/
def Effect.ofStack (stack : Option (List Word)) (env : Env) : Effect Env :=
  match stack with
  | some stack => .next stack env
  | none => .fault

/-- Pushes, copies and exchanges have their usual meaning. -/
def Shuffles (meaning : Meaning Env) : Prop :=
  ∀ op : Operation, op.WellFormed → isShuffle op.code = true → ∀ stack env,
    perform meaning op stack env = .ofStack (shuffled op.code (word op) stack) env

theorem performAll_shuffles {meaning : Meaning Env} (h : Shuffles meaning) {value : Nat → Word}
    {shuffles : List Indexed}
    (hshuffles : ∀ i ∈ shuffles, i.1.toOperation.WellFormed ∧ isShuffle i.1.code = true ∧
      value i.2 = word i.1.toOperation)
    (stack : List Word) (env : Env) :
    performAll meaning (shuffles.map (·.1.toOperation)) stack env =
      .ofStack (shuffledAll value shuffles stack) env := by
  induction shuffles generalizing stack with
  | nil => rfl
  | cons i rest ih =>
    obtain ⟨hwell, hcode, hvalue⟩ := hshuffles i (by simp)
    rw [List.map_cons, performAll_cons, h _ hwell hcode, shuffledAll, hvalue]
    cases shuffled i.1.code (word i.1.toOperation) stack with
    | none => rfl
    | some stack => exact ih (fun j hj => hshuffles j (by simp [hj])) stack

end EvmSandbox.Machine
