/-
The patches of a constructor. Only pushes are patched that tell where the
runtime is, and each of them with the new number for its own
(`renumbers_of_patchOf`). The window of a copy is the run of shuffles right
before it, so windows of different copies have no instruction in common, and
neither has a window and the push that a `CODESIZE` looks at. The patches for
a window are therefore those that its own copy asks for
(`patch_eq_of_mem_windowAt`).
-/
import EvmSandbox.Proofs.StackShuffle
import EvmSandbox.Proofs.Transpilation
import Mathlib.Data.List.TakeWhile

namespace EvmSandbox

namespace RuntimeCopy

open Layout (PushValue)

/-! ## Windows -/

/-- The instructions before the one with index `k`, nearest first. -/
def before (instructions : List Instruction) (k : Nat) : List Indexed :=
  (instructions.zipIdx.take k).reverse

/-- The run of shuffles right before the instruction with index `k`. -/
def windowAt (instructions : List Instruction) (k : Nat) : List Indexed :=
  window (before instructions k)

section Window

variable {instructions : List Instruction} {k : Nat}

theorem isShuffle_of_mem_windowAt {i : Indexed} (h : i ∈ windowAt instructions k) :
    isShuffle i.1.code = true := by
  rw [windowAt, window, List.mem_reverse] at h
  simpa using List.mem_takeWhile_imp h

theorem length_windowAt_le (hk : k ≤ instructions.length) : (windowAt instructions k).length ≤ k := by
  rw [windowAt, window, List.length_reverse]
  refine (List.takeWhile_prefix _).length_le.trans ((List.length_take_le' _ _).trans ?_)
  simp only [before, List.length_reverse, List.length_take, List.length_zipIdx]
  omega

/-- The window ends right before `k`. -/
theorem getElem?_windowAt (hk : k ≤ instructions.length) {n : Nat} {i : Indexed}
    (h : (windowAt instructions k)[n]? = some i) :
    i.2 = k - (windowAt instructions k).length + n ∧ i.2 < k ∧ instructions[i.2]? = some i.1 := by
  have heq : windowAt instructions k =
      (instructions.zipIdx.take k).drop (k - (windowAt instructions k).length) := by
    have hprefix := (List.takeWhile_prefix (fun i : Indexed => isShuffle i.1.code)).trans
      (List.take_prefix windowLength (before instructions k))
    have htake := List.prefix_iff_eq_take.1 hprefix
    have hlength : (instructions.zipIdx.take k).length = k := by simp [hk]
    rw [windowAt, window, List.length_reverse]
    conv_lhs => rw [htake, before, List.take_reverse, List.reverse_reverse, hlength]
    rfl
  rw [heq, List.getElem?_drop, List.getElem?_take] at h
  split at h
  · rename_i hlt
    rw [List.getElem?_zipIdx] at h
    obtain ⟨instruction, hinstruction, rfl⟩ := Option.map_eq_some_iff.1 h
    simp only [Nat.zero_add] at hinstruction ⊢
    exact ⟨trivial, hlt, hinstruction⟩
  · cases h

theorem lt_of_mem_windowAt (hk : k ≤ instructions.length) {i : Indexed}
    (h : i ∈ windowAt instructions k) : i.2 < k ∧ instructions[i.2]? = some i.1 := by
  obtain ⟨n, hn⟩ := List.mem_iff_getElem?.1 h
  exact (getElem?_windowAt hk hn).2

/-- From an instruction of the window on up to `k` there are only shuffles. -/
theorem isShuffle_of_le_windowAt (hk : k ≤ instructions.length) {i : Indexed}
    (h : i ∈ windowAt instructions k) {j : Nat} (hle : i.2 ≤ j) (hlt : j < k)
    {instruction : Instruction} (hj : instructions[j]? = some instruction) :
    isShuffle instruction.code = true := by
  obtain ⟨n, hn⟩ := List.mem_iff_getElem?.1 h
  obtain ⟨hindex, -, -⟩ := getElem?_windowAt hk hn
  have hwindow := length_windowAt_le hk
  have hm : j - (k - (windowAt instructions k).length) < (windowAt instructions k).length := by omega
  have hget := List.getElem?_eq_getElem hm
  obtain ⟨hindex', -, hj'⟩ := getElem?_windowAt hk hget
  have hsame : (windowAt instructions k)[j - (k - (windowAt instructions k).length)].2 = j := by omega
  rw [hsame, hj, Option.some.injEq] at hj'
  rw [hj']
  exact isShuffle_of_mem_windowAt (List.mem_of_getElem? hget)

end Window

/-! ## What one instruction asks for -/

/-- The instruction with index `i` is a push of `number`. -/
def PushesNumber (instructions : List Instruction) (i number : Nat) : Prop :=
  ∃ instruction, instructions[i]? = some instruction ∧ pushed? instruction = some number

theorem pushed?_eq_some_iff {i : Instruction} {number : Nat} : pushed? i = some number ↔
    Opcode.isPush i.code = true ∧ Bytes.toNat i.immediate = number := by
  simp [pushed?]

theorem PushesNumber.isPush {instructions : List Instruction} {i number : Nat} {push : Instruction}
    (h : PushesNumber instructions i number) (hi : instructions[i]? = some push) :
    Opcode.isPush push.code = true ∧ Bytes.toNat push.immediate = number := by
  obtain ⟨instruction, hi', hpushed⟩ := h
  rw [hi] at hi'
  cases hi'
  exact pushed?_eq_some_iff.1 hpushed

theorem toNat_ofNat_length {n : Nat} (h : n ≤ maxCodeLength) : (UInt64.ofNat n).toNat = n :=
  UInt64.toNat_ofNat_of_lt (lt_of_le_of_lt h (by decide))

/-- The new numbers for the numbers that tell where the runtime is. -/
inductive Renumbers (runtime : EmbeddedRuntime) : Nat → PushValue → Prop where
  | length : Renumbers runtime runtime.length (.constant (.ofNat runtime.newLength))
  | offset : Renumbers runtime runtime.offset (.pastEnd 0)
  | creationLength : Renumbers runtime runtime.creationLength (.pastEnd (.ofNat runtime.newLength))

/-- The instruction with index `k` may ask for the patch `entry`. -/
structure MayPatch (runtime : EmbeddedRuntime) (instructions : List Instruction) (k : Nat)
    (entry : Nat × PushValue) : Prop where
  number : ∃ number, PushesNumber instructions entry.1 number ∧ Renumbers runtime number entry.2
  place : ∃ instruction, instructions[k]? = some instruction ∧
    (instruction.code = Opcode.codeCopy ∧ (∃ x ∈ windowAt instructions k, x.2 = entry.1) ∨
      instruction.code = Opcode.codeSize ∧ k = entry.1 + 1)

section Asks

variable {runtime : EmbeddedRuntime} {instructions : List Instruction} {k : Nat}

theorem pushes_iff {shuffles : List Indexed} {i number : Nat} :
    pushes shuffles (some i) number = true ↔ ∃ x ∈ shuffles, x.2 = i ∧ pushed? x.1 = some number := by
  simp only [pushes, List.any_eq_true, Bool.and_eq_true, beq_iff_eq, Option.some.injEq]
  exact exists_congr fun x => and_congr_right fun _ => and_congr_left' eq_comm

theorem before_eq_cons (hk : k ≤ instructions.length) {previous : Indexed} {rest : List Indexed}
    (h : before instructions k = previous :: rest) :
    k = previous.2 + 1 ∧ instructions[previous.2]? = some previous.1 := by
  have hhead : (before instructions k)[0]? = some previous := by rw [h]; rfl
  have hpos : 0 < (instructions.zipIdx.take k).length := by
    rw [← List.length_reverse, show (instructions.zipIdx.take k).reverse = _ from h]
    simp
  rw [before, List.getElem?_reverse hpos] at hhead
  simp only [List.length_take, List.length_zipIdx, Nat.sub_zero, List.getElem?_take,
    List.getElem?_zipIdx, min_eq_left hk] at hhead hpos
  rw [if_pos (by omega)] at hhead
  obtain ⟨instruction, hinstruction, rfl⟩ := Option.map_eq_some_iff.1 hhead
  simp only [Nat.zero_add]
  exact ⟨by omega, hinstruction⟩

theorem mayPatch_of_pushes {i : Instruction} (hk : instructions[k]? = some i)
    (hcode : i.code = Opcode.codeCopy) {p number : Nat} {value : PushValue}
    (h : pushes (windowAt instructions k) (some p) number = true)
    (hvalue : Renumbers runtime number value) : MayPatch runtime instructions k (p, value) := by
  obtain ⟨x, hx, rfl, hpushed⟩ := pushes_iff.1 h
  have hlt := (List.getElem?_eq_some_iff.1 hk).1
  obtain ⟨-, hinstruction⟩ := lt_of_mem_windowAt hlt.le hx
  exact ⟨⟨number, ⟨x.1, hinstruction, hpushed⟩, hvalue⟩, i, hk, .inl ⟨hcode, x, hx, rfl⟩⟩

/-- Patches are asked for pushes in the window of a copy or right before a `CODESIZE`. -/
theorem mayPatch_of_mem_patchesAt {i : Instruction}
    (hk : instructions[k]? = some i) {entry : Nat × PushValue}
    (h : entry ∈ (patchesAt runtime (before instructions k) i).assignments) :
    MayPatch runtime instructions k entry := by
  have hlt := (List.getElem?_eq_some_iff.1 hk).1
  simp only [patchesAt] at h
  split at h
  · rename_i hcode
    have hcode : i.code = Opcode.codeCopy := by simpa using hcode
    split at h
    · rename_i offset size hoperands
      split at h
      · rename_i hoffset
        split at h
        · split at h
          · rename_i hsize
            simp only [List.mem_cons, List.not_mem_nil, or_false] at h
            rcases h with rfl | rfl
            · exact mayPatch_of_pushes hk hcode hsize .length
            · exact mayPatch_of_pushes hk hcode hoffset .offset
          · cases h
        · cases h
      · split at h
        · rename_i hoffset
          rw [List.mem_singleton.1 h]
          exact mayPatch_of_pushes hk hcode hoffset .creationLength
        · cases h
    · cases h
  · split at h
    · rename_i hcode
      have hcode : i.code = Opcode.codeSize := by simpa using hcode
      split at h
      · cases h
      · rename_i previous rest hbefore
        split at h
        · rename_i hpushed
          rw [List.mem_singleton.1 h]
          obtain ⟨hindex, hprevious⟩ := before_eq_cons hlt.le hbefore
          refine ⟨⟨_, ⟨previous.1, hprevious, by simpa using hpushed⟩, .creationLength⟩, i, hk, ?_⟩
          exact .inr ⟨hcode, hindex⟩
        · cases h
    · cases h

/-- Only the copy itself asks for patches in its window. -/
theorem eq_of_mayPatch {i : Instruction} (hk : instructions[k]? = some i)
    (hcode : i.code = Opcode.codeCopy) {x : Indexed} (hx : x ∈ windowAt instructions k) {j : Nat}
    {entry : Nat × PushValue} (h : MayPatch runtime instructions j entry) (hentry : entry.1 = x.2) :
    j = k := by
  have hlt := (List.getElem?_eq_some_iff.1 hk).1
  obtain ⟨hxk, -⟩ := lt_of_mem_windowAt hlt.le hx
  obtain ⟨-, other, hother, ⟨hcopy, y, hy, hxy⟩ | ⟨hsize, hj⟩⟩ := h
  · have hltj := (List.getElem?_eq_some_iff.1 hother).1
    obtain ⟨hyj, -⟩ := lt_of_mem_windowAt hltj.le hy
    -- of two copies, the nearer one would be a shuffle in the window of the other
    rcases lt_trichotomy j k with hjk | hjk | hjk
    · have hshuffle := isShuffle_of_le_windowAt hlt.le hx (by omega) hjk hother
      rw [hcopy] at hshuffle
      cases hshuffle
    · exact hjk
    · have hshuffle := isShuffle_of_le_windowAt hltj.le hy (by omega) hjk hk
      rw [hcode] at hshuffle
      cases hshuffle
  · rcases Nat.lt_or_ge j k with hjk | hjk
    · have hshuffle := isShuffle_of_le_windowAt hlt.le hx (by omega) hjk hother
      rw [hsize] at hshuffle
      cases hshuffle
    · omega

end Asks

/-! ## All patches -/

section Collect

variable {runtime : EmbeddedRuntime}

theorem collect_append (previous : List Indexed) (found : Patches) (a b : List Indexed) :
    collect runtime previous found (a ++ b) =
      collect runtime (a.reverse ++ previous) (collect runtime previous found a) b := by
  induction a generalizing previous found with
  | nil => rfl
  | cons i a ih => simp [collect, ih]

theorem getElem?_of_zipIdx_eq {instructions : List Instruction} {done rest : List Indexed}
    {i : Indexed} (h : instructions.zipIdx = done ++ i :: rest) :
    instructions[done.length]? = some i.1 ∧ done.reverse = before instructions done.length := by
  have hget := congrArg (·[done.length]?) h
  simp only [List.getElem?_zipIdx, List.getElem?_append_right le_rfl, Nat.sub_self,
    List.getElem?_cons_zero] at hget
  obtain ⟨instruction, hinstruction, rfl⟩ := Option.map_eq_some_iff.1 hget
  refine ⟨hinstruction, ?_⟩
  rw [before, h, List.take_left]

/-- Patches found later stand before those found earlier. -/
theorem collect_assignments {instructions : List Instruction} {done rest tail : List Indexed}
    (h : instructions.zipIdx = done ++ rest ++ tail) (found : Patches) :
    ∃ later, (collect runtime done.reverse found rest).assignments = later ++ found.assignments ∧
      ∀ entry ∈ later, ∃ j, done.length ≤ j ∧ j < done.length + rest.length ∧
        MayPatch runtime instructions j entry := by
  induction rest generalizing done found with
  | nil => exact ⟨[], rfl, by simp⟩
  | cons i rest ih =>
    rw [collect]
    have hsplit : instructions.zipIdx = done ++ i :: (rest ++ tail) := by
      rw [h]
      simp
    obtain ⟨hi, hbefore⟩ := getElem?_of_zipIdx_eq hsplit
    have hstep := @ih (done ++ [i]) (by rw [h]; simp)
      ⟨(patchesAt runtime done.reverse i.1).assignments ++ found.assignments,
        (patchesAt runtime done.reverse i.1).copiesRuntime || found.copiesRuntime⟩
    rw [List.reverse_append, List.reverse_singleton, List.singleton_append, List.length_append,
      List.length_singleton] at hstep
    obtain ⟨later, hlater, hentries⟩ := hstep
    refine ⟨later ++ (patchesAt runtime done.reverse i.1).assignments, by rw [hlater]; simp, ?_⟩
    intro entry hentry
    rw [List.length_cons]
    rcases List.mem_append.1 hentry with hentry | hentry
    · obtain ⟨j, hle, hlt, hmay⟩ := hentries entry hentry
      exact ⟨j, by omega, by omega, hmay⟩
    · rw [hbefore] at hentry
      exact ⟨done.length, le_rfl, by omega, mayPatch_of_mem_patchesAt hi hentry⟩

theorem copiesRuntime_collect (previous : List Indexed) {found : Patches}
    (h : found.copiesRuntime = true) (rest : List Indexed) :
    (collect runtime previous found rest).copiesRuntime = true := by
  induction rest generalizing previous found with
  | nil => exact h
  | cons i rest ih =>
    rw [collect]
    exact ih _ (by simp [h])

end Collect

theorem getD_table (patches : Patches) {count i : Nat} (h : i < count) :
    (patches.table count).getD i none =
      (patches.assignments.find? (·.1 == i)).map (·.2) := by
  have hfold : ∀ assignments : List (Nat × PushValue),
      (assignments.foldr (fun entry table => table.setIfInBounds entry.1 (some entry.2))
        (Array.replicate count (none : Option PushValue))).size = count ∧
      (assignments.foldr (fun entry table => table.setIfInBounds entry.1 (some entry.2))
        (Array.replicate count none)).getD i none = (assignments.find? (·.1 == i)).map (·.2) := by
    intro assignments
    induction assignments with
    | nil => simp [Array.getD_eq_getD_getElem?, h]
    | cons entry assignments ih =>
      obtain ⟨hsize, hget⟩ := ih
      rw [Array.getD_eq_getD_getElem?] at hget ⊢
      rw [List.foldr_cons, List.find?_cons, Array.size_setIfInBounds, Array.getElem?_setIfInBounds,
        hsize]
      by_cases heq : entry.1 = i
      · simp [heq, h]
      · have hne : (entry.1 == i) = false := by simpa using heq
        simp [heq, hne, hget]
  exact (hfold patches.assignments).2

/-- All that the instructions ask for. -/
def collected (runtime : EmbeddedRuntime) (instructions : List Instruction) : Patches :=
  collect runtime [] ⟨[], false⟩ instructions.zipIdx

/-- The patch of the push with index `i`. -/
def patchOf (runtime : EmbeddedRuntime) (instructions : List Instruction) (i : Nat) :
    Option PushValue :=
  ((collected runtime instructions).table instructions.length).getD i none

section Collected

variable {runtime : EmbeddedRuntime} {instructions : List Instruction} {k : Nat} {i : Instruction}

theorem zipIdx_split (hk : instructions[k]? = some i) : instructions.zipIdx =
    instructions.zipIdx.take k ++ (i, k) :: instructions.zipIdx.drop (k + 1) := by
  have hget : instructions.zipIdx[k]? = some (i, k) := by simp [hk]
  obtain ⟨hlt, heq⟩ := List.getElem?_eq_some_iff.1 hget
  rw [← heq, ← List.drop_eq_getElem_cons hlt, List.take_append_drop]

theorem collected_assignments :
    ∀ entry ∈ (collected runtime instructions).assignments, ∃ j, MayPatch runtime instructions j entry := by
  obtain ⟨later, hlater, hentries⟩ :=
    @collect_assignments runtime instructions [] instructions.zipIdx [] (by simp) ⟨[], false⟩
  rw [List.reverse_nil, List.append_nil] at hlater
  intro entry hentry
  rw [collected, hlater] at hentry
  obtain ⟨j, -, -, hmay⟩ := hentries entry hentry
  exact ⟨j, hmay⟩

/-- The patches that an instruction asks for, between those of the instructions behind and before
it. -/
theorem collected_split (hk : instructions[k]? = some i) :
    ∃ later earlier, (collected runtime instructions).assignments =
        later ++ ((patchesAt runtime (before instructions k) i).assignments ++ earlier) ∧
      (∀ entry ∈ later, ∃ j, k < j ∧ MayPatch runtime instructions j entry) ∧
      ∀ entry ∈ earlier, ∃ j, j < k ∧ MayPatch runtime instructions j entry := by
  have hlt := (List.getElem?_eq_some_iff.1 hk).1
  have hlength : (instructions.zipIdx.take k).length = k := by simp [hlt.le]
  have hsplit := zipIdx_split hk
  obtain ⟨earlier, hearlier, hbefore⟩ := @collect_assignments runtime instructions []
    (instructions.zipIdx.take k) (instructions.zipIdx.drop k) (by simp) ⟨[], false⟩
  rw [List.reverse_nil, List.append_nil] at hearlier
  have hstep := @collect_assignments runtime instructions
    (instructions.zipIdx.take k ++ [(i, k)]) (instructions.zipIdx.drop (k + 1)) []
    (by rw [List.append_nil, List.append_assoc, List.singleton_append]; exact hsplit)
  rw [List.reverse_append, List.reverse_singleton, List.singleton_append, List.length_append,
    List.length_singleton, hlength] at hstep
  obtain ⟨later, hlater, hbehind⟩ := hstep
    ⟨(patchesAt runtime (before instructions k) i).assignments ++
        (collect runtime [] ⟨[], false⟩ (instructions.zipIdx.take k)).assignments,
      (patchesAt runtime (before instructions k) i).copiesRuntime ||
        (collect runtime [] ⟨[], false⟩ (instructions.zipIdx.take k)).copiesRuntime⟩
  refine ⟨later, earlier, ?_, fun entry hentry => ?_, fun entry hentry => ?_⟩
  · rw [collected, hsplit, collect_append, List.append_nil, collect, ← hearlier]
    exact hlater
  · obtain ⟨j, hle, -, hmay⟩ := hbehind entry hentry
    exact ⟨j, hle, hmay⟩
  · obtain ⟨j, -, hlt, hmay⟩ := hbefore entry hentry
    exact ⟨j, by simpa [hlength] using hlt, hmay⟩

/-- In the window of a copy the patches are those that the copy asks for. -/
theorem patch_eq_of_mem_windowAt (hk : instructions[k]? = some i) (hcode : i.code = Opcode.codeCopy)
    {x : Indexed} (hx : x ∈ windowAt instructions k) :
    patchOf runtime instructions x.2 =
      ((patchesAt runtime (before instructions k) i).assignments.find? (·.1 == x.2)).map (·.2) := by
  have hlt := (List.getElem?_eq_some_iff.1 hk).1
  obtain ⟨hxk, -⟩ := lt_of_mem_windowAt hlt.le hx
  obtain ⟨later, earlier, heq, hlater, hearlier⟩ := @collected_split runtime _ _ _ hk
  have hnone : ∀ entries : List (Nat × PushValue),
      (∀ entry ∈ entries, ∃ j, j ≠ k ∧ MayPatch runtime instructions j entry) →
      entries.find? (·.1 == x.2) = none := by
    intro entries hentries
    refine List.find?_eq_none.2 fun entry hentry heq => ?_
    obtain ⟨j, hne, hmay⟩ := hentries entry hentry
    rw [beq_iff_eq] at heq
    exact hne (eq_of_mayPatch hk hcode hx hmay heq)
  rw [patchOf, getD_table _ (hxk.trans hlt), heq, List.find?_append, List.find?_append, hnone later,
    hnone earlier]
  · simp
  · intro entry hentry
    obtain ⟨j, hj, hmay⟩ := hearlier entry hentry
    exact ⟨j, hj.ne, hmay⟩
  · intro entry hentry
    obtain ⟨j, hj, hmay⟩ := hlater entry hentry
    exact ⟨j, hj.ne', hmay⟩

/-- Only pushes are patched, and only those of a number that tells where the runtime is. -/
theorem renumbers_of_patchOf {value : PushValue} (hk : k < instructions.length)
    (h : patchOf runtime instructions k = some value) :
    ∃ number, PushesNumber instructions k number ∧ Renumbers runtime number value := by
  rw [patchOf, getD_table _ hk] at h
  obtain ⟨entry, hentry, rfl⟩ := Option.map_eq_some_iff.1 h
  obtain ⟨j, hnumber, -⟩ := collected_assignments entry (List.mem_of_find?_eq_some hentry)
  have hindex : entry.1 = k := by simpa using List.find?_some hentry
  rw [hindex] at hnumber
  exact hnumber

theorem patchesOnlyPushes_collected :
    Layout.PatchesOnlyPushes (patchOf runtime instructions) instructions := by
  intro i value instruction hpatch hi
  obtain ⟨number, hpushes, -⟩ := renumbers_of_patchOf (List.getElem?_eq_some_iff.1 hi).1 hpatch
  exact (hpushes.isPush hi).1

theorem copiesRuntime_collected (hk : instructions[k]? = some i)
    (h : (patchesAt runtime (before instructions k) i).copiesRuntime = true) :
    (collected runtime instructions).copiesRuntime = true := by
  rw [before] at h
  rw [collected, zipIdx_split hk, collect_append, List.append_nil, collect]
  exact copiesRuntime_collect _ (by simp only [h, Bool.true_or]) _

end Collected

/-! ## What a copy asks for -/

section Copy

variable {runtime : EmbeddedRuntime} {instructions : List Instruction} {k : Nat} {i : Instruction}

theorem PushesNumber.unique {p m n : Nat} (hm : PushesNumber instructions p m)
    (hn : PushesNumber instructions p n) : m = n := by
  obtain ⟨x, hx, hm⟩ := hm
  obtain ⟨y, hy, hn⟩ := hn
  rw [hx] at hy
  cases hy
  exact Option.some.inj (hm.symm.trans hn)

theorem pushes_origin_iff (hk : k ≤ instructions.length) {j p number : Nat}
    (horigin : ((windowAt instructions k).foldl shuffle []).getD j none = some p) :
    pushes (windowAt instructions k) (some p) number = true ↔ PushesNumber instructions p number := by
  rw [pushes_iff]
  constructor
  · rintro ⟨x, hx, rfl, hpushed⟩
    exact ⟨x.1, (lt_of_mem_windowAt hk hx).2, hpushed⟩
  · rintro ⟨instruction, hinstruction, hpushed⟩
    obtain ⟨x, hx, rfl⟩ := exists_of_origin horigin
    rw [(lt_of_mem_windowAt hk hx).2] at hinstruction
    cases hinstruction
    exact ⟨x, hx, rfl, hpushed⟩

variable (hk : k ≤ instructions.length) (hcode : i.code = Opcode.codeCopy) {p : Nat}
  (hoffset : (operands (windowAt instructions k)).offset = some p)
include hk hcode hoffset

/-- A copy of the runtime asks for its new length and offset; the length comes first. -/
theorem patchesAt_runtime {q : Nat} (hsize : (operands (windowAt instructions k)).size = some q)
    (hp : PushesNumber instructions p runtime.offset)
    (hq : PushesNumber instructions q runtime.length) :
    patchesAt runtime (before instructions k) i =
      ⟨[(q, .constant (.ofNat runtime.newLength)), (p, .pastEnd 0)], true⟩ := by
  have hp := (pushes_origin_iff hk hoffset).2 hp
  have hq := (pushes_origin_iff hk hsize).2 hq
  obtain ⟨destination, hoperands⟩ : ∃ destination,
      operands (windowAt instructions k) = ⟨destination, some p, some q⟩ :=
    ⟨_, by rw [← hoffset, ← hsize]⟩
  rw [windowAt] at hoperands hp hq
  simp [patchesAt, hcode, hoperands, hp, hq]

/-- A copy of the arguments asks for the new length of the creation code. -/
theorem patchesAt_arguments (hp : PushesNumber instructions p runtime.creationLength)
    (hlength : 0 < runtime.length) :
    patchesAt runtime (before instructions k) i =
      ⟨[(p, .pastEnd (.ofNat runtime.newLength))], false⟩ := by
  have hne : pushes (windowAt instructions k) (some p) runtime.offset = false := by
    rw [← Bool.not_eq_true, pushes_origin_iff hk hoffset]
    intro hp'
    have heq := hp.unique hp'
    rw [EmbeddedRuntime.creationLength] at heq
    omega
  have hp := (pushes_origin_iff hk hoffset).2 hp
  obtain ⟨destination, size, hoperands⟩ : ∃ destination size,
      operands (windowAt instructions k) = ⟨destination, some p, size⟩ :=
    ⟨_, _, by rw [← hoffset]⟩
  rw [windowAt] at hoperands hp hne
  simp [patchesAt, hcode, hoperands, hp, hne]

end Copy

end RuntimeCopy

/-! ## The patches of a constructor -/

namespace Sandbox

open RuntimeCopy (EmbeddedRuntime Patches collected)

/-- A constructor has the patches its instructions ask for; it may go without if it does not copy the
runtime and nothing changes its length. -/
theorem patches?_cases {s : Sandbox} {instructions : List Instruction} {runtime : EmbeddedRuntime}
    {patches : Patches} (h : s.patches? instructions (some runtime) = some patches) :
    patches = collected runtime instructions ∨
      patches = .none ∧ (collected runtime instructions).copiesRuntime = false ∧
        runtime.length = runtime.newLength ∧ ∀ i ∈ instructions, s.rules.replace? i = none := by
  simp only [patches?, RuntimeCopy.patches?] at h
  split at h
  · rename_i found hfound
    split at hfound
    · cases hfound
      cases h
      exact .inl rfl
    · cases hfound
  · rename_i hnone
    split at hnone
    · cases hnone
    · rename_i hcopies
      split at h
      · rename_i hkeeps
        cases h
        simp only [EmbeddedRuntime.keepsLength, Bool.and_eq_true, beq_iff_eq, Bool.not_eq_true',
          List.any_eq_false] at hkeeps
        refine .inr ⟨rfl, Bool.eq_false_iff.2 hcopies, hkeeps.1, fun i hi => ?_⟩
        exact RuleTable.replace?_eq_none_iff.2 (by simpa using hkeeps.2 i hi)
      · cases h

end Sandbox

end EvmSandbox
