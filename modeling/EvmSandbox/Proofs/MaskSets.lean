/-
Masks as sets of codes. A change goes to one word of the mask and the rest of
the words stay, and in its word it goes to one bit (`isAllowed_changeWord`), so
to allow a code is to put it into the set and to disallow it is to take it out.
A range is allowed code by code and ends with its last code, also where that is
`0xff` and has no next one (`members_allowRange`). So every run of changes does
to the mask what it does to the set, and the allowed codes are listed in
ascending order (`mask_changes`).
-/
import Mathlib.Data.Set.Insert
import EvmSandbox.Whitelist

namespace EvmSandbox.Whitelist

/-! ## Words -/

/-- The word that a code belongs to. -/
def place (code : UInt8) : Fin 4 :=
  ⟨code.toNat / 64, by have := code.toNat_lt; omega⟩

theorem isAllowed_ofWords (words : Fin 4 → BitVec 64) (code : UInt8) :
    (ofWords words).isAllowed code = (words (place code)).getLsbD (code.toNat % 64) := by
  have hcode := code.toNat_lt
  -- The words are told apart from the low end, as the bits are counted.
  simp only [isAllowed, ofWords, BitVec.getLsbD_append]
  split
  · rename_i h
    rw [show place code = 0 from Fin.ext (Nat.div_eq_of_lt h), Nat.mod_eq_of_lt h]
  · split
    · rw [show place code = 1 from Fin.ext (by simp only [place]; omega),
        show code.toNat % 64 = code.toNat - 64 by omega]
    · split
      · rw [show place code = 2 from Fin.ext (by simp only [place]; omega),
          show code.toNat % 64 = code.toNat - 64 - 64 by omega]
      · rw [show place code = 3 from Fin.ext (by simp only [place]; omega),
          show code.toNat % 64 = code.toNat - 64 - 64 - 64 by omega]

theorem getLsbD_word (w : Whitelist) (code : UInt8) :
    (w.word (place code)).getLsbD (code.toNat % 64) = w.isAllowed code := by
  have hbit : code.toNat % 64 < 64 := Nat.mod_lt _ (by decide)
  simp only [word, place, isAllowed, BitVec.getLsbD_extractLsb', hbit, decide_true, Bool.true_and,
    Nat.div_add_mod]

/-- Of the codes of one word each has a bit of its own. -/
theorem getLsbD_one_shiftLeft {code other : UInt8} (h : other.toNat / 64 = code.toNat / 64) :
    (1#64 <<< (code.toNat % 64)).getLsbD (other.toNat % 64) = decide (other = code) := by
  have hbit : code.toNat % 64 < 64 := Nat.mod_lt _ (by decide)
  have hsame : code.toNat % 64 = other.toNat % 64 ↔ other = code := by
    rw [← UInt8.toNat_inj]
    omega
  rw [← BitVec.twoPow_eq, BitVec.getLsbD_twoPow, decide_eq_true hbit, Bool.true_and,
    decide_eq_decide.2 hsame]

/-- If a word is changed bit by bit, and a bit stays unless it is the one to change, then the mask is
changed at one code only. -/
theorem isAllowed_changeWord {change : BitVec 64 → BitVec 64 → BitVec 64} {f : Bool → Bool → Bool}
    (hchange : ∀ word bit i, i < 64 → (change word bit).getLsbD i = f (word.getLsbD i) (bit.getLsbD i))
    (hstays : ∀ b, f b false = b) (w : Whitelist) (code other : UInt8) :
    (w.changeWord code change).isAllowed other = f (w.isAllowed other) (decide (other = code)) := by
  rw [changeWord, isAllowed_ofWords]
  by_cases hword : (place other).val = code.toNat / 64
  · rw [if_pos hword, hchange _ _ _ (Nat.mod_lt _ (by decide)), getLsbD_word,
      getLsbD_one_shiftLeft hword]
  · have hne : other ≠ code := by
      intro heq
      exact hword (by rw [heq, place])
    rw [if_neg hword, getLsbD_word, decide_eq_false hne, hstays]

theorem isAllowed_allow (w : Whitelist) (code other : UInt8) :
    (w.allow code).isAllowed other = (w.isAllowed other || decide (other = code)) :=
  isAllowed_changeWord (fun _ _ _ _ => BitVec.getLsbD_or) Bool.or_false w code other

theorem isAllowed_disallow (w : Whitelist) (code other : UInt8) :
    (w.disallow code).isAllowed other = (w.isAllowed other && !decide (other = code)) := by
  refine isAllowed_changeWord (f := fun old bit => old && !bit) ?_ Bool.and_true w code other
  intro word bit i hi
  rw [BitVec.getLsbD_and, BitVec.getLsbD_not, decide_eq_true hi, Bool.true_and]

/-! ## The set of a mask -/

/-- The codes whose bits are set in the number that the mask is. -/
def members (w : Whitelist) : Set UInt8 :=
  {code | w.mask.toNat.testBit code.toNat = true}

@[simp] theorem mem_members {w : Whitelist} {code : UInt8} :
    code ∈ w.members ↔ w.isAllowed code = true := by
  simp [members, isAllowed, BitVec.testBit_toNat]

theorem members_allow (w : Whitelist) (code : UInt8) :
    (w.allow code).members = insert code w.members := by
  ext other
  simp [isAllowed_allow, or_comm]

theorem members_disallow (w : Whitelist) (code : UInt8) :
    (w.disallow code).members = w.members \ {code} := by
  ext other
  simp [isAllowed_disallow]

/-- The codes from `first` to `last`, both included. -/
def interval (first last : UInt8) : Set UInt8 :=
  {code | first ≤ code ∧ code ≤ last}

theorem mem_interval {first last code : UInt8} :
    code ∈ interval first last ↔ first.toNat ≤ code.toNat ∧ code.toNat ≤ last.toNat := by
  simp [interval, UInt8.le_iff_toNat_le]

theorem interval_highest {last : UInt8} (h : 0xff ≤ last) : interval 0xff last = {0xff} := by
  have hlast : (0xff : UInt8).toNat ≤ last.toNat := UInt8.le_iff_toNat_le.1 h
  ext code
  have hcode : code.toNat ≤ (0xff : UInt8).toNat := Nat.le_of_lt_succ code.toNat_lt
  rw [mem_interval, Set.mem_singleton_iff, ← UInt8.toNat_inj]
  omega

theorem interval_eq_insert {first last : UInt8} (hle : first ≤ last) (hne : first ≠ 0xff) :
    interval first last = insert first (interval (first + 1) last) := by
  have hlast : first.toNat ≤ last.toNat := UInt8.le_iff_toNat_le.1 hle
  ext code
  rw [mem_interval, Set.mem_insert_iff, mem_interval, toNat_next hne, ← UInt8.toNat_inj]
  omega

theorem interval_eq_empty {first last : UInt8} (h : ¬ first ≤ last) : interval first last = ∅ := by
  have hlast : ¬ first.toNat ≤ last.toNat := fun hle => h (UInt8.le_iff_toNat_le.2 hle)
  ext code
  rw [mem_interval, Set.mem_empty_iff_false, iff_false]
  omega

theorem members_allowRange (w : Whitelist) (first last : UInt8) :
    (w.allowRange first last).members = w.members ∪ interval first last := by
  fun_induction allowRange w first last with
  | case1 w hle => rw [members_allow, interval_highest hle, Set.union_singleton]
  | case2 w first hle hne ih =>
    rw [ih, members_allow, interval_eq_insert hle hne, Set.insert_union, Set.union_insert]
  | case3 w first hgt => rw [interval_eq_empty hgt, Set.union_empty]

/-! ## Runs of changes -/

inductive Change where
  | allow (code : UInt8)
  | disallow (code : UInt8)
  | allowRange (first last : UInt8)

namespace Change

def apply (w : Whitelist) : Change → Whitelist
  | .allow code => w.allow code
  | .disallow code => w.disallow code
  | .allowRange first last => w.allowRange first last

/-- What a change does to a set of codes. -/
def applySet (codes : Set UInt8) : Change → Set UInt8
  | .allow code => insert code codes
  | .disallow code => codes \ {code}
  | .allowRange first last => codes ∪ interval first last

theorem members_apply (w : Whitelist) (change : Change) :
    (change.apply w).members = change.applySet w.members := by
  cases change with
  | allow code => exact members_allow w code
  | disallow code => exact members_disallow w code
  | allowRange first last => exact members_allowRange w first last

theorem members_foldl_apply (changes : List Change) (w : Whitelist) :
    (changes.foldl apply w).members = changes.foldl applySet w.members := by
  induction changes generalizing w with
  | nil => rfl
  | cons change changes ih => rw [List.foldl_cons, List.foldl_cons, ih, members_apply]

end Change

/-! ## The list of the allowed codes -/

theorem mem_allCodes (code : UInt8) : code ∈ allCodes :=
  List.mem_map.2 ⟨code.toNat, List.mem_range.2 code.toNat_lt, UInt8.ofNat_toNat⟩

theorem pairwise_allCodes : allCodes.Pairwise (· < ·) := by
  rw [allCodes, List.pairwise_map]
  refine List.pairwise_lt_range.imp_of_mem ?_
  intro i j hi hj hlt
  rw [List.mem_range] at hi hj
  rwa [UInt8.lt_iff_toNat_lt, UInt8.toNat_ofNat_of_lt' hi, UInt8.toNat_ofNat_of_lt' hj]

theorem mem_codes {w : Whitelist} {code : UInt8} : code ∈ w.codes ↔ code ∈ w.members := by
  rw [codes, List.mem_filter, mem_members, and_iff_right (mem_allCodes code)]

/-- **Masks are sets of codes.** After any run of changes to any mask, exactly those codes are
allowed that are in the set of the mask after the same run of insertions, removals and unions with
intervals, and they are listed in strictly ascending order. -/
theorem mask_changes (w : Whitelist) (changes : List Change) :
    (∀ code, (changes.foldl Change.apply w).isAllowed code = true ↔
      code ∈ changes.foldl Change.applySet w.members) ∧
    (∀ code, code ∈ (changes.foldl Change.apply w).codes ↔
      code ∈ changes.foldl Change.applySet w.members) ∧
    (changes.foldl Change.apply w).codes.Pairwise (· < ·) := by
  rw [← Change.members_foldl_apply]
  exact ⟨fun code => mem_members.symm, fun code => mem_codes, pairwise_allCodes.filter _⟩

example : ([.allowRange 0xfe 0xff, .disallow 0xfe, .allowRange 0x41 0x40, .allow 0x3f].foldl
    Change.apply empty).codes = [0x3f, 0xff] := by decide +kernel

end EvmSandbox.Whitelist
