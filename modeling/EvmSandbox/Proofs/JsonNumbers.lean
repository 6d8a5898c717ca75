/-
Numbers between text and value. The digits of a whole number are taken back to
it, so whole numbers that fit are read as they are written
(`Number.survives_of_held`). What is read from digits is a whole number that
fits or a finite floating point number (`Number.held_of_ofLexeme`), and all
that is written has a proper form (`Number.wellFormed_of_lexeme?`).
-/
import EvmSandbox.Json.Number

namespace EvmSandbox.Json.Number

open Decimal (Rounded Scientific Binary)

/-! ## Digits of whole numbers -/

theorem digitsOf_of_lt {n : Nat} (h : n < 10) : digitsOf n = [n] := by
  rw [digitsOf, Nat.toDigits_of_lt_base h, List.map_singleton,
    Nat.toNat_digitChar_sub_48_of_lt_ten h]

theorem digitsOf_of_le {n : Nat} (h : 10 ≤ n) : digitsOf n = digitsOf (n / 10) ++ [n % 10] := by
  rw [digitsOf, Nat.toDigits_of_base_le (by decide) h, List.map_append, List.map_singleton,
    Nat.toNat_digitChar_sub_48_of_lt_ten (Nat.mod_lt n (by decide))]
  rfl

/-- At least one digit, and only digits. -/
structure IsDigits (digits : List Nat) : Prop where
  ne_nil : digits ≠ []
  lt_ten : ∀ digit ∈ digits, digit < 10

theorem isDigits_digitsOf (n : Nat) : IsDigits (digitsOf n) := by
  induction n using Nat.strongRecOn with
  | ind n ih =>
    by_cases h : n < 10
    · rw [digitsOf_of_lt h]
      exact ⟨by simp, by simpa using h⟩
    · obtain ⟨_, hdigits⟩ := ih (n / 10) (by omega)
      rw [digitsOf_of_le (Nat.not_lt.mp h)]
      refine ⟨by simp, List.forall_mem_append.mpr ⟨hdigits, ?_⟩⟩
      simpa using Nat.mod_lt n (by decide)

/-- Only zero begins with a zero. -/
theorem eq_zero_of_head?_digitsOf {n : Nat} (h : (digitsOf n).head? = some 0) : n = 0 := by
  induction n using Nat.strongRecOn with
  | ind n ih =>
    by_cases hn : n < 10
    · rw [digitsOf_of_lt hn] at h
      simpa using h
    · obtain ⟨first, rest, heq⟩ := List.exists_cons_of_ne_nil (isDigits_digitsOf (n / 10)).ne_nil
      rw [digitsOf_of_le (Nat.not_lt.mp hn), heq] at h
      have := ih (n / 10) (by omega) (by rw [heq]; exact h)
      omega

/-- The number that digits stand for after those of `n`. -/
def ofDigits (n : Nat) (digits : List Nat) : Nat :=
  digits.foldl (fun n digit => n * 10 + digit) n

theorem le_ofDigits (n : Nat) (digits : List Nat) : n ≤ ofDigits n digits := by
  induction digits generalizing n with
  | nil => exact Nat.le_refl n
  | cons digit digits ih =>
    have := ih (n * 10 + digit)
    rw [ofDigits, List.foldl_cons]
    exact Nat.le_trans (by omega) this

theorem ofDigits_digitsOf (n : Nat) : ofDigits 0 (digitsOf n) = n := by
  induction n using Nat.strongRecOn with
  | ind n ih =>
    by_cases h : n < 10
    · simp [digitsOf_of_lt h, ofDigits]
    · have := ih (n / 10) (by omega)
      rw [ofDigits] at this
      rw [digitsOf_of_le (Nat.not_lt.mp h), ofDigits, List.foldl_append, this]
      simpa using Nat.div_add_mod' n 10

theorem takeWhole_of_le {significand : Nat} {digits : List Nat}
    (h : ofDigits significand digits ≤ maxSignificand) :
    takeWhole significand digits = (⟨ofDigits significand digits, 0⟩, false) := by
  induction digits generalizing significand with
  | nil => rfl
  | cons digit digits ih =>
    have hfits := Nat.le_trans (le_ofDigits (significand * 10 + digit) digits) h
    rw [takeWhole, if_neg (Nat.not_lt.mpr hfits)]
    exact ih h

/-! ## Numbers that can be read -/

/-- A whole number that fits, or a finite floating point number. -/
def Held : Number → Prop
  | .natural n => n ≤ maxSignificand
  | .negative n => 0 < n ∧ n ≤ signBit
  | .real bits => (Binary.ofBits bits).isSome

theorem takeWhole_le {significand : Nat} (h : significand ≤ maxSignificand) (digits : List Nat) :
    (takeWhole significand digits).1.significand ≤ maxSignificand := by
  induction digits generalizing significand with
  | nil => exact h
  | cons digit digits ih =>
    rw [takeWhole]
    split
    · exact h
    · exact ih (by omega)

theorem bits_lt_of_bits? {a : Rounded} {bits : Nat} (h : a.bits? = some bits) :
    bits < Rounded.infinityBits := by
  simp only [Rounded.bits?, Option.ite_none_right_eq_some, Option.some.injEq] at h
  exact h.2 ▸ h.1

theorem bits_lt_of_toBits? {parts : Parts} {bits : Nat} (h : toBits? parts = some bits) :
    bits < Rounded.infinityBits := by
  rw [toBits?] at h
  split at h
  · split at h
    · exact bits_lt_of_bits? h
    · split at h
      · exact bits_lt_of_bits? h
      · cases h
  · exact bits_lt_of_bits? h

/-- Bits below those of infinity stand for a finite number, with either sign. -/
theorem held_signed (negative : Bool) {bits : Nat} (h : bits < Rounded.infinityBits) :
    (signed negative bits).Held := by
  have hbits : (UInt64.ofNat (if negative then signBit + bits else bits)).toNat =
      if negative then signBit + bits else bits := by
    rw [UInt64.toNat_ofNat']
    simp only [Rounded.infinityBits, signBit] at h ⊢
    split <;> omega
  have hfield : ((if negative then signBit + bits else bits) >>> 52) % 0x800 ≠ 2047 := by
    simp only [Rounded.infinityBits, signBit, Nat.shiftRight_eq_div_pow] at h ⊢
    split <;> omega
  simp only [signed, Held, Binary.ofBits, hbits, beq_iff_eq, hfield, if_false]
  generalize (if negative then signBit + bits else bits) = n
  split <;> rfl

theorem held_of_toBits? {parts : Parts} {negative : Bool} {n : Number}
    (h : (toBits? parts).map (signed negative) = some n) : n.Held := by
  obtain ⟨bits, hbits, rfl⟩ := Option.map_eq_some_iff.mp h
  exact held_signed negative (bits_lt_of_toBits? hbits)

theorem held_of_ofLexeme {lexeme : Lexeme} {n : Number} (h : ofLexeme lexeme = some n) :
    n.Held := by
  have hfits := takeWhole_le (Nat.zero_le maxSignificand) lexeme.whole
  rw [ofLexeme] at h
  generalize takeWhole 0 lexeme.whole = taken at h hfits
  obtain ⟨parts, overflowed⟩ := taken
  simp only at h hfits
  split at h
  -- without a point and an exponent
  · split at h
    · cases h
      exact hfits
    · split at h
      · exact held_of_toBits? h
      · rename_i hrange
        cases h
        simp only [Bool.or_eq_true, decide_eq_true_eq, not_or, Nat.not_lt] at hrange
        exact ⟨Nat.pos_of_ne_zero hrange.1, hrange.2⟩
  · split at h
    · exact held_of_toBits? h
    · split at h
      · split at h
        · cases h
        · cases h
          exact held_signed _ (by decide)
      · exact held_of_toBits? h

/-- What the text of a number is read as. -/
def reread? (n : Number) : Option Number :=
  n.lexeme?.bind ofLexeme

/-- The number is read as it is written. -/
def Survives (n : Number) : Prop := n.reread? = some n

instance (n : Number) : Decidable n.Survives :=
  inferInstanceAs (Decidable (n.reread? = some n))

/-- The number is a floating point number. -/
def IsReal : Number → Prop
  | .real _ => True
  | _ => False

/-- Whole numbers that fit are read as they are written. -/
theorem survives_of_held {n : Number} (h : n.Held) (hwhole : ¬n.IsReal) : n.Survives := by
  cases n with
  | natural n =>
    have hdigits : takeWhole 0 (digitsOf n) = (⟨n, 0⟩, false) := by
      rw [takeWhole_of_le (by rwa [ofDigits_digitsOf]), ofDigits_digitsOf]
    simp [Survives, reread?, lexeme?, ofLexeme, hdigits]
  | negative n =>
    obtain ⟨hpos, hle⟩ := h
    have hfits : n ≤ maxSignificand := Nat.le_trans hle (by decide)
    have hdigits : takeWhole 0 (digitsOf n) = (⟨n, 0⟩, false) := by
      rw [takeWhole_of_le (by rwa [ofDigits_digitsOf]), ofDigits_digitsOf]
    have hsmall : ¬0x8000000000000000 < n := Nat.not_lt.mpr hle
    have hne : n ≠ 0 := Nat.pos_iff_ne_zero.mp hpos
    simp [Survives, reread?, lexeme?, ofLexeme, hdigits, hne, hsmall]
  | real bits => exact absurd trivial hwhole

/-! ## Numbers as they are written -/

/-- Digits that are read whole: a zero in front stands alone. -/
structure Lexeme.WellFormed (lexeme : Lexeme) : Prop where
  whole : IsDigits lexeme.whole
  leading : lexeme.whole.head? = some 0 → lexeme.whole = [0]
  fraction : ∀ digits ∈ lexeme.fraction, IsDigits digits
  exponent : ∀ exponent ∈ lexeme.exponent, IsDigits exponent.2

theorem leading_digitsOf {n : Nat} (h : (digitsOf n).head? = some 0) : digitsOf n = [0] := by
  rw [eq_zero_of_head?_digitsOf h]
  rfl

theorem nearer_eq (r : Decimal.Ratio) (lower higher : Scientific) :
    Decimal.nearer r lower higher = lower ∨ Decimal.nearer r lower higher = higher := by
  simp only [Decimal.nearer]
  split
  · exact .inl rfl
  · split
    · exact .inr rfl
    · split
      · exact .inl rfl
      · exact .inr rfl

theorem digits_nearest?_ne_zero {i : Decimal.Interval} {exponent : Int} {d : Scientific}
    (h : i.nearest? exponent = some d) : d.digits ≠ 0 := by
  have hhigher : (Decimal.neighbours i.middle exponent).2.digits ≠ 0 := by
    simp [Decimal.neighbours]
  rw [Decimal.Interval.nearest?] at h
  generalize Decimal.neighbours i.middle exponent = pair at h hhigher
  obtain ⟨lower, higher⟩ := pair
  simp only at h hhigher
  split at h
  · rename_i hlower _
    simp only [Bool.and_eq_true, bne_iff_ne] at hlower
    cases h
    rcases nearer_eq i.middle lower higher with heq | heq
    · rw [heq]
      exact hlower.2
    · rw [heq]
      exact hhigher
  · rename_i hlower _
    simp only [Bool.and_eq_true, bne_iff_ne] at hlower
    cases h
    exact hlower.2
  · cases h
    exact hhigher
  · cases h

theorem digits_shortestFrom_ne_zero (i : Decimal.Interval) (exponent : Int) (tries : Nat) :
    (i.shortestFrom exponent tries).digits ≠ 0 := by
  induction tries generalizing exponent with
  | zero => simp [Decimal.Interval.shortestFrom, Decimal.neighbours]
  | succ tries ih =>
    rw [Decimal.Interval.shortestFrom]
    split
    · rename_i hd
      exact digits_nearest?_ne_zero hd
    · exact ih _

theorem digits_trimmed_ne_zero {d : Scientific} (h : d.digits ≠ 0) (tries : Nat) :
    (d.trimmed tries).digits ≠ 0 := by
  induction tries generalizing d with
  | zero => exact h
  | succ tries ih =>
    rw [Scientific.trimmed]
    split
    · rename_i hten
      simp only [Bool.and_eq_true, bne_iff_ne, beq_iff_eq] at hten
      exact ih (by simp only; omega)
    · exact h

/-- Zero is written with exponent zero. -/
theorem exponent_shortest {b : Binary} (h : (Decimal.shortest b).digits = 0) :
    (Decimal.shortest b).exponent = 0 := by
  rw [Decimal.shortest] at h ⊢
  split at h
  · rename_i hzero
    rw [if_pos hzero]
  · exact absurd h (digits_trimmed_ne_zero (digits_shortestFrom_ne_zero _ _ _) _)

theorem IsDigits.append {a b : List Nat} (ha : ∀ digit ∈ a, digit < 10) (hb : IsDigits b) :
    IsDigits (a ++ b) where
  ne_nil := List.append_ne_nil_of_right_ne_nil a hb.ne_nil
  lt_ten := List.forall_mem_append.mpr ⟨ha, hb.lt_ten⟩

/-- The digits before the point and those behind it. -/
theorem wellFormed_positional (negative : Bool) {digits : List Nat} {exponent : Int}
    (h : IsDigits digits) (hleading : digits.head? = some 0 → digits = [0] ∧ exponent = 0) :
    Lexeme.WellFormed ⟨negative, (positional digits exponent).1,
      some (positional digits exponent).2, none⟩ := by
  obtain ⟨first, rest, hdigits⟩ := List.exists_cons_of_ne_nil h.ne_nil
  cases exponent with
  | ofNat e =>
    have hzeros : ∀ digit ∈ List.replicate e 0, digit < 10 := by simp
    refine ⟨⟨by simp [positional, hdigits], List.forall_mem_append.mpr ⟨h.lt_ten, hzeros⟩⟩,
      fun hhead => ?_, ?_, by simp⟩
    · have hzero := hleading (by simpa [positional, hdigits] using hhead)
      simp only [Int.ofNat_eq_natCast, Int.natCast_eq_zero] at hzero
      simp [positional, hzero]
    · rintro _ ⟨⟩
      exact ⟨by simp [positional], by simp [positional]⟩
  | negSucc e =>
    simp only [positional]
    split
    · rename_i hplaces
      rw [List.splitAt_eq]
      refine ⟨⟨?_, fun digit hdigit => h.lt_ten digit (List.mem_of_mem_take hdigit)⟩,
        fun hhead => ?_, ?_, by simp⟩
      · rw [ne_eq, List.take_eq_nil_iff, not_or]
        exact ⟨by omega, h.ne_nil⟩
      · have hzero := hleading (by rw [List.head?_take] at hhead; simp_all)
        cases hzero.2
      · rintro _ ⟨⟩
        refine ⟨?_, fun digit hdigit => h.lt_ten digit (List.mem_of_mem_drop hdigit)⟩
        rw [ne_eq, List.drop_eq_nil_iff]
        omega
    · refine ⟨⟨by simp, by simp⟩, fun _ => rfl, ?_, by simp⟩
      rintro _ ⟨⟩
      exact .append (by simp) h

theorem wellFormed_lexemeOf (negative : Bool) {decimal : Scientific}
    (hzero : decimal.digits = 0 → decimal.exponent = 0) :
    (lexemeOf negative decimal).WellFormed := by
  have h := isDigits_digitsOf decimal.digits
  simp only [lexemeOf]
  split
  · refine wellFormed_positional negative h fun hhead => ⟨leading_digitsOf hhead, hzero ?_⟩
    exact eq_zero_of_head?_digitsOf hhead
  · obtain ⟨first, rest, hdigits⟩ := List.exists_cons_of_ne_nil h.ne_nil
    have hlt := h.lt_ten
    rw [hdigits, List.forall_mem_cons] at hlt
    rw [hdigits, List.splitAt_eq]
    refine ⟨⟨by simp, by simpa using hlt.1⟩, by simp, ?_, ?_⟩
    · cases rest with
      | nil => simp
      | cons second rest => simpa using ⟨by simp, hlt.2⟩
    · rintro _ ⟨⟩
      exact isDigits_digitsOf _

/-- Every number is written with proper digits. -/
theorem wellFormed_of_lexeme? {n : Number} {lexeme : Lexeme} (h : n.lexeme? = some lexeme) :
    lexeme.WellFormed := by
  cases n with
  | natural n =>
    cases h
    exact ⟨isDigits_digitsOf n, leading_digitsOf, by simp, by simp⟩
  | negative n =>
    cases h
    exact ⟨isDigits_digitsOf n, leading_digitsOf, by simp, by simp⟩
  | real bits =>
    obtain ⟨b, -, rfl⟩ := Option.map_eq_some_iff.mp h
    exact wellFormed_lexemeOf b.negative exponent_shortest

end EvmSandbox.Json.Number
