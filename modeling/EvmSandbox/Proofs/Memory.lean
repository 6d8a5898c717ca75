/-
The memory of a running contract. Addresses are unbounded, and every address
has a byte; the memory in use is a beginning of whole words, behind which all
bytes are zero. What is read and written is said of the bytes alone (`Image`),
so that most proofs need not follow how much of the memory is in use.
-/
import EvmSandbox.Proofs.Bytes

namespace EvmSandbox.Machine

/-! ## Bytes by address -/

/-- A byte for every address. -/
abbrev Image := Nat → UInt8

namespace Image

/-- The `length` bytes from `offset` on. -/
def read (image : Image) (offset length : Nat) : Bytes :=
  (List.range length).map fun i => image (offset + i)

/-- The image with `data` from `offset` on. -/
def write (image : Image) (offset : Nat) (data : Bytes) : Image := fun address =>
  if offset ≤ address then data[address - offset]?.getD (image address) else image address

variable (image : Image)

@[simp] theorem length_read (offset length : Nat) : (image.read offset length).length = length := by
  simp [read]

theorem getElem?_read {offset length i : Nat} (h : i < length) :
    (image.read offset length)[i]? = some (image (offset + i)) := by
  simp [read, h]

/-- Bytes outside of what is written stay. -/
theorem write_outside {offset address : Nat} {data : Bytes}
    (h : address < offset ∨ offset + data.length ≤ address) :
    image.write offset data address = image address := by
  rw [write]
  split
  · rw [List.getElem?_eq_none (by omega), Option.getD_none]
  · rfl

/-- The byte written at `offset + i`. -/
theorem write_inside {offset i : Nat} {data : Bytes} {byte : UInt8} (h : data[i]? = some byte) :
    image.write offset data (offset + i) = byte := by
  rw [write, if_pos (Nat.le_add_right _ _), Nat.add_sub_cancel_left, h, Option.getD_some]

@[simp] theorem write_nil (offset : Nat) : image.write offset [] = image := by
  funext address
  exact image.write_outside (by simp; omega)

theorem read_write (offset : Nat) (data : Bytes) :
    (image.write offset data).read offset data.length = data := by
  refine List.ext_getElem? fun i => ?_
  by_cases hi : i < data.length
  · rw [getElem?_read _ hi, image.write_inside (List.getElem?_eq_getElem hi), List.getElem?_eq_getElem hi]
  · rw [List.getElem?_eq_none (by simpa using hi), List.getElem?_eq_none (by simpa using hi)]

/-- Two strings written one behind the other are written as one. -/
theorem write_append (offset : Nat) (a b : Bytes) :
    (image.write offset a).write (offset + a.length) b = image.write offset (a ++ b) := by
  funext address
  by_cases hbehind : offset + a.length ≤ address
  · obtain ⟨i, rfl⟩ := Nat.exists_eq_add_of_le hbehind
    cases hi : b[i]? with
    | some byte =>
      rw [write_inside _ hi, Nat.add_assoc, write_inside]
      rw [List.getElem?_append_right (by omega), Nat.add_sub_cancel_left, hi]
    | none =>
      rw [List.getElem?_eq_none_iff] at hi
      rw [write_outside _ (by omega), write_outside _ (by omega),
        write_outside _ (by rw [List.length_append]; omega)]
  · rw [write_outside _ (by omega)]
    by_cases hbefore : address < offset
    · rw [write_outside _ (by omega), write_outside _ (by omega)]
    · obtain ⟨i, rfl⟩ := Nat.exists_eq_add_of_le (Nat.not_lt.1 hbefore)
      have hi : i < a.length := by omega
      rw [write_inside _ (List.getElem?_eq_getElem hi), write_inside]
      rw [List.getElem?_append_left hi, List.getElem?_eq_getElem hi]

/-- What is written to places apart can be written in any order. -/
theorem write_comm {offset offset' : Nat} {a b : Bytes} (h : offset + a.length ≤ offset') :
    (image.write offset a).write offset' b = (image.write offset' b).write offset a := by
  funext address
  by_cases hb : address < offset' ∨ offset' + b.length ≤ address
  · rw [write_outside _ hb, write, write, write_outside _ hb]
  · obtain ⟨i, rfl⟩ := Nat.exists_eq_add_of_le (show offset' ≤ address by omega)
    have hi : i < b.length := by omega
    rw [write_inside _ (List.getElem?_eq_getElem hi), write_outside _ (.inr (by omega)),
      write_inside _ (List.getElem?_eq_getElem hi)]

/-- A gap that is left between two strings can be filled later. -/
theorem write_gap (offset : Nat) (a b c : Bytes) :
    ((image.write offset a).write (offset + (a ++ b).length) c).write (offset + a.length) b =
      image.write offset (a ++ b ++ c) := by
  have hapart : offset + a.length + b.length ≤ offset + (a ++ b).length := by
    rw [List.length_append, Nat.add_assoc]
  rw [← write_comm _ hapart, write_append, write_append]

/-- Zeros written over zeros change nothing. -/
theorem write_zeros {offset : Nat} (h : ∀ address, offset ≤ address → image address = 0) (count : Nat) :
    image.write offset (List.replicate count 0) = image := by
  funext address
  rw [write]
  split
  · rename_i hle
    rw [List.getElem?_replicate, h address hle]
    split <;> rfl
  · rfl

end Image

/-! ## Memory -/

/-- The bytes at all addresses. Those below `size` are in use. -/
structure Memory where
  image : Image
  size : Nat
  aligned : 32 ∣ size
  fresh : ∀ address, size ≤ address → image address = 0

namespace Memory

/-- Memory of which nothing is in use. -/
def empty : Memory where
  image := fun _ => 0
  size := 0
  aligned := ⟨0, rfl⟩
  fresh := fun _ _ => rfl

/-- How much is in use after an access to `length` bytes from `offset` on. An access to no bytes
takes nothing into use. -/
def grown (size offset length : Nat) : Nat :=
  if length = 0 then size else max size ((offset + length + 31) / 32 * 32)

theorem le_grown (size offset length : Nat) : size ≤ grown size offset length := by
  rw [grown]
  split
  · exact le_rfl
  · exact le_max_left _ _

theorem dvd_grown {size : Nat} (h : 32 ∣ size) (offset length : Nat) :
    32 ∣ grown size offset length := by
  rw [grown]
  split
  · exact h
  · rw [max_def]
    split
    · exact Nat.dvd_mul_left _ _
    · exact h

/-- The memory after bytes have been read. -/
def touch (m : Memory) (offset length : Nat) : Memory where
  image := m.image
  size := grown m.size offset length
  aligned := dvd_grown m.aligned offset length
  fresh := fun address h => m.fresh address ((le_grown _ _ _).trans h)

/-- The memory after bytes have been written. -/
def write (m : Memory) (offset : Nat) (data : Bytes) : Memory where
  image := m.image.write offset data
  size := grown m.size offset data.length
  aligned := dvd_grown m.aligned offset data.length
  fresh := by
    intro address h
    rw [Image.write_outside, m.fresh address ((le_grown _ _ _).trans h)]
    by_cases hlength : data.length = 0
    · omega
    · rw [grown, if_neg hlength] at h
      have := (le_max_right _ _).trans h
      omega

@[simp] theorem image_touch (m : Memory) (offset length : Nat) :
    (m.touch offset length).image = m.image := rfl

@[simp] theorem image_write (m : Memory) (offset : Nat) (data : Bytes) :
    (m.write offset data).image = m.image.write offset data := rfl

end Memory

end EvmSandbox.Machine
