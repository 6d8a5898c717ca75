/-
Decoding and encoding. A byte string decodes exactly when it is the encoding
of a list of well-formed operations, and then the instructions are these
operations at their offsets; otherwise decoding stops behind the longest
beginning that is such an encoding (`decode_eq_error_iff`). All reasoning
about offsets in a code is done here, on lists of operations; later proofs
speak of the operations that stand at an offset (`Operation.At`).
-/
import EvmSandbox.Instruction
import EvmSandbox.Proofs.Bytes

namespace EvmSandbox

namespace Opcode

/-- What `Opcode.push` is for a width that a push can have. -/
theorem push_spec {width : Nat} (hpos : 0 < width) (hle : width ≤ 32) :
    isDefined (push width) = true ∧ isPush (push width) = true ∧
      immediateLength (push width) = width := by
  have hall : ∀ w : Fin 33, 0 < w.val →
      isDefined (push w) = true ∧ isPush (push w) = true ∧ immediateLength (push w) = w := by
    decide
  exact hall ⟨width, by omega⟩ hpos

theorem isPush_iff {code : UInt8} :
    isPush code = true ↔ 0x60 ≤ code.toNat ∧ code.toNat ≤ 0x7f := by
  simp [isPush, push1, push32, UInt8.le_iff_toNat_le]

theorem immediateLength_le (code : UInt8) : immediateLength code ≤ 32 := by
  rw [immediateLength]
  split
  · rename_i h
    rw [isPush_iff] at h
    omega
  · omega

theorem immediateLength_pos {code : UInt8} (h : isPush code = true) : 0 < immediateLength code := by
  have hrange := isPush_iff.1 h
  rw [immediateLength, if_pos h]
  omega

theorem push_immediateLength {code : UInt8} (h : isPush code = true) :
    push (immediateLength code) = code := by
  have hrange := isPush_iff.1 h
  rw [immediateLength, if_pos h, push, show 0x5f + (code.toNat - 0x5f) = code.toNat by omega]
  exact UInt8.ofNat_toNat

theorem immediateLength_eq_zero {code : UInt8} (h : isPush code = false) :
    immediateLength code = 0 := by
  simp [immediateLength, h]

theorem isJump_iff {code : UInt8} : isJump code = true ↔ code = jump ∨ code = jumpI := by
  simp [isJump]

theorem isJump_of_isPush {code : UInt8} (h : isPush code = true) : isJump code = false := by
  rw [← Bool.not_eq_true, isJump_iff]
  rintro (rfl | rfl) <;> cases h

end Opcode

namespace Operation

/-- An operation whose code is an instruction and whose operand is as long as the code says. -/
structure WellFormed (op : Operation) : Prop where
  defined : Opcode.isDefined op.code = true
  operand : op.immediate.length = Opcode.immediateLength op.code

instance (op : Operation) : Decidable op.WellFormed :=
  decidable_of_iff
    (Opcode.isDefined op.code = true ∧ op.immediate.length = Opcode.immediateLength op.code)
    ⟨fun h => ⟨h.1, h.2⟩, fun h => ⟨h.defined, h.operand⟩⟩

theorem wellFormed_push {width : Nat} (value : Nat) (hpos : 0 < width) (hle : width ≤ 32) :
    (push width value).WellFormed := by
  obtain ⟨hdef, -, hlen⟩ := Opcode.push_spec hpos hle
  exact ⟨hdef, by simp [push, hlen]⟩

/-- Without an operand, a well-formed operation is its code. -/
theorem WellFormed.eq_code {op : Operation} {code : UInt8} (h : op.WellFormed) (hcode : op.code = code)
    (hpush : Opcode.isPush code = false) : op = ⟨code, []⟩ := by
  obtain ⟨_, immediate⟩ := op
  obtain ⟨-, hlength⟩ := h
  simp only at hcode hlength
  subst hcode
  rw [Opcode.immediateLength_eq_zero hpush, List.length_eq_zero_iff] at hlength
  rw [hlength]

/-- The operand of a push has a length that pushes have. -/
theorem WellFormed.length_immediate {op : Operation} (h : op.WellFormed)
    (hpush : Opcode.isPush op.code = true) : 0 < op.immediate.length ∧ op.immediate.length ≤ 32 := by
  rw [h.operand]
  exact ⟨Opcode.immediateLength_pos hpush, Opcode.immediateLength_le op.code⟩

/-! ## Lengths -/

@[simp] theorem encodeAll_nil : encodeAll [] = [] := rfl

@[simp] theorem encodeAll_cons (op : Operation) (ops : List Operation) :
    encodeAll (op :: ops) = op.encode ++ encodeAll ops := by
  simp [encodeAll]

@[simp] theorem encodeAll_append (a b : List Operation) :
    encodeAll (a ++ b) = encodeAll a ++ encodeAll b := by
  simp [encodeAll]

@[simp] theorem length_encode (op : Operation) : op.encode.length = op.size := by
  simp only [encode, size, List.length_cons]
  omega

@[simp] theorem size_push (width value : Nat) : (push width value).size = 1 + width := by
  simp [size, push]

@[simp] theorem size_code (code : UInt8) : size ⟨code, []⟩ = 1 := rfl

theorem size_pos (op : Operation) : 0 < op.size := by
  rw [size]
  omega

theorem length_encode_pos {ops : List Operation} (h : ops ≠ []) : 0 < (encodeAll ops).length := by
  obtain ⟨op, rest, rfl⟩ := List.exists_cons_of_ne_nil h
  have := op.size_pos
  rw [encodeAll_cons, List.length_append, length_encode]
  omega

/-! ## What stands at an offset -/

/-- The operations `block` stand in `ops` at the byte offset `position`. -/
def At (ops : List Operation) (position : Nat) (block : List Operation) : Prop :=
  ∃ before after, ops = before ++ block ++ after ∧ (encodeAll before).length = position

theorem At.left {ops a b : List Operation} {position : Nat} (h : At ops position (a ++ b)) :
    At ops position a := by
  obtain ⟨before, after, rfl, hlen⟩ := h
  exact ⟨before, b ++ after, by simp, hlen⟩

theorem At.right {ops a b : List Operation} {position : Nat} (h : At ops position (a ++ b)) :
    At ops (position + (encodeAll a).length) b := by
  obtain ⟨before, after, rfl, hlen⟩ := h
  exact ⟨before ++ a, after, by simp, by simp [hlen]⟩

theorem At.head {ops rest : List Operation} {op : Operation} {position : Nat}
    (h : At ops position (op :: rest)) : At ops position [op] :=
  At.left (a := [op]) h

theorem At.tail {ops rest : List Operation} {op : Operation} {position : Nat}
    (h : At ops position (op :: rest)) : At ops (position + op.size) rest := by
  have := At.right (a := [op]) (b := rest) h
  simpa using this

theorem At.mem {ops : List Operation} {op : Operation} {position : Nat} (h : At ops position [op]) :
    op ∈ ops := by
  obtain ⟨before, after, rfl, -⟩ := h
  simp

theorem At.of_append {a b : List Operation} {op : Operation} {position : Nat}
    (h : At (a ++ b) position [op]) :
    At a position [op] ∨ ∃ rest, position = (encodeAll a).length + rest ∧ At b rest [op] := by
  obtain ⟨before, after, heq, rfl⟩ := h
  rw [List.append_assoc] at heq
  rcases List.append_eq_append_iff.1 heq with ⟨middle, rfl, hb⟩ | ⟨middle, rfl, hop⟩
  · exact .inr ⟨(encodeAll middle).length, by simp, middle, after, by simpa using hb, rfl⟩
  · cases middle with
    | nil => exact .inr ⟨0, by simp, [], after, by simpa using hop.symm, rfl⟩
    | cons first middle =>
      simp only [List.cons_append, List.nil_append, List.cons.injEq] at hop
      obtain ⟨rfl, -⟩ := hop
      exact .inl ⟨before, middle, by simp, rfl⟩

/-- No two operations stand at one offset. -/
theorem At.unique {ops : List Operation} {a b : Operation} {position : Nat}
    (ha : At ops position [a]) (hb : At ops position [b]) : a = b := by
  obtain ⟨before, after, rfl, hlen⟩ := ha
  obtain ⟨before', after', heq, hlen'⟩ := hb
  induction before generalizing before' position with
  | nil =>
    cases before' with
    | nil => simpa using (List.cons.inj heq).1
    | cons op _ =>
      have := op.size_pos
      simp only [encodeAll_nil, encodeAll_cons, List.length_append, length_encode,
        List.length_nil] at hlen hlen'
      omega
  | cons op before ih =>
    cases before' with
    | nil =>
      have := op.size_pos
      simp only [encodeAll_nil, encodeAll_cons, List.length_append, length_encode,
        List.length_nil] at hlen hlen'
      omega
    | cons op' before' =>
      simp only [List.cons_append, List.cons.injEq] at heq
      obtain ⟨rfl, heq⟩ := heq
      simp only [encodeAll_cons, List.length_append, length_encode] at hlen hlen'
      exact ih rfl before' heq (by omega)

/-! ## Prefixes of encodings -/

/-- Well-formed operations that begin with the same bytes begin with the same operation. -/
theorem eq_of_encode_append {x y : Operation} {a b : Bytes} (hx : x.WellFormed) (hy : y.WellFormed)
    (h : x.encode ++ a = y.encode ++ b) : x = y ∧ a = b := by
  obtain ⟨code, immediate⟩ := x
  obtain ⟨code', immediate'⟩ := y
  simp only [encode, List.cons_append, List.cons.injEq] at h
  obtain ⟨rfl, h⟩ := h
  obtain ⟨rfl, rfl⟩ := List.append_inj h (hx.operand.trans hy.operand.symm)
  exact ⟨rfl, rfl⟩

theorem encodeAll_prefix_iff {a b : List Operation} (ha : ∀ op ∈ a, op.WellFormed)
    (hb : ∀ op ∈ b, op.WellFormed) : encodeAll a <+: encodeAll b ↔ a <+: b := by
  constructor
  · rintro ⟨rest, h⟩
    induction a generalizing b with
    | nil => exact List.nil_prefix
    | cons x a ih =>
      rw [encodeAll_cons, List.append_assoc] at h
      cases b with
      | nil => simp [encode] at h
      | cons y b =>
        rw [encodeAll_cons] at h
        obtain ⟨rfl, hrest⟩ := eq_of_encode_append (ha x (by simp)) (hb y (by simp)) h
        refine (List.prefix_cons_inj x).2 (ih (fun op hop => ha op (by simp [hop])) ?_ hrest)
        exact fun op hop => hb op (by simp [hop])
  · rintro ⟨rest, rfl⟩
    exact ⟨encodeAll rest, by simp⟩

end Operation

namespace Instruction

open Operation (At)

/-! ## Operations at their offsets -/

/-- The operations as instructions, the first of them at `offset`. -/
def locate (offset : Nat) : List Operation → List Instruction
  | [] => []
  | op :: ops => ⟨op, offset⟩ :: locate (offset + op.size) ops

theorem locate_append (offset : Nat) (a b : List Operation) :
    locate offset (a ++ b) = locate offset a ++ locate (offset + (Operation.encodeAll a).length) b := by
  induction a generalizing offset with
  | nil => simp [locate]
  | cons op a ih => simp [locate, ih, Nat.add_assoc]

@[simp] theorem map_toOperation_locate (offset : Nat) (ops : List Operation) :
    (locate offset ops).map (·.toOperation) = ops := by
  induction ops generalizing offset with
  | nil => rfl
  | cons op ops ih => simp [locate, ih]

theorem getElem?_locate (offset : Nat) (ops : List Operation) (i : Nat) :
    (locate offset ops)[i]? =
      ops[i]?.map fun op => ⟨op, offset + (Operation.encodeAll (ops.take i)).length⟩ := by
  induction ops generalizing offset i with
  | nil => simp [locate]
  | cons op ops ih =>
    cases i with
    | zero => simp [locate]
    | succ i => simp [locate, ih, Nat.add_assoc]

/-- Later instructions start behind earlier ones. -/
theorem pairwise_offset_locate (offset : Nat) (ops : List Operation) :
    (locate offset ops).Pairwise (·.offset < ·.offset) := by
  induction ops generalizing offset with
  | nil => exact .nil
  | cons op ops ih =>
    refine List.pairwise_cons.2 ⟨fun i hi => ?_, ih _⟩
    obtain ⟨k, hk⟩ := List.mem_iff_getElem?.1 hi
    rw [getElem?_locate] at hk
    obtain ⟨next, -, rfl⟩ := Option.map_eq_some_iff.1 hk
    have := op.size_pos
    simp only
    omega

theorem mem_locate_iff {ops : List Operation} {i : Instruction} :
    i ∈ locate 0 ops ↔ At ops i.offset [i.toOperation] := by
  constructor
  · intro h
    obtain ⟨k, hk⟩ := List.mem_iff_getElem?.1 h
    rw [getElem?_locate] at hk
    obtain ⟨op, hop, rfl⟩ := Option.map_eq_some_iff.1 hk
    refine ⟨ops.take k, ops.drop (k + 1), ?_, by simp⟩
    obtain ⟨hlt, rfl⟩ := List.getElem?_eq_some_iff.1 hop
    simp
  · rintro ⟨before, after, rfl, hlen⟩
    rw [List.append_assoc, locate_append]
    obtain ⟨op, offset⟩ := i
    simp only at hlen
    simp [locate, ← hlen]

/-! ## Decoding -/

/-- Well-formed operations at the beginning are decoded whatever follows them. -/
theorem decodeFrom_encodeAll_append (done : List Instruction) (offset : Nat) {ops : List Operation}
    (h : ∀ op ∈ ops, op.WellFormed) (rest : Bytes) :
    decodeFrom done offset (Operation.encodeAll ops ++ rest) =
      decodeFrom ((locate offset ops).reverse ++ done) (offset + (Operation.encodeAll ops).length)
        rest := by
  induction ops generalizing done offset with
  | nil => simp [locate]
  | cons op ops ih =>
    obtain ⟨hdef, hlen⟩ := h op (by simp)
    rw [Operation.encodeAll_cons, List.append_assoc, Operation.encode, List.cons_append, decodeFrom]
    simp only [hdef, ite_true, ← hlen, List.take_left', List.drop_left', Nat.lt_irrefl, ite_false]
    rw [ih _ _ fun o ho => h o (by simp [ho])]
    simp only [locate, Operation.size, List.reverse_cons, List.append_assoc, List.singleton_append,
      List.length_cons, List.length_append, Nat.add_assoc]
    rw [Nat.add_left_comm 1, Nat.add_comm 1 (Operation.encodeAll ops).length]

theorem decodeFrom_encodeAll (done : List Instruction) (offset : Nat) {ops : List Operation}
    (h : ∀ op ∈ ops, op.WellFormed) :
    decodeFrom done offset (Operation.encodeAll ops) = .ok (done.reverse ++ locate offset ops) := by
  have happend := decodeFrom_encodeAll_append done offset h []
  simpa [decodeFrom] using happend

theorem exists_of_decodeFrom {done : List Instruction} {offset : Nat} {bytes : Bytes}
    {result : List Instruction} (h : decodeFrom done offset bytes = .ok result) :
    ∃ ops : List Operation, (∀ op ∈ ops, op.WellFormed) ∧ bytes = Operation.encodeAll ops ∧
      result = done.reverse ++ locate offset ops := by
  fun_induction decodeFrom done offset bytes with
  | case1 done offset => exact ⟨[], by simp, rfl, by simpa [locate] using h.symm⟩
  | case2 => simp at h
  | case3 done offset code rest hdef expected immediate hlen ih =>
    obtain ⟨ops, hops, hbytes, hresult⟩ := ih h
    have himm : immediate.length = expected := by
      have : immediate.length ≤ expected := List.length_take_le _ _
      omega
    refine ⟨⟨code, immediate⟩ :: ops, ?_, ?_, ?_⟩
    · intro op hop
      rcases List.mem_cons.1 hop with rfl | hop
      · exact ⟨hdef, himm⟩
      · exact hops op hop
    · rw [Operation.encodeAll_cons, ← hbytes, Operation.encode, List.cons_append,
        List.take_append_drop]
    · rw [hresult, locate, Operation.size, himm]
      simp [Nat.add_assoc]
  | case4 => simp at h

/-- A byte string decodes if and only if it is the encoding of well-formed operations and short
enough; the instructions are these operations at their offsets. -/
theorem decode_eq_ok_iff {code : Bytes} {instructions : List Instruction} :
    decode code = .ok instructions ↔
      code.length ≤ maxCodeLength ∧ ∃ ops : List Operation, (∀ op ∈ ops, op.WellFormed) ∧
        code = Operation.encodeAll ops ∧ instructions = locate 0 ops := by
  rw [decode]
  split
  · constructor
    · intro h
      cases h
    · rintro ⟨hle, -⟩
      omega
  · rename_i hle
    constructor
    · intro h
      obtain ⟨ops, hops, hcode, hresult⟩ := exists_of_decodeFrom h
      exact ⟨by omega, ops, hops, hcode, by simpa using hresult⟩
    · rintro ⟨-, ops, hops, rfl, rfl⟩
      simpa using decodeFrom_encodeAll [] 0 hops

/-- Decoding of `code` stops at the offset of the error, behind well-formed operations: the byte
there is no instruction, or the operand of the push there is cut off. -/
inductive DecodingStops (code : Bytes) : DecodeError → Prop where
  | unknown {ops : List Operation} {byte : UInt8} {rest : Bytes} (hops : ∀ op ∈ ops, op.WellFormed)
    (hcode : code = Operation.encodeAll ops ++ byte :: rest)
    (hbyte : Opcode.isDefined byte = false) :
    DecodingStops code (.unknownOpcode (Operation.encodeAll ops).length byte)
  | truncated {ops : List Operation} {byte : UInt8} {rest : Bytes} (hops : ∀ op ∈ ops, op.WellFormed)
    (hcode : code = Operation.encodeAll ops ++ byte :: rest)
    (hbyte : Opcode.isDefined byte = true) (hshort : rest.length < Opcode.immediateLength byte) :
    DecodingStops code (.truncatedImmediate (Operation.encodeAll ops).length byte
      (Opcode.immediateLength byte) rest.length)

/-- Where decoding fails, the bytes before are any operations that were decoded, `ops`. -/
theorem decodingStops_of_decodeFrom {done : List Instruction} {offset : Nat} {bytes : Bytes}
    {e : DecodeError} (h : decodeFrom done offset bytes = .error e) :
    ∀ ops : List Operation, (∀ op ∈ ops, op.WellFormed) → offset = (Operation.encodeAll ops).length →
      DecodingStops (Operation.encodeAll ops ++ bytes) e := by
  fun_induction decodeFrom done offset bytes with
  | case1 => cases h
  | case2 done offset byte rest hdef expected immediate hlen =>
    cases h
    intro ops hops hoffset
    simp only [immediate, List.length_take] at hlen
    have hshort : rest.length < expected := by omega
    rw [hoffset, show immediate.length = rest.length by simp [immediate, hshort.le]]
    exact .truncated hops rfl hdef hshort
  | case3 done offset byte rest hdef expected immediate hlen ih =>
    intro ops hops hoffset
    have himm : immediate.length = expected := by
      have : immediate.length ≤ expected := List.length_take_le _ _
      omega
    have hstep := ih h (ops ++ [⟨byte, immediate⟩])
      (List.forall_mem_append.2 ⟨hops, by simpa using ⟨hdef, himm⟩⟩)
      (by simp [hoffset, Operation.size, himm, Nat.add_assoc])
    simpa [Operation.encode, immediate] using hstep
  | case4 done offset byte rest hdef =>
    cases h
    intro ops hops hoffset
    rw [hoffset]
    exact .unknown hops rfl (by simpa using hdef)

/-- A byte string that is short enough fails to decode exactly at the first place where no whole
instruction stands. -/
theorem decode_eq_error_iff {code : Bytes} {e : DecodeError} (hle : code.length ≤ maxCodeLength) :
    decode code = .error e ↔ DecodingStops code e := by
  rw [decode, if_neg (by omega)]
  constructor
  · intro h
    exact decodingStops_of_decodeFrom h [] (by simp) rfl
  · intro h
    cases h with
    | unknown hops hcode hbyte =>
      rw [hcode, decodeFrom_encodeAll_append _ _ hops, decodeFrom]
      simp [hbyte]
    | truncated hops hcode hbyte hshort =>
      rw [hcode, decodeFrom_encodeAll_append _ _ hops, decodeFrom]
      simp [hbyte, hshort, hshort.le]

/-- The instructions of a beginning of a code, if it decodes, are the first ones of the code. -/
theorem isPrefix_of_decode {code start : Bytes} {instructions first : List Instruction}
    (h : decode code = .ok instructions) (hstart : decode start = .ok first)
    (hbegin : start <+: code) : first <+: instructions := by
  obtain ⟨-, ops, hops, rfl, rfl⟩ := decode_eq_ok_iff.1 h
  obtain ⟨-, firstOps, hfirst, rfl, rfl⟩ := decode_eq_ok_iff.1 hstart
  obtain ⟨rest, rfl⟩ := (Operation.encodeAll_prefix_iff hfirst hops).1 hbegin
  exact ⟨locate (0 + (Operation.encodeAll firstOps).length) rest, (locate_append 0 firstOps rest).symm⟩

section Decoded

variable {code : Bytes} {instructions : List Instruction} (h : decode code = .ok instructions)
include h

theorem wellFormed_of_decode {i : Instruction} (hi : i ∈ instructions) : i.toOperation.WellFormed := by
  obtain ⟨-, ops, hops, -, rfl⟩ := decode_eq_ok_iff.1 h
  obtain ⟨before, after, rfl, -⟩ := mem_locate_iff.1 hi
  exact hops _ (by simp)

/-- An instruction lies within the code it was read from. -/
theorem offset_add_size_le_of_decode {i : Instruction} (hi : i ∈ instructions) :
    i.offset + i.size ≤ code.length := by
  obtain ⟨-, ops, -, rfl, rfl⟩ := decode_eq_ok_iff.1 h
  obtain ⟨before, after, rfl, hlen⟩ := mem_locate_iff.1 hi
  simp only [Operation.encodeAll_append, Operation.encodeAll_cons, Operation.encodeAll_nil,
    List.length_append, Operation.length_encode, List.length_nil]
  omega

theorem offset_le_of_decode {i : Instruction} (hi : i ∈ instructions) :
    i.offset ≤ maxCodeLength := by
  have hle := offset_add_size_le_of_decode h hi
  have hmax := (decode_eq_ok_iff.1 h).1
  omega

/-- The first instruction, or the end of the code, is at offset 0. -/
theorem offset_zero_of_decode : (instructions[0]?.map (·.offset)).getD code.length = 0 := by
  obtain ⟨-, ops, -, rfl, rfl⟩ := decode_eq_ok_iff.1 h
  cases ops with
  | nil => rfl
  | cons op ops => rfl

/-- An instruction is followed by the next one, or by the end of the code. -/
theorem offset_add_size_of_decode {k : Nat} {i : Instruction} (hi : instructions[k]? = some i) :
    i.offset + i.size = (instructions[k + 1]?.map (·.offset)).getD code.length := by
  obtain ⟨-, ops, -, rfl, rfl⟩ := decode_eq_ok_iff.1 h
  rw [getElem?_locate] at hi ⊢
  obtain ⟨op, hop, rfl⟩ := Option.map_eq_some_iff.1 hi
  have htake : (Operation.encodeAll (ops.take (k + 1))).length =
      (Operation.encodeAll (ops.take k)).length + op.size := by
    rw [List.take_add_one, hop]
    simp
  cases hnext : ops[k + 1]? with
  | some next => simp [htake]
  | none =>
    rw [List.take_of_length_le (List.getElem?_eq_none_iff.1 hnext)] at htake
    simp [htake]

theorem pairwise_offset_of_decode : instructions.Pairwise (·.offset < ·.offset) := by
  obtain ⟨-, ops, -, -, rfl⟩ := decode_eq_ok_iff.1 h
  exact pairwise_offset_locate 0 ops

/-- No two instructions start at one offset. -/
theorem index_unique_of_decode {k k' : Nat} {i i' : Instruction} (hi : instructions[k]? = some i)
    (hi' : instructions[k']? = some i') (hoffset : i.offset = i'.offset) : k = k' := by
  obtain ⟨hk, rfl⟩ := List.getElem?_eq_some_iff.1 hi
  obtain ⟨hk', rfl⟩ := List.getElem?_eq_some_iff.1 hi'
  have hlt := List.pairwise_iff_getElem.1 (pairwise_offset_of_decode h)
  rcases lt_trichotomy k k' with hless | heq | hless
  · exact absurd hoffset (hlt k k' hk hk' hless).ne
  · exact heq
  · exact absurd hoffset (hlt k' k hk' hk hless).ne'

end Decoded

end Instruction

end EvmSandbox
