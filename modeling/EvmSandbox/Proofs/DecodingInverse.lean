/-
Decoding and encoding are inverse to each other. What decoding returns are
exactly the listings, well-formed instructions that lie end to end from offset
0 on, and encoding a listing gives back the bytes it was read from. Where
decoding fails, it fails at the first place where no whole instruction stands:
what lies before decodes, and the error tells what stands there
(`decode_inverts_encode`).
-/
import EvmSandbox.Proofs.Decoding

namespace EvmSandbox.Instruction

/-! ## Listings -/

/-- The first instruction starts at `offset`, and each next one where the one before ends. -/
def EndToEnd (offset : Nat) : List Instruction → Prop
  | [] => True
  | i :: rest => i.offset = offset ∧ EndToEnd (i.offset + i.size) rest

/-- What a byte string can be read as. -/
structure Listing (instructions : List Instruction) : Prop where
  endToEnd : EndToEnd 0 instructions
  wellFormed : ∀ i ∈ instructions, i.toOperation.WellFormed

theorem endToEnd_iff {offset : Nat} {instructions : List Instruction} :
    EndToEnd offset instructions ↔ instructions = locate offset (instructions.map (·.toOperation)) := by
  induction instructions generalizing offset with
  | nil => simp [EndToEnd, locate]
  | cons i rest ih =>
    obtain ⟨op, start⟩ := i
    simp only [EndToEnd, List.map_cons, locate, List.cons.injEq, Instruction.mk.injEq, true_and]
    constructor
    · rintro ⟨rfl, hrest⟩
      exact ⟨rfl, ih.1 hrest⟩
    · rintro ⟨rfl, hrest⟩
      exact ⟨rfl, ih.2 hrest⟩

theorem endToEnd_locate (offset : Nat) (ops : List Operation) : EndToEnd offset (locate offset ops) := by
  rw [endToEnd_iff, map_toOperation_locate]

theorem listing_iff {instructions : List Instruction} :
    Listing instructions ↔
      ∃ ops : List Operation, (∀ op ∈ ops, op.WellFormed) ∧ instructions = locate 0 ops := by
  constructor
  · rintro ⟨hplaced, hwell⟩
    exact ⟨_, List.forall_mem_map.2 hwell, endToEnd_iff.1 hplaced⟩
  · rintro ⟨ops, hops, rfl⟩
    refine ⟨endToEnd_locate 0 ops, fun i hi => ?_⟩
    exact hops _ (mem_locate_iff.1 hi).mem

/-- A byte string that is short enough decodes to the listings that encode to it. -/
theorem decode_eq_ok_iff_listing {code : Bytes} (hle : code.length ≤ maxCodeLength)
    {instructions : List Instruction} :
    decode code = .ok instructions ↔ Listing instructions ∧ encodeAll instructions = code := by
  rw [decode_eq_ok_iff, listing_iff]
  constructor
  · rintro ⟨-, ops, hops, rfl, rfl⟩
    exact ⟨⟨ops, hops, rfl⟩, by rw [encodeAll, map_toOperation_locate]⟩
  · rintro ⟨⟨ops, hops, rfl⟩, rfl⟩
    exact ⟨hle, ops, hops, by rw [encodeAll, map_toOperation_locate], rfl⟩

/-! ## Failures -/

/-- No whole instruction stands at the offset of the error: the byte there is no instruction, or it
is a push, and fewer bytes are left behind it than it needs. -/
inductive Breaks (code : Bytes) : DecodeError → Prop where
  | unknown {offset : Nat} {byte : UInt8} (hbyte : code[offset]? = some byte)
    (hundefined : Opcode.isDefined byte = false) : Breaks code (.unknownOpcode offset byte)
  | truncated {offset available : Nat} {byte : UInt8} (hbyte : code[offset]? = some byte)
    (hpush : Opcode.isPush byte = true) (hend : offset + 1 + available = code.length)
    (hshort : available < Opcode.immediateLength byte) :
    Breaks code (.truncatedImmediate offset byte (Opcode.immediateLength byte) available)

/-- A byte that is followed by less than its operand is a push. -/
theorem isPush_of_lt_immediateLength {byte : UInt8} {available : Nat}
    (h : available < Opcode.immediateLength byte) : Opcode.isPush byte = true := by
  by_contra hpush
  rw [Opcode.immediateLength_eq_zero (by simpa using hpush)] at h
  omega

theorem decode_encodeAll {ops : List Operation} (hops : ∀ op ∈ ops, op.WellFormed)
    (hle : (Operation.encodeAll ops).length ≤ maxCodeLength) :
    decode (Operation.encodeAll ops) = .ok (locate 0 ops) :=
  decode_eq_ok_iff.2 ⟨hle, ops, hops, rfl, rfl⟩

theorem DecodingStops.breaks {code : Bytes} {e : DecodeError} (h : DecodingStops code e)
    (hle : code.length ≤ maxCodeLength) :
    (∃ before, decode (code.take e.offset) = .ok before) ∧ Breaks code e := by
  -- both errors are at the end of operations that decode
  have hbefore : ∀ {ops : List Operation} {rest : Bytes}, (∀ op ∈ ops, op.WellFormed) →
      code = Operation.encodeAll ops ++ rest →
      decode (code.take (Operation.encodeAll ops).length) = .ok (locate 0 ops) := by
    intro ops rest hops hcode
    rw [hcode, List.length_append] at hle
    rw [hcode, List.take_left]
    exact decode_encodeAll hops (by omega)
  cases h with
  | unknown hops hcode hbyte => exact ⟨⟨_, hbefore hops hcode⟩, .unknown (by simp [hcode]) hbyte⟩
  | truncated hops hcode hbyte hshort =>
    refine ⟨⟨_, hbefore hops hcode⟩, .truncated (by simp [hcode]) (isPush_of_lt_immediateLength hshort)
      ?_ hshort⟩
    simp only [hcode, List.length_append, List.length_cons]
    omega

/-- The code is a beginning that decodes, the byte at its end, and what is behind that byte. -/
theorem exists_split_of_decode_take {code : Bytes} {offset : Nat} {before : List Instruction}
    {byte : UInt8} (hbefore : decode (code.take offset) = .ok before)
    (hbyte : code[offset]? = some byte) :
    ∃ (ops : List Operation) (rest : Bytes), (∀ op ∈ ops, op.WellFormed) ∧
      (Operation.encodeAll ops).length = offset ∧ code = Operation.encodeAll ops ++ byte :: rest := by
  obtain ⟨-, ops, hops, htake, -⟩ := decode_eq_ok_iff.1 hbefore
  obtain ⟨hlt, rfl⟩ := List.getElem?_eq_some_iff.1 hbyte
  refine ⟨ops, code.drop (offset + 1), hops, ?_, ?_⟩
  · rw [← htake, List.length_take]
    omega
  · rw [← htake, List.getElem_cons_drop, List.take_append_drop]

theorem Breaks.decodingStops {code : Bytes} {e : DecodeError} (h : Breaks code e)
    {before : List Instruction} (hbefore : decode (code.take e.offset) = .ok before) :
    DecodingStops code e := by
  cases h with
  | unknown hbyte hundefined =>
    obtain ⟨ops, rest, hops, rfl, hcode⟩ := exists_split_of_decode_take hbefore hbyte
    exact .unknown hops hcode hundefined
  | @truncated _ available _ hbyte hpush hend hshort =>
    obtain ⟨ops, rest, hops, rfl, hcode⟩ := exists_split_of_decode_take hbefore hbyte
    have hdefined := (Opcode.push_spec (Opcode.immediateLength_pos hpush) (Opcode.immediateLength_le _)).1
    rw [Opcode.push_immediateLength hpush] at hdefined
    rw [hcode, List.length_append, List.length_cons] at hend
    obtain rfl : available = rest.length := by omega
    exact .truncated hops hcode hdefined hshort

/-- **Decoding inverts encoding.** A code that 32-bit offsets can address decodes to a list of
instructions if and only if that is a listing and encodes to the code. It fails with an error if and
only if what lies before the offset of the error decodes and the instruction there breaks off as the
error says. -/
theorem decode_inverts_encode {code : Bytes} (h : code.length < 2 ^ 32) :
    (∀ instructions, decode code = .ok instructions ↔
      Listing instructions ∧ encodeAll instructions = code) ∧
    ∀ e, decode code = .error e ↔
      (∃ before, decode (code.take e.offset) = .ok before) ∧ Breaks code e := by
  have hle : code.length ≤ maxCodeLength := Nat.le_of_lt_succ h
  refine ⟨fun instructions => decode_eq_ok_iff_listing hle, fun e => ?_⟩
  rw [decode_eq_error_iff hle]
  constructor
  · exact fun hstops => hstops.breaks hle
  · rintro ⟨⟨before, hbefore⟩, hbreaks⟩
    exact hbreaks.decodingStops hbefore

/-- `PUSH1 0x5b`, `JUMPDEST`, and a `PUSH2` with one byte left: the operand that looks like a
destination is passed over, and what breaks off is the second push. -/
theorem decode_inverts_encode_truncatedPush :
    List.length [0x60, 0x5b, 0x5b, 0x61, (0x00 : UInt8)] < 2 ^ 32 ∧
      decode [0x60, 0x5b, 0x5b, 0x61, 0x00] = .error (.truncatedImmediate 3 0x61 2 1) ∧
      (∃ before, decode ([0x60, 0x5b, 0x5b, 0x61, 0x00].take 3) = .ok before) ∧
      Breaks [0x60, 0x5b, 0x5b, 0x61, 0x00] (.truncatedImmediate 3 0x61 2 1) := by
  have hfails : decode [0x60, 0x5b, 0x5b, 0x61, 0x00] = .error (.truncatedImmediate 3 0x61 2 1) := by
    decide +kernel
  exact ⟨by decide, hfails, ((decode_inverts_encode (by decide)).2 _).1 hfails⟩

end EvmSandbox.Instruction
