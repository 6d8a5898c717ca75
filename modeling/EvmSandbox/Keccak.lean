/-
The hash function keccak256: a sponge over 25 lanes of 64 bits that takes in
136 bytes at a time.
-/
import EvmSandbox.Bytes

namespace EvmSandbox.Keccak

/-- The 25 lanes; lane `x + 5 * y` stands in column `x` of row `y`. -/
abbrev State := Array UInt64

private def lane (s : State) (i : Nat) : UInt64 := s.getD i 0

private def rotateLeft (w : UInt64) (n : UInt64) : UInt64 :=
  if n == 0 then w else (w <<< n) ||| (w >>> (64 - n))

private def roundConstants : List UInt64 :=
  [0x0000000000000001, 0x0000000000008082, 0x800000000000808a, 0x8000000080008000,
   0x000000000000808b, 0x0000000080000001, 0x8000000080008081, 0x8000000000008009,
   0x000000000000008a, 0x0000000000000088, 0x0000000080008009, 0x000000008000000a,
   0x000000008000808b, 0x800000000000008b, 0x8000000000008089, 0x8000000000008003,
   0x8000000000008002, 0x8000000000000080, 0x000000000000800a, 0x800000008000000a,
   0x8000000080008081, 0x8000000000008080, 0x0000000080000001, 0x8000000080008008]

/-- The rotation of each lane, by lane number. -/
private def rotations : Array UInt64 :=
  #[0, 1, 62, 28, 27, 36, 44, 6, 55, 20, 3, 10, 43, 25, 39, 41, 45, 15, 21, 8, 18, 2, 61, 56, 14]

/-- The lane that moves to each place, by the number of the place. -/
private def movedFrom : Array Nat :=
  #[0, 6, 12, 18, 24, 3, 9, 10, 16, 22, 1, 7, 13, 19, 20, 4, 5, 11, 17, 23, 2, 8, 14, 15, 21]

private def columns : Array Nat := #[0, 1, 2, 3, 4]

private def places : Array Nat := Array.range 25

/-- Adds to each lane the parities of the columns beside it. -/
private def mixColumns (s : State) : State :=
  let parity := columns.map fun x =>
    lane s x ^^^ lane s (x + 5) ^^^ lane s (x + 10) ^^^ lane s (x + 15) ^^^ lane s (x + 20)
  let added := columns.map fun x =>
    lane parity ((x + 4) % 5) ^^^ rotateLeft (lane parity ((x + 1) % 5)) 1
  places.map fun i => lane s i ^^^ lane added (i % 5)

/-- Rotates each lane and moves it to its new place. -/
private def rotateAndMove (s : State) : State :=
  movedFrom.map fun i => rotateLeft (lane s i) (rotations.getD i 0)

/-- Combines each lane with the two after it in its row. -/
private def mixRows (s : State) : State :=
  places.map fun i =>
    let row := i / 5 * 5
    lane s i ^^^ (~~~ lane s (row + (i + 1) % 5) &&& lane s (row + (i + 2) % 5))

private def round (s : State) (constant : UInt64) : State :=
  let t := mixRows (rotateAndMove (mixColumns s))
  t.setIfInBounds 0 (lane t 0 ^^^ constant)

def permute (s : State) : State :=
  roundConstants.foldl round s

/-- The number of bytes taken in before each permutation. -/
def rate : Nat := 136

/-- Eight bytes as a lane, least significant byte first. -/
private def laneOfBytes (bytes : Bytes) : UInt64 :=
  bytes.foldr (fun byte value => (value <<< 8) ||| byte.toUInt64) 0

private def bytesOfLane (w : UInt64) : Bytes :=
  (List.range 8).map fun i => (w >>> (8 * i).toUInt64).toUInt8

/-- Takes in one block of `rate` bytes. -/
private def absorb (s : State) (block : Bytes) : State :=
  let mixed := (Array.range 17).foldl
    (fun (acc : State × Bytes) i =>
      (acc.1.setIfInBounds i (lane acc.1 i ^^^ laneOfBytes (acc.2.take 8)), acc.2.drop 8))
    (s, block)
  permute mixed.1

/-- The last block: a bit after the message, and a bit at the end of the block. -/
private def pad (rest : Bytes) : Bytes :=
  if rest.length + 1 = rate then rest ++ [0x81]
  else rest ++ [0x01] ++ List.replicate (rate - rest.length - 2) 0 ++ [0x80]

/-- Takes in `blocks` full blocks of `message` and then its padded rest. -/
private def absorbAll (s : State) : (blocks : Nat) → (message : Bytes) → State
  | 0, message => absorb s (pad message)
  | blocks + 1, message => absorbAll (absorb s (message.take rate)) blocks (message.drop rate)

private def squeeze (s : State) : Bytes :=
  (s.toList.take 4).flatMap bytesOfLane

/-- The keccak256 hash of a message. -/
def hash (message : Bytes) : FixedBytes 32 :=
  let state := absorbAll (Array.replicate 25 0) (message.length / rate) message
  FixedBytes.ofNat 32 (Bytes.toNat (squeeze state))

end EvmSandbox.Keccak
