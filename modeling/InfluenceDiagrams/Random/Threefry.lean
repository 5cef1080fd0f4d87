/-!
# `InfluenceDiagrams.Random.Threefry` — counter-based random bits

The Threefry block function with two 32-bit words and twenty rounds turns a key and a counter into two
words. Keys split into two new keys, bits are read at positions, and integers below a bound are made
from two words of bits. All arithmetic wraps at 32 bits.

## Contents
- **`Key`** — two words; `Key.ofSeed` starts from a seed.
- **`Key.block`** — the block function.
- **`Key.split`, `Key.bits`** — new keys and words of bits.
- **`Key.below`** — an integer below a bound, at a position.
-/

namespace InfluenceDiagrams.Random

/-- A key of two words. -/
structure Key where
  fst : UInt32
  snd : UInt32
  deriving Repr, DecidableEq

/-- Rotate a word to the left. -/
def rotateLeft (x r : UInt32) : UInt32 := (x <<< r) ||| (x >>> (32 - r))

/-- One round: add, rotate, exclusive or. -/
def mix (x : UInt32 × UInt32) (r : UInt32) : UInt32 × UInt32 :=
  let a := x.1 + x.2
  (a, rotateLeft x.2 r ^^^ a)

/-- The rotations of the even and of the odd groups of four rounds. -/
def rotations (group : Nat) : List UInt32 :=
  if group % 2 = 0 then [13, 15, 26, 6] else [17, 29, 16, 24]

namespace Key

/-- The key of a seed below `2 ^ 32`. -/
def ofSeed (seed : Nat) : Key := ⟨0, UInt32.ofNat seed⟩

/-- The three words of the key schedule, used in turn. -/
def schedule (key : Key) (i : Nat) : UInt32 :=
  match i % 3 with
  | 0 => key.fst
  | 1 => key.snd
  | _ => key.fst ^^^ key.snd ^^^ 0x1BD11BDA

/-- Five groups of four rounds, a word of the key schedule added before and after each group. -/
def block (key : Key) (x0 x1 : UInt32) : UInt32 × UInt32 :=
  (List.range 5).foldl
    (fun x i =>
      let y := (rotations i).foldl mix x
      (y.1 + key.schedule (i + 1), y.2 + key.schedule (i + 2) + UInt32.ofNat (i + 1)))
    (x0 + key.schedule 0, x1 + key.schedule 1)

/-- Two new keys. -/
def split (key : Key) : Key × Key :=
  let a := key.block 0 0
  let b := key.block 0 1
  (⟨a.1, a.2⟩, ⟨b.1, b.2⟩)

/-- The word of bits at a position. -/
def bits (key : Key) (i : Nat) : UInt32 :=
  let x := key.block 0 (UInt32.ofNat i)
  x.1 ^^^ x.2

/-- An integer below `span` at a position. Two words stand for one number of 64 bits, whose remainder
is put together from the remainders of the words. -/
def below (key : Key) (span : UInt32) (i : Nat) : UInt32 :=
  let (a, b) := key.split
  let half := (65536 : UInt32) % span
  let weight := (half * half) % span
  ((a.bits i % span) * weight + b.bits i % span) % span

end Key
end InfluenceDiagrams.Random
