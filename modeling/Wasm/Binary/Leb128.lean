import Wasm.Binary.Reader

/-! # LEB128 integers

An integer is written as groups of seven bits, lowest first, each in a byte whose high bit says
whether another group follows. An integer of `bits` bits has at most `⌈bits / 7⌉` groups. In the
signed form the highest bit of the last group is the sign.

The groups are put into a word of 64 bits, each in its place. Below 64 bits the word is then looked
at once more, to find out whether the integer fits; the 64-bit forms are left as they are, although
of a tenth group only the lowest bit has a place.
-/

namespace Wasm.Leb128

open Reader

/-- The word that the groups of an integer are put into. -/
abbrev Word := BitVec 64

/-- How many groups an integer of `bits` bits may have. -/
def maxGroups (bits : Nat) : Nat :=
  (bits + 6) / 7

/-- The seven bits of a group. -/
def groupBits (byte : UInt8) : Word :=
  (byte &&& 0x7F).toBitVec.setWidth 64

/-- Puts up to `groups` groups into a word, the first of them from the bit `shift` on. The sign, if
there is one, fills the bits behind the last group. Failing to end within the groups is `tooLong`.
-/
def collect (hasSign : Bool) (tooLong : DecodeError) :
    (groups : Nat) → Word → (shift : Nat) → Reader Word
  | 0, _, _ => fail tooLong
  | groups + 1, word, shift => do
    let byte ← byte
    let word := word ||| groupBits byte <<< shift
    let shift := shift + 7
    if byte &&& 0x80 = 0 then
      if hasSign ∧ shift < 64 ∧ byte &&& 0x40 ≠ 0 then
        pure (word ||| BitVec.allOnes 64 <<< shift)
      else
        pure word
    else
      collect hasSign tooLong groups word shift

/-- An unsigned integer of at most `bits` bits, with `bits ≤ 64`. -/
def unsigned (bits : Nat) : Reader Nat := do
  let start ← position
  let word ← collect false (.intTooLong start bits) (maxGroups bits) 0#64 0
  if bits < 64 ∧ word >>> bits ≠ 0#64 then
    fail (.intTooLarge start bits)
  else
    pure word.toNat

/-- A signed integer of at most `bits` bits, with `bits ≤ 64`. Shifting the word up and down again
keeps it when all bits from the sign on are equal. -/
def signed (bits : Nat) : Reader Int := do
  let start ← position
  let word ← collect true (.intTooLong start bits) (maxGroups bits) 0#64 0
  if bits < 64 ∧ (word <<< (64 - bits)).sshiftRight (64 - bits) ≠ word then
    fail (.intTooLarge start bits)
  else
    pure word.toInt

/-- An unsigned 32-bit integer: every index, count and size of the format. -/
def u32 : Reader Nat := unsigned 32

/-- An unsigned 64-bit integer. -/
def u64 : Reader Nat := unsigned 64

/-- A signed 32-bit integer. -/
def i32 : Reader Int := signed 32

/-- A signed 64-bit integer. -/
def i64 : Reader Int := signed 64

end Wasm.Leb128
