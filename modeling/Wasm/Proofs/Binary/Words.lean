import Mathlib.Algebra.Order.Ring.Int
import Mathlib.Data.Nat.Bitwise
import Wasm.Binary.Leb128

/-!
Integers of any size, and the words in which they are read.

An integer is read into a word of 64 bits, by shifts and masks. Here the same bytes are read as
integers without bounds (`unsignedGroups`, `signedGroups`), and the two are shown to agree: the word
is the integer modulo `2 ^ 64`, the sign that fills it weighs what the sign of the integer weighs,
and the shifts by which a word is looked at find exactly the integers that do not fit.

* `groupBits_or`: putting a group below others is adding it to 128 times the others;
* `collect_unsigned`, `collect_signed`: what is collected is the integer, reduced to a word;
* `shiftRight_eq_zero_iff`, `shifted_back_iff`: the integers that fit;
* `unsigned_eq`, `signed_eq`: reads by words as reads of integers, at every width.
-/

namespace Wasm.Leb128

open Reader

/-! ### Integers without bounds -/

/-- The value of at most `groups` unsigned groups. Failing to end within them is `tooLong`. -/
def unsignedGroups (tooLong : DecodeError) : (groups : Nat) → Reader Nat
  | 0 => fail tooLong
  | groups + 1 => do
    let b ← byte
    if b.toNat < 128 then
      pure b.toNat
    else
      let high ← unsignedGroups tooLong groups
      pure (b.toNat - 128 + 128 * high)

/-- The value of at most `groups` groups, the last of them signed: it counts from `-64` to `63`. -/
def signedGroups (tooLong : DecodeError) : (groups : Nat) → Reader Int
  | 0 => fail tooLong
  | groups + 1 => do
    let b ← byte
    if b.toNat < 64 then
      pure (b.toNat : Int)
    else if b.toNat < 128 then
      pure ((b.toNat : Int) - 128)
    else
      let high ← signedGroups tooLong groups
      pure ((b.toNat : Int) - 128 + 128 * high)

/-- How many values a 64-bit integer can have. -/
def wordValues : Nat := 0x10000000000000000

/-- Whether a number can be written with `bits` bits. -/
def FitsUnsigned (bits value : Nat) : Prop :=
  value < Nat.pow 2 bits

instance (bits value : Nat) : Decidable (FitsUnsigned bits value) :=
  inferInstanceAs (Decidable (_ < _))

/-- Whether an integer has a two's complement form of `bits` bits. -/
def FitsSigned (bits : Nat) (value : Int) : Prop :=
  -(Nat.pow 2 (bits - 1) : Int) ≤ value ∧ value < (Nat.pow 2 (bits - 1) : Int)

instance (bits : Nat) (value : Int) : Decidable (FitsSigned bits value) :=
  inferInstanceAs (Decidable (_ ∧ _))

theorem fitsSigned_iff (bits : Nat) (value : Int) :
    FitsSigned bits value ↔ -(2 ^ (bits - 1)) ≤ value ∧ value < 2 ^ (bits - 1) := by
  have power : ((Nat.pow 2 (bits - 1) : Nat) : Int) = 2 ^ (bits - 1) := Int.natCast_pow 2 (bits - 1)
  rw [FitsSigned, power]

variable {code : Bytes} {pos q groups : Nat} {tooLong : DecodeError}

/-- A read of groups uses at least one byte, and there are only so many numbers that the groups can
stand for. -/
theorem bounds_of_unsignedGroups {value : Nat}
    (read : unsignedGroups tooLong groups code pos = .ok (value, q)) :
    pos < q ∧ value < 2 ^ (7 * groups) := by
  induction groups generalizing pos q value with
  | zero => cases read
  | succ groups ih =>
    obtain ⟨b, p, first, rest⟩ := bind_eq_ok_iff.mp read
    obtain ⟨-, rfl⟩ := byte_eq_ok_iff.mp first
    have small := b.toNat_lt
    have power : 2 ^ (7 * (groups + 1)) = 128 * 2 ^ (7 * groups) := by
      rw [Nat.mul_succ, Nat.pow_add, Nat.mul_comm]
    have one : 0 < 2 ^ (7 * groups) := Nat.two_pow_pos _
    split at rest
    · cases rest
      omega
    · obtain ⟨high, p', others, last⟩ := bind_eq_ok_iff.mp rest
      cases last
      have := ih others
      omega

theorem bounds_of_signedGroups {value : Int}
    (read : signedGroups tooLong groups code pos = .ok (value, q)) :
    -(2 ^ (7 * groups) : Nat) ≤ value ∧ value < (2 ^ (7 * groups) : Nat) := by
  induction groups generalizing pos q value with
  | zero => cases read
  | succ groups ih =>
    obtain ⟨b, p, -, rest⟩ := bind_eq_ok_iff.mp read
    have small := b.toNat_lt
    have power : 2 ^ (7 * (groups + 1)) = 128 * 2 ^ (7 * groups) := by
      rw [Nat.mul_succ, Nat.pow_add, Nat.mul_comm]
    have one : 0 < 2 ^ (7 * groups) := Nat.two_pow_pos _
    split at rest
    · cases rest
      omega
    split at rest
    · cases rest
      omega
    · obtain ⟨high, p', others, last⟩ := bind_eq_ok_iff.mp rest
      cases last
      have := ih others
      omega

/-! ### Masks -/

theorem and_mask_eq_zero_iff (byte mask : UInt8) (place : Nat) (single : mask.toNat = 2 ^ place) :
    byte &&& mask = 0 ↔ byte.toNat / 2 ^ place % 2 = 0 := by
  have masked : (byte &&& mask).toNat = (byte.toNat.testBit place).toNat * 2 ^ place := by
    rw [UInt8.toNat_and, single, Nat.and_two_pow]
  rw [← UInt8.toNat_inj, masked, Nat.testBit_eq_decide_div_mod_eq]
  by_cases set : byte.toNat / 2 ^ place % 2 = 1
  · simp [set]
  · simp [set]
    omega

theorem last_iff (byte : UInt8) : byte &&& 0x80 = 0 ↔ byte.toNat < 128 := by
  have small := byte.toNat_lt
  rw [and_mask_eq_zero_iff byte 0x80 7 rfl]
  omega

theorem positive_iff (byte : UInt8) : byte &&& 0x40 = 0 ↔ byte.toNat % 128 < 64 := by
  rw [and_mask_eq_zero_iff byte 0x40 6 rfl]
  omega

theorem toNat_and_mask (byte : UInt8) : (byte &&& 0x7F).toNat = byte.toNat % 128 := by
  rw [UInt8.toNat_and]
  exact Nat.and_two_pow_sub_one_eq_mod _ 7

theorem groupBits_eq (byte : UInt8) : groupBits byte = BitVec.ofNat 64 (byte.toNat % 128) := by
  apply BitVec.eq_of_toNat_eq
  rw [groupBits, BitVec.toNat_setWidth, UInt8.toNat_toBitVec, toNat_and_mask, BitVec.toNat_ofNat]

/-! ### Words that stand for integers -/

/-- A group below others is added to 128 times the others: their bits are apart. -/
theorem groupBits_or (byte : UInt8) (shift : Nat) (high : Word) :
    groupBits byte <<< shift ||| high <<< (shift + 7) =
      (groupBits byte + 128#64 * high) <<< shift := by
  have apart : groupBits byte &&& high <<< 7 = 0#64 := by
    rw [groupBits_eq]
    apply BitVec.eq_of_getLsbD_eq
    intro i inside
    by_cases low : i < 7
    · simp [low]
    · have bound : 2 ^ 7 ≤ 2 ^ i := Nat.pow_le_pow_right (by decide) (Nat.not_lt.mp low)
      have clear : (byte.toNat % 128).testBit i = false :=
        Nat.testBit_lt_two_pow (Nat.lt_of_lt_of_le (Nat.mod_lt _ (by decide)) bound)
      rw [BitVec.getLsbD_and, BitVec.getLsbD_ofNat, clear, Bool.and_false, Bool.false_and,
        BitVec.getLsbD_zero]
  have scaled : high <<< 7 = 128#64 * high := by
    rw [BitVec.shiftLeft_eq_mul_twoPow, BitVec.mul_comm]
    rfl
  rw [Nat.add_comm shift 7, BitVec.shiftLeft_add, ← BitVec.shiftLeft_or_distrib,
    ← BitVec.add_eq_or_of_and_eq_zero _ _ apart, scaled]

/-- The word of an integer is that of its lowest group, below the word of the rest. -/
theorem ofInt_group (byte : UInt8) (shift : Nat) (high : Int) :
    BitVec.ofInt 64 ((byte.toNat % 128 : Nat) + 128 * high) <<< shift =
      groupBits byte <<< shift ||| BitVec.ofInt 64 high <<< (shift + 7) := by
  rw [groupBits_or, groupBits_eq, BitVec.ofInt_add, BitVec.ofInt_mul, BitVec.ofInt_natCast]
  rfl

/-- An integer of a single group without a sign. -/
theorem ofInt_last {byte : UInt8} (low : byte.toNat < 128) (shift : Nat) :
    BitVec.ofInt 64 byte.toNat <<< shift = groupBits byte <<< shift := by
  rw [groupBits_eq, Nat.mod_eq_of_lt low, BitVec.ofInt_natCast]

/-- An integer of a single negative group: the sign fills what room there is behind it. -/
theorem ofInt_negative {byte : UInt8} (low : byte.toNat < 128) (shift : Nat) :
    BitVec.ofInt 64 ((byte.toNat : Int) - 128) <<< shift =
      groupBits byte <<< shift ||| BitVec.allOnes 64 <<< (shift + 7) := by
  have ones : BitVec.allOnes 64 = BitVec.ofInt 64 (-1) := rfl
  rw [ones, ← ofInt_group, Nat.mod_eq_of_lt low]
  rfl

theorem ofInt_shiftLeft (value : Int) (shift : Nat) :
    BitVec.ofInt 64 value <<< shift = BitVec.ofInt 64 (value * 2 ^ shift) := by
  have power : BitVec.twoPow 64 shift = BitVec.ofInt 64 ((2 ^ shift : Nat) : Int) := by
    rw [BitVec.ofInt_natCast]
    apply BitVec.eq_of_toNat_eq
    rw [BitVec.toNat_twoPow, BitVec.toNat_ofNat]
  rw [BitVec.shiftLeft_eq_mul_twoPow, power, ← BitVec.ofInt_mul, Nat.cast_pow]
  rfl

theorem toInt_ofInt_of_lt {value : Int} (lower : -2 ^ 63 ≤ value) (upper : value < 2 ^ 63) :
    (BitVec.ofInt 64 value).toInt = value := by
  rw [BitVec.toInt_ofInt]
  apply Int.bmod_eq_of_le
  · omega
  · omega

/-! ### Collecting groups -/

theorem collect_unsigned (tooLong : DecodeError) (groups : Nat) (word : Word) (shift : Nat) :
    collect false tooLong groups word shift = (do
      let value ← unsignedGroups tooLong groups
      pure (word ||| BitVec.ofInt 64 value <<< shift)) := by
  induction groups generalizing word shift with
  | zero => rfl
  | succ groups ih =>
    rw [collect, unsignedGroups, bind_assoc]
    congr 1
    funext byte
    by_cases low : byte.toNat < 128
    · rw [if_pos ((last_iff byte).mpr low), if_neg (by simp), if_pos low, pure_bind,
        ofInt_last low]
    · have small := byte.toNat_lt
      rw [if_neg (mt (last_iff byte).mp low), if_neg low, ih, bind_assoc]
      congr 1
      funext high
      have split : ((byte.toNat - 128 + 128 * high : Nat) : Int) =
          (byte.toNat % 128 : Nat) + 128 * (high : Int) := by omega
      rw [pure_bind, split, ofInt_group, BitVec.or_assoc]

theorem collect_signed (tooLong : DecodeError) (groups : Nat) (word : Word) (shift : Nat) :
    collect true tooLong groups word shift = (do
      let value ← signedGroups tooLong groups
      pure (word ||| BitVec.ofInt 64 value <<< shift)) := by
  induction groups generalizing word shift with
  | zero => rfl
  | succ groups ih =>
    rw [collect, signedGroups, bind_assoc]
    congr 1
    funext byte
    have small := byte.toNat_lt
    by_cases low : byte.toNat < 128
    · rw [if_pos ((last_iff byte).mpr low)]
      by_cases positive : byte.toNat < 64
      · have plain : byte &&& 0x40 = 0 := (positive_iff byte).mpr (by omega)
        rw [if_neg fun sign => sign.2.2 plain, if_pos positive, pure_bind, ofInt_last low]
      · have sign : byte &&& 0x40 ≠ 0 := mt (positive_iff byte).mp (by omega)
        rw [if_neg positive, if_pos low, pure_bind, ofInt_negative low, ← BitVec.or_assoc]
        by_cases room : shift + 7 < 64
        · rw [if_pos ⟨rfl, room, sign⟩]
        · -- The last group reaches the end of the word, so there is nothing to fill.
          rw [if_neg fun fills => room fills.2.1,
            BitVec.shiftLeft_eq_zero (Nat.not_lt.mp room), BitVec.or_zero]
    · have group : (byte.toNat : Int) - 128 = (byte.toNat % 128 : Nat) := by omega
      rw [if_neg (mt (last_iff byte).mp low), if_neg (by omega), if_neg low, ih, bind_assoc]
      congr 1
      funext high
      rw [pure_bind, group, ofInt_group, BitVec.or_assoc]

/-! ### Integers that fit -/

theorem shiftRight_eq_zero_iff {bits value : Nat} (small : value < 2 ^ 64) :
    BitVec.ofInt 64 value >>> bits = 0#64 ↔ FitsUnsigned bits value := by
  have zero : BitVec.ofInt 64 value >>> bits = 0#64 ↔ value / 2 ^ bits = 0 := by
    rw [BitVec.ofInt_natCast, ← BitVec.toNat_inj, BitVec.toNat_ushiftRight, BitVec.toNat_ofNat,
      Nat.mod_eq_of_lt small, Nat.shiftRight_eq_div_pow]
    rfl
  rw [zero, Nat.div_eq_zero_iff_lt (Nat.two_pow_pos bits)]
  rfl

/-- Shifting up and down again keeps the integers that fit, and no others: what comes down is no
larger than what fits, and what fits is not cut on its way up. -/
theorem shifted_back_iff {bits : Nat} {value : Int} (nonzero : 0 < bits) (narrow : bits < 64)
    (lower : -2 ^ 63 ≤ value) (upper : value < 2 ^ 63) :
    (BitVec.ofInt 64 value <<< (64 - bits)).sshiftRight (64 - bits) = BitVec.ofInt 64 value ↔
      FitsSigned bits value := by
  have power : (2 : Int) ^ 63 = 2 ^ (bits - 1) * 2 ^ (64 - bits) := by
    rw [← Int.pow_add]
    congr 1
    omega
  have positive : (0 : Int) < 2 ^ (64 - bits) := Int.pow_pos (by decide)
  rw [fitsSigned_iff]
  constructor
  · intro same
    have shifted := congrArg BitVec.toInt same
    rw [BitVec.toInt_sshiftRight, toInt_ofInt_of_lt lower upper, Int.shiftRight_eq_div_pow,
      Nat.cast_pow] at shifted
    have least : -2 ^ 63 ≤ (BitVec.ofInt 64 value <<< (64 - bits)).toInt := BitVec.le_toInt _
    have most : (BitVec.ofInt 64 value <<< (64 - bits)).toInt < 2 ^ 63 := BitVec.toInt_lt
    rw [power] at least most
    rw [← shifted]
    constructor
    · apply (Int.le_ediv_iff_mul_le positive).mpr
      rwa [Int.neg_mul]
    · exact Int.ediv_lt_of_lt_mul positive most
  · rintro ⟨low, high⟩
    have least : -2 ^ 63 ≤ value * 2 ^ (64 - bits) := by
      rw [power, ← Int.neg_mul]
      exact Int.mul_le_mul_of_nonneg_right low (Int.le_of_lt positive)
    have most : value * 2 ^ (64 - bits) < 2 ^ 63 := by
      rw [power]
      exact Int.mul_lt_mul_of_pos_right high positive
    apply BitVec.eq_of_toInt_eq
    rw [BitVec.toInt_sshiftRight, ofInt_shiftLeft, toInt_ofInt_of_lt least most,
      toInt_ofInt_of_lt lower upper, Int.shiftRight_eq_div_pow, Nat.cast_pow]
    exact Int.mul_ediv_cancel _ (Int.ne_of_gt positive)

/-! ### Reads of integers -/

/-- Below 64 bits there are at most nine groups, and their integer fits into a word. -/
theorem groups_le_word {bits : Nat} (narrow : bits < 64) : 2 ^ (7 * maxGroups bits) ≤ 2 ^ 63 :=
  Nat.pow_le_pow_right (by decide) (by unfold maxGroups; omega)

/-- Reads that agree on whatever is read first agree. -/
theorem bind_congr_of_ok {α β : Type} {first : Reader α} {next next' : α → Reader β}
    (same : ∀ a q, first code pos = .ok (a, q) → next a code q = next' a code q) :
    (first >>= next) code pos = (first >>= next') code pos := by
  rw [bind_apply, bind_apply]
  cases read : first code pos with
  | error e => rfl
  | ok out => exact same out.1 out.2 read

/-- An unsigned read is the read of a number without bounds, which is too large when it does not
fit, and is reduced to a word. -/
theorem unsigned_eq (bits : Nat) :
    unsigned bits = (do
      let start ← position
      let value ← unsignedGroups (.intTooLong start bits) (maxGroups bits)
      if bits < 64 ∧ ¬ FitsUnsigned bits value then
        fail (.intTooLarge start bits)
      else
        pure (value % wordValues)) := by
  unfold unsigned
  congr 1
  funext start
  rw [collect_unsigned, bind_assoc]
  funext code pos
  apply bind_congr_of_ok
  intro value q read
  rw [pure_bind, BitVec.shiftLeft_zero, BitVec.zero_or]
  have reduced : (BitVec.ofInt 64 value).toNat = value % wordValues := by
    rw [BitVec.ofInt_natCast, BitVec.toNat_ofNat]
    rfl
  by_cases narrow : bits < 64
  · have bound := (bounds_of_unsignedGroups read).2
    have word := groups_le_word narrow
    simp only [ne_eq, shiftRight_eq_zero_iff (by omega : value < 2 ^ 64), reduced]
  · simp only [narrow, false_and, if_false, reduced]

/-- A signed read is the read of an integer without bounds, which is too large when it does not fit,
and is reduced to a word. -/
theorem signed_eq (bits : Nat) :
    signed bits = (do
      let start ← position
      let value ← signedGroups (.intTooLong start bits) (maxGroups bits)
      if bits < 64 ∧ ¬ FitsSigned bits value then
        fail (.intTooLarge start bits)
      else
        pure (value.bmod wordValues)) := by
  unfold signed
  congr 1
  funext start
  rw [collect_signed, bind_assoc]
  funext code pos
  apply bind_congr_of_ok
  intro value q read
  rw [pure_bind, BitVec.shiftLeft_zero, BitVec.zero_or]
  have reduced : (BitVec.ofInt 64 value).toInt = value.bmod wordValues := BitVec.toInt_ofInt value
  by_cases narrow : bits < 64
  · obtain ⟨lower, upper⟩ := bounds_of_signedGroups read
    have word := groups_le_word narrow
    have nonzero : 0 < bits := by
      apply Nat.pos_of_ne_zero
      rintro rfl
      cases read
    simp only [ne_eq, reduced,
      shifted_back_iff nonzero narrow (by omega : -2 ^ 63 ≤ value) (by omega : value < 2 ^ 63)]
  · simp only [narrow, false_and, if_false, reduced]

end Wasm.Leb128
