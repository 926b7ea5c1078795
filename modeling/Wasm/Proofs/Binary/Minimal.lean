import Mathlib.Algebra.Group.Int.Defs
import Wasm.Proofs.Binary.Grammar

/-!
The shortest way to write an integer.

The grammar allows an integer to be written with more groups than it needs. `encodeUnsigned` and
`encodeSigned` write it with as few as possible: they go on until nothing is left of the number but
its sign, and the last group shows that sign.

* `isUnsigned_encodeUnsigned`, `isSigned_encodeSigned`: what they write is a form of the integer at
  every width that it fits;
* `IsUnsigned.length_le`, `IsSigned.length_le`: no form at a width has more groups than the width
  allows;
* `IsUnsigned.length_encode_le`, `IsSigned.length_encode_le`: no form is shorter;
* `integers_read_back`: at every width up to 64 bits, an integer is read from its shortest form,
  whatever bytes stand before and after it.
-/

namespace Wasm

theorem BytesAt.of_append (before bytes after : List UInt8) :
    BytesAt (before ++ bytes ++ after).toArray before.length bytes := by
  have whole := BytesAt.toList (before ++ bytes ++ after).toArray
  rw [List.append_assoc] at whole ⊢
  have behind := (BytesAt.append_iff.mp whole).2
  rw [Nat.zero_add] at behind
  exact (BytesAt.append_iff.mp behind).1

namespace Leb128

open Reader

/-- The bytes of a number: seven bits in each, lowest first, until nothing is left. -/
def encodeUnsigned (value : Nat) : List UInt8 :=
  if value / 128 = 0 then [UInt8.ofNat (value % 128)]
  else UInt8.ofNat (value % 128 + 128) :: encodeUnsigned (value / 128)
termination_by value
decreasing_by omega

/-- The seven lowest bits of an integer in two's complement. -/
def lowGroup (value : Int) : Nat :=
  (value % 128).toNat

/-- The bytes of an integer: seven bits in each, lowest first, until what is left is the sign that
the last group shows in its highest bit. -/
def encodeSigned (value : Int) : List UInt8 :=
  if value / 128 = 0 ∧ lowGroup value < 64 ∨ value / 128 = -1 ∧ 64 ≤ lowGroup value then
    [UInt8.ofNat (lowGroup value)]
  else UInt8.ofNat (lowGroup value + 128) :: encodeSigned (value / 128)
termination_by value.natAbs
decreasing_by
  unfold lowGroup at *
  omega

theorem toNat_ofNat {n : Nat} (small : n < 256) : (UInt8.ofNat n).toNat = n :=
  Nat.mod_eq_of_lt small

theorem lowGroup_lt (value : Int) : lowGroup value < 128 := by
  unfold lowGroup
  omega

/-- An integer is its lowest group and what is left without it. -/
theorem lowGroup_add (value : Int) : (lowGroup value : Int) + 128 * (value / 128) = value := by
  unfold lowGroup
  omega

variable {bits : Nat} {bytes : List UInt8}

/-! ### Numbers -/

theorem encodeUnsigned_ne_nil (value : Nat) : encodeUnsigned value ≠ [] := by
  rw [encodeUnsigned]
  split
  · exact List.cons_ne_nil _ _
  · exact List.cons_ne_nil _ _

/-- What is written for a number is a form of it at every width that it fits. -/
theorem isUnsigned_encodeUnsigned {value : Nat} (some : 0 < bits) (fits : value < 2 ^ bits) :
    IsUnsigned bits (encodeUnsigned value) value := by
  induction value using encodeUnsigned.induct generalizing bits with
  | case1 value last =>
    have byte : (UInt8.ofNat (value % 128)).toNat = value := by
      rw [toNat_ofNat (by omega)]
      omega
    rw [encodeUnsigned, if_pos last]
    have form : IsUnsigned bits [UInt8.ofNat (value % 128)] (UInt8.ofNat (value % 128)).toNat :=
      .last (by omega) (by omega)
    rwa [byte] at form
  | case2 value more ih =>
    have byte : (UInt8.ofNat (value % 128 + 128)).toNat = value % 128 + 128 :=
      toNat_ofNat (by omega)
    -- From 128 on, seven bits are too few.
    have room : 7 < bits := by
      apply Nat.lt_of_not_le
      intro few
      have pow : 2 ^ bits ≤ 2 ^ 7 := Nat.pow_le_pow_right (by decide) few
      omega
    have high : value / 128 < 2 ^ (bits - 7) := by
      rw [pow_of_room room] at fits
      omega
    have continues : 128 ≤ (UInt8.ofNat (value % 128 + 128)).toNat := by omega
    have form := IsUnsigned.more continues room (ih (by omega) high)
    have whole : (UInt8.ofNat (value % 128 + 128)).toNat - 128 + 128 * (value / 128) = value := by
      omega
    rw [encodeUnsigned, if_neg more]
    rwa [whole] at form

namespace IsUnsigned

variable {value : Nat}

theorem length_le (form : IsUnsigned bits bytes value) (some : 0 < bits) :
    bytes.length ≤ maxGroups bits := by
  unfold maxGroups
  induction form with
  | last _ _ =>
    rw [List.length_singleton]
    omega
  | more _ room _ ih =>
    have shorter := ih (by omega)
    rw [List.length_cons]
    omega

/-- No form of a number is shorter than the one that is written for it. -/
theorem length_encode_le (form : IsUnsigned bits bytes value) :
    (encodeUnsigned value).length ≤ bytes.length := by
  induction form with
  | last low _ =>
    rw [encodeUnsigned, if_pos (by omega)]
    exact Nat.le_refl 1
  | @more bits byte bytes value high _ _ ih =>
    have small := byte.toNat_lt
    have rest : (byte.toNat - 128 + 128 * value) / 128 = value := by omega
    rw [encodeUnsigned, rest]
    split
    · exact Nat.succ_le_succ (Nat.zero_le _)
    · exact Nat.succ_le_succ ih

end IsUnsigned

/-! ### Integers with a sign -/

/-- What is written for an integer is a form of it at every width that it fits. -/
theorem isSigned_encodeSigned {value : Int} (some : 0 < bits)
    (lower : -(2 ^ (bits - 1) : Nat) ≤ value) (upper : value < (2 ^ (bits - 1) : Nat)) :
    IsSigned bits (encodeSigned value) value := by
  induction value using encodeSigned.induct generalizing bits with
  | case1 value last =>
    have low := lowGroup_lt value
    have split := lowGroup_add value
    have byte : (UInt8.ofNat (lowGroup value)).toNat = lowGroup value := toNat_ofNat (by omega)
    rw [encodeSigned, if_pos last]
    rcases last with ⟨none, positive⟩ | ⟨sign, negative⟩
    · have form : IsSigned bits [UInt8.ofNat (lowGroup value)]
          (UInt8.ofNat (lowGroup value)).toNat := .positive (by omega) (by omega)
      have whole : ((UInt8.ofNat (lowGroup value)).toNat : Int) = value := by omega
      rwa [whole] at form
    · have form : IsSigned bits [UInt8.ofNat (lowGroup value)]
          ((UInt8.ofNat (lowGroup value)).toNat - 128) :=
        .negative (by omega) (by omega) (by omega)
      have whole : ((UInt8.ofNat (lowGroup value)).toNat : Int) - 128 = value := by omega
      rwa [whole] at form
  | case2 value more ih =>
    have low := lowGroup_lt value
    have split := lowGroup_add value
    have byte : (UInt8.ofNat (lowGroup value + 128)).toNat = lowGroup value + 128 :=
      toNat_ofNat (by omega)
    -- Below `-64` and from 64 on, seven bits are too few.
    have room : 7 < bits := by
      apply Nat.lt_of_not_le
      intro few
      have pow : 2 ^ (bits - 1) ≤ 2 ^ 6 := Nat.pow_le_pow_right (by decide) (by omega)
      omega
    have pow := pow_pred_of_room room
    have continues : 128 ≤ (UInt8.ofNat (lowGroup value + 128)).toNat := by omega
    have form := IsSigned.more continues room (ih (by omega) (by omega) (by omega))
    have whole : ((UInt8.ofNat (lowGroup value + 128)).toNat : Int) - 128 + 128 * (value / 128) =
        value := by omega
    rw [encodeSigned, if_neg more]
    rwa [whole] at form

namespace IsSigned

variable {value : Int}

theorem length_le (form : IsSigned bits bytes value) (some : 0 < bits) :
    bytes.length ≤ maxGroups bits := by
  unfold maxGroups
  induction form with
  | positive _ _ =>
    rw [List.length_singleton]
    omega
  | negative _ _ _ =>
    rw [List.length_singleton]
    omega
  | more _ room _ ih =>
    have shorter := ih (by omega)
    rw [List.length_cons]
    omega

/-- No form of an integer is shorter than the one that is written for it. -/
theorem length_encode_le (form : IsSigned bits bytes value) :
    (encodeSigned value).length ≤ bytes.length := by
  induction form with
  | positive low _ =>
    rw [encodeSigned, if_pos (.inl (by unfold lowGroup; omega))]
    exact Nat.le_refl 1
  | negative low high _ =>
    rw [encodeSigned, if_pos (.inr (by unfold lowGroup; omega))]
    exact Nat.le_refl 1
  | @more bits byte bytes value high _ _ ih =>
    have small := byte.toNat_lt
    have rest : ((byte.toNat : Int) - 128 + 128 * value) / 128 = value := by omega
    rw [encodeSigned, rest]
    split
    · exact Nat.succ_le_succ (Nat.zero_le _)
    · exact Nat.succ_le_succ ih

end IsSigned

/-! ### Reading back what was written -/

/-- At every width up to 64 bits, every integer of that width is read from its shortest form and
from nothing more, whatever bytes stand before and after it. The form has no more groups than the
width allows, and none of the integer's forms has fewer. -/
theorem integers_read_back {bits : Nat} (some : 1 ≤ bits) (few : bits ≤ 64)
    (before after : List UInt8) :
    (∀ value : Nat, value < 2 ^ bits →
      unsigned bits (before ++ encodeUnsigned value ++ after).toArray before.length =
          .ok (value, before.length + (encodeUnsigned value).length) ∧
        (encodeUnsigned value).length ≤ (bits + 6) / 7 ∧
        ∀ other, IsUnsigned bits other value →
          (encodeUnsigned value).length ≤ other.length) ∧
    (∀ value : Int, -(2 ^ (bits - 1)) ≤ value → value < 2 ^ (bits - 1) →
      signed bits (before ++ encodeSigned value ++ after).toArray before.length =
          .ok (value, before.length + (encodeSigned value).length) ∧
        (encodeSigned value).length ≤ (bits + 6) / 7 ∧
        ∀ other, IsSigned bits other value → (encodeSigned value).length ≤ other.length) := by
  constructor
  · intro value fits
    have form := isUnsigned_encodeUnsigned some fits
    refine ⟨?_, form.length_le some, fun other => IsUnsigned.length_encode_le⟩
    exact form.reads some few _ _ (.of_append before _ after)
  · intro value lower upper
    have form : IsSigned bits (encodeSigned value) value := by
      apply isSigned_encodeSigned some
      · simpa using lower
      · simpa using upper
    refine ⟨?_, form.length_le some, fun other => IsSigned.length_encode_le⟩
    exact form.reads some few _ _ (.of_append before _ after)

/-- The theorem at the least integer of 64 bits, whose tenth group holds nothing but the sign, with
bytes around it that could be taken for further groups. -/
theorem least_word_read_back :
    encodeSigned (-0x8000000000000000) =
        [0x80, 0x80, 0x80, 0x80, 0x80, 0x80, 0x80, 0x80, 0x80, 0x7F] ∧
      signed 64 #[0x80, 0x80, 0x80, 0x80, 0x80, 0x80, 0x80, 0x80, 0x80, 0x80, 0x7F, 0xFF] 1 =
        .ok (-0x8000000000000000, 11) := by
  have written : encodeSigned (-0x8000000000000000) =
      [0x80, 0x80, 0x80, 0x80, 0x80, 0x80, 0x80, 0x80, 0x80, 0x7F] := by decide +kernel
  have read := ((@integers_read_back 64 (by decide) (by decide) [0x80] [0xFF]).2
    (-0x8000000000000000) (by decide) (by decide)).1
  rw [written] at read
  exact ⟨written, read⟩

end Leb128

end Wasm
