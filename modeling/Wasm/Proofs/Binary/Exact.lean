import Mathlib.Algebra.BigOperators.Ring.Finset
import Mathlib.Order.Bounds.Defs
import Wasm.Proofs.Binary.Locality

/-!
What a read of an integer gives, for any bytes.

The bytes of an integer are looked at with masks: the bit `0x80` says whether another group follows,
the bits `0x7F` are the group, and `0x40` in the last group is the sign of the signed form.
`EndsAt code start k` says that the integer at `start` has `k + 1` groups; `unsignedValue` and
`signedValue` are the integers that these denote, as sums over the groups, of any size.

* `signedGroups_eq`: the signed form differs from the unsigned one by the weight of its sign;
* `groups_cases`: among a number of bytes there is a last group, or all of them announce another, or
  the bytes come to their end;
* `unsigned_of_endsAt`, `signed_of_endsAt`: what is read where the groups end in time;
* `integers_read_exactly`: below 64 bits, a read gives the integer that is denoted, when it fits,
  and says what is wrong otherwise;
* `words_read_modulo`: a read of 64 bits does not make sure that the integer fits. It goes wrong in
  the tenth group, exactly when this carries more than the one bit, or the sign, that has a place.
-/

namespace Wasm.Leb128

open Reader

/-! ### The integer that groups denote -/

/-- The byte at an offset says that another group follows. -/
def Continues (code : Bytes) (pos : Nat) : Prop :=
  ∃ byte ∈ code[pos]?, byte &&& 0x80 ≠ 0

instance (code : Bytes) (pos : Nat) : Decidable (Continues code pos) :=
  inferInstanceAs (Decidable (∃ byte ∈ code[pos]?, _))

/-- The `k`-th byte behind `start` is the first from there on which says that no other group
follows. -/
def EndsAt (code : Bytes) (start k : Nat) : Prop :=
  (∀ i < k, Continues code (start + i)) ∧ ∃ byte ∈ code[start + k]?, byte &&& 0x80 = 0

instance (code : Bytes) (start k : Nat) : Decidable (EndsAt code start k) :=
  inferInstanceAs (Decidable (_ ∧ _))

/-- The seven bits of the group at an offset. -/
def payload (code : Bytes) (pos : Nat) : Nat :=
  (code.getD pos 0 &&& 0x7F).toNat

/-- The integer of the groups from `start` to the `k`-th byte behind it. -/
def unsignedValue (code : Bytes) (start k : Nat) : Nat :=
  ∑ i ∈ Finset.range (k + 1), payload code (start + i) * 2 ^ (7 * i)

/-- What the sign takes off an integer that ends at the `k`-th byte behind `start`. -/
def signWeight (code : Bytes) (start k : Nat) : Nat :=
  if code.getD (start + k) 0 &&& 0x40 = 0 then 0 else 2 ^ (7 * (k + 1))

/-- The integer of the groups from `start` to the `k`-th byte behind it, the last of them signed. -/
def signedValue (code : Bytes) (start k : Nat) : Int :=
  unsignedValue code start k - signWeight code start k

variable {code : Bytes} {start pos k groups : Nat} {byte : UInt8}

theorem getD_eq (found : code[pos]? = some byte) : code.getD pos 0 = byte := by
  rw [Array.getD_eq_getD_getElem?, found, Option.getD_some]

theorem payload_eq_mod (code : Bytes) (pos : Nat) :
    payload code pos = (code.getD pos 0).toNat % 128 := by
  exact toNat_and_mask _

theorem payload_eq (found : code[pos]? = some byte) : payload code pos = byte.toNat % 128 := by
  rw [payload_eq_mod, getD_eq found]

theorem payload_lt (code : Bytes) (pos : Nat) : payload code pos < 128 := by
  rw [payload_eq_mod]
  exact Nat.mod_lt _ (by decide)

theorem unsignedValue_zero (code : Bytes) (start : Nat) :
    unsignedValue code start 0 = payload code start := by
  simp [unsignedValue]

/-- An integer is its first group and what the others denote. -/
theorem unsignedValue_succ (code : Bytes) (start k : Nat) :
    unsignedValue code start (k + 1) =
      payload code start + 128 * unsignedValue code (start + 1) k := by
  unfold unsignedValue
  rw [Finset.sum_range_succ', Finset.mul_sum, Nat.add_comm]
  congr 1
  · simp
  · apply Finset.sum_congr rfl
    intro i _
    have place : start + (i + 1) = start + 1 + i := by omega
    have weight : 2 ^ (7 * (i + 1)) = 128 * 2 ^ (7 * i) := by
      rw [Nat.mul_succ, Nat.pow_add, Nat.mul_comm]
    rw [place, weight, Nat.mul_left_comm]

theorem signWeight_eq (code : Bytes) (start k : Nat) :
    signWeight code start k = if payload code (start + k) < 64 then 0 else 2 ^ (7 * (k + 1)) := by
  simp only [signWeight, positive_iff, payload_eq_mod]

/-- Seen from one byte earlier, the sign of the same group weighs 128 times as much. -/
theorem signWeight_succ (code : Bytes) (start k : Nat) :
    signWeight code start (k + 1) = 128 * signWeight code (start + 1) k := by
  have place : start + (k + 1) = start + 1 + k := by omega
  rw [signWeight, signWeight, place]
  split
  · rfl
  · rw [Nat.mul_succ 7 (k + 1), Nat.pow_add, Nat.mul_comm]

/-! ### Reading groups -/

theorem unsignedGroups_of_last (tooLong : DecodeError) (found : code[start]? = some byte)
    (low : byte.toNat < 128) :
    unsignedGroups tooLong (groups + 1) code start = .ok (byte.toNat, start + 1) := by
  rw [unsignedGroups, bind_ok (byte_of_found found), if_pos low]
  rfl

theorem unsignedGroups_of_more (tooLong : DecodeError) (found : code[start]? = some byte)
    (high : 128 ≤ byte.toNat) :
    unsignedGroups tooLong (groups + 1) code start =
      (unsignedGroups tooLong groups code (start + 1)).map fun out =>
        (byte.toNat - 128 + 128 * out.1, out.2) := by
  rw [unsignedGroups, bind_ok (byte_of_found found), if_neg (by omega), bind_apply]
  cases unsignedGroups tooLong groups code (start + 1) with
  | error e => rfl
  | ok out => rfl

theorem unsignedGroups_of_missing (tooLong : DecodeError) (missing : code[start]? = none) :
    unsignedGroups tooLong (groups + 1) code start = .error (.unexpectedEnd start) := by
  rw [unsignedGroups, bind_error (byte_of_missing missing)]

/-- The signed form of the groups is the unsigned one, less what the sign takes off. -/
theorem signedGroups_eq (tooLong : DecodeError) (code : Bytes) (groups start : Nat) :
    signedGroups tooLong groups code start =
      (unsignedGroups tooLong groups code start).map fun out =>
        ((out.1 : Int) - signWeight code start (out.2 - start - 1), out.2) := by
  induction groups generalizing start with
  | zero => rfl
  | succ groups ih =>
    cases found : code[start]? with
    | none =>
      rw [unsignedGroups_of_missing tooLong found, signedGroups,
        bind_error (byte_of_missing found)]
      rfl
    | some byte =>
      rw [signedGroups, bind_ok (byte_of_found found)]
      by_cases low : byte.toNat < 128
      · rw [unsignedGroups_of_last tooLong found low]
        have weight := signWeight_eq code start 0
        simp only [Nat.add_zero, payload_eq found, Nat.mod_eq_of_lt low] at weight
        simp only [Except.map, Nat.add_sub_cancel_left, Nat.sub_self, weight]
        split
        · simp
        · simp
      · rw [if_neg (by omega), if_neg low, unsignedGroups_of_more tooLong found (by omega),
          bind_apply, ih]
        cases result : unsignedGroups tooLong groups code (start + 1) with
        | error e => rfl
        | ok out =>
          -- The sign is that of the last group, which is where the read stops.
          obtain ⟨value, after⟩ := out
          have onwards := (bounds_of_unsignedGroups result).1
          obtain ⟨k, rfl⟩ : ∃ k, after = start + 1 + k + 1 := ⟨after - start - 2, by omega⟩
          have here : start + 1 + k + 1 - start - 1 = k + 1 := by omega
          have later : start + 1 + k + 1 - (start + 1) - 1 = k := by omega
          simp only [Except.map, pure_apply, Except.ok.injEq, Prod.mk.injEq, and_true, here, later,
            signWeight_succ]
          omega

/-- Among the first bytes from an offset on there is a last group, or all of them announce another,
or one is missing. -/
theorem groups_cases (code : Bytes) (start groups : Nat) :
    (∃ k < groups, EndsAt code start k) ∨ (∀ i < groups, Continues code (start + i)) ∨
      ∃ j < groups, (∀ i < j, Continues code (start + i)) ∧ code[start + j]? = none := by
  induction groups with
  | zero => exact .inr (.inl nofun)
  | succ groups ih =>
    rcases ih with ⟨k, within, ends⟩ | all | ⟨j, within, before, missing⟩
    · exact .inl ⟨k, by omega, ends⟩
    · cases found : code[start + groups]? with
      | none => exact .inr (.inr ⟨groups, by omega, all, found⟩)
      | some byte =>
        by_cases low : byte &&& 0x80 = 0
        · exact .inl ⟨groups, by omega, all, byte, found, low⟩
        · refine .inr (.inl fun i within => ?_)
          rcases Nat.lt_succ_iff_lt_or_eq.mp within with earlier | rfl
          · exact all i earlier
          · exact ⟨byte, found, low⟩
    · exact .inr (.inr ⟨j, by omega, before, missing⟩)

/-- The first byte of an integer of several groups announces another. -/
theorem exists_first (more : ∀ i < k + 1, Continues code (start + i)) :
    (∃ byte, code[start]? = some byte ∧ 128 ≤ byte.toNat) ∧
      ∀ i < k, Continues code (start + 1 + i) := by
  constructor
  · obtain ⟨byte, found, high⟩ := more 0 (by omega)
    rw [Ne, last_iff] at high
    exact ⟨byte, found, by omega⟩
  · intro i within
    have later := more (i + 1) (by omega)
    rwa [Nat.add_comm i 1, ← Nat.add_assoc] at later

theorem unsignedGroups_of_endsAt (tooLong : DecodeError) (ends : EndsAt code start k)
    (within : k < groups) :
    unsignedGroups tooLong groups code start =
      .ok (unsignedValue code start k, start + k + 1) := by
  obtain ⟨groups, rfl⟩ : ∃ n, groups = n + 1 := ⟨groups - 1, by omega⟩
  obtain ⟨more, last⟩ := ends
  induction k generalizing start groups with
  | zero =>
    obtain ⟨byte, found, low⟩ := last
    rw [last_iff] at low
    rw [Nat.add_zero] at found ⊢
    rw [unsignedGroups_of_last tooLong found low, unsignedValue_zero, payload_eq found,
      Nat.mod_eq_of_lt low]
  | succ k ih =>
    obtain ⟨⟨byte, found, high⟩, later⟩ := exists_first more
    have small := byte.toNat_lt
    have shifted : start + (k + 1) = start + 1 + k := by omega
    rw [shifted] at last
    obtain ⟨groups, rfl⟩ : ∃ n, groups = n + 1 := ⟨groups - 1, by omega⟩
    rw [unsignedGroups_of_more tooLong found high, ih groups (by omega) later last,
      unsignedValue_succ, payload_eq found]
    simp only [Except.map, Except.ok.injEq, Prod.mk.injEq]
    omega

theorem unsignedGroups_of_continues (tooLong : DecodeError)
    (more : ∀ i < groups, Continues code (start + i)) :
    unsignedGroups tooLong groups code start = .error tooLong := by
  induction groups generalizing start with
  | zero => rfl
  | succ groups ih =>
    obtain ⟨⟨byte, found, high⟩, later⟩ := exists_first more
    rw [unsignedGroups_of_more tooLong found high, ih later]
    rfl

theorem unsignedGroups_of_truncated (tooLong : DecodeError)
    (more : ∀ i < k, Continues code (start + i)) (missing : code[start + k]? = none)
    (within : k < groups) :
    unsignedGroups tooLong groups code start = .error (.unexpectedEnd (start + k)) := by
  obtain ⟨groups, rfl⟩ : ∃ n, groups = n + 1 := ⟨groups - 1, by omega⟩
  induction k generalizing start groups with
  | zero => exact unsignedGroups_of_missing tooLong missing
  | succ k ih =>
    obtain ⟨⟨byte, found, high⟩, later⟩ := exists_first more
    have shifted : start + (k + 1) = start + 1 + k := by omega
    rw [shifted] at missing ⊢
    obtain ⟨groups, rfl⟩ : ∃ n, groups = n + 1 := ⟨groups - 1, by omega⟩
    rw [unsignedGroups_of_more tooLong found high, ih later missing groups (by omega)]
    rfl

/-! ### Reading integers -/

variable {bits : Nat}

theorem unsigned_of_endsAt (ends : EndsAt code start k) (within : k < maxGroups bits) :
    unsigned bits code start =
      if bits < 64 ∧ ¬ FitsUnsigned bits (unsignedValue code start k) then
        .error (.intTooLarge start bits)
      else
        .ok (unsignedValue code start k % wordValues, start + k + 1) := by
  have here : position code start = .ok (start, start) := rfl
  rw [unsigned_eq, bind_ok here, bind_ok (unsignedGroups_of_endsAt _ ends within)]
  split
  · rfl
  · rfl

theorem signed_of_endsAt (ends : EndsAt code start k) (within : k < maxGroups bits) :
    signed bits code start =
      if bits < 64 ∧ ¬ FitsSigned bits (signedValue code start k) then
        .error (.intTooLarge start bits)
      else
        .ok ((signedValue code start k).bmod wordValues, start + k + 1) := by
  have here : position code start = .ok (start, start) := rfl
  have groups : signedGroups (.intTooLong start bits) (maxGroups bits) code start =
      .ok (signedValue code start k, start + k + 1) := by
    have last : start + k + 1 - start - 1 = k := by omega
    rw [signedGroups_eq, unsignedGroups_of_endsAt _ ends within]
    simp only [Except.map, last, signedValue]
  rw [signed_eq, bind_ok here, bind_ok groups]
  split
  · rfl
  · rfl

/-- Both forms fail in the same way where the groups do. -/
theorem reads_of_groups_error {e : DecodeError}
    (fails : unsignedGroups (.intTooLong start bits) (maxGroups bits) code start = .error e) :
    unsigned bits code start = .error e ∧ signed bits code start = .error e := by
  have here : position code start = .ok (start, start) := rfl
  constructor
  · rw [unsigned_eq, bind_ok here, bind_error fails]
  · have groups : signedGroups (.intTooLong start bits) (maxGroups bits) code start =
        .error e := by
      rw [signedGroups_eq, fails]
      rfl
    rw [signed_eq, bind_ok here, bind_error groups]

/-- Where the groups do not end in time, there are too many of them or the bytes end first. -/
theorem reads_of_no_end (unended : ∀ k < maxGroups bits, ¬ EndsAt code start k) :
    ((∀ i < maxGroups bits, Continues code (start + i)) →
      unsigned bits code start = .error (.intTooLong start bits) ∧
        signed bits code start = .error (.intTooLong start bits)) ∧
    ((¬ ∀ i < maxGroups bits, Continues code (start + i)) →
      ∃ missing, IsLeast {pos | start ≤ pos ∧ code[pos]? = none} missing ∧
        unsigned bits code start = .error (.unexpectedEnd missing) ∧
        signed bits code start = .error (.unexpectedEnd missing)) := by
  constructor
  · intro more
    exact reads_of_groups_error (unsignedGroups_of_continues _ more)
  · intro fewer
    rcases groups_cases code start (maxGroups bits) with
      ⟨k, within, ends⟩ | more | ⟨j, within, before, missing⟩
    · exact absurd ends (unended k within)
    · exact absurd more fewer
    · have first : IsLeast {pos | start ≤ pos ∧ code[pos]? = none} (start + j) := by
        refine ⟨⟨Nat.le_add_right start j, missing⟩, ?_⟩
        rintro pos ⟨behind, absent⟩
        -- A byte that announces another group is there.
        apply Nat.le_of_not_lt
        intro earlier
        obtain ⟨byte, found, -⟩ := before (pos - start) (by omega)
        rw [Nat.add_sub_cancel' behind] at found
        cases absent.symm.trans found
      exact ⟨start + j, first,
        reads_of_groups_error (unsignedGroups_of_truncated _ before missing within)⟩

/-- Below 64 bits, a read gives the integer that the groups denote, if they end in time and the
integer fits. Otherwise it says that the integer is too large or too long, blaming its first byte,
or that the bytes end, blaming the first that is not there. -/
theorem integers_read_exactly (code : Bytes) (start : Nat) {bits : Nat} (narrow : bits ≤ 63) :
    (∀ k < (bits + 6) / 7, EndsAt code start k →
      unsigned bits code start =
          (if unsignedValue code start k < 2 ^ bits then
            .ok (unsignedValue code start k, start + k + 1)
          else .error (.intTooLarge start bits)) ∧
        signed bits code start =
          (if -(2 ^ (bits - 1)) ≤ signedValue code start k ∧
              signedValue code start k < 2 ^ (bits - 1) then
            .ok (signedValue code start k, start + k + 1)
          else .error (.intTooLarge start bits))) ∧
    ((∀ k < (bits + 6) / 7, ¬ EndsAt code start k) →
      ((∀ i < (bits + 6) / 7, Continues code (start + i)) →
        unsigned bits code start = .error (.intTooLong start bits) ∧
          signed bits code start = .error (.intTooLong start bits)) ∧
      ((¬ ∀ i < (bits + 6) / 7, Continues code (start + i)) →
        ∃ missing, IsLeast {pos | start ≤ pos ∧ code[pos]? = none} missing ∧
          unsigned bits code start = .error (.unexpectedEnd missing) ∧
          signed bits code start = .error (.unexpectedEnd missing))) := by
  have word : 2 ^ bits ≤ 2 ^ 63 := Nat.pow_le_pow_right (by decide) narrow
  have half : 2 ^ (bits - 1) ≤ 2 ^ 62 := Nat.pow_le_pow_right (by decide) (by omega)
  refine ⟨?_, reads_of_no_end⟩
  intro k within ends
  constructor
  · rw [unsigned_of_endsAt ends within]
    by_cases fits : unsignedValue code start k < 2 ^ bits
    · have whole : unsignedValue code start k % wordValues = unsignedValue code start k :=
        Nat.mod_eq_of_lt (by unfold wordValues; omega)
      rw [if_pos fits, if_neg (fun large => large.2 fits), whole]
    · rw [if_neg fits, if_pos ⟨by omega, fits⟩]
  · rw [signed_of_endsAt ends within]
    simp only [fitsSigned_iff]
    by_cases fits : -(2 ^ (bits - 1)) ≤ signedValue code start k ∧
        signedValue code start k < 2 ^ (bits - 1)
    · have whole : (signedValue code start k).bmod wordValues = signedValue code start k := by
        have power : ((2 ^ (bits - 1) : Nat) : Int) = 2 ^ (bits - 1) := Int.natCast_pow 2 (bits - 1)
        unfold wordValues
        apply Int.bmod_eq_of_le
        · omega
        · omega
      rw [if_pos fits, if_neg (fun large => large.2 fits), whole]
    · rw [if_neg fits, if_pos ⟨by omega, fits⟩]

/-- The theorem at 32 bits that are all set: five groups denote `2 ^ 35 - 1`, which is too large, or
`-1`. -/
theorem set_bits_read :
    unsigned 32 #[0xFF, 0xFF, 0xFF, 0xFF, 0x7F] 0 = .error (.intTooLarge 0 32) ∧
      signed 32 #[0xFF, 0xFF, 0xFF, 0xFF, 0x7F] 0 = .ok (-1, 5) :=
  (integers_read_exactly #[0xFF, 0xFF, 0xFF, 0xFF, 0x7F] 0 (by decide : 32 ≤ 63)).1 4 (by decide)
    (by decide)

/-! ### Integers of 64 bits -/

/-- An integer is its last group and what the others denote. -/
theorem unsignedValue_snoc (code : Bytes) (start k : Nat) :
    unsignedValue code start (k + 1) =
      unsignedValue code start k + payload code (start + (k + 1)) * 2 ^ (7 * (k + 1)) :=
  Finset.sum_range_succ _ _

theorem unsignedValue_lt (code : Bytes) (start k : Nat) :
    unsignedValue code start k < 2 ^ (7 * (k + 1)) := by
  induction k with
  | zero =>
    rw [unsignedValue_zero]
    exact payload_lt code start
  | succ k ih =>
    have small := payload_lt code (start + (k + 1))
    rw [unsignedValue_snoc]
    calc unsignedValue code start k + payload code (start + (k + 1)) * 2 ^ (7 * (k + 1))
        < 2 ^ (7 * (k + 1)) + payload code (start + (k + 1)) * 2 ^ (7 * (k + 1)) :=
          Nat.add_lt_add_right ih _
      _ = (payload code (start + (k + 1)) + 1) * 2 ^ (7 * (k + 1)) := by
          rw [Nat.add_mul, Nat.one_mul, Nat.add_comm]
      _ ≤ 2 ^ 7 * 2 ^ (7 * (k + 1)) := Nat.mul_le_mul_right _ small
      _ = 2 ^ (7 * (k + 1 + 1)) := by rw [← Nat.pow_add, Nat.mul_succ 7 (k + 1), Nat.add_comm]

/-- Ten groups denote an integer of 64 bits when the last of them has no bit above the lowest. -/
theorem unsignedValue_lt_word_iff (code : Bytes) (start : Nat) (within : k < 10) :
    unsignedValue code start k < 2 ^ 64 ↔ k < 9 ∨ payload code (start + 9) ≤ 1 := by
  by_cases short : k < 9
  · have power : 2 ^ (7 * (k + 1)) ≤ 2 ^ 63 := Nat.pow_le_pow_right (by decide) (by omega)
    have bound := unsignedValue_lt code start k
    omega
  · obtain rfl : k = 9 := by omega
    have low := unsignedValue_lt code start 8
    have split : unsignedValue code start 9 =
        unsignedValue code start 8 + payload code (start + 9) * 2 ^ 63 :=
      unsignedValue_snoc code start 8
    omega

/-- In the signed form the bits of a tenth group have to be equal, as they all are the sign. -/
theorem signedValue_word_iff (code : Bytes) (start : Nat) (within : k < 10) :
    -(2 ^ 63) ≤ signedValue code start k ∧ signedValue code start k < 2 ^ 63 ↔
      k < 9 ∨ payload code (start + 9) = 0 ∨ payload code (start + 9) = 127 := by
  have bound := unsignedValue_lt code start k
  rw [signedValue, signWeight_eq]
  by_cases short : k < 9
  · have power : 2 ^ (7 * (k + 1)) ≤ 2 ^ 63 := Nat.pow_le_pow_right (by decide) (by omega)
    split
    · omega
    · omega
  · obtain rfl : k = 9 := by omega
    have low := unsignedValue_lt code start 8
    have split : unsignedValue code start 9 =
        unsignedValue code start 8 + payload code (start + 9) * 2 ^ 63 :=
      unsignedValue_snoc code start 8
    have small := payload_lt code (start + 9)
    split
    · omega
    · omega

/-- A read of 64 bits gives the integer that the groups denote modulo `2 ^ 64`, in the signed form
the representative that is nearest to zero; it never finds an integer too large. So it gives the
integer itself, or finds out that it does not fit, for all forms of up to nine groups, and for one
of ten exactly when the bits of the tenth beyond the 64th are clear, or in the signed form equal to
it. Where the groups do not end in time it fails as narrower reads do. -/
theorem words_read_modulo (code : Bytes) (start : Nat) :
    (∀ k < 10, EndsAt code start k →
      u64 code start = .ok (unsignedValue code start k % 2 ^ 64, start + k + 1) ∧
      i64 code start = .ok ((signedValue code start k).bmod (2 ^ 64), start + k + 1) ∧
      (u64 code start =
          (if unsignedValue code start k < 2 ^ 64 then
            .ok (unsignedValue code start k, start + k + 1)
          else .error (.intTooLarge start 64)) ↔
        k < 9 ∨ payload code (start + 9) ≤ 1) ∧
      (i64 code start =
          (if -(2 ^ 63) ≤ signedValue code start k ∧ signedValue code start k < 2 ^ 63 then
            .ok (signedValue code start k, start + k + 1)
          else .error (.intTooLarge start 64)) ↔
        k < 9 ∨ payload code (start + 9) = 0 ∨ payload code (start + 9) = 127)) ∧
    ((∀ k < 10, ¬ EndsAt code start k) →
      ((∀ i < 10, Continues code (start + i)) →
        u64 code start = .error (.intTooLong start 64) ∧
          i64 code start = .error (.intTooLong start 64)) ∧
      ((¬ ∀ i < 10, Continues code (start + i)) →
        ∃ missing, IsLeast {pos | start ≤ pos ∧ code[pos]? = none} missing ∧
          u64 code start = .error (.unexpectedEnd missing) ∧
          i64 code start = .error (.unexpectedEnd missing))) := by
  have groups : maxGroups 64 = 10 := rfl
  rw [← groups]
  refine ⟨?_, reads_of_no_end⟩
  intro k within ends
  have unsignedRead : u64 code start = .ok (unsignedValue code start k % 2 ^ 64, start + k + 1) :=
    unsigned_of_endsAt ends within
  have signedRead : i64 code start =
      .ok ((signedValue code start k).bmod (2 ^ 64), start + k + 1) :=
    signed_of_endsAt ends within
  refine ⟨unsignedRead, signedRead, ?_, ?_⟩
  · rw [← unsignedValue_lt_word_iff code start within, unsignedRead]
    by_cases fits : unsignedValue code start k < 2 ^ 64
    · rw [if_pos fits, Nat.mod_eq_of_lt fits]
      exact iff_of_true rfl fits
    · rw [if_neg fits]
      exact iff_of_false nofun fits
  · rw [← signedValue_word_iff code start within, signedRead]
    by_cases fits : -(2 ^ 63) ≤ signedValue code start k ∧ signedValue code start k < 2 ^ 63
    · have whole : (signedValue code start k).bmod (2 ^ 64) = signedValue code start k := by
        apply Int.bmod_eq_of_le
        · omega
        · omega
      rw [if_pos fits, whole]
      exact iff_of_true rfl fits
    · rw [if_neg fits]
      exact iff_of_false nofun fits

/-- The tenth group of these integers carries a bit too many. They are `2 ^ 64` and `2 ^ 63`, and
read as `0` and `-2 ^ 63`. -/
theorem tenth_group_cut :
    EndsAt #[0x80, 0x80, 0x80, 0x80, 0x80, 0x80, 0x80, 0x80, 0x80, 0x02] 0 9 ∧
    unsignedValue #[0x80, 0x80, 0x80, 0x80, 0x80, 0x80, 0x80, 0x80, 0x80, 0x02] 0 9 = 2 ^ 64 ∧
    u64 #[0x80, 0x80, 0x80, 0x80, 0x80, 0x80, 0x80, 0x80, 0x80, 0x02] 0 = .ok (0, 10) ∧
    EndsAt #[0x80, 0x80, 0x80, 0x80, 0x80, 0x80, 0x80, 0x80, 0x80, 0x01] 0 9 ∧
    signedValue #[0x80, 0x80, 0x80, 0x80, 0x80, 0x80, 0x80, 0x80, 0x80, 0x01] 0 9 = 2 ^ 63 ∧
    i64 #[0x80, 0x80, 0x80, 0x80, 0x80, 0x80, 0x80, 0x80, 0x80, 0x01] 0 = .ok (-2 ^ 63, 10) := by
  decide +kernel

end Wasm.Leb128
