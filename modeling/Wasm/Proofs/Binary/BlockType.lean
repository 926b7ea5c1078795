import Wasm.Proofs.Binary.Exact
import Wasm.Proofs.Binary.Minimal

/-!
What a read of a block type gives, for any bytes.

Eight bytes are block types by themselves. As integers of one group they are negative, so they
cannot be taken for an index, whose first byte is below 64 or announces another group: this is what
tells the forms apart, also when an index is written with more groups than it needs. An index is an
integer of 33 bits, so that all 32-bit numbers have their place among the non-negative ones.

* `Leb128.signed_eq_ok_iff`: below 64 bits, what is read is an integer that is denoted and fits;
* `BlockType.read_eq_ok_iff`: a block type is read where it stands, and nowhere else;
* `BlockType.read_of_negative`: a negative integer is refused, unless it is one of the eight bytes;
* `BlockType.forms_read_exactly`: each form is read exactly where it stands.
-/

namespace Wasm

open Reader

theorem ValType.ofByte?_eq_some_iff {byte : UInt8} {type : ValType} :
    ofByte? byte = some type ↔ byte = type.byte := by
  constructor
  · intro known
    unfold ofByte? at known
    split at known
    all_goals cases known
    all_goals exact UInt8.toNat_inj.mp ‹_›
  · rintro rfl
    exact ofByte?_byte type

namespace Leb128

variable {code : Bytes} {start k q bits : Nat} {value : Int}

/-- Below 64 bits, an integer is read where its groups end in time and denote it, and it fits. -/
theorem signed_eq_ok_iff (narrow : bits < 64) :
    signed bits code start = .ok (value, q) ↔
      ∃ k < maxGroups bits, EndsAt code start k ∧ signedValue code start k = value ∧
        FitsSigned bits value ∧ q = start + k + 1 := by
  constructor
  · intro read
    have ended : ∃ k < maxGroups bits, EndsAt code start k := by
      apply Classical.byContradiction
      intro none
      obtain ⟨tooLong, missing⟩ :=
        reads_of_no_end fun k within ends => none ⟨k, within, ends⟩
      by_cases more : ∀ i < maxGroups bits, Continues code (start + i)
      · cases read.symm.trans (tooLong more).2
      · obtain ⟨_, -, -, stopped⟩ := missing more
        cases read.symm.trans stopped
    obtain ⟨k, within, ends⟩ := ended
    rw [signed_of_endsAt ends within] at read
    split at read
    · cases read
    · rename_i small
      have fits : FitsSigned bits (signedValue code start k) :=
        Classical.byContradiction fun large => small ⟨narrow, large⟩
      rw [bmod_of_fits (Nat.le_of_lt narrow) fits] at read
      cases read
      exact ⟨k, within, ends, rfl, fits, rfl⟩
  · rintro ⟨k, within, ends, rfl, fits, rfl⟩
    rw [signed_of_endsAt ends within, if_neg fun large => large.2 fits,
      bmod_of_fits (Nat.le_of_lt narrow) fits]

/-- An integer has a first byte. -/
theorem EndsAt.exists_byte (ends : EndsAt code start k) : ∃ byte, code[start]? = some byte := by
  cases k with
  | zero =>
    obtain ⟨byte, found, -⟩ := ends.2
    exact ⟨byte, found⟩
  | succ k =>
    obtain ⟨byte, found, -⟩ := ends.1 0 (Nat.succ_pos k)
    exact ⟨byte, found⟩

/-- Where the first byte is below 128 there is no second group. -/
theorem EndsAt.eq_zero {byte : UInt8} (ends : EndsAt code start k)
    (found : code[start]? = some byte) (low : byte.toNat < 128) : k = 0 := by
  cases k with
  | zero => rfl
  | succ k =>
    obtain ⟨first, found', high⟩ := ends.1 0 (Nat.succ_pos k)
    obtain rfl : byte = first := Option.some.inj (found.symm.trans found')
    exact absurd ((last_iff byte).mpr low) high

theorem signedValue_of_sign {byte : UInt8} (found : code[start]? = some byte)
    (low : 64 ≤ byte.toNat) (high : byte.toNat < 128) :
    signedValue code start 0 = (byte.toNat : Int) - 128 := by
  rw [signedValue, signWeight_eq, unsignedValue_zero, Nat.add_zero, payload_eq found,
    Nat.mod_eq_of_lt high, if_neg (Nat.not_lt.mpr low)]
  rfl

end Leb128

namespace BlockType

open Leb128

variable {code : Bytes} {pos k q : Nat} {byte : UInt8}

/-- The bytes that are block types by themselves. -/
def IsShort (byte : UInt8) : Prop :=
  byte = 0x40 ∨ ∃ type : ValType, byte = type.byte

/-- As integers of one group they are negative. -/
theorem IsShort.range (short : IsShort byte) : 64 ≤ byte.toNat ∧ byte.toNat < 128 := by
  obtain rfl | ⟨type, rfl⟩ := short
  · decide
  · cases type <;> decide

theorem IsShort.signedValue_lt (short : IsShort byte) (found : code[pos]? = some byte)
    (ends : EndsAt code pos k) : signedValue code pos k < 0 := by
  obtain ⟨low, high⟩ := short.range
  obtain rfl := ends.eq_zero found high
  rw [signedValue_of_sign found low high]
  omega

/-- The read of an index, which is all that is left when none of the short forms is there. -/
def readIndex : Reader BlockType := do
  let number ← signed 33
  if number < 0 then malformed .blockType else pure (.index number.toNat)

theorem read_of_other (found : code[pos]? = some byte) (other : ¬ IsShort byte) :
    read code pos = readIndex code pos := by
  have nonempty : byte ≠ 0x40 := fun same => other (.inl same)
  have untyped : ValType.ofByte? byte = none := by
    rw [Option.eq_none_iff_forall_ne_some]
    intro type known
    exact other (.inr ⟨type, ValType.ofByte?_eq_some_iff.mp known⟩)
  rw [read, bind_ok (peek_of_found found), if_neg nonempty, untyped]
  rfl

theorem read_of_missing (missing : code[pos]? = none) :
    read code pos = .error (.unexpectedEnd pos) := by
  rw [read, bind_error (peek_of_missing missing)]

/-- An integer of 33 bits that is not negative is an index, and any other is refused. -/
theorem readIndex_of_endsAt (ends : EndsAt code pos k) (within : k < 5)
    (lower : -(2 ^ 32) ≤ signedValue code pos k) (upper : signedValue code pos k < 2 ^ 32) :
    readIndex code pos =
      if signedValue code pos k < 0 then .error (.malformed (pos + k + 1) .blockType)
      else .ok (.index (signedValue code pos k).toNat, pos + k + 1) := by
  have number : signed 33 code pos = .ok (signedValue code pos k, pos + k + 1) :=
    (signed_eq_ok_iff (by decide)).mpr
      ⟨k, within, ends, rfl, (fitsSigned_iff _ _).mpr ⟨lower, upper⟩, rfl⟩
  rw [readIndex, bind_ok number]
  split
  · rfl
  · rfl

/-- A block type stands at an offset, and ends in front of another: a byte that is one by itself, or
an integer of at most five groups that denotes a number of 32 bits. -/
inductive Stands (code : Bytes) (pos : Nat) : BlockType → (after : Nat) → Prop where
  | empty (found : code[pos]? = some 0x40) : Stands code pos .empty (pos + 1)
  | value {type : ValType} (found : code[pos]? = some type.byte) :
      Stands code pos (.value type) (pos + 1)
  | index {k n : Nat} (within : k < 5) (ends : EndsAt code pos k)
      (denoted : signedValue code pos k = n) (small : n < 2 ^ 32) :
      Stands code pos (.index n) (pos + k + 1)

theorem stands_of_readIndex {type : BlockType} (result : readIndex code pos = .ok (type, q)) :
    Stands code pos type q := by
  obtain ⟨number, p, integer, kept⟩ := bind_eq_ok_iff.mp result
  obtain ⟨k, within, ends, denoted, fits, rfl⟩ := (signed_eq_ok_iff (by decide)).mp integer
  have upper : number < 2 ^ 32 := ((fitsSigned_iff 33 number).mp fits).2
  split at kept
  · cases kept
  · cases kept
    exact .index within ends (by omega) (by omega)

/-- A block type is read exactly where it stands. -/
theorem read_eq_ok_iff {type : BlockType} :
    read code pos = .ok (type, q) ↔ Stands code pos type q := by
  constructor
  · intro result
    cases found : code[pos]? with
    | none => cases (read_of_missing found).symm.trans result
    | some byte =>
      by_cases short : IsShort byte
      · obtain rfl | ⟨type, rfl⟩ := short
        · cases (IsForm.empty.reads code pos ⟨found, trivial⟩).symm.trans result
          exact .empty found
        · cases ((IsForm.value type).reads code pos ⟨found, trivial⟩).symm.trans result
          exact .value found
      · exact stands_of_readIndex ((read_of_other found short).symm.trans result)
  · intro stands
    cases stands with
    | empty found => exact IsForm.empty.reads code pos ⟨found, trivial⟩
    | @value type found => exact (IsForm.value type).reads code pos ⟨found, trivial⟩
    | @index k n within ends denoted small =>
      obtain ⟨byte, found⟩ := ends.exists_byte
      have other : ¬ IsShort byte := by
        intro short
        have negative := short.signedValue_lt found ends
        omega
      rw [read_of_other found other, readIndex_of_endsAt ends within (by omega) (by omega),
        if_neg (by omega), denoted, Int.toNat_natCast]

theorem read_eq_empty_iff :
    read code pos = .ok (.empty, q) ↔ code[pos]? = some 0x40 ∧ q = pos + 1 := by
  rw [read_eq_ok_iff]
  constructor
  · intro stands
    cases stands with
    | empty found => exact ⟨found, rfl⟩
  · rintro ⟨found, rfl⟩
    exact .empty found

theorem read_eq_value_iff {type : ValType} :
    read code pos = .ok (.value type, q) ↔ code[pos]? = some type.byte ∧ q = pos + 1 := by
  rw [read_eq_ok_iff]
  constructor
  · intro stands
    cases stands with
    | value found => exact ⟨found, rfl⟩
  · rintro ⟨found, rfl⟩
    exact .value found

theorem read_eq_index_iff {n : Nat} :
    read code pos = .ok (.index n, q) ↔
      n < 2 ^ 32 ∧ ∃ k < 5, EndsAt code pos k ∧ signedValue code pos k = n ∧ q = pos + k + 1 := by
  rw [read_eq_ok_iff]
  constructor
  · intro stands
    cases stands with
    | index within ends denoted small => exact ⟨small, _, within, ends, denoted, rfl⟩
  · rintro ⟨small, k, within, ends, denoted, rfl⟩
    exact .index within ends denoted small

/-- A negative integer of 33 bits is refused, unless it is written as one of the short forms. -/
theorem read_of_negative (ends : EndsAt code pos k) (within : k < 5)
    (lower : -(2 ^ 32) ≤ signedValue code pos k) (negative : signedValue code pos k < 0)
    (unwritten : ∀ byte ∈ code[pos]?, ¬ (k = 0 ∧ IsShort byte)) :
    read code pos = .error (.malformed (pos + k + 1) .blockType) := by
  obtain ⟨byte, found⟩ := ends.exists_byte
  -- A short form is complete with its first byte.
  have other : ¬ IsShort byte := fun short =>
    unwritten byte found ⟨ends.eq_zero found short.range.2, short⟩
  rw [read_of_other found other, readIndex_of_endsAt ends within lower (by omega), if_pos negative]

/-- For any bytes, a read gives the empty type or a value type exactly where the next byte is that
of the type, and an index exactly where at most five groups denote it and it has 32 bits. In
particular every index of 32 bits is read from its shortest form, no form of an index starts with a
byte that is a type by itself, and a negative integer of 33 bits in any form but these bytes is
refused. -/
theorem forms_read_exactly (code : Bytes) (pos : Nat) :
    (∀ q, read code pos = .ok (.empty, q) ↔ code[pos]? = some 0x40 ∧ q = pos + 1) ∧
    (∀ type q, read code pos = .ok (.value type, q) ↔
      code[pos]? = some type.byte ∧ q = pos + 1) ∧
    (∀ (n : Nat) q, read code pos = .ok (.index n, q) ↔
      n < 2 ^ 32 ∧ ∃ k < 5, EndsAt code pos k ∧ signedValue code pos k = n ∧ q = pos + k + 1) ∧
    (∀ n : Nat, n < 2 ^ 32 → BytesAt code pos (encodeSigned n) →
      read code pos = .ok (.index n, pos + (encodeSigned n).length)) ∧
    (∀ k, EndsAt code pos k → 0 ≤ signedValue code pos k → ∀ byte ∈ code[pos]?, ¬ IsShort byte) ∧
    (∀ k < 5, EndsAt code pos k →
      -(2 ^ 32) ≤ signedValue code pos k → signedValue code pos k < 0 →
      (∀ byte ∈ code[pos]?, ¬ (k = 0 ∧ IsShort byte)) →
      read code pos = .error (.malformed (pos + k + 1) .blockType)) := by
  refine ⟨fun q => read_eq_empty_iff, fun type q => read_eq_value_iff,
    fun n q => read_eq_index_iff, ?_, ?_, ?_⟩
  · intro n small written
    have form : IsSigned 33 (encodeSigned n) n :=
      isSigned_encodeSigned (by decide) (by omega) (by omega)
    exact (IsForm.index form).reads code pos written
  · intro k ends positive byte found short
    exact absurd (short.signedValue_lt found ends) (Int.not_lt.mpr positive)
  · intro k within ends lower negative unwritten
    exact read_of_negative ends within lower negative unwritten

/-- The theorem at 64 and at -64, written with two groups, and at the byte that would be -64 written
with one. -/
theorem padded_forms_read :
    read #[0xC0, 0x00, 0xC0, 0x7F, 0x40] 0 = .ok (.index 64, 2) ∧
      read #[0xC0, 0x00, 0xC0, 0x7F, 0x40] 2 = .error (.malformed 4 .blockType) ∧
      read #[0xC0, 0x00, 0xC0, 0x7F, 0x40] 4 = .ok (.empty, 5) := by
  refine ⟨?_, ?_, ?_⟩
  · exact ((forms_read_exactly _ 0).2.2.1 64 2).mpr ⟨by decide, 1, by decide +kernel⟩
  · refine (forms_read_exactly _ 2).2.2.2.2.2 1 (by decide) (by decide) (by decide +kernel)
      (by decide +kernel) ?_
    rintro byte - ⟨one, -⟩
    cases one
  · exact ((forms_read_exactly _ 4).1 5).mpr ⟨rfl, rfl⟩

end BlockType

end Wasm
