import Mathlib.Algebra.Group.Nat.Defs
import Wasm.Instr.Opcode
import Wasm.Proofs.Binary.Words

/-!
The grammar of the binary format, for what stands behind an opcode.

The format defines which bytes stand for a value, and for one value it allows several: an integer
may be written with more groups than it needs. So the grammar is a relation between bytes and
values, given for integers (`Leb128.IsUnsigned`, `Leb128.IsSigned`), vectors (`IsVector`), value
types and block types. `Reader.Reads` says that a reader gives a value for some bytes wherever they
stand and uses exactly these bytes; it composes along the readers' own structure.

* `Leb128.IsUnsigned.reads`, `Leb128.IsSigned.reads`: integers, at every width up to 64 bits;
* `IsVector.reads_counted`, `IsVector.reads`: a count and as many elements;
* `BlockType.IsForm.reads`: the three forms of a block type are told apart.
-/

namespace Wasm

/-! ### Bytes in code, and readers of them -/

/-- The given bytes stand in the code from an offset on. -/
def BytesAt (code : Bytes) : Nat → List UInt8 → Prop
  | _, [] => True
  | pos, byte :: bytes => code[pos]? = some byte ∧ BytesAt code (pos + 1) bytes

namespace BytesAt

variable {code : Bytes} {pos : Nat} {xs ys : List UInt8}

theorem append_iff :
    BytesAt code pos (xs ++ ys) ↔ BytesAt code pos xs ∧ BytesAt code (pos + xs.length) ys := by
  induction xs generalizing pos with
  | nil => simp [BytesAt]
  | cons x xs ih =>
    have shift : pos + 1 + xs.length = pos + (xs.length + 1) := by omega
    simp only [List.cons_append, BytesAt, ih, List.length_cons, shift, and_assoc]

/-- All bytes of the code stand at its start. -/
theorem toList (code : Bytes) : BytesAt code 0 code.toList := by
  have shifted : ∀ (before bytes : List UInt8), code.toList = before ++ bytes →
      BytesAt code before.length bytes := by
    intro before bytes split
    induction bytes generalizing before with
    | nil => trivial
    | cons byte bytes ih =>
      constructor
      · rw [← Array.getElem?_toList, split]
        simp
      · have next := ih (before ++ [byte]) (by simpa using split)
        rwa [List.length_append] at next
  exact shifted [] code.toList rfl

theorem getElem?_eq (written : BytesAt code pos xs) :
    ∀ i, i < xs.length → code[pos + i]? = xs[i]? := by
  induction xs generalizing pos with
  | nil =>
    intro i inside
    cases inside
  | cons x xs ih =>
    intro i inside
    cases i with
    | zero => exact written.1
    | succ i =>
      have later := ih written.2 i (Nat.lt_of_succ_lt_succ inside)
      rwa [Nat.add_right_comm] at later

/-- Bytes that are there are there to their end. -/
theorem le_size (written : BytesAt code pos xs) (some : xs ≠ []) :
    pos + xs.length ≤ code.size := by
  have length : 0 < xs.length := List.length_pos_iff.mpr some
  have last := written.getElem?_eq (xs.length - 1) (by omega)
  rw [List.getElem?_eq_getElem (by omega)] at last
  obtain ⟨inside, -⟩ := Array.getElem?_eq_some_iff.mp last
  omega

theorem extract_eq (written : BytesAt code pos xs) (inside : pos + xs.length ≤ code.size) :
    code.extract pos (pos + xs.length) = xs.toArray := by
  apply Array.ext_getElem?
  intro i
  have same : xs.toArray[i]? = xs[i]? := List.getElem?_toArray
  rw [Array.getElem?_extract, same]
  by_cases within : i < xs.length
  · rw [if_pos (by omega), written.getElem?_eq i within]
  · rw [if_neg (by omega), List.getElem?_eq_none (by omega)]

end BytesAt

namespace Reader

variable {α β : Type}

/-- A reader gives `a` for the given bytes, wherever they stand, and uses exactly these. -/
def Reads (reader : Reader α) (bytes : List UInt8) (a : α) : Prop :=
  ∀ code pos, BytesAt code pos bytes → reader code pos = .ok (a, pos + bytes.length)

namespace Reads

theorem pure (a : α) : Reads (Pure.pure a) [] a := by
  intro code pos _
  rfl

theorem bind {first : Reader α} {next : α → Reader β} {xs ys : List UInt8} {a : α} {b : β}
    (reads : Reads first xs a) (rest : Reads (next a) ys b) :
    Reads (first >>= next) (xs ++ ys) b := by
  intro code pos written
  obtain ⟨before, behind⟩ := BytesAt.append_iff.mp written
  rw [bind_ok (reads code pos before), rest _ _ behind, List.length_append, Nat.add_assoc]

/-- A last read that needs no bytes. -/
theorem map {reader : Reader α} {xs : List UInt8} {a : α} {b : β} {next : α → Reader β}
    (reads : Reads reader xs a) (rest : Reads (next a) [] b) : Reads (reader >>= next) xs b := by
  have whole := reads.bind rest
  rwa [List.append_nil] at whole

theorem position {next : Nat → Reader β} {ys : List UInt8} {b : β}
    (rest : ∀ start, Reads (next start) ys b) : Reads (Reader.position >>= next) ys b := by
  intro code pos written
  exact rest pos code pos written

theorem byte (b : UInt8) : Reads Reader.byte [b] b := by
  intro code pos written
  exact byte_of_found written.1

/-- Some bytes, if there are any. -/
theorem take {xs : List UInt8} (some : xs ≠ []) :
    Reads (Reader.take xs.length) xs xs.toArray := by
  intro code pos written
  have inside := written.le_size some
  exact take_eq_ok_iff.mpr ⟨inside, (written.extract_eq inside).symm, rfl⟩

/-- A size and as many bytes. There may be none of these, as the size is in front of them. -/
theorem bind_take {size : Reader Nat} {xs ys : List UInt8} (some : xs ≠ [])
    (sized : Reads size xs ys.length) : Reads (size >>= Reader.take) (xs ++ ys) ys.toArray := by
  intro code pos written
  have inside := written.le_size (List.append_ne_nil_of_left_ne_nil some _)
  obtain ⟨before, behind⟩ := BytesAt.append_iff.mp written
  rw [List.length_append, ← Nat.add_assoc] at inside ⊢
  rw [bind_ok (sized code pos before)]
  exact take_eq_ok_iff.mpr ⟨inside, (behind.extract_eq inside).symm, rfl⟩

/-- What is read inside a region uses nothing outside of it. -/
theorem enclosed {inner : Reader α} {content : Bytes} {a : α} (after : Nat)
    (run : inner content 0 = .ok (a, after)) : Reads (Reader.enclosed content inner) [] a := by
  intro code pos _
  simp only [Reader.enclosed, run]
  rfl

/-- Looking at the first of some bytes and then reading them all. -/
theorem peek {next : UInt8 → Reader β} {first : UInt8} {ys : List UInt8} {b : β}
    (rest : Reads (next first) (first :: ys) b) : Reads (Reader.peek >>= next) (first :: ys) b := by
  intro code pos written
  rw [bind_ok (peek_of_found written.1)]
  exact rest code pos written

end Reads

end Reader

/-! ### Integers -/

namespace Leb128

open Reader

/-- The bytes are a form of the unsigned integer `value` of `bits` bits. -/
inductive IsUnsigned : (bits : Nat) → List UInt8 → (value : Nat) → Prop where
  | last {bits byte} (low : byte.toNat < 128) (fits : byte.toNat < 2 ^ bits) :
      IsUnsigned bits [byte] byte.toNat
  | more {bits byte bytes value} (high : 128 ≤ byte.toNat) (room : 7 < bits)
      (rest : IsUnsigned (bits - 7) bytes value) :
      IsUnsigned bits (byte :: bytes) (byte.toNat - 128 + 128 * value)

/-- The bytes are a form of the signed integer `value` of `bits` bits. -/
inductive IsSigned : (bits : Nat) → List UInt8 → (value : Int) → Prop where
  | positive {bits byte} (low : byte.toNat < 64) (fits : byte.toNat < 2 ^ (bits - 1)) :
      IsSigned bits [byte] byte.toNat
  | negative {bits byte} (low : 64 ≤ byte.toNat) (high : byte.toNat < 128)
      (fits : 128 ≤ byte.toNat + 2 ^ (bits - 1)) : IsSigned bits [byte] ((byte.toNat : Int) - 128)
  | more {bits byte bytes value} (high : 128 ≤ byte.toNat) (room : 7 < bits)
      (rest : IsSigned (bits - 7) bytes value) :
      IsSigned bits (byte :: bytes) ((byte.toNat : Int) - 128 + 128 * value)

theorem pow_of_room {bits : Nat} (room : 7 < bits) : 2 ^ bits = 128 * 2 ^ (bits - 7) := by
  obtain ⟨rest, rfl⟩ : ∃ rest, bits = rest + 7 := ⟨bits - 7, by omega⟩
  rw [Nat.add_sub_cancel, Nat.pow_add]
  omega

theorem pow_pred_of_room {bits : Nat} (room : 7 < bits) :
    2 ^ (bits - 1) = 128 * 2 ^ (bits - 7 - 1) := by
  obtain ⟨rest, rfl⟩ : ∃ rest, bits = rest + 8 := ⟨bits - 8, by omega⟩
  have shape : rest + 8 - 1 = rest + 7 := by omega
  have rest' : rest + 8 - 7 - 1 = rest := by omega
  rw [shape, rest', Nat.pow_add]
  omega

/-- An integer of at most 64 bits is not changed when it is reduced to a word. -/
theorem bmod_of_fits {bits : Nat} {value : Int} (few : bits ≤ 64) (fits : FitsSigned bits value) :
    value.bmod wordValues = value := by
  obtain ⟨lower, upper⟩ := fits
  have half : Nat.pow 2 (bits - 1) ≤ Nat.pow 2 63 := Nat.pow_le_pow_right (by decide) (by omega)
  have word : Nat.pow 2 63 = 0x8000000000000000 := rfl
  unfold wordValues
  apply Int.bmod_eq_of_le
  · omega
  · omega

variable {bits : Nat} {bytes : List UInt8}

namespace IsUnsigned

variable {value : Nat}

theorem lt_pow (form : IsUnsigned bits bytes value) : value < 2 ^ bits := by
  induction form with
  | last _ fits => exact fits
  | @more bits byte bytes value _ room _ ih =>
    have small := byte.toNat_lt
    rw [pow_of_room room]
    omega

theorem reads_groups {groups : Nat} (tooLong : DecodeError) (form : IsUnsigned bits bytes value)
    (some : 0 < bits) (enough : maxGroups bits ≤ groups) :
    Reads (unsignedGroups tooLong groups) bytes value := by
  induction form generalizing groups with
  | @last bits byte low _ =>
    obtain ⟨groups, rfl⟩ : ∃ n, groups = n + 1 := ⟨groups - 1, by unfold maxGroups at enough; omega⟩
    refine (Reads.byte byte).map ?_
    rw [if_pos low]
    exact .pure _
  | @more bits byte bytes value high room _ ih =>
    obtain ⟨groups, rfl⟩ : ∃ n, groups = n + 1 := ⟨groups - 1, by unfold maxGroups at enough; omega⟩
    have fewer : maxGroups (bits - 7) ≤ groups := by
      unfold maxGroups at enough ⊢
      omega
    refine (Reads.byte byte).bind ?_
    rw [if_neg (by omega)]
    exact (ih (by omega) fewer).map (.pure _)

theorem reads (form : IsUnsigned bits bytes value) (some : 0 < bits) (few : bits ≤ 64) :
    Reads (unsigned bits) bytes value := by
  have fits := form.lt_pow
  have word : 2 ^ bits ≤ 2 ^ 64 := Nat.pow_le_pow_right (by decide) few
  rw [unsigned_eq]
  refine .position fun start => ?_
  refine (form.reads_groups _ some (Nat.le_refl _)).map ?_
  have small : ¬ (bits < 64 ∧ ¬ FitsUnsigned bits value) := fun large => large.2 fits
  have whole : value % wordValues = value := Nat.mod_eq_of_lt (by unfold wordValues; omega)
  rw [if_neg small, whole]
  exact .pure _

end IsUnsigned

namespace IsSigned

variable {value : Int}

theorem fits (form : IsSigned bits bytes value) (some : 0 < bits) :
    -(2 ^ (bits - 1) : Nat) ≤ value ∧ value < (2 ^ (bits - 1) : Nat) := by
  induction form with
  | positive low fits => omega
  | negative low high fits => omega
  | @more bits byte bytes value high room _ ih =>
    have small := byte.toNat_lt
    obtain ⟨lower, upper⟩ := ih (by omega)
    have pow := pow_pred_of_room room
    omega

theorem reads_groups {groups : Nat} (tooLong : DecodeError) (form : IsSigned bits bytes value)
    (some : 0 < bits) (enough : maxGroups bits ≤ groups) :
    Reads (signedGroups tooLong groups) bytes value := by
  induction form generalizing groups with
  | @positive bits byte low _ =>
    obtain ⟨groups, rfl⟩ : ∃ n, groups = n + 1 := ⟨groups - 1, by unfold maxGroups at enough; omega⟩
    refine (Reads.byte byte).map ?_
    rw [if_pos low]
    exact .pure _
  | @negative bits byte low high _ =>
    obtain ⟨groups, rfl⟩ : ∃ n, groups = n + 1 := ⟨groups - 1, by unfold maxGroups at enough; omega⟩
    refine (Reads.byte byte).map ?_
    rw [if_neg (by omega), if_pos high]
    exact .pure _
  | @more bits byte bytes value high room _ ih =>
    obtain ⟨groups, rfl⟩ : ∃ n, groups = n + 1 := ⟨groups - 1, by unfold maxGroups at enough; omega⟩
    have fewer : maxGroups (bits - 7) ≤ groups := by
      unfold maxGroups at enough ⊢
      omega
    refine (Reads.byte byte).bind ?_
    rw [if_neg (by omega), if_neg (by omega)]
    exact (ih (by omega) fewer).map (.pure _)

theorem reads (form : IsSigned bits bytes value) (some : 0 < bits) (few : bits ≤ 64) :
    Reads (signed bits) bytes value := by
  have fits : FitsSigned bits value := form.fits some
  rw [signed_eq]
  refine .position fun start => ?_
  refine (form.reads_groups _ some (Nat.le_refl _)).map ?_
  rw [if_neg fun large => large.2 fits, bmod_of_fits few fits]
  exact .pure _

end IsSigned

end Leb128

/-! ### Vectors -/

/-- The bytes are forms of the elements, one behind the other. -/
inductive AreItems {α : Type} (IsItem : List UInt8 → α → Prop) :
    List UInt8 → List α → Prop where
  | nil : AreItems IsItem [] []
  | cons {a as xs ys} (first : IsItem xs a) (rest : AreItems IsItem ys as) :
      AreItems IsItem (xs ++ ys) (a :: as)

/-- The bytes are a form of a vector: the number of its elements, then these. -/
inductive IsVector {α : Type} (IsItem : List UInt8 → α → Prop) :
    List UInt8 → List α → Prop where
  | intro {count items elements} (size : Leb128.IsUnsigned 32 count elements.length)
      (forms : AreItems IsItem items elements) : IsVector IsItem (count ++ items) elements

section Vectors

open Reader

variable {α σ : Type} {IsItem : List UInt8 → α → Prop} {bytes : List UInt8} {elements : List α}

/-- Elements are read one after the other. `state` is what has been made of those read so far, the
first of `all`. -/
theorem AreItems.iterate_eq {step : σ → Reader σ} {all before : List α} (state : List α → σ)
    (forms : AreItems IsItem bytes elements)
    (reads : ∀ before a after xs, all = before ++ a :: after → IsItem xs a →
      Reads (step (state before)) xs (state (before ++ [a])))
    (split : all = before ++ elements) {code : Bytes} {pos : Nat}
    (written : BytesAt code pos bytes) :
    iterate step code elements.length (state before) pos = .ok (state all, pos + bytes.length) := by
  induction forms generalizing pos before with
  | nil =>
    rw [split, List.append_nil]
    rfl
  | @cons a as xs ys first rest ih =>
    obtain ⟨here, behind⟩ := BytesAt.append_iff.mp written
    have shifted : all = before ++ [a] ++ as := by
      rw [split, List.append_assoc, List.singleton_append]
    simp only [List.length_cons, iterate, reads before a as xs split first code pos here]
    rw [ih shifted behind, List.length_append, Nat.add_assoc]

/-- A vector is read step by step when its elements are. -/
theorem IsVector.reads_counted {step : σ → Reader σ} (form : IsVector IsItem bytes elements)
    (state : List α → σ)
    (reads : ∀ before a after xs, elements = before ++ a :: after → IsItem xs a →
      Reads (step (state before)) xs (state (before ++ [a]))) :
    Reads (counted (state []) step) bytes (state elements) := by
  obtain ⟨size, forms⟩ := form
  refine (size.reads (by decide) (by decide)).bind ?_
  intro code pos written
  exact forms.iterate_eq state reads (List.nil_append _).symm written

/-- A vector is read as such when its elements are. -/
theorem IsVector.reads {element : Reader α} (form : IsVector IsItem bytes elements)
    (reads : ∀ xs a, IsItem xs a → Reads element xs a) :
    Reads (vector element) bytes elements.toArray := by
  refine form.reads_counted List.toArray ?_
  intro before a after xs _ item
  have pushed : (before ++ [a]).toArray = before.toArray.push a := by simp
  rw [pushed]
  exact (reads xs a item).map (.pure _)

end Vectors

/-! ### Types -/

/-- The byte of a value type. -/
def ValType.byte : ValType → UInt8
  | i32 => 0x7F
  | i64 => 0x7E
  | f32 => 0x7D
  | f64 => 0x7C
  | v128 => 0x7B
  | funcref => 0x70
  | externref => 0x6F

@[simp] theorem ValType.ofByte?_byte (type : ValType) : ofByte? type.byte = some type := by
  cases type <;> rfl

theorem ValType.reads (type : ValType) : Reader.Reads ValType.read [type.byte] type := by
  refine .position fun start => ?_
  refine (Reader.Reads.byte _).map ?_
  rw [ofByte?_byte]
  exact .pure _

/-- The bytes are a form of a block type. -/
inductive BlockType.IsForm : List UInt8 → BlockType → Prop where
  | empty : IsForm [0x40] .empty
  | value (type : ValType) : IsForm [type.byte] (.value type)
  | index {bytes index} (form : Leb128.IsSigned 33 bytes (index : Nat)) :
      IsForm bytes (.index index)

/-- No form of a non-negative integer starts with the byte of a value type or of the empty type. -/
theorem Leb128.IsSigned.first_of_nat {bits index : Nat} {bytes : List UInt8}
    (form : IsSigned bits bytes index) :
    ∃ first rest, bytes = first :: rest ∧ first ≠ 0x40 ∧ ValType.ofByte? first = none := by
  have apart : ∀ first : UInt8, first.toNat < 64 ∨ 128 ≤ first.toNat →
      first ≠ 0x40 ∧ ValType.ofByte? first = none := by
    intro first range
    constructor
    · rintro rfl
      revert range
      decide
    · unfold ValType.ofByte?
      split
      all_goals first | omega | rfl
  generalize same : (index : Int) = value at form
  cases form with
  | positive low _ => exact ⟨_, [], rfl, apart _ (.inl low)⟩
  | negative low high _ => omega
  | more high _ _ => exact ⟨_, _, rfl, apart _ (.inr high)⟩

/-- Every form of a block type is read as that type. -/
theorem BlockType.IsForm.reads {bytes : List UInt8} {type : BlockType} (form : IsForm bytes type) :
    Reader.Reads BlockType.read bytes type := by
  cases form with
  | empty => exact .peek ((Reader.Reads.byte _).map (.pure _))
  | value type =>
    refine .peek ?_
    have other : type.byte ≠ 0x40 := by cases type <;> decide
    rw [if_neg other, ValType.ofByte?_byte]
    exact (Reader.Reads.byte _).map (.pure _)
  | index form =>
    obtain ⟨first, rest, rfl, other, untyped⟩ := form.first_of_nat
    refine .peek ?_
    rw [if_neg other, untyped]
    refine (form.reads (by decide) (by decide)).map ?_
    rw [if_neg (by omega), Int.toNat_natCast]
    exact .pure _

end Wasm
