import Wasm.Module.Section
import Wasm.Proofs.Binary.Locality

/-!
What a datum is read as does not depend on where it stands.

The binary format is put together from bytes, integers, names, types, bodies, regions and vectors of
these, and from immediates, which are skipped when code is walked through. `Format` is the syntax of
such data, with vectors of any of them, and `Format.read` its reader. A read that succeeds goes
forwards, over at least one byte unless there is nothing to skip, and stays inside its input. The
bytes that it has gone over are all that it depends on: in any other input in which they stand,
behind whatever and in front of whatever, they give the same value and are gone over again.

* `Format.local_read`: every datum is read locally, by induction on its format;
* `Format.read_elsewhere`: what this means for the bytes of two inputs.
-/

namespace Wasm

open Reader

theorem Body.local_read {ι : Type} : Local 1 fun _ : ι => Body.read :=
  Local.region.bind fun content => .enclosed content _

/-- The forms of data in the binary format, each with the type of what is read. -/
inductive Format : Type → Type 1 where
  | byte : Format UInt8
  | u32 : Format Nat
  | u64 : Format Nat
  | i32 : Format Int
  | i64 : Format Int
  | name : Format String
  | valType : Format ValType
  | blockType : Format BlockType
  | funcType : Format FuncType
  | limits : Format Limits
  | tableType : Format TableType
  | body : Format Body
  | region : Format Bytes
  | vector {α : Type} (element : Format α) : Format (Array α)
  /-- Immediates of an opcode, which are skipped. -/
  | immediates (shape : Shape) : Format Unit

namespace Format

/-- How a datum is read. -/
def read : {α : Type} → Format α → Reader α
  | _, byte => Reader.byte
  | _, u32 => Leb128.u32
  | _, u64 => Leb128.u64
  | _, i32 => Leb128.i32
  | _, i64 => Leb128.i64
  | _, name => Reader.name
  | _, valType => ValType.read
  | _, blockType => BlockType.read
  | _, funcType => FuncType.read
  | _, limits => Limits.read
  | _, tableType => TableType.read
  | _, body => Body.read
  | _, region => Reader.region
  | _, vector element => Reader.vector element.read
  | _, immediates shape => shape.skip

/-- How many bytes a datum has at least. -/
def least : {α : Type} → Format α → Nat
  | _, immediates shape => shape.least
  | _, _ => 1

theorem local_read {α : Type} (format : Format α) :
    Local format.least fun _ : Unit => format.read := by
  induction format with
  | byte => exact .byte
  | u32 => exact Leb128.local_u32
  | u64 => exact Leb128.local_unsigned 64
  | i32 => exact Leb128.local_signed 32
  | i64 => exact Leb128.local_signed 64
  | name => exact .name
  | valType => exact ValType.local_read
  | blockType => exact BlockType.local_read
  | funcType => exact FuncType.local_read
  | limits => exact Limits.local_read
  | tableType => exact TableType.local_read
  | body => exact Body.local_read
  | region => exact .region
  | vector element ih => exact .vector ih.weaken
  | immediates shape => exact Shape.local_skip shape

end Format

/-- Every datum is read over at least one byte, immediates of no size apart, and inside the input.
Wherever else the same bytes stand, whatever is before and behind them, the same value is read, over
as many bytes. -/
theorem Format.read_elsewhere {α : Type} (format : Format α) {code : Bytes} {pos q : Nat} {a : α}
    (inside : pos ≤ code.size) (read : format.read code pos = .ok (a, q)) :
    pos + format.least ≤ q ∧ q ≤ code.size ∧
      ∀ (other : Bytes) (p : Nat), other.extract p (p + (q - pos)) = code.extract pos q →
        format.read other p = .ok (a, p + (q - pos)) :=
  format.local_read.elsewhere inside read

/-- The theorem for a vector of two bodies, the second without locals. Behind it stood a byte, in
the other input there is nothing. -/
theorem bodies_read_elsewhere :
    (Format.vector .body).read
        #[0xFF, 0x02, 0x04, 0x01, 0x02, 0x7F, 0x0B, 0x02, 0x00, 0x0B, 0xAA] 1 =
      .ok (#[⟨2, #[0x0B]⟩, ⟨0, #[0x0B]⟩], 10) ∧
    (Format.vector .body).read
        #[0x60, 0x00, 0x02, 0x04, 0x01, 0x02, 0x7F, 0x0B, 0x02, 0x00, 0x0B] 2 =
      .ok (#[⟨2, #[0x0B]⟩, ⟨0, #[0x0B]⟩], 11) := by
  have read : (Format.vector .body).read
      #[0xFF, 0x02, 0x04, 0x01, 0x02, 0x7F, 0x0B, 0x02, 0x00, 0x0B, 0xAA] 1 =
      .ok (#[⟨2, #[0x0B]⟩, ⟨0, #[0x0B]⟩], 10) := toOption_eq_some_iff.mp (by decide +kernel)
  exact ⟨read, (Format.read_elsewhere (.vector .body) (by decide) read).2.2 _ 2 (by decide)⟩

end Wasm
