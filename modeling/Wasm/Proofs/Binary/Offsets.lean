import Wasm.Types

/-!
Where a failed read puts the blame.

Most decoding errors carry an offset. `Reader.Located` says that a read which starts inside its
bytes ends inside them, or blames an offset inside them. The property is kept by composing reads: an
error is made up at the current offset, or at one that was remembered earlier (`position_bind`), and
a region is never larger than the bytes that it was taken from (`region_bind`).

* `Reader.Located.bind_of`: composing reads, the second of which relies on what the first gave;
* `Reader.Located.enclosed`: inside a region offsets count from its start, so they only get smaller;
* `Leb128.located_unsigned`, `Reader.Located.counted`, `Reader.Located.name`, ...: what types and
  sections consist of.
-/

namespace Wasm

namespace DecodeError

/-- The offset that an error blames, if it blames one. -/
def offset? : DecodeError → Option Nat
  | unexpectedEnd offset => some offset
  | intTooLong offset _ => some offset
  | intTooLarge offset _ => some offset
  | invalidUtf8 offset => some offset
  | malformed offset _ => some offset
  | unsupported _ => none

/-- The error blames no offset behind the end of an input of the given size. -/
def Within (e : DecodeError) (size : Nat) : Prop :=
  ∀ offset ∈ e.offset?, offset ≤ size

theorem Within.mono {e : DecodeError} {small large : Nat} (within : e.Within small)
    (le : small ≤ large) : e.Within large :=
  fun offset blamed => Nat.le_trans (within offset blamed) le

/-- An error that blames an offset inside. -/
theorem Within.of_blamed {e : DecodeError} {start size : Nat} (blamed : e.offset? = some start)
    (inside : start ≤ size) : e.Within size := by
  intro offset member
  rw [blamed] at member
  cases member
  exact inside

theorem within_unsupported (feature : Feature) (size : Nat) :
    (unsupported feature).Within size := by
  intro offset blamed
  cases blamed

end DecodeError

namespace Reader

variable {α β σ : Type} {bytes : Bytes}

/-- A read has gone no further than the given size, or it has failed and blames no offset behind. -/
def StaysWithin (size : Nat) : Except DecodeError (α × Nat) → Prop
  | .ok (_, q) => q ≤ size
  | .error e => e.Within size

/-- A read that starts inside the bytes ends inside, or fails and blames an offset inside. -/
def Located (bytes : Bytes) (r : Reader α) : Prop :=
  ∀ pos, pos ≤ bytes.size → StaysWithin bytes.size (r bytes pos)

namespace Located

theorem pure (a : α) : Located bytes (Pure.pure a : Reader α) :=
  fun _ inside => inside

theorem fail {e : DecodeError} (within : e.Within bytes.size) :
    Located bytes (Reader.fail e : Reader α) :=
  fun _ _ => within

theorem malformed (rule : Malformation) : Located bytes (Reader.malformed rule : Reader α) :=
  fun _ inside => DecodeError.Within.of_blamed rfl inside

theorem position : Located bytes Reader.position :=
  fun _ inside => inside

theorem atEnd : Located bytes Reader.atEnd :=
  fun _ inside => inside

theorem rest : Located bytes Reader.rest :=
  fun _ _ => Nat.le_refl _

theorem byte : Located bytes Reader.byte := by
  intro pos inside
  unfold Reader.byte
  split
  · rename_i here
    exact here
  · exact DecodeError.Within.of_blamed rfl inside

theorem take (count : Nat) : Located bytes (Reader.take count) := by
  intro pos inside
  unfold Reader.take
  split
  · rename_i here
    exact here
  · exact DecodeError.Within.of_blamed rfl (Nat.le_refl _)

/-- Two reads in a row, where the second relies on a property of what the first gives. -/
theorem bind_of {P : α → Prop} {first : Reader α} {next : α → Reader β}
    (located : Located bytes first)
    (gives : ∀ pos a q, pos ≤ bytes.size → first bytes pos = .ok (a, q) → P a)
    (rest : ∀ a, P a → Located bytes (next a)) : Located bytes (first >>= next) := by
  intro pos inside
  have begun := located pos inside
  cases result : first bytes pos with
  | error e =>
    rw [result] at begun
    rw [bind_error result]
    exact begun
  | ok out =>
    rw [result] at begun
    rw [bind_ok result]
    exact rest out.1 (gives pos out.1 out.2 inside result) out.2 begun

theorem bind {first : Reader α} {next : α → Reader β} (located : Located bytes first)
    (rest : ∀ a, Located bytes (next a)) : Located bytes (first >>= next) :=
  located.bind_of (P := fun _ => True) (fun _ _ _ _ _ => trivial) fun a _ => rest a

/-- The current offset can be blamed later on. -/
theorem position_bind {next : Nat → Reader β}
    (rest : ∀ start, start ≤ bytes.size → Located bytes (next start)) :
    Located bytes (Reader.position >>= next) := by
  refine position.bind_of ?_ rest
  intro pos start q inside read
  cases read
  exact inside

theorem ite {p : Prop} [Decidable p] {r r' : Reader α} (left : Located bytes r)
    (right : Located bytes r') : Located bytes (if p then r else r') := by
  split
  · exact left
  · exact right

theorem iterate {step : σ → Reader σ} (located : ∀ acc, Located bytes (step acc)) (count : Nat)
    (acc : σ) : Located bytes (fun bytes pos => Reader.iterate step bytes count acc pos) := by
  induction count generalizing acc with
  | zero => exact pure acc
  | succ count ih => exact (located acc).bind ih

/-- Offsets inside a region are no larger than the region, which is no larger than the bytes. -/
theorem enclosed {content : Bytes} {inner : Reader α} (small : content.size ≤ bytes.size)
    (located : Located content inner) : Located bytes (Reader.enclosed content inner) := by
  intro pos inside
  have begun := located 0 (Nat.zero_le _)
  unfold Reader.enclosed
  cases result : inner content 0 with
  | error e =>
    rw [result] at begun
    exact DecodeError.Within.mono begun small
  | ok out => exact inside

end Located

end Reader

open Reader (Located)

/-! ### Integers -/

namespace Leb128

variable {bytes : Bytes} {tooLong : DecodeError}

theorem located_collect (hasSign : Bool) (within : tooLong.Within bytes.size) (groups : Nat)
    (word : Word) (shift : Nat) : Located bytes (collect hasSign tooLong groups word shift) := by
  induction groups generalizing word shift with
  | zero => exact .fail within
  | succ groups ih => exact Located.byte.bind fun b => .ite (.ite (.pure _) (.pure _)) (ih _ _)

/-- An integer that is too long or too large is blamed on its first byte. -/
theorem located_unsigned (bits : Nat) : Located bytes (unsigned bits) := by
  refine .position_bind fun start inside => ?_
  refine (located_collect false (.of_blamed rfl inside) _ _ _).bind fun word => ?_
  exact .ite (.fail (.of_blamed rfl inside)) (.pure _)

theorem located_signed (bits : Nat) : Located bytes (signed bits) := by
  refine .position_bind fun start inside => ?_
  refine (located_collect true (.of_blamed rfl inside) _ _ _).bind fun word => ?_
  exact .ite (.fail (.of_blamed rfl inside)) (.pure _)

theorem located_u32 : Located bytes u32 :=
  located_unsigned 32

end Leb128

/-! ### Data that states its own size -/

namespace Reader.Located

variable {α β σ : Type} {bytes : Bytes}

theorem counted {step : σ → Reader σ} (located : ∀ acc, Located bytes (step acc)) (init : σ) :
    Located bytes (Reader.counted init step) :=
  Leb128.located_u32.bind fun count => iterate located count init

theorem vectorFrom {element : Reader α} (located : Located bytes element) (init : Array α) :
    Located bytes (Reader.vectorFrom init element) :=
  counted (fun _ => located.bind fun _ => pure _) init

theorem vector {element : Reader α} (located : Located bytes element) :
    Located bytes (Reader.vector element) :=
  vectorFrom located #[]

/-- What is read inside a region can rely on the region being no larger than the bytes. -/
theorem region_bind {next : Bytes → Reader β}
    (rest : ∀ content : Bytes, content.size ≤ bytes.size → Located bytes (next content)) :
    Located bytes (Reader.region >>= next) := by
  refine (Leb128.located_u32.bind take).bind_of ?_ rest
  intro pos content q inside read
  obtain ⟨size, start, -, taken⟩ := bind_eq_ok_iff.mp read
  obtain ⟨-, rfl, -⟩ := take_eq_ok_iff.mp taken
  rw [Array.size_extract]
  omega

theorem name : Located bytes Reader.name := by
  refine position_bind fun start inside => region_bind fun text _ => ?_
  split
  · exact pure _
  · exact fail (.of_blamed rfl inside)

end Reader.Located

/-! ### Types -/

variable {bytes : Bytes}

theorem ValType.located_read : Located bytes ValType.read := by
  refine .position_bind fun start inside => Located.byte.bind fun byte => ?_
  split
  · exact .pure _
  · exact .fail (.of_blamed rfl inside)

theorem FuncType.located_read : Located bytes FuncType.read := by
  refine Located.byte.bind fun mark => .ite (.malformed _) ?_
  refine (Located.vector ValType.located_read).bind fun params => ?_
  exact (Located.vector ValType.located_read).bind fun results => .pure _

theorem Limits.located_read : Located bytes Limits.read := by
  refine Located.byte.bind fun flag => ?_
  split
  · exact Leb128.located_u32.bind fun min => .pure _
  · exact Leb128.located_u32.bind fun min => Leb128.located_u32.bind fun max => .pure _
  · exact .malformed _

theorem TableType.located_read : Located bytes TableType.read := by
  refine ValType.located_read.bind fun element => .ite ?_ (.malformed _)
  exact Limits.located_read.bind fun limits => .pure _

end Wasm
