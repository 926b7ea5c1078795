import Wasm.Instr.Basic
import Wasm.Proofs.Binary.Grammar

/-!
A read depends on nothing but the bytes that it uses.

`Reader.Reads` starts from given bytes and says what a reader makes of them. `Reader.Local` goes the
other way: a read that succeeds has used some bytes, at least as many as stated, and the reader
reads these in the same way wherever they stand. So what comes behind them can be changed at will
(`Reader.Local.append`).

A reader may take note of its offset, but only to blame it. That is why the property is one of
families of readers: all members of a family read the same, and a family indexed by offsets may
stand behind `Reader.position`.

What is used stands in the input. So a local read goes forwards and stays inside its bytes
(`Reader.Local.bounded`).

* `Leb128.local_unsigned`, `Leb128.local_signed`: integers, of any width;
* `Reader.Local.counted`, `Reader.Local.region`: data that states its own size;
* `Shape.local_skip`: the immediates of any opcode, when they are skipped;
* `Opcode.local_instr?`: those of the opcodes that can be run, when they are read.
-/

namespace Wasm

/-- Bytes that are taken out of the code stand there. -/
theorem BytesAt.extract (code : Bytes) (pos count : Nat) (inside : pos + count ≤ code.size) :
    BytesAt code pos (code.extract pos (pos + count)).toList := by
  induction count generalizing pos with
  | zero => simp [BytesAt]
  | succ count ih =>
    have first : (code.extract pos (pos + (count + 1))).toList =
        code[pos] :: (code.extract (pos + 1) (pos + 1 + count)).toList := by
      have inside : pos < code.toList.length := by
        rw [Array.length_toList]
        omega
      rw [Array.toList_extract, List.extract_eq_take_drop, List.drop_eq_getElem_cons inside]
      simp [Array.toList_extract]
    rw [first]
    exact ⟨Array.getElem?_eq_getElem (by omega), ih (pos + 1) (by omega)⟩

theorem BytesAt.append {code : Bytes} {pos : Nat} {xs : List UInt8} (written : BytesAt code pos xs)
    (rest : Bytes) : BytesAt (code ++ rest) pos xs := by
  induction xs generalizing pos with
  | nil => trivial
  | cons x xs ih =>
    obtain ⟨here, behind⟩ := written
    obtain ⟨inside, -⟩ := Array.getElem?_eq_some_iff.mp here
    exact ⟨by rw [Array.getElem?_append_left inside, here], ih behind⟩

namespace Reader

/-- Bytes that are taken stand where they are taken from. -/
theorem take_written {code taken : Bytes} {count pos q : Nat}
    (read : take count code pos = .ok (taken, q)) :
    q = pos + count ∧ taken.size = count ∧ BytesAt code pos taken.toList := by
  obtain ⟨inside, rfl, rfl⟩ := take_eq_ok_iff.mp read
  refine ⟨rfl, ?_, .extract code pos count inside⟩
  rw [Array.size_extract]
  omega

variable {ι κ α β σ : Type}

/-- A read by any reader of the family that succeeds has used some bytes, at least `least` of them,
for which all readers of the family give the same, wherever the bytes stand. -/
def Local (least : Nat) (readers : ι → Reader α) : Prop :=
  ∀ i code pos a q, readers i code pos = .ok (a, q) →
    ∃ xs, BytesAt code pos xs ∧ q = pos + xs.length ∧ least ≤ xs.length ∧
      ∀ j, Reads (readers j) xs a

/-- A read from inside the bytes ends at or behind its start, and inside the bytes. -/
def Bounded (r : Reader α) : Prop :=
  ∀ bytes pos a q, r bytes pos = .ok (a, q) → pos ≤ bytes.size → pos ≤ q ∧ q ≤ bytes.size

namespace Local

variable {least : Nat} {readers : ι → Reader α}

/-- A read does not change when bytes are put behind the code. -/
theorem append {code : Bytes} {pos q : Nat} {i : ι} {a : α} (isLocal : Local least readers)
    (read : readers i code pos = .ok (a, q)) (rest : Bytes) :
    readers i (code ++ rest) pos = .ok (a, q) := by
  obtain ⟨xs, written, rfl, -, reads⟩ := isLocal i code pos a q read
  exact reads i _ _ (written.append rest)

/-- A local read that starts inside its input ends there, at least `least` bytes later. The bytes
that it used are read in the same way wherever else they stand. -/
theorem elsewhere {r : Reader α} (isLocal : Local least fun _ : Unit => r) {code : Bytes}
    {pos q : Nat} {a : α} (inside : pos ≤ code.size) (read : r code pos = .ok (a, q)) :
    pos + least ≤ q ∧ q ≤ code.size ∧
      ∀ (other : Bytes) (p : Nat), other.extract p (p + (q - pos)) = code.extract pos q →
        r other p = .ok (a, p + (q - pos)) := by
  obtain ⟨xs, written, rfl, enough, reads⟩ := isLocal () code pos a q read
  have within : pos + xs.length ≤ code.size := by
    cases xs with
    | nil => exact inside
    | cons x xs => exact written.le_size (List.cons_ne_nil x xs)
  refine ⟨Nat.add_le_add_left enough pos, within, ?_⟩
  intro other p same
  rw [Nat.add_sub_cancel_left] at same ⊢
  rw [written.extract_eq within] at same
  -- As many bytes were taken out of the other input, so they are there.
  have size : min (p + xs.length) other.size - p = xs.length := by
    rw [← Array.size_extract, same, List.size_toArray]
  apply reads () other p
  cases xs with
  | nil => trivial
  | cons x xs =>
    rw [List.length_cons] at same size
    have copied := BytesAt.extract other p (xs.length + 1) (by omega)
    rwa [same] at copied

theorem bounded {r : Reader α} (isLocal : Local least fun _ : Unit => r) : Bounded r := by
  intro code pos a q read inside
  obtain ⟨forwards, within, -⟩ := isLocal.elsewhere inside read
  exact ⟨Nat.le_trans (Nat.le_add_right pos least) forwards, within⟩

theorem weaken (isLocal : Local least readers) : Local 0 readers := by
  intro i code pos a q read
  obtain ⟨xs, written, same, -, reads⟩ := isLocal i code pos a q read
  exact ⟨xs, written, same, Nat.zero_le _, reads⟩

theorem pure (a : α) : Local 0 fun _ : ι => (Pure.pure a : Reader α) := by
  intro i code pos b q read
  cases read
  exact ⟨[], trivial, rfl, Nat.le_refl 0, fun _ => .pure a⟩

/-- Two reads in a row use at least what the first one uses. -/
theorem bind {next : ι → α → Reader β} (first : Local least readers)
    (rest : ∀ a, Local 0 fun i => next i a) : Local least fun i => readers i >>= next i := by
  intro i code pos b q read
  obtain ⟨a, p, readFirst, readNext⟩ := bind_eq_ok_iff.mp read
  obtain ⟨xs, here, rfl, enough, reads⟩ := first i code pos a p readFirst
  obtain ⟨ys, behind, rfl, -, reads'⟩ := rest a i code _ b q readNext
  refine ⟨xs ++ ys, BytesAt.append_iff.mpr ⟨here, behind⟩, ?_, ?_, ?_⟩
  · rw [List.length_append, Nat.add_assoc]
  · rw [List.length_append]
    omega
  · intro j
    exact (reads j).bind (reads' j)

theorem fail (least : Nat) (e : ι → DecodeError) :
    Local least fun i => (Reader.fail (e i) : Reader α) := by
  intro i code pos a q read
  cases read

theorem malformed (least : Nat) (rule : Malformation) :
    Local least fun _ : ι => (Reader.malformed rule : Reader α) := by
  intro i code pos a q read
  cases read

/-- What comes behind a look at the offset may use it to blame it. -/
theorem position {next : Nat → Reader β} (rest : Local least next) :
    Local least fun _ : ι => Reader.position >>= next := by
  intro i code pos b q read
  obtain ⟨xs, written, same, enough, reads⟩ := rest pos code pos b q read
  exact ⟨xs, written, same, enough, fun _ => .position reads⟩

theorem ite {p : Prop} [Decidable p] {readers' : ι → Reader α} (left : Local least readers)
    (right : Local least readers') : Local least fun i => if p then readers i else readers' i := by
  split
  · exact left
  · exact right

theorem byte : Local 1 fun _ : ι => Reader.byte := by
  intro i code pos b q read
  obtain ⟨found, rfl⟩ := byte_eq_ok_iff.mp read
  exact ⟨[b], ⟨found, trivial⟩, rfl, Nat.le_refl 1, fun _ => .byte b⟩

/-- A look at the next byte, when that byte is then used. -/
theorem peek {next : UInt8 → Reader β} (rest : ∀ first, Local 1 fun _ : ι => next first) :
    Local 1 fun _ : ι => Reader.peek >>= next := by
  intro i code pos b q read
  obtain ⟨first, p, peeked, readNext⟩ := bind_eq_ok_iff.mp read
  obtain ⟨found, rfl⟩ := peek_eq_ok_iff.mp peeked
  obtain ⟨xs, written, same, enough, reads⟩ := rest first i code p b q readNext
  cases xs with
  | nil => cases enough
  | cons x xs =>
    obtain rfl : first = x := Option.some.inj (found.symm.trans written.1)
    exact ⟨_ :: xs, written, same, enough, fun j => .peek (reads j)⟩

/-- Some bytes, of which there is at least one. -/
theorem take {count : Nat} (some : 0 < count) : Local 1 fun _ : ι => Reader.take count := by
  intro i code pos taken q read
  obtain ⟨rfl, size, written⟩ := take_written read
  rw [← Array.length_toList] at size
  refine ⟨taken.toList, written, by rw [size], by omega, fun _ => ?_⟩
  have reads := Reads.take (List.ne_nil_of_length_pos (by omega : 0 < taken.toList.length))
  rwa [size, Array.toArray_toList] at reads

/-- What is read inside a region uses nothing outside of it. -/
theorem enclosed (content : Bytes) (inner : Reader α) :
    Local 0 fun _ : ι => Reader.enclosed content inner := by
  intro i code pos a q read
  obtain ⟨rfl, after, run⟩ := enclosed_eq_ok_iff.mp read
  exact ⟨[], trivial, rfl, Nat.le_refl 0, fun _ => .enclosed after run⟩

theorem iterate {step : ι → σ → Reader σ} (steps : ∀ acc, Local 0 fun i => step i acc)
    (count : Nat) (acc : σ) :
    Local 0 fun i bytes pos => Reader.iterate (step i) bytes count acc pos := by
  induction count generalizing acc with
  | zero => exact pure acc
  | succ count ih => exact (steps acc).bind ih

end Local

end Reader

open Reader

variable {ι : Type}

/-! ### Integers -/

namespace Leb128

theorem local_collect (hasSign : Bool) (tooLong : ι → DecodeError) (groups : Nat) (word : Word)
    (shift : Nat) : Local 1 fun i => collect hasSign (tooLong i) groups word shift := by
  induction groups generalizing word shift with
  | zero => exact .fail 1 tooLong
  | succ groups ih =>
    exact Local.byte.bind fun b => .ite (.ite (.pure _) (.pure _)) (ih _ _).weaken

theorem local_unsigned (bits : Nat) : Local 1 fun _ : ι => unsigned bits := by
  refine .position ((local_collect _ _ _ _ _).bind fun value => ?_)
  exact .ite (.fail 0 _) (.pure _)

theorem local_signed (bits : Nat) : Local 1 fun _ : ι => signed bits := by
  refine .position ((local_collect _ _ _ _ _).bind fun value => ?_)
  exact .ite (.fail 0 _) (.pure _)

theorem local_u32 : Local 1 fun _ : ι => u32 :=
  local_unsigned 32

end Leb128

open Leb128 (local_u32 local_signed)

/-! ### Data that states its own size -/

namespace Reader.Local

variable {α σ : Type}

theorem counted {step : ι → σ → Reader σ} (steps : ∀ acc, Local 0 fun i => step i acc)
    (init : σ) : Local 1 fun i => Reader.counted init (step i) :=
  local_u32.bind fun count => iterate steps count init

theorem vector {element : Reader α} (each : Local 0 fun _ : ι => element) :
    Local 1 fun _ : ι => Reader.vector element :=
  counted (fun _ => each.bind fun _ => pure _) #[]

/-- The size of a region is part of it, so a region without content uses bytes as well. -/
theorem region : Local 1 fun _ : ι => Reader.region := by
  intro i code pos content q read
  obtain ⟨count, p, sized, taken⟩ := bind_eq_ok_iff.mp read
  obtain ⟨xs, before, rfl, some, reads⟩ := local_u32 i code pos count p sized
  obtain ⟨rfl, size, behind⟩ := take_written taken
  rw [← Array.length_toList] at size
  refine ⟨xs ++ content.toList, BytesAt.append_iff.mpr ⟨before, behind⟩, ?_, ?_, fun j => ?_⟩
  · rw [List.length_append, size, Nat.add_assoc]
  · rw [List.length_append]
    omega
  · have whole := Reads.bind_take (List.ne_nil_of_length_pos some) (size ▸ reads j)
    rwa [Array.toArray_toList] at whole

theorem name : Local 1 fun _ : ι => Reader.name := by
  refine .position (region.bind fun text => ?_)
  cases String.fromUTF8? ⟨text⟩ with
  | none => exact .fail 0 _
  | some name => exact pure name

end Reader.Local

/-! ### Types -/

theorem ValType.local_read : Local 1 fun _ : ι => ValType.read := by
  refine .position (Local.byte.bind fun byte => ?_)
  cases ValType.ofByte? byte with
  | none => exact .fail 0 _
  | some type => exact .pure type

theorem BlockType.local_read : Local 1 fun _ : ι => BlockType.read := by
  refine .peek fun first => .ite (Local.byte.bind fun _ => .pure _) ?_
  cases ValType.ofByte? first with
  | some type => exact Local.byte.bind fun _ => .pure _
  | none =>
    refine (local_signed 33).bind fun index => ?_
    exact .ite (.malformed 0 _) (.pure _)

theorem FuncType.local_read : Local 1 fun _ : ι => FuncType.read := by
  have types : Local 0 fun _ : ι => Reader.vector ValType.read :=
    (Local.vector ValType.local_read.weaken).weaken
  refine Local.byte.bind fun mark => .ite (.malformed 0 _) ?_
  exact types.bind fun params => types.bind fun results => .pure _

theorem Limits.local_read : Local 1 fun _ : ι => Limits.read := by
  have size : Local 0 fun _ : ι => Leb128.u32 := local_u32.weaken
  refine Local.byte.bind fun flag => ?_
  split
  · exact size.bind fun min => .pure _
  · exact size.bind fun min => size.bind fun max => .pure _
  · exact .malformed 0 _

theorem TableType.local_read : Local 1 fun _ : ι => TableType.read := by
  refine ValType.local_read.bind fun element => .ite ?_ (.malformed 0 _)
  exact Limits.local_read.weaken.bind fun limits => .pure _

/-! ### Immediates -/

namespace Shape

theorem local_skipPrefixed (code : Nat) : Local 0 fun _ : ι => skipPrefixed code := by
  have index : Local 0 fun _ : ι => Leb128.u32 := local_u32.weaken
  have byte : Local 0 fun _ : ι => Reader.byte := Local.byte.weaken
  unfold skipPrefixed
  split
  · exact index.bind fun _ => byte.bind fun _ => .pure _
  · exact index.bind fun _ => .pure _
  · exact index.bind fun _ => .pure _
  · exact index.bind fun _ => .pure _
  · exact index.bind fun _ => .pure _
  · exact index.bind fun _ => .pure _
  · exact byte.bind fun _ => byte.bind fun _ => .pure _
  · exact byte.bind fun _ => .pure _
  · exact index.bind fun _ => index.bind fun _ => .pure _
  · exact index.bind fun _ => index.bind fun _ => .pure _
  · exact .ite (.pure _) (.malformed 0 _)

/-- How many bytes immediates of the shape have at least: one, if there are any. -/
def least (shape : Shape) : Nat :=
  if shape = .empty then 0 else 1

theorem local_skip (shape : Shape) : Local shape.least fun _ : ι => shape.skip := by
  have index : Local 1 fun _ : ι => Leb128.u32 := local_u32
  cases shape with
  | empty => exact .pure _
  | blockType => exact BlockType.local_read.bind fun _ => .pure _
  | index => exact index.bind fun _ => .pure _
  | indexPair => exact index.bind fun _ => index.weaken.bind fun _ => .pure _
  | labelTable =>
    exact (Local.vector index.weaken).bind fun _ => index.weaken.bind fun _ => .pure _
  | valueTypes => exact (Local.vector ValType.local_read.weaken).bind fun _ => .pure _
  | memoryArgument => exact index.bind fun _ => index.weaken.bind fun _ => .pure _
  | byte => exact Local.byte.bind fun _ => .pure _
  | i32 => exact (local_signed 32).bind fun _ => .pure _
  | i64 => exact (local_signed 64).bind fun _ => .pure _
  | f32 => exact (Local.take (by decide)).bind fun _ => .pure _
  | f64 => exact (Local.take (by decide)).bind fun _ => .pure _
  | prefixed => exact index.bind local_skipPrefixed

end Shape

theorem Opcode.local_instr? {opcode : Opcode} {read : Reader Instr}
    (known : opcode.instr? = some read) : Local 0 fun _ : ι => read := by
  have index : Local 0 fun _ : ι => Leb128.u32 := local_u32.weaken
  cases opcode with
  | unreachable | nop | elseArm | endBlock | ret | drop | select | numeric op =>
    cases known
    exact .pure _
  | block | loop | ifThen =>
    cases known
    exact BlockType.local_read.weaken.bind fun _ => .pure _
  | br | brIf | call | localGet | localSet | localTee =>
    cases known
    exact index.bind fun _ => .pure _
  | brTable =>
    cases known
    exact (Local.vector index).weaken.bind fun _ => index.bind fun _ => .pure _
  | callIndirect =>
    cases known
    exact index.bind fun _ => index.bind fun _ => .pure _
  | selectTyped =>
    cases known
    exact (Local.vector ValType.local_read.weaken).weaken.bind fun _ => .pure _
  | const w =>
    cases known
    exact (local_signed w.bits).weaken.bind fun _ => .pure _
  | other shape => cases known

end Wasm
