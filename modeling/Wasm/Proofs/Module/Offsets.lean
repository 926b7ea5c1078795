import Wasm.Proofs.Binary.Offsets
import Wasm.Proofs.Module.Filling
import Wasm.Proofs.Module.Truncation

/-!
Where the blame for a module that cannot be decoded is put.

While sections are read, every error that carries an offset blames a place in the input, or in a
region of it, and what is found missing when the parts are put together is blamed on offset zero.
One error is different. A segment that does not fit into the table is blamed by its own offset,
which counts slots and not bytes, and need not be anywhere near the input.

* `Sections.located_readSection`, `Sections.within_of_readAll`: sections;
* `Sections.error_of_toModule`: putting the parts together;
* `offset_of_failed_decode`: what the offset of an error is;
* `blamed_behind_input`: a module that is blamed on an offset behind its end.
-/

namespace Wasm

open Reader (Located)

variable {bytes : Bytes}

/-! ### What sections consist of -/

theorem Body.located_read : Located bytes Body.read := by
  refine Located.region_bind fun content small => .enclosed small ?_
  refine (Located.counted (fun total => ?_) 0).bind fun localCount => ?_
  · refine Leb128.located_u32.bind fun count => ValType.located_read.bind fun _ => ?_
    exact .ite (.pure _) (.malformed _)
  · exact Located.rest.bind fun code => .pure _

/-- No table is refused because of anything that is at an offset of the input. -/
theorem Table.within_of_create {type : TableType} {e : DecodeError}
    (failed : create type = .error e) : e.Within 0 := by
  unfold create at failed
  split at failed
  · cases failed
    exact DecodeError.within_unsupported _ _
  split at failed
  · cases failed
    exact .of_blamed rfl (Nat.le_refl 0)
  split at failed
  · cases failed
    exact DecodeError.within_unsupported _ _
  cases failed

namespace Sections

theorem located_readImport : Located bytes readImport := by
  refine Located.name.bind fun _ => Located.name.bind fun _ => Located.byte.bind fun kind => ?_
  split
  · exact .fail (DecodeError.within_unsupported _ _)
  · exact .fail (DecodeError.within_unsupported _ _)
  · exact Limits.located_read.bind fun _ => .pure _
  · exact ValType.located_read.bind fun _ => Located.byte.bind fun _ => .pure _
  · exact .malformed _

theorem located_readTable (table : Option Table) : Located bytes (readTable table) := by
  cases table with
  | some _ => exact .fail (DecodeError.within_unsupported _ _)
  | none =>
    refine TableType.located_read.bind fun type => ?_
    cases created : Table.create type with
    | ok table => exact .pure _
    | error e => exact .fail ((Table.within_of_create created).mono (Nat.zero_le _))

theorem located_readExport (exports : Array Export) : Located bytes (readExport exports) := by
  refine Located.name.bind fun name => Located.byte.bind fun kind => ?_
  refine Leb128.located_u32.bind fun index => .ite (.malformed _) (.ite (.pure _) ?_)
  exact .ite (.malformed _) (.pure _)

theorem located_readOffset : Located bytes readOffset := by
  refine Located.byte.bind fun opcode => .ite (.fail (DecodeError.within_unsupported _ _)) ?_
  refine (Leb128.located_signed 32).bind fun offset => Located.byte.bind fun last => ?_
  exact .ite (.malformed _) (.pure _)

theorem located_readElementKind : Located bytes readElementKind :=
  Located.byte.bind fun _ => .ite (.malformed _) (.pure _)

theorem located_readSegment (segments : Array Segment) :
    Located bytes (readSegment segments) := by
  have funcs : Located bytes (Reader.vector Leb128.u32) := .vector Leb128.located_u32
  refine Leb128.located_u32.bind fun kind => ?_
  split
  · exact located_readOffset.bind fun _ => funcs.bind fun _ => .pure _
  · refine Leb128.located_u32.bind fun table => .ite (.fail (DecodeError.within_unsupported _ _)) ?_
    refine located_readOffset.bind fun _ => located_readElementKind.bind fun _ => ?_
    exact funcs.bind fun _ => .pure _
  · exact located_readElementKind.bind fun _ => funcs.bind fun _ => .pure _
  · exact located_readElementKind.bind fun _ => funcs.bind fun _ => .pure _
  · exact .fail (DecodeError.within_unsupported _ _)
  · exact .fail (DecodeError.within_unsupported _ _)
  · exact .fail (DecodeError.within_unsupported _ _)
  · exact .fail (DecodeError.within_unsupported _ _)
  · exact .malformed _

/-! ### Sections -/

theorem located_readContent (s : Sections) (kind : SectionKind) :
    Located bytes (s.readContent kind) := by
  cases kind with
  | types => exact (Located.vectorFrom FuncType.located_read _).bind fun _ => .pure _
  | imports => exact (Located.counted (fun _ => located_readImport) _).bind fun _ => .pure _
  | functions => exact (Located.vectorFrom Leb128.located_u32 _).bind fun _ => .pure _
  | tables => exact (Located.counted located_readTable _).bind fun _ => .pure _
  | exports => exact (Located.counted located_readExport _).bind fun _ => .pure _
  | elements => exact (Located.counted located_readSegment _).bind fun _ => .pure _
  | code => exact (Located.vectorFrom Body.located_read _).bind fun _ => .pure _
  | skipped => exact .pure _

theorem located_readSection (s : Sections) : Located bytes s.readSection := by
  refine Located.byte.bind fun id => Located.region_bind fun content small => ?_
  split
  · exact .malformed _
  · exact .pure _
  · refine Located.bind (.enclosed small ?_) fun result => .ite (.pure _) (.malformed _)
    exact (s.located_readContent _).bind fun _ => Located.atEnd.bind fun _ => .pure _

/-- All sections together. -/
theorem within_of_readAll {s : Sections} {fuel pos : Nat} {e : DecodeError}
    (failed : readAll bytes fuel s pos = .error e) (inside : pos ≤ bytes.size) :
    e.Within bytes.size := by
  induction fuel generalizing s pos with
  | zero => cases failed
  | succ fuel ih =>
    have read := s.located_readSection pos inside
    rw [readAll] at failed
    split at failed
    · cases failed
    cases result : s.readSection bytes pos with
    | error e' =>
      rw [result] at failed read
      cases failed
      exact read
    | ok out =>
      rw [result] at failed read
      exact ih failed read

/-! ### Putting the parts together -/

theorem within_of_assembleFuncs {s : Sections} {e : DecodeError}
    (failed : s.assembleFuncs = .error e) : e.Within 0 := by
  unfold assembleFuncs at failed
  split at failed
  · cases failed
    exact .of_blamed rfl (Nat.le_refl 0)
  split at failed
  · cases failed
    exact .of_blamed rfl (Nat.le_refl 0)
  cases failed

/-- Parts that do not fit together are blamed on no place of the input, unless it is a segment that
does not fit into the table. -/
theorem error_of_toModule {s : Sections} {e : DecodeError} (failed : s.toModule = .error e) :
    e.Within 0 ∨
      ∃ table segment, s.table = some table ∧
        Segment.FirstMisfit table.size s.segments.toList segment ∧
        e = .malformed segment.offset .segmentOutOfBounds := by
  cases assembled : s.assembleFuncs with
  | error e' =>
    rw [toModule, assembled] at failed
    cases failed
    exact .inl (within_of_assembleFuncs assembled)
  | ok funcs =>
    rw [toModule, assembled] at failed
    change (fillTable s.segments.toList s.table >>= _) = _ at failed
    cases declared : s.table with
    | none =>
      rw [declared] at failed
      cases segments : s.segments.toList with
      | nil =>
        rw [segments] at failed
        cases failed
      | cons segment others =>
        rw [segments] at failed
        cases failed
        exact .inl (.of_blamed rfl (Nat.le_refl 0))
    | some table =>
      rw [declared] at failed
      rcases Segment.fit_or_firstMisfit table.size s.segments.toList with fits | ⟨segment, misfit⟩
      · obtain ⟨filled, written, -⟩ := fillTable_eq fits
        rw [written] at failed
        cases failed
      · rw [fillTable_of_firstMisfit misfit] at failed
        cases failed
        exact .inr ⟨table, segment, rfl, misfit, rfl⟩

end Sections

/-! ### Modules -/

theorem Module.located_readHeader : Located bytes readHeader := by
  have four : ∀ pos first q, pos ≤ bytes.size → Reader.take 4 bytes pos = .ok (first, q) →
      4 ≤ bytes.size := by
    intro pos first q _ taken
    obtain ⟨within, -, -⟩ := Reader.take_eq_ok_iff.mp taken
    omega
  refine (Located.take 4).bind_of four fun first size => ?_
  refine .ite (.fail (.of_blamed rfl (Nat.zero_le _))) ((Located.take 4).bind fun second => ?_)
  exact .ite (.fail (.of_blamed rfl size)) (.pure _)

/-- The sections of a module can be read and make a table, and the first segment that does not fit
into the table has the given offset in it. -/
def SegmentOutside (bytes : Bytes) (offset : Nat) : Prop :=
  ∃ s table segment, Sections.readAll bytes (bytes.size - 8) {} 8 = .ok s ∧
    s.table = some table ∧ Segment.FirstMisfit table.size s.segments.toList segment ∧
    segment.offset = offset

/-- The offset that is blamed when a module cannot be decoded lies in the input, or it is the offset
of a segment in the table, which the segment does not fit into. -/
theorem offset_of_failed_decode {cause : DecodeError} {offset : Nat}
    (failed : Module.decode bytes = .error cause) (blamed : cause.offset? = some offset) :
    offset ≤ bytes.size ∨
      cause = .malformed offset .segmentOutOfBounds ∧ SegmentOutside bytes offset := by
  have header := @Module.located_readHeader bytes 0 (Nat.zero_le _)
  unfold Module.decode at failed
  cases begun : Module.readHeader bytes 0 with
  | error e =>
    rw [begun] at failed header
    cases failed
    exact .inl (header offset blamed)
  | ok out =>
    obtain ⟨_, pos⟩ := out
    obtain rfl := Module.readHeader_end begun
    rw [begun] at failed header
    change (Sections.readAll bytes (bytes.size - 8) {} 8 >>= _) = _ at failed
    cases read : Sections.readAll bytes (bytes.size - 8) {} 8 with
    | error e =>
      rw [read] at failed
      cases failed
      exact .inl (Sections.within_of_readAll read header offset blamed)
    | ok s =>
      rw [read] at failed
      rcases Sections.error_of_toModule failed with nowhere | outside
      · exact .inl (Nat.le_trans (nowhere offset blamed) (Nat.zero_le _))
      · obtain ⟨table, segment, declared, misfit, rfl⟩ := outside
        cases blamed
        exact .inr ⟨rfl, s, table, segment, read, declared, misfit, rfl⟩

namespace Sample

/-- A module with a table of one slot and a segment that is to be written into it from the hundredth
slot on. -/
def stray : Bytes :=
  #[0x00, 0x61, 0x73, 0x6D, 0x01, 0x00, 0x00, 0x00,
    0x04, 0x04, 0x01, 0x70, 0x00, 0x01,
    0x09, 0x08, 0x01, 0x00, 0x41, 0xE4, 0x00, 0x0B, 0x01, 0x00]

end Sample

open Sample in
/-- The theorem at a module that ends too early, and at one whose segment does not fit. -/
theorem offsets_of_stray_segment :
    Module.decode (stray.take 23) = .error (.unexpectedEnd 23) ∧ 23 ≤ (stray.take 23).size ∧
      Module.decode stray = .error (.malformed 100 .segmentOutOfBounds) ∧
      SegmentOutside stray 100 := by
  have cut : Module.decode (stray.take 23) = .error (.unexpectedEnd 23) := by decide +kernel
  have failed : Module.decode stray = .error (.malformed 100 .segmentOutOfBounds) := by
    decide +kernel
  refine ⟨cut, ?_, failed, ?_⟩
  · exact (offset_of_failed_decode cut rfl).resolve_right fun outside => nomatch outside.1
  · exact ((offset_of_failed_decode failed rfl).resolve_left (by decide)).2

open Sample in
/-- An error whose offset lies behind the end of the input. -/
theorem blamed_behind_input :
    ∃ cause offset, Module.decode stray = .error cause ∧ cause.offset? = some offset ∧
      stray.size < offset :=
  ⟨.malformed 100 .segmentOutOfBounds, 100, by decide +kernel, rfl, by decide⟩

end Wasm
