import Wasm.Proofs.Module.Volume

/-!
What is in the table of a module.

The active segments of all element sections are collected in the order in which they stand in the
module, and written into the table once all sections are read. Each has to fit; then a slot holds
what the last segment that covers it puts there.

* `Sections.segments_of_foldlM`: what element sections add, whatever stands between them;
* `table_of_segments`: the table of a module.
-/

namespace Wasm

open Leb128
open Reader (Reads)

/-! ### Element sections -/

/-- The bytes are an entry of an element section: an active segment, or one that is passive or
declarative, which names functions but is not written into the table. -/
inductive IsElement : List UInt8 → Option Segment → Prop where
  | active {bytes segment} (form : Source.Segment.IsForm bytes segment) :
      IsElement bytes (some segment.toSegment)
  | inactive {kind flag elements funcs} (other : kind = 1 ∨ kind = 3)
      (flagged : IsUnsigned 32 flag kind) (listed : IsVector (IsUnsigned 32) elements funcs) :
      IsElement (flag ++ 0x00 :: elements) none

namespace Sections

theorem reads_element {bytes : List UInt8} {element : Option Segment} (segments : Array Segment)
    (form : IsElement bytes element) :
    Reads (readSegment segments) bytes (segments ++ element.toArray) := by
  cases form with
  | active form =>
    rw [Option.toArray_some, Array.append_singleton]
    exact reads_segment segments form
  | @inactive kind flag elements funcs other flagged listed =>
    rw [Option.toArray_none, Array.append_empty]
    have mark : Reads readElementKind [0x00] () := (Reads.byte 0x00).map (.pure _)
    have rest : Reads (do readElementKind; let _ ← Reader.vector u32; pure segments)
        (0x00 :: elements) segments :=
      mark.bind ((listed.reads fun _ _ => Reads.u32).map (.pure _))
    refine (Reads.u32 flagged).bind ?_
    rcases other with rfl | rfl
    · exact rest
    · exact rest

/-- The content of an element section adds its active segments, in their order. -/
theorem reads_activeElements {s : Sections} {content : List UInt8}
    {elements : List (Option Segment)} (form : IsVector IsElement content elements) :
    Reads (s.readContent .elements) content
      { s with segments := s.segments ++ (elements.filterMap id).toArray } := by
  refine Reads.map ?_ (.pure _)
  have start : s.segments = s.segments ++ (([] : List (Option Segment)).filterMap id).toArray := by
    simp
  conv in Reader.counted s.segments _ => rw [start]
  refine form.reads_counted (fun before => s.segments ++ (before.filterMap id).toArray) ?_
  intro before element after xs _ item
  have added : s.segments ++ ((before ++ [element]).filterMap id).toArray =
      s.segments ++ (before.filterMap id).toArray ++ element.toArray := by
    cases element <;> simp
  rw [added]
  exact reads_element _ item

/-- What a section that is no element section says is no segment. -/
theorem segments_of_add? {s t : Sections} {a : RawSection} (other : a.id ≠ 9)
    (added : s.add? a = some t) : t.segments = s.segments := by
  obtain ⟨kind, known, read⟩ := Option.bind_eq_some_iff.mp added
  have own := withPart_of_read? read
  cases kind with
  | elements => exact absurd (SectionKind.id_of_ofByte? known (by decide)) other
  | types | imports | functions | tables | exports | code | skipped =>
    rw [← own]
    rfl

theorem segments_of_add?_elements {s t : Sections} {a : RawSection}
    {elements : List (Option Segment)} (own : a.id = 9)
    (form : IsVector IsElement a.content elements) (added : s.add? a = some t) :
    t.segments = s.segments ++ (elements.filterMap id).toArray := by
  obtain ⟨kind, known, read⟩ := Option.bind_eq_some_iff.mp added
  rw [own] at known
  cases known
  have run := (reads_activeElements (s := s) form).run
  rw [read?, if_neg (by decide), run] at read
  simp only [List.size_toArray, Nat.le_refl, if_true] at read
  cases read
  rfl

/-- The sections of a module collect the active segments of its element sections, in the order in
which these stand in the module. -/
theorem segments_of_foldlM {sections : List RawSection} {s t : Sections}
    {elements : List (List (Option Segment))} (read : sections.foldlM add? s = some t)
    (forms : List.Forall₂ (fun a items => IsVector IsElement a.content items)
      (sections.filter (·.id = 9)) elements) :
    t.segments = s.segments ++ (elements.flatten.filterMap id).toArray := by
  induction sections generalizing s elements with
  | nil =>
    cases forms
    cases read
    simp
  | cons a sections ih =>
    rw [List.foldlM_cons] at read
    obtain ⟨u, added, read⟩ := Option.bind_eq_some_iff.mp read
    by_cases own : a.id = 9
    · rw [List.filter_cons_of_pos (by simpa using own)] at forms
      cases forms with
      | cons first rest =>
        rw [ih read rest, segments_of_add?_elements own first added]
        simp
    · rw [List.filter_cons_of_neg (by simpa using own)] at forms
      rw [ih read forms, segments_of_add? own added]

end Sections

/-! ### The table of a module -/

/-- No slot of a blank table is filled. -/
theorem Table.Blank.slot?_eq {table : Table} (blank : table.Blank) {index : Nat}
    (inside : index < table.size) : table.slot? index = some none := by
  obtain ⟨-, empty⟩ := blank
  rw [length_entries, List.countP_eq_zero] at empty
  have slot : table.slots[index] = none := by
    have unfilled := empty _ (Array.getElem_mem_toList inside)
    rwa [Option.not_isSome_iff_eq_none] at unfilled
  rw [slot?, Array.getElem?_eq_getElem inside, slot]

namespace Sections

/-- The table can be filled when every segment fits and only then. -/
theorem fillTable_ok_iff {table : Table} {segments : List Segment} :
    (∃ filled, fillTable segments (some table) = .ok filled) ↔
      ∀ segment ∈ segments, segment.offset + segment.funcs.length ≤ table.size := by
  constructor
  · rintro ⟨filled, fills⟩
    rcases Segment.fit_or_firstMisfit table.size segments with fits | ⟨segment, misfit⟩
    · exact fits
    · rw [fillTable_of_firstMisfit misfit] at fills
      cases fills
  · intro fits
    obtain ⟨filled, fills, -⟩ := fillTable_eq fits
    exact ⟨some filled, fills⟩

/-- A slot of a table that was blank holds what the last segment that covers it puts there, if there
is one. -/
theorem slot?_of_fillTable {table : Table} {segments : List Segment} {filled : Option Table}
    (blank : table.Blank) (fills : fillTable segments (some table) = .ok filled) :
    ∃ full, filled = some full ∧ full.size = table.size ∧
      ∀ index < table.size, full.slot? index = some (Segment.last? segments index) := by
  obtain ⟨full, fills', size, held⟩ := fillTable_eq (fillTable_ok_iff.mp ⟨filled, fills⟩)
  rw [fills'] at fills
  cases fills
  refine ⟨full, rfl, size, ?_⟩
  intro index inside
  rw [held index none (blank.slot?_eq inside), Option.or_none]

/-- What is read from sections: the active segments of the element sections, and a table, if there
is one, in which nothing is written yet. -/
theorem segments_of_readAll {sections : List RawSection} {elements : List (List (Option Segment))}
    {s : Sections}
    (read : readAll (Module.bytesOf sections) ((Module.bytesOf sections).size - 8) {} 8 = .ok s)
    (forms : List.Forall₂ (fun a items => IsVector IsElement a.content items)
      (sections.filter (·.id = 9)) elements) :
    s.segments.toList = elements.flatten.filterMap id ∧ ∀ table ∈ s.table, table.Blank := by
  constructor
  · have added := toOption_readAll_bytesOf sections
    rw [read] at added
    rw [segments_of_foldlM added.symm forms]
    simp
  · have header : 8 ≤ (Module.bytesOf sections).size :=
      (Module.bounded_readHeader _ 0 () 8 (Module.readHeader_bytesOf sections) (Nat.zero_le _)).2
    have nothing : ∀ table ∈ ({} : Sections).table, table.Blank := by
      intro table member
      cases member
    exact (paid_readAll read header nothing).2

/-- The table of a decoded module is what the segments make of the one that was read. -/
theorem fillTable_of_decode {sections : List RawSection} {s : Sections} {m : Module}
    (read : readAll (Module.bytesOf sections) ((Module.bytesOf sections).size - 8) {} 8 = .ok s)
    (decoded : Module.decode (Module.bytesOf sections) = .ok m) :
    fillTable s.segments.toList s.table = .ok m.table := by
  obtain ⟨⟨_, pos⟩, header, decoded⟩ := except_bind_eq_ok_iff.mp decoded
  rw [Module.readHeader_bytesOf] at header
  cases header
  obtain ⟨t, read', built⟩ := except_bind_eq_ok_iff.mp decoded
  rw [read] at read'
  cases read'
  obtain ⟨funcs, -, built⟩ := except_bind_eq_ok_iff.mp built
  obtain ⟨filled, fills, built⟩ := except_bind_eq_ok_iff.mp built
  cases built
  exact fills

end Sections

/-- The table of a module. Segments are written into a blank table when all of them fit and only
then, and a slot then holds what the last segment that covers it puts there; one that no segment
covers is empty, and there are as many slots as before. A segment alone, written in place, leaves
the table as it is when it does not fit. In a module whose element sections consist of the given
elements, the table is blank and the segments are the active ones of these elements, in the order of
the module; their offsets are the unsigned readings of signed constants. What they make of it is the
table of the module that is decoded. -/
theorem table_of_segments {table : Table} (blank : table.Blank) (segments : List Segment) :
    ((∃ filled, Sections.fillTable segments (some table) = .ok filled) ↔
      ∀ segment ∈ segments, segment.offset + segment.funcs.length ≤ table.size) ∧
    (∀ filled, Sections.fillTable segments (some table) = .ok filled →
      ∃ full, filled = some full ∧ ∀ index,
        (full.slot? index = none ↔ table.size ≤ index) ∧
        (index < table.size → (∀ segment ∈ segments, ¬ segment.Covers index) →
          full.slot? index = some none) ∧
        ∀ before segment after, segments = before ++ segment :: after →
          segment.Covers index → (∀ later ∈ after, ¬ later.Covers index) →
          ∃ func, segment.funcs[index - segment.offset]? = some func ∧
            full.slot? index = some (some func)) ∧
    (∀ (held : Table) offset funcs,
      (∀ filled, held.fill offset funcs = .ok filled →
        (Table.init offset funcs).run.run held = (.ok (), filled)) ∧
      ∀ e, held.fill offset funcs = .error e →
        (Table.init offset funcs).run.run held = (.error e, held)) ∧
    ∀ sections elements s,
      Sections.readAll (Module.bytesOf sections) ((Module.bytesOf sections).size - 8) {} 8 =
        .ok s →
      List.Forall₂ (fun a items => IsVector IsElement a.content items)
        (sections.filter (·.id = 9)) elements →
      s.segments.toList = elements.flatten.filterMap id ∧ (∀ own ∈ s.table, own.Blank) ∧
        ∀ m, Module.decode (Module.bytesOf sections) = .ok m →
          Sections.fillTable s.segments.toList s.table = .ok m.table := by
  refine ⟨Sections.fillTable_ok_iff, ?_, ?_, ?_⟩
  · intro filled fills
    obtain ⟨full, rfl, size, slots⟩ := Sections.slot?_of_fillTable blank fills
    refine ⟨full, rfl, fun index => ⟨?_, ?_, ?_⟩⟩
    · rw [← size]
      exact Array.getElem?_eq_none_iff
    · intro inside uncovered
      rw [slots index inside, Segment.last?_eq_none_iff.mpr uncovered]
    · rintro before segment after rfl covers later
      obtain ⟨func, listed, puts⟩ := covers.exists_func
      have fits := Sections.fillTable_ok_iff.mp ⟨_, fills⟩ segment (by simp)
      refine ⟨func, listed, ?_⟩
      rw [slots index (Nat.lt_of_lt_of_le covers.2 fits), Segment.last?_of_split puts later]
  · intro held offset funcs
    rw [Table.run_init]
    constructor
    · intro filled written
      rw [written]
    · intro e refused
      rw [refused]
  · intro sections elements s read forms
    obtain ⟨active, unwritten⟩ := Sections.segments_of_readAll read forms
    exact ⟨active, unwritten, fun m => Sections.fillTable_of_decode read⟩

namespace Sample

/-- A table in which nothing is written yet. -/
def threeSlots : Table :=
  ⟨#[none, none, none]⟩

def tableSection : RawSection :=
  ⟨4, [0x04], [0x01, 0x70, 0x00, 0x03], .last (by decide) (by decide)⟩

/-- An active segment and a passive one. -/
def firstElements : RawSection :=
  ⟨9, [0x0C], [0x02, 0x00, 0x41, 0x00, 0x0B, 0x02, 0x05, 0x06, 0x01, 0x00, 0x01, 0x09],
    .last (by decide) (by decide)⟩

/-- Two active segments. The first is written over a part of the one before; the second is empty and
starts where the table ends. -/
def secondElements : RawSection :=
  ⟨9, [0x0E], [0x02, 0x02, 0x00, 0x41, 0x01, 0x0B, 0x00, 0x01, 0x07, 0x00, 0x41, 0x03, 0x0B, 0x00],
    .last (by decide) (by decide)⟩

theorem isUnsigned_byte (byte : UInt8) (low : byte.toNat < 128) :
    IsUnsigned 32 [byte] byte.toNat :=
  .last low (Nat.lt_trans low (by decide))

theorem isOffset_byte (byte : UInt8) (low : byte.toNat < 64) :
    Source.IsOffset [0x41, byte, 0x0B] byte.toNat := by
  have form := Source.IsOffset.intro (.positive low (Nat.lt_trans low (by decide)))
  have same : (BitVec.ofInt 32 (byte.toNat : Int)).toNat = byte.toNat := by
    rw [BitVec.toNat_ofInt]
    omega
  rwa [same] at form

theorem isVector_bytes (bytes : List UInt8) (low : bytes.all (·.toNat < 128))
    (few : bytes.length < 128) :
    IsVector (IsUnsigned 32) (UInt8.ofNat bytes.length :: bytes) (bytes.map (·.toNat)) := by
  have count : (UInt8.ofNat bytes.length).toNat = (bytes.map (·.toNat)).length := by
    rw [UInt8.toNat_ofNat_of_lt' (Nat.lt_trans few (by decide)), List.length_map]
  have size := isUnsigned_byte (UInt8.ofNat bytes.length) (by simpa [count] using few)
  rw [count] at size
  refine .intro size ?_
  clear few count size
  induction bytes with
  | nil => exact .nil
  | cons byte bytes ih =>
    rw [List.all_cons, Bool.and_eq_true, decide_eq_true_iff] at low
    exact .cons (isUnsigned_byte byte low.1) (ih low.2)

theorem firstElements_form :
    IsVector IsElement firstElements.content [some ⟨0, [5, 6]⟩, none] := by
  have active : IsElement _ (some (Source.Segment.toSegment ⟨⟨0, [5, 6]⟩, false⟩)) :=
    .active (.implicit rfl (isUnsigned_byte 0x00 (by decide)) (isOffset_byte 0x00 (by decide))
      (isVector_bytes [0x05, 0x06] (by decide) (by decide)))
  have passive : IsElement _ none :=
    .inactive (.inl rfl) (isUnsigned_byte 0x01 (by decide))
      (isVector_bytes [0x09] (by decide) (by decide))
  exact .intro (isUnsigned_byte 0x02 (by decide)) (.cons active (.cons passive .nil))

theorem secondElements_form :
    IsVector IsElement secondElements.content [some ⟨1, [7]⟩, some ⟨3, []⟩] := by
  have second : IsElement _ (some (Source.Segment.toSegment ⟨⟨1, [7]⟩, true⟩)) :=
    .active (.explicit rfl (isUnsigned_byte 0x02 (by decide)) (isUnsigned_byte 0x00 (by decide))
      (isOffset_byte 0x01 (by decide)) (isVector_bytes [0x07] (by decide) (by decide)))
  have empty : IsElement _ (some (Source.Segment.toSegment ⟨⟨3, []⟩, false⟩)) :=
    .active (.implicit rfl (isUnsigned_byte 0x00 (by decide)) (isOffset_byte 0x03 (by decide))
      (isVector_bytes [] (by decide) (by decide)))
  exact .intro (isUnsigned_byte 0x02 (by decide)) (.cons second (.cons empty .nil))

/-- A module with two element sections and another section between them. -/
def overlapping : List RawSection :=
  [tableSection, firstElements, customSection, secondElements]

/-- What its sections say. -/
def overlaps : Sections :=
  { table := some threeSlots, segments := #[⟨0, [5, 6]⟩, ⟨1, [7]⟩, ⟨3, []⟩] }

end Sample

open Sample in
/-- The theorem at a module with two element sections and another section between them, at a segment
whose constant is minus one, and at one that is written in place and does not fit. -/
theorem overlapping_segments :
    Sections.readAll (Module.bytesOf overlapping) ((Module.bytesOf overlapping).size - 8) {} 8 =
      .ok overlaps ∧
    overlaps.segments.toList = [⟨0, [5, 6]⟩, ⟨1, [7]⟩, ⟨3, []⟩] ∧
    (∃ full, Sections.fillTable [⟨0, [5, 6]⟩, ⟨1, [7]⟩, ⟨3, []⟩] (some threeSlots) =
        .ok (some full) ∧
      full.slot? 0 = some (some 5) ∧ full.slot? 1 = some (some 7) ∧ full.slot? 2 = some none ∧
      full.slot? 3 = none) ∧
    (¬ ∃ filled, Sections.fillTable [⟨(BitVec.ofInt 32 (-1)).toNat, []⟩] (some threeSlots) =
      .ok filled) ∧
    (Table.init 2 [8, 9]).run.run threeSlots =
      (.error (.malformed 2 .segmentOutOfBounds), threeSlots) := by
  have blank : threeSlots.Blank := ⟨by decide, by decide⟩
  have read : Sections.readAll (Module.bytesOf overlapping)
      ((Module.bytesOf overlapping).size - 8) {} 8 = .ok overlaps :=
    toOption_eq_some_iff.mp (by decide +kernel)
  obtain ⟨fits, slots, written, collected⟩ :=
    table_of_segments blank [⟨0, [5, 6]⟩, ⟨1, [7]⟩, ⟨3, []⟩]
  obtain ⟨segments, -⟩ := collected overlapping _ overlaps read
    (.cons firstElements_form (.cons secondElements_form .nil))
  refine ⟨read, segments, ?_, ?_, (written threeSlots 2 [8, 9]).2 _ rfl⟩
  · obtain ⟨filled, fills⟩ := fits.mpr (by decide)
    obtain ⟨full, rfl, held⟩ := slots filled fills
    refine ⟨full, fills, ?_, ?_, (held 2).2.1 (by decide) (by decide), (held 3).1.mpr (by decide)⟩
    · obtain ⟨func, listed, found⟩ := (held 0).2.2 [] _ _ rfl ⟨by decide, by decide⟩ (by decide)
      cases listed
      exact found
    · obtain ⟨func, listed, found⟩ := (held 1).2.2 [_] _ _ rfl ⟨by decide, by decide⟩ (by decide)
      cases listed
      exact found
  · rw [(table_of_segments blank _).1]
    decide

end Wasm
