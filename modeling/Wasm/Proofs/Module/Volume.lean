import Wasm.Proofs.Binary.Budget
import Wasm.Proofs.Module.Order
import Wasm.Proofs.Module.WellTyped

/-!
A decoded module is no larger than its binary form.

Vectors state their counts, and a count of a few bytes can be very large. Nothing is made for a
count alone: every type, function, export, name, body and table entry of a decoded module was paid
for with bytes of its own, and no region is read twice. Only the empty slots of the table have no
bytes of their own, and of these there are at most `2 ^ 20`.

* `Sections.paid_readContent`, `Sections.paid_readSection`: a section adds no more than its bytes;
* `Sections.paid_readAll`: nor do all sections together;
* `Sections.fillTable_bounded`: filling a table adds no more entries than are written;
* `Sections.extent_of_toModule`: a module is no larger than what its sections weigh;
* `decoded_module_bounded`: a decoded module is well formed, and not larger than its binary form.
-/

namespace Wasm

open Reader
open Leb128 (local_u32 local_signed)

variable {ι : Type}

/-! ### Weights -/

/-- The number of things of a module and the size of what they hold: types with their parameters and
results, functions with their code, exports with their names, and table entries. -/
def Module.extent (m : Module) : Nat :=
  m.types.size + m.funcs.size + m.exports.size +
    (m.types.map fun type => type.params.length + type.results.length).sum +
    (m.funcs.map (·.body.code.size)).sum +
    (m.exports.map (·.name.utf8ByteSize)).sum +
    (m.table.elim 0 (·.entries.length))

def FuncType.weight (type : FuncType) : Nat :=
  1 + (type.params.length + type.results.length)

def Body.weight (body : Body) : Nat :=
  1 + body.code.size

def Export.weight (e : Export) : Nat :=
  1 + e.name.utf8ByteSize

/-- What the sections add to the extent of the module. Functions are counted by their bodies, and
table entries by what is to be written. -/
def Sections.weight (s : Sections) : Nat :=
  (s.types.map FuncType.weight).sum + (s.exports.map Export.weight).sum +
    (s.segments.map (·.funcs.length)).sum + (s.bodies.map Body.weight).sum

theorem size_add_sum {α : Type} (weight : α → Nat) (xs : Array α) :
    (xs.map fun a => 1 + weight a).sum = xs.size + (xs.map weight).sum := by
  obtain ⟨xs⟩ := xs
  induction xs with
  | nil => simp
  | cons a xs ih =>
    simp only [List.map_toArray, List.sum_toArray, List.size_toArray, List.map_cons,
      List.sum_cons, List.length_cons] at ih ⊢
    omega

/-! ### Readers of what sections consist of -/

theorem ValType.paid_read {given : Nat} : Paid (fun _ => given + 1) given ValType.read :=
  .of_local ValType.local_read

theorem FuncType.paid_read : Paid FuncType.weight 0 FuncType.read := by
  refine Paid.byte.bind fun mark => .ite (.malformed _) ?_
  refine (Paid.vector ValType.paid_read).bind fun params => ?_
  refine (Paid.vector ValType.paid_read).bind fun results => .pure ?_
  simp only [FuncType.weight, params_new, results_new, Array.length_toList]
  omega

/-- The code of a body is a part of its region, and the size of the region stands for the body. -/
theorem Body.paid_read : Paid Body.weight 0 Body.read := by
  refine Paid.region.bind fun content => Paid.enclosed ?_ content
  refine .skip (Local.counted (fun total => ?_) 0) fun localCount => ?_
  · refine (local_u32.bind fun count => ValType.local_read.weaken.bind fun _ => ?_).weaken
    exact .ite (.pure _) (.malformed 0 _)
  · exact Paid.rest.bind fun code => .pure (Nat.le_refl _)

namespace Sections

theorem local_readImport : Local 1 fun _ : ι => readImport := by
  refine Local.name.bind fun _ => Local.name.weaken.bind fun _ => ?_
  refine Local.byte.weaken.bind fun kind => ?_
  split
  · exact .fail 0 _
  · exact .fail 0 _
  · exact Limits.local_read.weaken.bind fun _ => .pure _
  · exact ValType.local_read.weaken.bind fun _ => Local.byte.weaken.bind fun _ => .pure _
  · exact .malformed 0 _

theorem local_readTable (table : Option Table) : Local 1 fun _ : ι => readTable table := by
  cases table with
  | some _ => exact .fail 1 _
  | none =>
    refine TableType.local_read.bind fun type => ?_
    cases Table.create type with
    | ok table => exact .pure _
    | error e => exact .fail 0 _

theorem local_readOffset : Local 1 fun _ : ι => readOffset := by
  refine Local.byte.bind fun opcode => .ite (.fail 0 _) ?_
  refine (local_signed 32).weaken.bind fun offset => Local.byte.weaken.bind fun last => ?_
  exact .ite (.malformed 0 _) (.pure _)

theorem local_readElementKind : Local 1 fun _ : ι => readElementKind :=
  Local.byte.bind fun _ => .ite (.malformed 0 _) (.pure _)

/-- An export weighs no more than its bytes, whether it is kept or not. -/
theorem paid_readExport (given : Nat) (exports : Array Export) :
    Paid (fun exports => given + (exports.map Export.weight).sum)
      (given + (exports.map Export.weight).sum) (readExport exports) := by
  have kept : ∀ text : String, given + (exports.map Export.weight).sum ≤
      given + (exports.map Export.weight).sum + 1 + text.utf8ByteSize := by
    intro text
    omega
  refine Paid.name.bind fun text => .skip .byte fun kind => .skip local_u32 fun index => ?_
  refine .ite (.malformed _) (.ite (.pure (kept text)) (.ite (.malformed _) (.pure ?_)))
  simp only [Array.map_push, Array.sum_push, Export.weight]
  omega

/-- A segment weighs no more than its bytes, whether it is kept or not. -/
theorem paid_readSegment (given : Nat) (segments : Array Segment) :
    Paid (fun segments => given + (segments.map (·.funcs.length)).sum)
      (given + (segments.map (·.funcs.length)).sum) (readSegment segments) := by
  have added : ∀ offset, Paid (fun segments => given + (segments.map (·.funcs.length)).sum)
      (given + (segments.map (·.funcs.length)).sum) (do
        let funcs ← Reader.vector Leb128.u32
        pure (segments.push { offset, funcs := funcs.toList })) := by
    intro offset
    refine (Paid.vector Paid.u32).bind fun funcs => .pure ?_
    simp only [Array.map_push, Array.sum_push, Array.length_toList]
    omega
  have indices : Local 1 fun _ : Unit => Reader.vector Leb128.u32 := .vector local_u32.weaken
  refine .skip local_u32 fun kind => ?_
  split
  · exact .skip local_readOffset added
  · refine .skip local_u32 fun table => .ite (.fail _) ?_
    exact .skip local_readOffset fun offset => .skip local_readElementKind fun _ => added offset
  -- Segments that are not active are read and dropped.
  · exact .skip local_readElementKind fun _ => .skip indices fun _ => .pure (Nat.le_refl _)
  · exact .skip local_readElementKind fun _ => .skip indices fun _ => .pure (Nat.le_refl _)
  all_goals first | exact .fail _ | exact .malformed _

/-! ### Sections -/

/-- Reading into one part of the sections is paid for when the part is, whatever the others weigh.
-/
theorem paid_part {α : Type} {s : Sections} {make : Array α → Sections} {own : Array α → Nat}
    {init : Array α} {r : Reader (Array α)}
    (paid : ∀ given, Paid (fun xs => given + own xs) (given + own init) r)
    (within : own init ≤ s.weight)
    (adds : ∀ xs, (make xs).weight + own init = s.weight + own xs) :
    Paid weight s.weight (do
      let xs ← r
      pure (make xs)) := by
  have others : s.weight - own init + own init = s.weight := Nat.sub_add_cancel within
  have all := paid (s.weight - own init)
  rw [others] at all
  refine all.bind fun xs => .pure ?_
  have := adds xs
  omega

/-- Content of a section weighs no more than its bytes. -/
theorem paid_readContent (s : Sections) (kind : SectionKind) :
    Paid weight s.weight (s.readContent kind) := by
  cases kind with
  | types =>
    refine paid_part (fun given => .vectorFrom given FuncType.paid_read s.types) ?_ fun types => ?_
    · unfold weight
      omega
    · simp only [weight]
      omega
  | imports =>
    have each : Local 0 fun _ : Unit => readImport := local_readImport.weaken
    exact .skip (Local.counted (fun _ => each) ()) fun _ => .pure (Nat.le_refl _)
  | functions =>
    refine .skip (Local.counted (fun acc => ?_) s.funcTypes) fun _ => .pure (Nat.le_refl s.weight)
    exact local_u32.weaken.bind fun _ => .pure _
  | tables =>
    have each : ∀ table, Local 0 fun _ : Unit => readTable table := fun table =>
      (local_readTable table).weaken
    exact .skip (Local.counted each s.table) fun _ => .pure (Nat.le_refl s.weight)
  | exports =>
    refine paid_part (fun given => .counted (paid_readExport given) s.exports) ?_ fun exports => ?_
    · unfold weight
      omega
    · simp only [weight]
      omega
  | elements =>
    refine paid_part (fun given => .counted (paid_readSegment given) s.segments) ?_
      fun segments => ?_
    · unfold weight
      omega
    · simp only [weight]
      omega
  | code =>
    refine paid_part (fun given => .vectorFrom given Body.paid_read s.bodies) ?_ fun bodies => ?_
    · unfold weight
      omega
    · simp only [weight]
      omega
  | skipped => exact .pure (Nat.le_refl _)

/-- A section adds no more than its bytes: it is read in a region of its own, and only once. -/
theorem paid_readSection (s : Sections) : Paid weight s.weight s.readSection := by
  refine .skip .byte fun id => Paid.region.bind fun content => ?_
  have enclosed : ∀ kind, Paid (fun out => out.1.weight) (s.weight + 1 + content.size)
      (Reader.enclosed content do
        let t ← s.readContent kind
        let complete ← Reader.atEnd
        pure (t, complete)) := by
    intro kind
    have inner : Paid (fun out => out.1.weight) (s.weight + 1) (do
        let t ← s.readContent kind
        let complete ← Reader.atEnd
        pure (t, complete)) := by
      refine (s.paid_readContent kind).mono (fun _ => Nat.le_refl _) (Nat.le_succ _) |>.bind ?_
      exact fun t => Paid.atEnd.bind fun _ => .pure (Nat.le_refl _)
    exact inner.enclosed content
  cases SectionKind.ofByte? id with
  | none => exact .malformed _
  | some kind =>
    cases kind with
    | skipped => exact .pure (by omega)
    | types | imports | functions | tables | exports | elements | code =>
      refine (enclosed _).bind ?_
      rintro ⟨t, complete⟩
      exact .ite (.pure (Nat.le_refl _)) (.malformed _)

end Sections

/-! ### The table -/

namespace Table

/-- No slot is filled, and there are not too many. -/
def Blank (table : Table) : Prop :=
  table.size ≤ maxSize ∧ table.entries.length = 0

theorem length_entries (table : Table) :
    table.entries.length = table.slots.toList.countP Option.isSome := by
  have shifted : ∀ (slots : List (Option Nat)) (first : Nat),
      ((slots.zipIdx first).filterMap fun entry =>
        entry.1.map fun func => (entry.2, func)).length = slots.countP Option.isSome := by
    intro slots
    induction slots with
    | nil => simp
    | cons slot slots ih =>
      intro first
      cases slot with
      | none => simp [ih]
      | some func => simp [ih]
  exact shifted table.slots.toList 0

/-- Writing into slots fills no more of them than are written. -/
theorem countP_write (slots : Array (Option Nat)) (offset : Nat) (funcs : List Nat) :
    (write slots offset funcs).toList.countP Option.isSome ≤
      slots.toList.countP Option.isSome + funcs.length := by
  induction funcs generalizing slots offset with
  | nil => exact Nat.le_refl _
  | cons func funcs ih =>
    have one : (slots.toList.set offset (some func)).countP Option.isSome ≤
        slots.toList.countP Option.isSome + 1 := by
      by_cases inside : offset < slots.toList.length
      · rw [List.countP_set inside]
        simp only [Option.isSome_some, if_true]
        omega
      · rw [List.set_eq_of_length_le (by omega)]
        omega
    have rest := ih (slots.setIfInBounds offset (some func)) (offset + 1)
    rw [Array.toList_setIfInBounds] at rest
    rw [write, List.length_cons]
    omega

/-- Filling a table adds no more entries than are written, and no slots. -/
theorem fill_bounded {table filled : Table} {offset : Nat} {funcs : List Nat}
    (fills : table.fill offset funcs = .ok filled) :
    filled.size = table.size ∧ filled.entries.length ≤ table.entries.length + funcs.length := by
  unfold fill at fills
  split at fills
  · cases fills
    refine ⟨size_write _ _ _, ?_⟩
    rw [length_entries, length_entries]
    exact countP_write _ _ _
  · cases fills

theorem blank_of_create {type : TableType} {table : Table} (created : create type = .ok table) :
    table.Blank := by
  unfold create at created
  split at created
  · cases created
  split at created
  · cases created
  split at created
  · cases created
  rename_i small
  cases created
  constructor
  · rw [size, Array.size_replicate]
    exact Nat.not_lt.mp small
  · rw [length_entries, Array.toList_replicate, List.countP_replicate]
    rfl

end Table

namespace Sections

/-- Reading a section leaves the table as it is, or makes one with nothing in it. -/
theorem blank_of_readContent {s t : Sections} {kind : SectionKind} {bytes : Bytes} {pos q : Nat}
    (blank : ∀ table ∈ s.table, table.Blank) (read : s.readContent kind bytes pos = .ok (t, q)) :
    ∀ table ∈ t.table, table.Blank := by
  have own := withPart_of_readContent read
  cases kind with
  | tables =>
    obtain ⟨table, _, read, last⟩ := bind_eq_ok_iff.mp read
    cases last
    obtain ⟨count, _, -, read⟩ := bind_eq_ok_iff.mp read
    refine iterate_keeps (P := fun table => ∀ t ∈ table, t.Blank) ?_ blank read
    intro acc pos next after given made
    cases acc with
    | some _ => cases made -- A second table is refused.
    | none =>
      obtain ⟨type, _, -, made⟩ := bind_eq_ok_iff.mp made
      cases created : Table.create type with
      | error e =>
        rw [created] at made
        cases made
      | ok table =>
        rw [created] at made
        cases made
        intro t member
        cases member
        exact Table.blank_of_create created
  | types | imports | functions | exports | elements | code | skipped =>
    rw [← own]
    exact blank

theorem fillTable_bounded {segments : List Segment} {table : Table} {filled : Option Table}
    (fills : fillTable segments (some table) = .ok filled) :
    ∃ last, filled = some last ∧ last.size = table.size ∧
      last.entries.length ≤ table.entries.length + (segments.map (·.funcs.length)).sum := by
  induction segments generalizing table with
  | nil =>
    cases fills
    exact ⟨table, rfl, rfl, Nat.le_add_right _ _⟩
  | cons segment segments ih =>
    unfold fillTable at fills
    cases written : table.fill segment.offset segment.funcs with
    | error e =>
      rw [written] at fills
      cases fills
    | ok next =>
      rw [written] at fills
      obtain ⟨size, entries⟩ := Table.fill_bounded written
      obtain ⟨last, rfl, size', entries'⟩ := ih fills
      refine ⟨last, rfl, size'.trans size, ?_⟩
      rw [List.map_cons, List.sum_cons]
      omega

/-! ### All sections, and the module that they describe -/

theorem bodies_of_assembleFuncs {s : Sections} {funcs : Array Func}
    (assembled : s.assembleFuncs = .ok funcs) : funcs.map (·.body) = s.bodies := by
  unfold assembleFuncs at assembled
  split at assembled
  · cases assembled
  rename_i sizes
  split at assembled
  · cases assembled
  cases assembled
  have lengths : s.bodies.toList.length ≤ s.funcTypes.toList.length :=
    Nat.le_of_eq (not_not.mp sizes).symm
  apply Array.toList_inj.mp
  rw [Array.toList_map, Array.toList_zipWith, List.map_zipWith]
  have second := List.map_snd_zip lengths
  rwa [List.zip, List.map_zipWith] at second

/-- All sections together add no more than their bytes, and their table, if there is one, is blank.
-/
theorem paid_readAll {s t : Sections} {bytes : Bytes} {fuel pos : Nat}
    (read : readAll bytes fuel s pos = .ok t) (inside : pos ≤ bytes.size)
    (blank : ∀ table ∈ s.table, table.Blank) :
    t.weight + pos ≤ s.weight + bytes.size ∧ ∀ table ∈ t.table, table.Blank := by
  induction fuel generalizing s pos with
  | zero =>
    cases read
    exact ⟨by omega, blank⟩
  | succ fuel ih =>
    rw [readAll] at read
    split at read
    · cases read
      exact ⟨by omega, blank⟩
    cases result : s.readSection bytes pos with
    | error e =>
      rw [result] at read
      cases read
    | ok out =>
      obtain ⟨u, after⟩ := out
      rw [result] at read
      obtain ⟨within, paid⟩ := s.paid_readSection bytes pos u after result inside
      have blank' : ∀ table ∈ u.table, table.Blank := by
        obtain ⟨_, -, rfl | ⟨_, _, content⟩⟩ := exists_region_of_readSection result
        · exact blank
        · exact blank_of_readContent blank content
      obtain ⟨paid', blank''⟩ := ih read within blank'
      exact ⟨by omega, blank''⟩

/-- Filling a blank table makes no more entries than the segments write, and no slots. -/
theorem filled_of_blank {s : Sections} {filled : Option Table}
    (fills : fillTable s.segments.toList s.table = .ok filled)
    (blank : ∀ table ∈ s.table, table.Blank) :
    filled.elim 0 (·.entries.length) ≤ (s.segments.map (·.funcs.length)).sum ∧
      ∀ table ∈ filled, table.size ≤ Table.maxSize := by
  cases given : s.table with
  | none =>
    rw [given] at fills
    cases written : s.segments.toList with
    | nil =>
      rw [written] at fills
      cases fills
      exact ⟨Nat.zero_le _, fun _ none => by cases none⟩
    | cons segment segments =>
      rw [written] at fills
      cases fills
  | some table =>
    rw [given] at fills
    obtain ⟨small, empty⟩ := blank table given
    obtain ⟨last, rfl, size, entries⟩ := fillTable_bounded fills
    have total : (s.segments.map (·.funcs.length)).sum =
        (s.segments.toList.map (·.funcs.length)).sum := by
      rw [← Array.sum_toList, Array.toList_map]
    refine ⟨?_, ?_⟩
    · rw [Option.elim_some, total]
      omega
    · rintro _ ⟨⟩
      omega

/-- The module is not larger than what its sections weigh. -/
theorem extent_of_toModule {s : Sections} {m : Module} (built : s.toModule = .ok m)
    (blank : ∀ table ∈ s.table, table.Blank) :
    m.extent ≤ s.weight ∧ ∀ table ∈ m.table, table.size ≤ Table.maxSize := by
  obtain ⟨funcs, assembled, built⟩ := except_bind_eq_ok_iff.mp built
  obtain ⟨filled, fills, built⟩ := except_bind_eq_ok_iff.mp built
  cases built
  obtain ⟨entries, slots⟩ := filled_of_blank fills blank
  have bodies := bodies_of_assembleFuncs assembled
  have count : funcs.size = s.bodies.size := by
    rw [← bodies, Array.size_map]
  have code : (funcs.map (·.body.code.size)).sum = (s.bodies.map (·.code.size)).sum := by
    rw [← bodies, Array.map_map]
    rfl
  have types : (s.types.map FuncType.weight).sum = s.types.size +
      (s.types.map fun type => type.params.length + type.results.length).sum :=
    size_add_sum _ s.types
  have exports : (s.exports.map Export.weight).sum = s.exports.size +
      (s.exports.map (·.name.utf8ByteSize)).sum :=
    size_add_sum _ s.exports
  have weights : (s.bodies.map Body.weight).sum = s.bodies.size +
      (s.bodies.map (·.code.size)).sum :=
    size_add_sum _ s.bodies
  refine ⟨?_, slots⟩
  simp only [Module.extent, weight, count, code, types, exports, weights]
  omega

end Sections

namespace Module

theorem bounded_readHeader : Bounded readHeader := by
  have four : Local 1 fun _ : Unit => Reader.take 4 := .take (by decide)
  refine Local.bounded (four.bind fun first => .ite (.fail 0 _) ?_)
  exact four.weaken.bind fun second => .ite (.fail 0 _) (.pure _)

/-- In a well-typed module the functions with a type are exactly those that there are. -/
theorem WellTyped.isSome_funcType? {m : Module} (wellTyped : m.WellTyped) (index : Nat) :
    (m.funcType? index).isSome ↔ index < m.funcs.size := by
  constructor
  · intro typed
    by_contra outside
    rw [funcType?, Array.getElem?_eq_none (Nat.not_lt.mp outside)] at typed
    cases typed
  · intro inside
    have known := Array.getElem?_eq_getElem inside
    obtain ⟨type, typed⟩ := wellTyped index _ known
    rw [funcType?, known, Option.bind_some, typed]
    rfl

end Module

/-- A decoded module is well formed: the type of every function exists, so that exactly the
functions of the module have a type; a function type has no more parameters than it has parameters
and results; the table has at most `2 ^ 20` slots. And it is not larger than the bytes that it was
decoded from, whatever counts they state. -/
theorem decoded_module_bounded {bytes : Bytes} {m : Module}
    (decoded : Module.decode bytes = .ok m) :
    (∀ func ∈ m.funcs, func.type < m.types.size) ∧
      (∀ index, (m.funcType? index).isSome ↔ index < m.funcs.size) ∧
      (∀ type ∈ m.types, type.paramCount ≤ type.types.length) ∧
      (∀ table ∈ m.table, table.size ≤ 2 ^ 20) ∧
      m.extent ≤ bytes.size := by
  have wellTyped := Module.WellTyped.of_decode decoded
  obtain ⟨⟨_, pos⟩, header, decoded⟩ := except_bind_eq_ok_iff.mp decoded
  obtain ⟨sections, read, built⟩ := except_bind_eq_ok_iff.mp decoded
  obtain ⟨-, inside⟩ := Module.bounded_readHeader bytes 0 () pos header (Nat.zero_le _)
  have nothing : ({} : Sections).weight = 0 := by simp [Sections.weight]
  have none : ∀ table ∈ ({} : Sections).table, table.Blank := by
    intro table member
    cases member
  obtain ⟨paid, blank⟩ := Sections.paid_readAll read inside none
  obtain ⟨extent, slots⟩ := Sections.extent_of_toModule built blank
  refine ⟨?_, wellTyped.isSome_funcType?, fun type _ => type.split, slots, by omega⟩
  · intro func member
    obtain ⟨index, known⟩ := Array.mem_iff_getElem?.mp member
    obtain ⟨type, typed⟩ := wellTyped index func known
    exact (Array.getElem?_eq_some_iff.mp typed).1

namespace Sample

/-- A module with something of everything that its extent counts. -/
def full : Module :=
  { types := #[.new [.i32] [.i32]]
    funcs := #[⟨0, 0, #[0x20, 0x00, 0x0B]⟩]
    exports := #[⟨"f", 0⟩]
    table := some ⟨#[none, some 0, some 0]⟩ }

def fullBytes : Bytes :=
  #[0x00, 0x61, 0x73, 0x6D, 0x01, 0x00, 0x00, 0x00,
    0x01, 0x06, 0x01, 0x60, 0x01, 0x7F, 0x01, 0x7F,
    0x03, 0x02, 0x01, 0x00,
    0x04, 0x04, 0x01, 0x70, 0x00, 0x03,
    0x07, 0x05, 0x01, 0x01, 0x66, 0x00, 0x00,
    0x09, 0x08, 0x01, 0x00, 0x41, 0x01, 0x0B, 0x02, 0x00, 0x00,
    0x0A, 0x06, 0x01, 0x04, 0x00, 0x20, 0x00, 0x0B]

end Sample

/-- The theorem at this module: one type with a parameter and a result, one function with three
bytes of code, one export with a name of one byte, and two table entries come from 51 bytes. -/
theorem full_module_bounded :
    Module.decode Sample.fullBytes = .ok Sample.full ∧ Sample.full.extent = 11 ∧
      Sample.full.extent ≤ Sample.fullBytes.size := by
  have decoded : Module.decode Sample.fullBytes = .ok Sample.full :=
    toOption_eq_some_iff.mp (by decide +kernel)
  obtain ⟨-, -, -, -, small⟩ := decoded_module_bounded decoded
  exact ⟨decoded, by decide +kernel, small⟩

end Wasm
