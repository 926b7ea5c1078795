import Mathlib.Data.List.Nodup
import Wasm.Proofs.Module.Items

/-!
Decoding undoes encoding.

Every binary form of a well-formed source is decoded to the module that the source describes. The
proof follows the readers: a section adds to its own part of `Sections`, the sections are read one
after the other, and then the parts are put together.

* `Sections.reads_types`, ..., `Sections.reads_code`: the content of each section;
* `IsSection.readsAll`: a section, whether it is there or left out;
* `Source.IsForm.readsAll`: all sections of a module;
* `Source.assembleFuncs_parts`, `Source.fillTable_parts`: what they say together;
* `Source.decode_undoes_encoding`: decoding gives the module, whichever form was chosen.
-/

namespace Wasm

open Leb128
open Reader (Reads)

namespace Sections

/-! ### The content of each section -/

section Content

variable {s : Sections} {content : List UInt8}

theorem reads_types {types : List FuncType} (form : IsVector FuncType.IsForm content types)
    (empty : s.types = #[]) :
    Reads (s.readContent .types) content { s with types := types.toArray } := by
  refine Reads.map ?_ (.pure _)
  rw [empty]
  exact form.reads fun _ _ => FuncType.IsForm.reads

theorem reads_functions {indices : List Nat} (form : IsVector (IsUnsigned 32) content indices)
    (empty : s.funcTypes = #[]) :
    Reads (s.readContent .functions) content { s with funcTypes := indices.toArray } := by
  refine Reads.map ?_ (.pure _)
  rw [empty]
  exact form.reads fun _ _ => Reads.u32

/-- A table starts empty, with the least size that its limits allow. -/
theorem reads_tables {table : Option Limits} (form : IsVector Limits.IsTable content table.toList)
    (bounded : ∀ limits ∈ table, limits.min ≤ Table.maxSize ∧ ∀ max ∈ limits.max, limits.min ≤ max)
    (empty : s.table = none) :
    Reads (s.readContent .tables) content { s with table := table.map Limits.blank } := by
  refine Reads.map ?_ (.pure _)
  rw [empty, ← Option.head?_toList (o := table)]
  refine form.reads_counted (fun before => before.head?.map Limits.blank) ?_
  intro before limits after xs split item
  -- There is at most one table, so none has been read before it.
  obtain ⟨rfl, given⟩ : before = [] ∧ limits ∈ table := by
    have count : before.length + (after.length + 1) ≤ 1 := by
      rw [← List.length_cons (a := limits), ← List.length_append, ← split]
      exact Option.length_toList_le
    refine ⟨List.length_eq_zero_iff.mp (by omega), ?_⟩
    refine Option.mem_toList.mp ?_
    rw [split]
    exact List.mem_append_right _ (List.mem_cons_self ..)
  obtain ⟨few, ordered⟩ := bounded limits given
  refine item.reads.map ?_
  rw [limits.create_blank few ordered]
  exact .pure _

theorem reads_exports {exports : List Source.Export}
    (form : IsVector Source.Export.IsForm content exports)
    (names : ((exports.filterMap Source.Export.func?).map (·.name)).Nodup)
    (empty : s.exports = #[]) :
    Reads (s.readContent .exports) content
      { s with exports := (exports.filterMap Source.Export.func?).toArray } := by
  refine Reads.map ?_ (.pure _)
  rw [empty]
  refine form.reads_counted (fun before => (before.filterMap Source.Export.func?).toArray) ?_
  intro before e after xs split item
  have added : ((before ++ [e]).filterMap Source.Export.func?).toArray =
      (before.filterMap Source.Export.func?).toArray ++ e.func?.toArray := by
    cases found : e.func? <;> simp [found]
  rw [added]
  refine reads_export item ?_
  intro other member func same
  have earlier : other ∈ before.filterMap Source.Export.func? := by simpa using member
  have found : e.func? = some { name := e.name, func := e.index } := if_pos func
  rw [split, List.filterMap_append, List.filterMap_cons_some found, List.map_append,
    List.map_cons] at names
  have apart := (List.nodup_append.mp names).2.2
  exact apart other.name (List.mem_map_of_mem earlier) e.name (List.mem_cons_self ..) same

theorem reads_elements {segments : List Source.Segment}
    (form : IsVector Source.Segment.IsForm content segments) (empty : s.segments = #[]) :
    Reads (s.readContent .elements) content
      { s with segments := (segments.map (·.toSegment)).toArray } := by
  refine Reads.map ?_ (.pure _)
  rw [empty]
  refine form.reads_counted (fun before => (before.map (·.toSegment)).toArray) ?_
  intro before segment after xs _ item
  have pushed : ((before ++ [segment]).map (·.toSegment)).toArray =
      (before.map (·.toSegment)).toArray.push segment.toSegment := by simp
  rw [pushed]
  exact reads_segment _ item

theorem reads_code {funcs : List Source.Func}
    (form : IsVector (IsRegion Source.Func.IsBody) content funcs)
    (locals : ∀ func ∈ funcs, func.localCount < 2 ^ 32) (empty : s.bodies = #[]) :
    Reads (s.readContent .code) content { s with bodies := (funcs.map (·.body)).toArray } := by
  refine Reads.map ?_ (.pure _)
  rw [empty]
  refine form.reads_counted (fun before => (before.map (·.body)).toArray) ?_
  intro before func after xs split item
  have member : func ∈ funcs := by simp [split]
  have pushed : ((before ++ [func]).map (·.body)).toArray =
      (before.map (·.body)).toArray.push func.body := by simp
  rw [pushed]
  exact (Body.reads_of_isBody item (locals func member)).map (.pure _)

end Content

/-! ### Sections one after the other -/

/-- A section that is not skipped is read as its content is. -/
theorem reads_section {s t : Sections} {id : UInt8} {kind : SectionKind} {size content : List UInt8}
    (known : SectionKind.ofByte? id = some kind) (used : kind ≠ .skipped)
    (count : IsUnsigned 32 size content.length) (reads : Reads (s.readContent kind) content t) :
    Reads s.readSection (id :: (size ++ content)) t := by
  have run : (do
      let s ← s.readContent kind
      let complete ← Reader.atEnd
      pure (s, complete) : Reader (Sections × Bool)) content.toArray 0 =
        .ok ((t, true), content.length) := by
    rw [Reader.bind_ok reads.run]
    simp [Reader.bind_apply, Reader.atEnd]
  refine (Reads.byte id).bind ((Reads.region count).map ?_)
  rw [known]
  cases kind with
  | skipped => exact absurd rfl used
  | types | imports | functions | tables | exports | elements | code =>
    exact (Reads.enclosed content.length run).map (.pure _)

/-- The bytes are sections which, read one after the other, lead from `s` to `t`. -/
inductive ReadsAll : Sections → List UInt8 → Sections → Prop where
  | nil {s} : ReadsAll s [] s
  | cons {s t u xs ys} (some : xs ≠ []) (first : Reads s.readSection xs t)
      (rest : ReadsAll t ys u) : ReadsAll s (xs ++ ys) u

/-- Sections are read to the end of the input. -/
theorem ReadsAll.readAll_eq {s t : Sections} {xs : List UInt8} {code : Bytes} {pos fuel : Nat}
    (all : ReadsAll s xs t) (written : BytesAt code pos xs) (whole : pos + xs.length = code.size)
    (enough : code.size - pos ≤ fuel) : readAll code fuel s pos = .ok t := by
  induction all generalizing pos fuel with
  | nil =>
    rw [List.length_nil] at whole
    cases fuel with
    | zero => rfl
    | succ fuel => rw [readAll, if_pos (by omega)]
  | @cons s t u xs ys some first rest ih =>
    have length : 0 < xs.length := List.length_pos_iff.mpr some
    obtain ⟨here, behind⟩ := BytesAt.append_iff.mp written
    rw [List.length_append] at whole
    obtain ⟨fuel, rfl⟩ : ∃ n, fuel = n + 1 := ⟨fuel - 1, by omega⟩
    rw [readAll, if_neg (by omega)]
    simp only [first code pos here]
    exact ih behind (by omega) (by omega)

end Sections

open Sections (ReadsAll)

/-- A section in front of others, whether it is there or left out. -/
theorem IsSection.readsAll {α : Type} {IsItem : List UInt8 → α → Prop} {id : UInt8}
    {kind : SectionKind} {xs ys : List UInt8} {items : List α} {s t u : Sections}
    (form : IsSection id IsItem xs items) (known : SectionKind.ofByte? id = some kind)
    (used : kind ≠ .skipped) (omitted : items = [] → s = t)
    (reads : ∀ content, IsVector IsItem content items → Reads (s.readContent kind) content t)
    (rest : ReadsAll t ys u) : ReadsAll s (xs ++ ys) u := by
  cases form with
  | omitted =>
    rw [omitted rfl]
    exact rest
  | written region =>
    obtain ⟨count, content⟩ := region
    exact .cons (List.cons_ne_nil _ _) (Sections.reads_section known used count (reads _ content))
      rest

namespace Source

variable {source : Source}

/-- What the sections of a module with the given source say. -/
def parts (source : Source) : Sections :=
  { types := source.types.toArray
    funcTypes := (source.funcs.map (·.type)).toArray
    table := source.table.map Limits.blank
    exports := source.funcExports.toArray
    segments := source.fillings.toArray
    bodies := (source.funcs.map (·.body)).toArray }

/-- The sections of a module, behind its header. -/
theorem IsForm.readsAll {bytes : List UInt8} (form : source.IsForm bytes)
    (wellFormed : source.WellFormed) :
    ∃ sections, bytes = Module.magic.toList ++ Module.version.toList ++ sections ∧
      ReadsAll {} sections source.parts := by
  obtain @⟨types, funcs, tables, exports, segments, bodies, typeSection, funcSection, tableSection,
    exportSection, elementSection, codeSection⟩ := form
  refine ⟨_, rfl, ?_⟩
  have last : ReadsAll { source.parts with bodies := #[] } (bodies ++ []) source.parts := by
    refine codeSection.readsAll rfl (by decide) ?_ ?_ .nil
    · intro none
      simp [parts, none]
    · intro content vector
      exact Sections.reads_code vector wellFormed.locals rfl
  rw [List.append_nil] at last
  -- Each section fills in its part, which no section before it has touched.
  refine typeSection.readsAll (t := { types := source.parts.types }) rfl (by decide) ?_ ?_ ?_
  · intro none
    simp [parts, none]
  · intro content vector
    exact Sections.reads_types vector rfl
  refine funcSection.readsAll
    (t := { types := source.parts.types, funcTypes := source.parts.funcTypes }) rfl (by decide)
    ?_ ?_ ?_
  · intro none
    simp [parts, none]
  · intro content vector
    exact Sections.reads_functions vector rfl
  refine tableSection.readsAll
    (t := { source.parts with exports := #[], segments := #[], bodies := #[] }) rfl (by decide)
    ?_ ?_ ?_
  · intro none
    simp [parts, Option.toList_eq_nil_iff.mp none]
  · intro content vector
    refine Sections.reads_tables vector ?_ rfl
    intro limits given
    obtain ⟨few, ordered⟩ := wellFormed.table limits given
    exact ⟨few, fun max present => (ordered max present).1⟩
  refine exportSection.readsAll
    (t := { source.parts with segments := #[], bodies := #[] }) rfl (by decide) ?_ ?_ ?_
  · intro none
    simp [parts, funcExports, none]
  · intro content vector
    exact Sections.reads_exports vector wellFormed.names rfl
  refine elementSection.readsAll
    (t := { source.parts with bodies := #[] }) rfl (by decide) ?_ ?_ last
  · intro none
    simp [parts, fillings, none]
  · intro content vector
    exact Sections.reads_elements vector rfl

/-! ### Putting the parts together -/

theorem assembleFuncs_parts (wellFormed : source.WellFormed) :
    source.parts.assembleFuncs = .ok source.toModule.funcs := by
  have sizes : ¬ source.parts.funcTypes.size ≠ source.parts.bodies.size := by
    simp [parts]
  have inside : ¬ source.parts.funcTypes.any (source.parts.types.size ≤ ·) = true := by
    intro outside
    obtain ⟨type, member, large⟩ := Array.any_eq_true'.mp outside
    obtain ⟨func, declared, rfl⟩ := List.mem_map.mp (List.mem_toArray.mp member)
    have small := wellFormed.types func declared
    have large : source.types.length ≤ func.type := of_decide_eq_true large
    omega
  rw [Sections.assembleFuncs, if_neg sizes, if_neg inside]
  simp [parts, toModule]

/-- The segments fill the table as the source says. -/
theorem fillTable_parts (wellFormed : source.WellFormed) :
    Sections.fillTable source.parts.segments.toList source.parts.table =
      .ok source.toModule.table := by
  cases declared : source.table with
  | none =>
    have nothing : source.segments = [] := by
      refine List.eq_nil_iff_forall_not_mem.mpr ?_
      intro segment member
      obtain ⟨⟨limits, given, -⟩, -⟩ := wellFormed.segments segment member
      rw [declared] at given
      cases given
    simp [parts, toModule, fillings, declared, nothing, Sections.fillTable]
  | some limits =>
    have fits : ∀ segment ∈ source.fillings,
        segment.offset + segment.funcs.length ≤ limits.min := by
      intro segment member
      obtain ⟨written, listed, rfl⟩ := List.mem_map.mp member
      obtain ⟨⟨_, given, room⟩, -⟩ := wellFormed.segments written listed
      cases declared.symm.trans given
      exact room
    have fill := Sections.fillTable_replicate fits
    simpa [parts, toModule, declared, Limits.blank] using fill

/-! ### Decoding -/

theorem reads_header :
    Reads Module.readHeader (Module.magic.toList ++ Module.version.toList) () := by
  have magic : Reads (Reader.take 4) Module.magic.toList Module.magic :=
    @Reads.take Module.magic.toList (by decide)
  have version : Reads (Reader.take 4) Module.version.toList Module.version :=
    @Reads.take Module.version.toList (by decide)
  refine magic.bind ?_
  rw [if_neg (by decide)]
  refine version.map ?_
  rw [if_neg (by decide)]
  exact .pure _

/-- Every form of a well-formed source is decoded to the module that the source describes. -/
theorem decode_eq_toModule {bytes : List UInt8} (wellFormed : source.WellFormed)
    (form : source.IsForm bytes) : Module.decode bytes.toArray = .ok source.toModule := by
  obtain ⟨sections, rfl, all⟩ := form.readsAll wellFormed
  generalize same : (Module.magic.toList ++ Module.version.toList ++ sections).toArray = code
  have whole : BytesAt code 0 (Module.magic.toList ++ Module.version.toList ++ sections) := by
    rw [← same]
    exact BytesAt.toList _
  have size : code.size = 8 + sections.length := by
    rw [← same]
    simp [Module.magic, Module.version]
    omega
  obtain ⟨header, behind⟩ := BytesAt.append_iff.mp whole
  have read : Sections.readAll code (code.size - 8) {} 8 = .ok source.parts :=
    all.readAll_eq behind size.symm (Nat.le_refl _)
  have begun : Module.readHeader code 0 = .ok ((), 8) := reads_header code 0 header
  refine except_bind_eq_ok_iff.mpr ⟨((), 8), begun, ?_⟩
  refine except_bind_eq_ok_iff.mpr ⟨source.parts, read, ?_⟩
  refine except_bind_eq_ok_iff.mpr ⟨_, assembleFuncs_parts wellFormed, ?_⟩
  exact except_bind_eq_ok_iff.mpr ⟨_, fillTable_parts wellFormed, rfl⟩

/-- A name stands for the function that is exported under it. -/
theorem exported?_eq_some_iff (wellFormed : source.WellFormed) (name : String) (func : Nat) :
    source.toModule.exported? name = some func ↔
      { name, kind := .func, index := func } ∈ source.exports := by
  have listed : ({ name, func } : Wasm.Export) ∈ source.funcExports ↔
      { name, kind := .func, index := func } ∈ source.exports := by
    rw [funcExports, List.mem_filterMap]
    constructor
    · rintro ⟨⟨name', kind, index⟩, member, found⟩
      obtain ⟨rfl, same⟩ := Option.ite_none_right_eq_some.mp found
      cases same
      exact member
    · intro member
      exact ⟨_, member, rfl⟩
  rw [← listed, Module.exported?, Option.map_eq_some_iff]
  change (∃ e, source.funcExports.toArray.find? (·.name == name) = some e ∧ e.func = func) ↔ _
  rw [List.find?_toArray]
  constructor
  · rintro ⟨e, found, rfl⟩
    obtain rfl : e.name = name := by simpa using List.find?_some found
    exact List.mem_of_find?_eq_some found
  · intro member
    obtain ⟨e, found⟩ : ∃ e, source.funcExports.find? (·.name == name) = some e := by
      rw [← Option.isSome_iff_exists, List.find?_isSome]
      exact ⟨_, member, beq_self_eq_true name⟩
    refine ⟨e, found, ?_⟩
    have named : e.name = name := by simpa using List.find?_some found
    have same := List.inj_on_of_nodup_map wellFormed.names (List.mem_of_find?_eq_some found) member
      named
    rw [same]

/-- Decoding undoes encoding: every binary form of a well-formed source, and so the one that
`encode` gives if all sizes can be written, is decoded to the module that the source describes, in
which the names of exported functions stand for these functions. -/
theorem decode_undoes_encoding (wellFormed : source.WellFormed) :
    (∀ bytes, source.IsForm bytes → Module.decode bytes.toArray = .ok source.toModule) ∧
      ((∀ part ∈ source.sections, part.2.length < 2 ^ 32) →
        source.IsForm source.encode ∧ Module.decode source.encode.toArray = .ok source.toModule) ∧
      ∀ name func, source.toModule.exported? name = some func ↔
        { name, kind := .func, index := func } ∈ source.exports := by
  refine ⟨fun bytes => decode_eq_toModule wellFormed, ?_, exported?_eq_some_iff wellFormed⟩
  intro small
  have form := isForm_encode wellFormed small
  exact ⟨form, decode_eq_toModule wellFormed form⟩

/-- A source with something of every kind: a function with two groups of locals, exports of which
one is a memory with the name of another, and two segments that overlap. -/
def sample : Source :=
  { types := [.new [.i32, .i64] [.f32], .new [] []]
    funcs := [⟨1, [⟨2, .i32⟩, ⟨300, .f64⟩], [0x01, 0x0B]⟩, ⟨0, [], []⟩]
    table := some ⟨4, some 200⟩
    exports := [⟨"é", .func, 1⟩, ⟨"é", .memory, 0⟩, ⟨"", .func, 7⟩]
    segments := [⟨⟨0, [1, 0, 1]⟩, false⟩, ⟨⟨2, [0]⟩, true⟩] }

/-- The theorem at this source: what is written for it, and the module that this is decoded to. -/
theorem sample_decoded :
    sample.encode =
        [0x00, 0x61, 0x73, 0x6D, 0x01, 0x00, 0x00, 0x00,
          0x01, 0x0A, 0x02, 0x60, 0x02, 0x7F, 0x7E, 0x01, 0x7D, 0x60, 0x00, 0x00,
          0x03, 0x03, 0x02, 0x01, 0x00,
          0x04, 0x06, 0x01, 0x70, 0x01, 0x04, 0xC8, 0x01,
          0x07, 0x0E, 0x03, 0x02, 0xC3, 0xA9, 0x00, 0x01, 0x02, 0xC3, 0xA9, 0x02, 0x00,
          0x00, 0x00, 0x07,
          0x09, 0x11, 0x02, 0x00, 0x41, 0x00, 0x0B, 0x03, 0x01, 0x00, 0x01,
          0x02, 0x00, 0x41, 0x02, 0x0B, 0x00, 0x01, 0x00,
          0x0A, 0x0C, 0x02, 0x08, 0x02, 0x02, 0x7F, 0xAC, 0x02, 0x7C, 0x01, 0x0B, 0x01, 0x00] ∧
      Module.decode sample.encode.toArray = .ok
        { types := #[.new [.i32, .i64] [.f32], .new [] []]
          funcs := #[⟨1, 302, #[0x01, 0x0B]⟩, ⟨0, 0, #[]⟩]
          exports := #[⟨"é", 1⟩, ⟨"", 7⟩]
          table := some ⟨#[some 1, some 0, some 0, none]⟩ } := by
  have wellFormed : sample.WellFormed := by
    constructor
    · decide
    · decide
    · decide
    · decide
    · simp [sample, Table.maxSize]
    · simp [sample]
  have small : ∀ part ∈ sample.sections, part.2.length < 2 ^ 32 := by decide +kernel
  obtain ⟨-, decoded⟩ := (decode_undoes_encoding wellFormed).2.1 small
  refine ⟨by decide +kernel, decoded.trans ?_⟩
  decide +kernel

end Source

end Wasm
