import Mathlib.Logic.Relation
import Wasm.Proofs.Binary.Locality
import Wasm.Proofs.Module.RoundTrip

/-!
The order of sections makes no difference, and skipped sections make none.

The bytes of a module are a header and sections, each with an id, a size and as many bytes. A
section adds to its own part of `Sections` and looks at no other part, and how the parts fit
together is only checked when all of them are there. So two sections that stand side by side can be
exchanged when their ids differ, and one that is skipped can be put anywhere or taken away.

* `Sections.readContent_withPart`: content of a kind is read into the part of this kind alone;
* `Sections.add?_comm`: two sections with different ids can be read in either order;
* `toOption_decode`: decoding goes through the sections one after the other;
* `decode_of_edits`: exchanging sections, inserting and deleting skipped ones changes neither
  whether decoding succeeds nor the module that it gives.
-/

namespace Wasm

open Leb128
open Reader (Reads)

/-! ### The parts of a module -/

namespace Sections

/-- The sections of `s`, with the part for one kind taken from `t`. -/
def withPart (s : Sections) (kind : SectionKind) (t : Sections) : Sections :=
  match kind with
  | .types => { s with types := t.types }
  | .functions => { s with funcTypes := t.funcTypes }
  | .tables => { s with table := t.table }
  | .exports => { s with exports := t.exports }
  | .elements => { s with segments := t.segments }
  | .code => { s with bodies := t.bodies }
  | .imports | .skipped => s

@[simp] theorem withPart_self (s : Sections) (kind : SectionKind) : s.withPart kind s = s := by
  cases kind <;> rfl

/-- Parts for different kinds do not overlap. -/
theorem withPart_comm {k j : SectionKind} (different : k ≠ j) (s t u : Sections) :
    (s.withPart k t).withPart j u = (s.withPart j u).withPart k t := by
  cases k <;> cases j <;> first | rfl | exact absurd rfl different

/-- Content of a kind is read into the part for this kind. It has no use for the other parts, and
leaves them as they are. -/
theorem readContent_withPart (s t : Sections) (kind : SectionKind) :
    (s.withPart kind t).readContent kind = (s.withPart kind ·) <$> t.readContent kind := by
  cases kind <;> simp only [readContent, withPart, map_bind, map_pure]

theorem withPart_of_readContent {s t : Sections} {kind : SectionKind} {bytes : Bytes} {pos q : Nat}
    (read : s.readContent kind bytes pos = .ok (t, q)) : s.withPart kind t = t := by
  have whole := congrFun (congrFun (s.readContent_withPart s kind) bytes) pos
  rw [withPart_self, map_eq_pure_bind, Reader.bind_ok read, read] at whole
  exact (Prod.mk.inj (Except.ok.inj whole)).1.symm

/-- What the parts become when a section of a kind is read, if it can be: the content has to fill
the section, unless it is skipped. -/
def read? (s : Sections) (content : Bytes) (kind : SectionKind) : Option Sections :=
  if kind = .skipped then
    some s
  else
    match s.readContent kind content 0 with
    | .error _ => none
    | .ok (t, after) => if content.size ≤ after then some t else none

theorem read?_withPart (s t : Sections) (content : Bytes) (kind : SectionKind) :
    (s.withPart kind t).read? content kind = (t.read? content kind).map (s.withPart kind ·) := by
  unfold read?
  by_cases skipped : kind = .skipped
  · subst skipped
    rfl
  rw [if_neg skipped, if_neg skipped, readContent_withPart]
  simp only [map_eq_pure_bind, Reader.bind_apply]
  cases t.readContent kind content 0 with
  | error e => rfl
  | ok read =>
    simp only [Reader.pure_apply]
    split
    · rfl
    · rfl

/-- Reading content of a kind inside its section, which it has to fill. -/
theorem toOption_readFilling (s : Sections) (content : Bytes) (kind : SectionKind) (code : Bytes)
    (pos : Nat) (used : kind ≠ .skipped) :
    ((do
      let (t, complete) ← Reader.enclosed content do
        let t ← s.readContent kind
        let complete ← Reader.atEnd
        pure (t, complete)
      if complete then pure t else Reader.malformed .sectionSize : Reader Sections)
        code pos).toOption = (s.read? content kind).map (·, pos) := by
  rw [read?, if_neg used]
  simp only [Reader.bind_apply, Reader.enclosed, Reader.atEnd, Reader.pure_apply]
  cases s.readContent kind content 0 with
  | error e => rfl
  | ok read =>
    by_cases complete : content.size ≤ read.2
    · simp only [complete, decide_true, if_true]
      rfl
    · simp only [complete, decide_false, if_false]
      rfl

/-- A section changes nothing but the part for its kind. -/
theorem withPart_of_read? {s t : Sections} {content : Bytes} {kind : SectionKind}
    (read : s.read? content kind = some t) : s.withPart kind t = t := by
  have whole := s.read?_withPart s content kind
  rw [withPart_self, read, Option.map_some, Option.some.injEq] at whole
  exact whole.symm

/-- Behind a section of another kind, a section is read as it is in front of it. -/
theorem read?_behind {s t : Sections} {first second : Bytes} {k j : SectionKind}
    (different : k ≠ j) (read : s.read? first k = some t) :
    t.read? second j = (s.read? second j).map (t.withPart j ·) := by
  have kept : t.withPart j s = t := by
    rw [← withPart_of_read? read, withPart_comm different, withPart_self]
  have whole := t.read?_withPart s second j
  rwa [kept] at whole

/-- Sections of different kinds can be read in either order. -/
theorem read?_comm {k j : SectionKind} (different : k ≠ j) (s : Sections) (first second : Bytes) :
    (s.read? first k).bind (·.read? second j) = (s.read? second j).bind (·.read? first k) := by
  cases one : s.read? first k with
  | none =>
    cases other : s.read? second j with
    | none => rfl
    | some u =>
      rw [Option.bind_some, read?_behind different.symm other, one]
      rfl
  | some t =>
    rw [Option.bind_some, read?_behind different one]
    cases other : s.read? second j with
    | none => rfl
    | some u =>
      have both : t.withPart j u = u.withPart k t := calc
        t.withPart j u = (s.withPart k t).withPart j u := by rw [withPart_of_read? one]
        _ = (s.withPart j u).withPart k t := withPart_comm different s t u
        _ = u.withPart k t := by rw [withPart_of_read? other]
      rw [Option.bind_some, read?_behind different.symm other, one, Option.map_some,
        Option.map_some, both]

end Sections

/-! ### Sections as they are written -/

/-- The id of the sections of a kind. Of the sections that are skipped, it is the first. -/
def SectionKind.id : SectionKind → UInt8
  | .types => 1
  | .imports => 2
  | .functions => 3
  | .tables => 4
  | .exports => 7
  | .elements => 9
  | .code => 10
  | .skipped => 0

theorem SectionKind.id_of_ofByte? {id : UInt8} {kind : SectionKind} (known : ofByte? id = some kind)
    (used : kind ≠ .skipped) : id = kind.id := by
  unfold ofByte? at known
  split at known
  all_goals cases known
  all_goals first | exact absurd rfl used | exact UInt8.toNat_inj.mp ‹_›

/-- A section: an id, its size in one of the forms that it can be written in, and its content. -/
structure RawSection where
  id : UInt8
  size : List UInt8
  content : List UInt8
  sized : IsUnsigned 32 size content.length

def RawSection.bytes (a : RawSection) : List UInt8 :=
  a.id :: (a.size ++ a.content)

/-- The bytes of a module that consists of the given sections. -/
def Module.bytesOf (sections : List RawSection) : Bytes :=
  (magic.toList ++ version.toList ++ sections.flatMap RawSection.bytes).toArray

namespace Sections

/-- What the parts become when a section is read, if it can be. -/
def add? (s : Sections) (a : RawSection) : Option Sections :=
  (SectionKind.ofByte? a.id).bind (s.read? a.content.toArray)

/-- Sections with different ids can be read in either order. -/
theorem add?_comm {a b : RawSection} (different : a.id ≠ b.id) (s : Sections) :
    (s.add? a).bind (·.add? b) = (s.add? b).bind (·.add? a) := by
  unfold add?
  cases known : SectionKind.ofByte? a.id with
  | none => cases (SectionKind.ofByte? b.id).bind (s.read? b.content.toArray) <;> rfl
  | some k =>
    cases known' : SectionKind.ofByte? b.id with
    | none => cases (some k).bind (s.read? a.content.toArray) <;> rfl
    | some j =>
      by_cases same : k = j
      · -- Two ids stand for one kind only when both sections are skipped.
        subst same
        obtain rfl : k = .skipped := by
          by_contra used
          apply different
          rw [SectionKind.id_of_ofByte? known used, SectionKind.id_of_ofByte? known' used]
        rfl
      · exact read?_comm same s _ _

theorem add?_of_skipped {a : RawSection} (skipped : a.id ∈ ([0, 5, 6, 8, 11, 12] : List UInt8))
    (s : Sections) : s.add? a = some s := by
  have kind : SectionKind.ofByte? a.id = some .skipped := by
    simp only [List.mem_cons, List.not_mem_nil, or_false] at skipped
    rcases skipped with same | same | same | same | same | same
    all_goals
      rw [same]
      rfl
  rw [add?, kind]
  rfl

/-- A section is read as it is written, wherever it stands. -/
theorem toOption_readSection (s : Sections) (a : RawSection) {code : Bytes} {pos : Nat}
    (written : BytesAt code pos a.bytes) :
    (s.readSection code pos).toOption = (s.add? a).map (·, pos + a.bytes.length) := by
  have next : pos + 1 + (a.size ++ a.content).length = pos + a.bytes.length := by
    rw [RawSection.bytes, List.length_cons]
    omega
  have begun : Reader.byte code pos = .ok (a.id, pos + 1) :=
    Reads.byte a.id code pos ⟨written.1, trivial⟩
  have found : Reader.region code (pos + 1) = .ok (a.content.toArray, pos + a.bytes.length) := by
    rw [Reads.region a.sized code (pos + 1) written.2, next]
  rw [readSection, Reader.bind_ok begun, Reader.bind_ok found, add?]
  cases SectionKind.ofByte? a.id with
  | none => rfl
  | some kind =>
    have filled := s.toOption_readFilling a.content.toArray kind code (pos + a.bytes.length)
    cases kind with
    | skipped => rfl
    | types | imports | functions | tables | exports | elements | code =>
      exact filled (by decide)

/-- A section that can be read reaches as far as its size says. It is skipped, or adds what its
content says. -/
theorem exists_region_of_readSection {s t : Sections} {bytes : Bytes} {pos q : Nat}
    (read : s.readSection bytes pos = .ok (t, q)) :
    ∃ content, Reader.region bytes (pos + 1) = .ok (content, q) ∧
      (t = s ∨ ∃ kind after, s.readContent kind content 0 = .ok (t, after)) := by
  obtain ⟨id, p, begun, read⟩ := Reader.bind_eq_ok_iff.mp read
  obtain ⟨-, rfl⟩ := Reader.byte_eq_ok_iff.mp begun
  obtain ⟨content, after, found, read⟩ := Reader.bind_eq_ok_iff.mp read
  cases known : SectionKind.ofByte? id with
  | none =>
    rw [known] at read
    cases read
  | some kind =>
    rw [known] at read
    cases kind with
    | skipped =>
      cases read
      exact ⟨content, found, .inl rfl⟩
    | types | imports | functions | tables | exports | elements | code =>
      obtain ⟨⟨u, complete⟩, _, inside, read⟩ := Reader.bind_eq_ok_iff.mp read
      obtain ⟨rfl, _, inner⟩ := Reader.enclosed_eq_ok_iff.mp inside
      obtain ⟨_, filled, first, last⟩ := Reader.bind_eq_ok_iff.mp inner
      obtain ⟨_, _, -, last⟩ := Reader.bind_eq_ok_iff.mp last
      cases last
      cases complete with
      | false => cases read
      | true =>
        cases read
        exact ⟨content, found, .inr ⟨_, filled, first⟩⟩

/-- Sections are read one after the other, to the end of the input. -/
theorem toOption_readAll (sections : List RawSection) (s : Sections) {code : Bytes}
    {pos fuel : Nat} (written : BytesAt code pos (sections.flatMap RawSection.bytes))
    (whole : pos + (sections.flatMap RawSection.bytes).length = code.size)
    (enough : code.size - pos ≤ fuel) :
    (readAll code fuel s pos).toOption = sections.foldlM add? s := by
  induction sections generalizing s pos fuel with
  | nil =>
    rw [List.flatMap_nil, List.length_nil] at whole
    cases fuel with
    | zero => rfl
    | succ fuel =>
      rw [readAll, if_pos (by omega)]
      rfl
  | cons a sections ih =>
    rw [List.flatMap_cons] at written whole
    rw [List.length_append] at whole
    have length : 0 < a.bytes.length := Nat.zero_lt_succ _
    obtain ⟨here, behind⟩ := BytesAt.append_iff.mp written
    obtain ⟨fuel, rfl⟩ : ∃ n, fuel = n + 1 := ⟨fuel - 1, by omega⟩
    have read := s.toOption_readSection a here
    rw [readAll, if_neg (by omega), List.foldlM_cons]
    cases result : s.readSection code pos with
    | error e =>
      rw [result] at read
      rw [Option.map_eq_none_iff.mp read.symm]
      rfl
    | ok out =>
      rw [result] at read
      obtain ⟨t, added, rfl⟩ := Option.map_eq_some_iff.mp read.symm
      rw [added]
      exact ih t behind (by omega) (by omega)

end Sections

theorem Module.readHeader_bytesOf (sections : List RawSection) :
    readHeader (bytesOf sections) 0 = .ok ((), 8) := by
  have whole : BytesAt (bytesOf sections) 0
      (magic.toList ++ version.toList ++ sections.flatMap RawSection.bytes) :=
    BytesAt.toList _
  exact Source.reads_header _ 0 (BytesAt.append_iff.mp whole).1

/-- What the sections behind the header say. -/
theorem Sections.toOption_readAll_bytesOf (sections : List RawSection) :
    (readAll (Module.bytesOf sections) ((Module.bytesOf sections).size - 8) {} 8).toOption =
      sections.foldlM add? {} := by
  generalize same : Module.bytesOf sections = code
  have whole : BytesAt code 0
      (Module.magic.toList ++ Module.version.toList ++ sections.flatMap RawSection.bytes) := by
    rw [← same]
    exact BytesAt.toList _
  have size : 8 + (sections.flatMap RawSection.bytes).length = code.size := by
    rw [← same]
    simp [Module.bytesOf, Module.magic, Module.version]
    omega
  exact toOption_readAll sections {} (BytesAt.append_iff.mp whole).2 size (Nat.le_refl _)

/-- Decoding goes through the sections one after the other and then puts together what they say. -/
theorem toOption_decode (sections : List RawSection) :
    (Module.decode (Module.bytesOf sections)).toOption =
      (sections.foldlM Sections.add? {}).bind fun s => s.toModule.toOption := by
  have unfolded : Module.decode (Module.bytesOf sections) =
      (Sections.readAll (Module.bytesOf sections) ((Module.bytesOf sections).size - 8) {} 8).bind
        Sections.toModule := by
    rw [Module.decode, Module.readHeader_bytesOf]
    rfl
  rw [unfolded, ← Sections.toOption_readAll_bytesOf]
  cases Sections.readAll (Module.bytesOf sections) ((Module.bytesOf sections).size - 8) {} 8 with
  | error e => rfl
  | ok s => rfl

/-! ### Editing the sections of a module -/

/-- One edit of a sequence of sections: two that stand side by side and have different ids are
exchanged, or one that is skipped is inserted or deleted. -/
inductive RawSection.Edit : List RawSection → List RawSection → Prop where
  | exchange (before after : List RawSection) {a b : RawSection} (different : a.id ≠ b.id) :
      Edit (before ++ a :: b :: after) (before ++ b :: a :: after)
  | insert (before after : List RawSection) {a : RawSection}
      (skipped : a.id ∈ ([0, 5, 6, 8, 11, 12] : List UInt8)) :
      Edit (before ++ after) (before ++ a :: after)
  | delete (before after : List RawSection) {a : RawSection}
      (skipped : a.id ∈ ([0, 5, 6, 8, 11, 12] : List UInt8)) :
      Edit (before ++ a :: after) (before ++ after)

/-- An edit does not change what the sections say together. -/
theorem RawSection.Edit.foldlM_eq {sections others : List RawSection} (edit : Edit sections others)
    (s : Sections) : sections.foldlM Sections.add? s = others.foldlM Sections.add? s := by
  cases edit with
  | @exchange before after a b different =>
    rw [List.foldlM_append, List.foldlM_append]
    congr 1
    funext t
    have either : (t.add? a >>= fun u => u.add? b) = (t.add? b >>= fun u => u.add? a) :=
      Sections.add?_comm different t
    simp only [List.foldlM_cons, ← bind_assoc, either]
  | insert before after skipped =>
    simp only [List.foldlM_append, List.foldlM_cons, Sections.add?_of_skipped skipped]
    rfl
  | delete before after skipped =>
    simp only [List.foldlM_append, List.foldlM_cons, Sections.add?_of_skipped skipped]
    rfl

/-- Whether the bytes of a module can be decoded, and the module that they are decoded to, does not
change when sections with different ids are exchanged and skipped sections are inserted and deleted,
any number of times. -/
theorem decode_of_edits {sections others : List RawSection}
    (edits : Relation.ReflTransGen RawSection.Edit sections others) (m : Module) :
    Module.decode (Module.bytesOf sections) = .ok m ↔
      Module.decode (Module.bytesOf others) = .ok m := by
  have same : (Module.decode (Module.bytesOf sections)).toOption =
      (Module.decode (Module.bytesOf others)).toOption := by
    induction edits with
    | refl => rfl
    | tail _ edit ih => rw [ih, toOption_decode, toOption_decode, edit.foldlM_eq]
  rw [← toOption_eq_some_iff, ← toOption_eq_some_iff, same]

namespace Sample

def typeSection : RawSection :=
  ⟨1, [0x05], [0x01, 0x60, 0x00, 0x01, 0x7F], .last (by decide) (by decide)⟩

def functionSection : RawSection :=
  ⟨3, [0x02], [0x01, 0x00], .last (by decide) (by decide)⟩

/-- A section of code, whose size is written with more bytes than it needs. -/
def codeSection : RawSection :=
  ⟨10, [0x86, 0x00], [0x01, 0x04, 0x00, 0x41, 0x07, 0x0B],
    .more (by decide) (by decide) (.last (by decide) (by decide))⟩

/-- A section that is skipped. -/
def customSection : RawSection :=
  ⟨0, [0x02], [0xFF, 0xFF], .last (by decide) (by decide)⟩

end Sample

open Sample in
/-- The theorem at a module whose sections come in the reverse order, with a skipped one between
them. -/
theorem reversed_sections_decoded :
    Module.decode
        (Module.bytesOf [codeSection, customSection, functionSection, typeSection]) =
      .ok { types := #[.new [] [.i32]], funcs := #[⟨0, 0, #[0x41, 0x07, 0x0B]⟩], exports := #[],
            table := none } := by
  have first : RawSection.Edit [typeSection, functionSection, codeSection]
      [typeSection, codeSection, functionSection] :=
    .exchange [typeSection] [] (by decide)
  have second : RawSection.Edit [typeSection, codeSection, functionSection]
      [codeSection, typeSection, functionSection] :=
    .exchange [] [functionSection] (by decide)
  have third : RawSection.Edit [codeSection, typeSection, functionSection]
      [codeSection, functionSection, typeSection] :=
    .exchange [codeSection] [] (by decide)
  have fourth : RawSection.Edit [codeSection, functionSection, typeSection]
      [codeSection, customSection, functionSection, typeSection] :=
    .insert [codeSection] [functionSection, typeSection] (by decide)
  have edits := (((Relation.ReflTransGen.single first).tail second).tail third).tail fourth
  refine (decode_of_edits edits _).mp (toOption_eq_some_iff.mp ?_)
  decide +kernel

end Wasm
