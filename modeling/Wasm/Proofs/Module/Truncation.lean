import Wasm.Proofs.Binary.Truncation
import Wasm.Proofs.Module.Order

/-!
A module that is cut short is recognised as such.

Sections state their sizes, so the end of a module is missed wherever it is cut off, unless the cut
falls between two sections: what is left is then a sequence of sections again, which may be a module
or not. At any other place the sections in front of the cut are read as they were, and the one that
it falls into is blamed on the end of the input, before anything that is in it is looked at.

* `SectionBoundary`: the offsets between sections;
* `Sections.cut_readSection`: a section that is cut short;
* `Sections.readAll_of_cut`: a sequence of sections, cut inside one of them;
* `decode_of_truncated`: so a module that is cut short fails to decode, at its end.
-/

namespace Wasm

open Reader

/-- The offsets between the sections of a module: behind the header, and behind each section, whose
size stands behind its id. -/
inductive SectionBoundary (bytes : Bytes) : Nat → Prop where
  | header : SectionBoundary bytes 8
  | behind {pos size start} (before : SectionBoundary bytes pos)
      (sized : Leb128.u32 bytes (pos + 1) = .ok (size, start)) :
      SectionBoundary bytes (start + size)

/-- Where the input is not cut between two sections, there is more of it behind every section. -/
theorem SectionBoundary.lt_of_cut {bytes : Bytes} {pos size : Nat}
    (before : SectionBoundary bytes pos) (inside : pos ≤ size)
    (cut : ¬ SectionBoundary bytes size) : pos < size := by
  refine Nat.lt_of_le_of_ne inside ?_
  rintro rfl
  exact cut before

/-- A section that can be read leads from one offset between sections to the next. -/
theorem SectionBoundary.next {bytes : Bytes} {pos q : Nat} {s t : Sections}
    (before : SectionBoundary bytes pos) (inside : pos < bytes.size)
    (read : s.readSection bytes pos = .ok (t, q)) : SectionBoundary bytes q ∧ pos < q := by
  obtain ⟨content, found, -⟩ := Sections.exists_region_of_readSection read
  have onwards := (Local.region.bounded bytes (pos + 1) content q found inside).1
  obtain ⟨size, start, sized, taken⟩ := bind_eq_ok_iff.mp found
  obtain ⟨-, -, rfl⟩ := take_eq_ok_iff.mp taken
  exact ⟨.behind before sized, onwards⟩

namespace Sections

theorem cut_readSection (s : Sections) : Cut s.readSection := by
  refine Cut.byte.bind fun id => Cut.region.bind fun content => ?_
  split
  · exact .malformed _
  · exact .pure s
  · refine (Cut.enclosed content _).bind fun result => ?_
    exact (Cut.pure _).ite (.malformed _)

/-- A sequence of sections that can be read, cut at an offset that is not between two of them. -/
theorem readAll_of_cut {head tail : Bytes} {s t : Sections} {fuel fuel' pos : Nat}
    (read : readAll (head ++ tail) fuel s pos = .ok t)
    (before : SectionBoundary (head ++ tail) pos) (inside : pos ≤ head.size)
    (cut : ¬ SectionBoundary (head ++ tail) head.size)
    (enough : (head ++ tail).size - pos ≤ fuel) (enough' : head.size - pos ≤ fuel') :
    readAll head fuel' s pos = .error (.unexpectedEnd head.size) := by
  induction fuel generalizing s pos fuel' with
  | zero =>
    have short := before.lt_of_cut inside cut
    rw [Array.size_append] at enough
    omega
  | succ fuel ih =>
    have short := before.lt_of_cut inside cut
    have within : pos < (head ++ tail).size := by
      rw [Array.size_append]
      omega
    obtain ⟨fuel', rfl⟩ : ∃ n, fuel' = n + 1 := ⟨fuel' - 1, by omega⟩
    rw [readAll, if_neg (Nat.not_le.mpr within)] at read
    rw [readAll, if_neg (Nat.not_le.mpr short)]
    cases result : s.readSection (head ++ tail) pos with
    | error e =>
      rw [result] at read
      cases read
    | ok out =>
      obtain ⟨u, q⟩ := out
      rw [result] at read
      obtain ⟨-, shortened⟩ := s.cut_readSection head tail pos u q result
      have begun := shortened inside
      by_cases here : q ≤ head.size
      · rw [if_pos here] at begun
        rw [begun]
        obtain ⟨next, onwards⟩ := before.next within result
        exact ih read next here (by omega) (by omega)
      · rw [if_neg here] at begun
        rw [begun]

end Sections

theorem Module.cut_readHeader : Cut readHeader := by
  refine (Cut.take 4).bind fun first => (Cut.fail _).ite ?_
  exact (Cut.take 4).bind fun second => (Cut.fail _).ite (.pure ())

/-- The header has eight bytes. -/
theorem Module.readHeader_end {bytes : Bytes} {pos : Nat}
    (read : readHeader bytes 0 = .ok ((), pos)) : pos = 8 := by
  obtain ⟨first, p, taken, read⟩ := bind_eq_ok_iff.mp read
  obtain ⟨-, -, rfl⟩ := take_eq_ok_iff.mp taken
  split at read
  · cases read
  obtain ⟨second, q, taken, read⟩ := bind_eq_ok_iff.mp read
  obtain ⟨-, -, rfl⟩ := take_eq_ok_iff.mp taken
  split at read
  · cases read
  cases read
  rfl

/-- The beginning of a module that ends neither behind the header nor behind a section is not
decoded, and what it is blamed on is its end. -/
theorem decode_of_truncated {head tail : Bytes} {m : Module}
    (decoded : Module.decode (head ++ tail) = .ok m)
    (cut : ¬ SectionBoundary (head ++ tail) head.size) :
    Module.decode head = .error (.unexpectedEnd head.size) := by
  obtain ⟨⟨_, pos⟩, header, decoded⟩ := except_bind_eq_ok_iff.mp decoded
  obtain ⟨sections, read, -⟩ := except_bind_eq_ok_iff.mp decoded
  obtain rfl := Module.readHeader_end header
  obtain ⟨-, shortened⟩ := Module.cut_readHeader head tail 0 () 8 header
  have begun := shortened (Nat.zero_le _)
  unfold Module.decode
  by_cases here : 8 ≤ head.size
  · rw [if_pos here] at begun
    have fails := Sections.readAll_of_cut read .header here cut (Nat.le_refl _) (Nat.le_refl _)
    rw [begun]
    change (Sections.readAll head (head.size - 8) {} 8 >>= _) = _
    rw [fails]
    rfl
  · rw [if_neg here] at begun
    rw [begun]
    rfl

namespace Sample

/-- A module of three sections, of which the last writes its size with more bytes than it needs. -/
def threeSections : Bytes :=
  Module.bytesOf [typeSection, functionSection, codeSection]

theorem boundary_threeSections {pos : Nat} (boundary : SectionBoundary threeSections pos) :
    pos ∈ [8, 15, 19, 28] := by
  induction boundary with
  | header => decide
  | @behind pos size start _ sized ih =>
    have read := toOption_eq_some_iff.mpr sized
    simp only [List.mem_cons, List.not_mem_nil, or_false] at ih
    rcases ih with rfl | rfl | rfl | rfl
    · have first : (Leb128.u32 threeSections 9).toOption = some (5, 10) := by decide +kernel
      cases read.symm.trans first
      decide
    · have second : (Leb128.u32 threeSections 16).toOption = some (2, 17) := by decide +kernel
      cases read.symm.trans second
      decide
    · have third : (Leb128.u32 threeSections 20).toOption = some (6, 22) := by decide +kernel
      cases read.symm.trans third
      decide
    · have none : (Leb128.u32 threeSections 29).toOption = none := by decide +kernel
      cases read.symm.trans none

end Sample

open Sample in
/-- The theorem at three cuts of a module: in the header, between the two bytes of a size, and in
the body of a function. -/
theorem three_cuts_noticed :
    Module.decode (threeSections.take 3) = .error (.unexpectedEnd 3) ∧
      Module.decode (threeSections.take 21) = .error (.unexpectedEnd 21) ∧
      Module.decode (threeSections.take 25) = .error (.unexpectedEnd 25) := by
  have decoded : Module.decode threeSections = .ok
      { types := #[.new [] [.i32]], funcs := #[⟨0, 0, #[0x41, 0x07, 0x0B]⟩], exports := #[],
        table := none } :=
    toOption_eq_some_iff.mp (by decide +kernel)
  have cut : ∀ head tail, head ++ tail = threeSections → head.size ∉ [8, 15, 19, 28] →
      Module.decode head = .error (.unexpectedEnd head.size) := by
    intro head tail whole apart
    rw [← whole] at decoded
    refine decode_of_truncated decoded fun boundary => apart ?_
    rw [whole] at boundary
    exact boundary_threeSections boundary
  refine ⟨cut _ (threeSections.drop 3) ?_ ?_, cut _ (threeSections.drop 21) ?_ ?_,
    cut _ (threeSections.drop 25) ?_ ?_⟩
  all_goals decide +kernel

end Wasm
