import Wasm.Module.Section

/-!
What segments make of a table.

Segments are written one after the other, so a slot holds what the last segment that reaches it
puts there, and what it held before if none does. `Segment.last?` says so without following the
writes; `Sections.fillTable_eq` shows that the writes come to it, and `Sections.fillTable_replicate`
what they leave in a table that was empty. A segment that does not fit ends the filling
(`Sections.fillTable_of_firstMisfit`), and nothing else does once there is a table.
-/

namespace Wasm

namespace Segment

/-- The function that a segment puts into a slot, if it reaches the slot. -/
def func? (segment : Segment) (index : Nat) : Option Nat :=
  if segment.offset ≤ index then segment.funcs[index - segment.offset]? else none

/-- The function that the last segment puts into a slot, of those that reach it. -/
def last? (segments : List Segment) (index : Nat) : Option Nat :=
  segments.reverse.findSome? (·.func? index)

theorem last?_cons (segment : Segment) (segments : List Segment) (index : Nat) :
    last? (segment :: segments) index = (last? segments index).or (segment.func? index) := by
  simp [last?, List.findSome?_append]

/-- A segment reaches the slots from its offset on, as many as it has functions. -/
theorem func?_eq (segment : Segment) (index : Nat) :
    segment.func? index =
      if segment.offset ≤ index ∧ index < segment.offset + segment.funcs.length then
        segment.funcs[index - segment.offset]?
      else none := by
  unfold func?
  by_cases low : segment.offset ≤ index
  · by_cases high : index < segment.offset + segment.funcs.length
    · rw [if_pos low, if_pos ⟨low, high⟩]
    · rw [if_pos low, if_neg (fun both => high both.2), List.getElem?_eq_none (by omega)]
  · rw [if_neg low, if_neg (fun both => low both.1)]

/-- The segment puts a function into the slot. -/
def Covers (segment : Segment) (index : Nat) : Prop :=
  segment.offset ≤ index ∧ index < segment.offset + segment.funcs.length

instance (segment : Segment) (index : Nat) : Decidable (segment.Covers index) :=
  inferInstanceAs (Decidable (_ ∧ _))

theorem Covers.exists_func {segment : Segment} {index : Nat} (covers : segment.Covers index) :
    ∃ func, segment.funcs[index - segment.offset]? = some func ∧
      segment.func? index = some func := by
  obtain ⟨low, high⟩ := covers
  have inside : index - segment.offset < segment.funcs.length := by omega
  refine ⟨segment.funcs[index - segment.offset], List.getElem?_eq_getElem inside, ?_⟩
  rw [func?, if_pos low, List.getElem?_eq_getElem inside]

theorem func?_eq_none_iff {segment : Segment} {index : Nat} :
    segment.func? index = none ↔ ¬ segment.Covers index := by
  constructor
  · intro missing covers
    obtain ⟨func, -, found⟩ := covers.exists_func
    rw [missing] at found
    cases found
  · intro apart
    exact (func?_eq segment index).trans (if_neg apart)

theorem last?_eq_none_iff {segments : List Segment} {index : Nat} :
    last? segments index = none ↔ ∀ segment ∈ segments, ¬ segment.Covers index := by
  simp only [last?, List.findSome?_eq_none_iff, List.mem_reverse, func?_eq_none_iff]

/-- The last segment that covers a slot is the one behind which none does. -/
theorem last?_of_split {before after : List Segment} {segment : Segment} {index func : Nat}
    (puts : segment.func? index = some func) (later : ∀ other ∈ after, ¬ other.Covers index) :
    last? (before ++ segment :: after) index = some func := by
  induction before with
  | nil => rw [List.nil_append, last?_cons, last?_eq_none_iff.mpr later, Option.none_or, puts]
  | cons first before ih => rw [List.cons_append, last?_cons, ih, Option.some_or]

/-- The first of some segments that does not fit into a table of the given size. -/
def FirstMisfit (size : Nat) (segments : List Segment) (segment : Segment) : Prop :=
  ∃ before after, segments = before ++ segment :: after ∧
    (∀ other ∈ before, other.offset + other.funcs.length ≤ size) ∧
    size < segment.offset + segment.funcs.length

/-- Where not all segments fit, there is a first that does not. -/
theorem fit_or_firstMisfit (size : Nat) (segments : List Segment) :
    (∀ segment ∈ segments, segment.offset + segment.funcs.length ≤ size) ∨
      ∃ segment, FirstMisfit size segments segment := by
  induction segments with
  | nil => exact .inl fun segment member => nomatch member
  | cons segment segments ih =>
    by_cases fits : segment.offset + segment.funcs.length ≤ size
    · rcases ih with all | ⟨misfit, before, after, split, fit, excess⟩
      · exact .inl (List.forall_mem_cons.mpr ⟨fits, all⟩)
      · refine .inr ⟨misfit, segment :: before, after, ?_, ?_, excess⟩
        · rw [split, List.cons_append]
        · exact List.forall_mem_cons.mpr ⟨fits, fit⟩
    · refine .inr ⟨segment, [], segments, rfl, ?_, Nat.not_le.mp fits⟩
      exact fun other member => nomatch member

end Segment

/-- One segment: a slot holds what the segment puts there, or else what it held. -/
theorem Table.slot?_fill {table filled : Table} {segment : Segment}
    (written : table.fill segment.offset segment.funcs = .ok filled) :
    filled.size = table.size ∧ ∀ index old, table.slot? index = some old →
      filled.slot? index = some ((segment.func? index).or old) := by
  unfold fill at written
  split at written
  · rename_i fits
    cases written
    refine ⟨size_write _ _ _, ?_⟩
    intro index old found
    change (write table.slots segment.offset segment.funcs)[index]? = _
    rw [getElem?_write _ _ _ fits, Segment.func?_eq]
    split
    · rename_i reached
      have inside : index - segment.offset < segment.funcs.length := by omega
      rw [List.getElem?_eq_getElem inside]
      rfl
    · exact found
  · cases written

/-- A segment that fits is written, and the filling goes on with the other ones. -/
theorem Sections.fillTable_cons {segment : Segment} {table : Table} (segments : List Segment)
    (fits : segment.offset + segment.funcs.length ≤ table.size) :
    ∃ next, table.fill segment.offset segment.funcs = .ok next ∧ next.size = table.size ∧
      fillTable (segment :: segments) (some table) = fillTable segments (some next) := by
  have written : table.fill segment.offset segment.funcs =
      .ok ⟨Table.write table.slots segment.offset segment.funcs⟩ :=
    if_pos fits
  refine ⟨_, written, (Table.slot?_fill written).1, ?_⟩
  rw [fillTable]
  simp only [written]

/-- Segments that all fit are written, and every slot holds what the last of them puts there. -/
theorem Sections.fillTable_eq {segments : List Segment} {table : Table}
    (fits : ∀ segment ∈ segments, segment.offset + segment.funcs.length ≤ table.size) :
    ∃ filled, fillTable segments (some table) = .ok (some filled) ∧ filled.size = table.size ∧
      ∀ index old, table.slot? index = some old →
        filled.slot? index = some ((Segment.last? segments index).or old) := by
  induction segments generalizing table with
  | nil => exact ⟨table, rfl, rfl, fun _ _ found => found⟩
  | cons segment segments ih =>
    obtain ⟨firstFits, restFit⟩ := List.forall_mem_cons.mp fits
    obtain ⟨next, written, size, goesOn⟩ := fillTable_cons segments firstFits
    rw [← size] at restFit
    obtain ⟨filled, rest, restSize, restHeld⟩ := ih restFit
    refine ⟨filled, goesOn.trans rest, restSize.trans size, ?_⟩
    intro index old found
    have held := (Table.slot?_fill written).2 index old found
    rw [restHeld index _ held, Segment.last?_cons, Option.or_assoc]

/-- The first segment that does not fit is blamed by its offset in the table, whatever comes behind
it. -/
theorem Sections.fillTable_of_firstMisfit {segments : List Segment} {segment : Segment}
    {table : Table} (misfit : Segment.FirstMisfit table.size segments segment) :
    fillTable segments (some table) = .error (.malformed segment.offset .segmentOutOfBounds) := by
  obtain ⟨before, after, rfl, fits, excess⟩ := misfit
  induction before generalizing table with
  | nil =>
    have refused : table.fill segment.offset segment.funcs =
        .error (.malformed segment.offset .segmentOutOfBounds) :=
      if_neg (Nat.not_le.mpr excess)
    rw [List.nil_append, fillTable]
    simp only [refused]
  | cons first before ih =>
    obtain ⟨firstFits, restFit⟩ := List.forall_mem_cons.mp fits
    obtain ⟨next, -, size, goesOn⟩ := fillTable_cons (before ++ segment :: after) firstFits
    rw [← size] at excess restFit
    exact goesOn.trans (ih restFit excess)

/-- What segments make of an empty table. -/
theorem Sections.fillTable_replicate {segments : List Segment} {size : Nat}
    (fits : ∀ segment ∈ segments, segment.offset + segment.funcs.length ≤ size) :
    fillTable segments (some ⟨Array.replicate size none⟩) =
      .ok (some ⟨Array.ofFn fun slot : Fin size => Segment.last? segments slot⟩) := by
  have room : (⟨Array.replicate size none⟩ : Table).size = size := Array.size_replicate
  rw [← room] at fits
  obtain ⟨filled, written, same, held⟩ := fillTable_eq fits
  rw [room] at same
  have slots : filled.slots = Array.ofFn fun slot : Fin size => Segment.last? segments slot := by
    apply Array.ext
    · rw [Array.size_ofFn]
      exact same
    intro index inside _
    have empty : (⟨Array.replicate size none⟩ : Table).slot? index = some none := by
      simp [Table.slot?, Nat.lt_of_lt_of_eq inside same]
    have slot := held index none empty
    rw [Option.or_none] at slot
    rw [Array.getElem_ofFn]
    exact (Array.getElem?_eq_some_iff.mp slot).2
  rw [written, ← slots]

end Wasm
