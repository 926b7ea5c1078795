import Wasm.Types

/-! # Function tables

A table has a fixed number of slots, each empty or holding the index of a function. Segments are
written into it whole or not at all; where two overlap, the later one stays. `Table.fill` gives the
table that a segment makes of another, `Table.init` writes it in place; `Table.run_init` is that the
two agree.
-/

namespace Wasm

/-- A table of functions. -/
structure Table where
  slots : Array (Option Nat)
  deriving DecidableEq, Repr

namespace Table

/-- The size of the largest table that is made. -/
def maxSize : Nat := 0x100000

/-- A table of the least size that its type allows, all slots empty. -/
def create (type : TableType) : Except DecodeError Table :=
  if type.element ≠ .funcref then
    .error (.unsupported .nonFuncrefTables)
  else if type.limits.max.any (· < type.limits.min) then
    .error (.malformed 0 .limitsOrder)
  else if maxSize < type.limits.min then
    .error (.unsupported .largeTables)
  else
    .ok { slots := Array.replicate type.limits.min none }

/-- The number of slots. -/
def size (table : Table) : Nat :=
  table.slots.size

/-- The slot at an index, or nothing beyond the last slot. -/
def slot? (table : Table) (index : Nat) : Option (Option Nat) :=
  table.slots[index]?

/-- Writes functions into consecutive slots; what has no slot is dropped. -/
def write (slots : Array (Option Nat)) (offset : Nat) : List Nat → Array (Option Nat)
  | [] => slots
  | func :: funcs => write (slots.setIfInBounds offset (some func)) (offset + 1) funcs

/-- Writes a segment of functions from `offset` on, or refuses when it does not fit. -/
def fill (table : Table) (offset : Nat) (funcs : List Nat) : Except DecodeError Table :=
  if offset + funcs.length ≤ table.size then
    .ok { slots := write table.slots offset funcs }
  else
    .error (.malformed offset .segmentOutOfBounds)

/-- Writes functions into consecutive slots, one after the other. -/
def assign (offset : Nat) : List Nat → ExceptT DecodeError (StateM Table) Unit
  | [] => pure ()
  | func :: funcs => do
    modify fun table => ⟨table.slots.setIfInBounds offset (some func)⟩
    assign (offset + 1) funcs

/-- Writes a segment into a table in place. -/
def init (offset : Nat) (funcs : List Nat) : ExceptT DecodeError (StateM Table) Unit := do
  let table ← get
  if offset + funcs.length ≤ table.size then
    assign offset funcs
  else
    throw (.malformed offset .segmentOutOfBounds)

@[simp] theorem size_write (slots : Array (Option Nat)) (offset : Nat) (funcs : List Nat) :
    (write slots offset funcs).size = slots.size := by
  induction funcs generalizing slots offset with
  | nil => rfl
  | cons func funcs ih => rw [write, ih, Array.size_setIfInBounds]

/-- A slot has what was written into it, or what it had. -/
theorem getElem?_write (slots : Array (Option Nat)) (offset : Nat) (funcs : List Nat)
    (h : offset + funcs.length ≤ slots.size) (index : Nat) :
    (write slots offset funcs)[index]? =
      if offset ≤ index ∧ index < offset + funcs.length then some funcs[index - offset]?
      else slots[index]? := by
  induction funcs generalizing slots offset with
  | nil =>
    rw [write, if_neg]
    simp only [List.length_nil]
    omega
  | cons func funcs ih =>
    simp only [List.length_cons] at h
    have hrest : offset + 1 + funcs.length ≤ (slots.setIfInBounds offset (some func)).size := by
      simp only [Array.size_setIfInBounds]
      omega
    rw [write, ih _ _ hrest, Array.getElem?_setIfInBounds]
    simp only [List.length_cons]
    rcases Nat.lt_trichotomy index offset with hlt | rfl | hgt
    · rw [if_neg (by omega), if_neg (by omega), if_neg (by omega)]
    · rw [if_neg (by omega), if_pos rfl, if_pos (by omega), if_pos (by omega)]
      simp
    · by_cases hin : index < offset + (funcs.length + 1)
      · rw [if_pos (by omega), if_pos (by omega)]
        obtain ⟨k, rfl⟩ : ∃ k, index = offset + 1 + k := ⟨index - (offset + 1), by omega⟩
        simp [show offset + 1 + k - offset = k + 1 by omega]
      · rw [if_neg (by omega), if_neg (by omega), if_neg (by omega)]

theorem run_assign (offset : Nat) (funcs : List Nat) (table : Table) :
    (assign offset funcs).run.run table = (.ok (), ⟨write table.slots offset funcs⟩) := by
  induction funcs generalizing offset table with
  | nil => rfl
  | cons func funcs ih => exact ih (offset + 1) _

/-- Writing in place has the result of writing into a copy. When the segment does not fit, the table
stays as it is. -/
theorem run_init (offset : Nat) (funcs : List Nat) (table : Table) :
    (init offset funcs).run.run table =
      match table.fill offset funcs with
      | .ok filled => (.ok (), filled)
      | .error e => (.error e, table) := by
  have looked : (init offset funcs).run.run table =
      (if offset + funcs.length ≤ table.size then assign offset funcs
        else throw (DecodeError.malformed offset .segmentOutOfBounds)).run.run table := rfl
  rw [looked, fill]
  split
  · exact run_assign offset funcs table
  · rfl

/-- The slots that hold a function, in ascending order, each with its function. -/
def entries (table : Table) : List (Nat × Nat) :=
  table.slots.toList.zipIdx.filterMap fun (slot, index) => slot.map fun func => (index, func)

end Table

end Wasm
