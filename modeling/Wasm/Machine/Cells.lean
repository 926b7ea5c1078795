import Wasm.Types

/-! # The value stack

All activations share one stack of cells, and a position on it is a height counted from the bottom.
Taking cells off is bounded by a floor, so that code cannot reach below what belongs to it. Nothing
remains of a cell once it is off the stack.
-/

namespace Wasm

/-- A stack of cells, bottom first. -/
structure Cells where
  toArray : Array Cell
  deriving DecidableEq, Repr

namespace Cells

/-- The stack without cells. -/
def empty : Cells := ⟨#[]⟩

/-- The stack of the given cells, the last one on top. -/
def ofList (cells : List Cell) : Cells := ⟨cells.toArray⟩

/-- The number of cells. -/
def height (s : Cells) : Nat := s.toArray.size

/-- Puts a cell on top. -/
def push (s : Cells) (cell : Cell) : Cells := ⟨s.toArray.push cell⟩

/-- Puts cells on top, the last one topmost. -/
def pushAll (s : Cells) (cells : List Cell) : Cells := cells.foldl push s

/-- Puts `count` zero cells on top. -/
def pushZeros (s : Cells) (count : Nat) : Cells := ⟨s.toArray ++ Array.replicate count 0⟩

/-- The top cell, unless the stack is no higher than `floor`. -/
def peekAbove? (s : Cells) (floor : Nat) : Option Cell :=
  if floor < s.height then s.toArray.back? else none

/-- The top cell and the stack without it, unless the stack is no higher than `floor`. -/
def popAbove? (s : Cells) (floor : Nat) : Option (Cell × Cells) :=
  match s.peekAbove? floor with
  | some cell => some (cell, ⟨s.toArray.pop⟩)
  | none => none

/-- The cell at a position. -/
def get? (s : Cells) (pos : Nat) : Option Cell := s.toArray[pos]?

/-- Replaces the cell at a position. -/
def set? (s : Cells) (pos : Nat) (cell : Cell) : Option Cells :=
  if h : pos < s.toArray.size then some ⟨s.toArray.set pos cell h⟩ else none

/-- Takes out what lies between the lowest `height` cells and the top `keep` cells, unless these
overlap. -/
def unwind? (s : Cells) (height keep : Nat) : Option Cells :=
  if height + keep ≤ s.height then
    let kept := s.toArray.extract (s.height - keep) s.height
    some ⟨s.toArray.shrink height ++ kept⟩
  else
    none

/-! ### What the operations do to the cells -/

@[simp] theorem height_push (s : Cells) (cell : Cell) : (s.push cell).height = s.height + 1 := by
  simp [push, height]

@[simp] theorem height_pushZeros (s : Cells) (count : Nat) :
    (s.pushZeros count).height = s.height + count := by
  simp [pushZeros, height]

/-- Cells that are put on the empty stack are all that is on it. -/
@[simp] theorem pushAll_empty (cells : List Cell) : empty.pushAll cells = ofList cells := by
  have pushed (xs : Array Cell) : (Cells.mk xs).pushAll cells = ⟨xs ++ cells.toArray⟩ := by
    induction cells generalizing xs with
    | nil => simp [pushAll]
    | cons cell cells ih => simpa [pushAll, push] using ih (xs.push cell)
  simpa [empty, ofList] using pushed #[]

/-- A cell comes off exactly when it is above the floor, and putting it back undoes it. -/
theorem popAbove?_eq_some_iff {s t : Cells} {floor : Nat} {cell : Cell} :
    s.popAbove? floor = some (cell, t) ↔ floor < s.height ∧ s = t.push cell := by
  obtain ⟨xs⟩ := s
  obtain ⟨ys⟩ := t
  by_cases hlt : floor < xs.size
  · rw [popAbove?, peekAbove?, if_pos (show floor < height ⟨xs⟩ from hlt)]
    constructor
    · intro h
      cases hback : xs.back? with
      | none => simp [hback] at h
      | some c =>
        obtain ⟨zs, rfl⟩ := Array.back?_eq_some_iff.1 hback
        simp only [hback, Array.pop_push, Option.some.injEq, Prod.mk.injEq, Cells.mk.injEq] at h
        obtain ⟨rfl, rfl⟩ := h
        exact ⟨hlt, rfl⟩
    · rintro ⟨-, heq⟩
      simp only [push, Cells.mk.injEq] at heq
      subst heq
      simp
  · rw [popAbove?, peekAbove?, if_neg (show ¬ floor < height ⟨xs⟩ from hlt)]
    constructor
    · intro h
      cases h
    · rintro ⟨h, -⟩
      exact absurd h hlt

/-- Unwinding keeps the lowest and the top cells, in their order. -/
theorem unwind?_eq_some_iff {s t : Cells} {height keep : Nat} :
    s.unwind? height keep = some t ↔
      height + keep ≤ s.height ∧
        t.toArray.toList =
          s.toArray.toList.take height ++ s.toArray.toList.drop (s.height - keep) := by
  obtain ⟨xs⟩ := s
  obtain ⟨ys⟩ := t
  by_cases hle : height + keep ≤ Cells.height ⟨xs⟩
  · rw [unwind?, if_pos hle, Option.some.injEq, Cells.mk.injEq, ← Array.toList_inj, eq_comm]
    change height + keep ≤ xs.size at hle
    have htop : (xs.toList.drop (xs.size - keep)).take (xs.size - (xs.size - keep)) =
        xs.toList.drop (xs.size - keep) :=
      List.take_of_length_le (by simp)
    simp [hle, htop, Cells.height]
  · rw [unwind?, if_neg hle]
    simp [hle]

end Cells

end Wasm
