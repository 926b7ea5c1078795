import Wasm.Proofs.Machine.Cells

/-!
What plain instructions do to the height of the value stack.

A plain instruction takes a fixed number of operands off and puts a fixed number of cells on. That
is all there is to its success: it needs its operands above the floor and its local in range.

* `Plain.height_of_exec`: when it succeeds, the height changes by the difference;
* `Plain.exec_of_room`: with its operands there, it succeeds or traps.
-/

namespace Wasm

namespace Frame

variable {frame : Frame} {s t : Cells} {cell : Cell}

theorem height_of_pop (popped : frame.pop s = .ok (cell, t)) :
    frame.operandBase ≤ t.height ∧ s.height = t.height + 1 := by
  obtain ⟨above, rfl⟩ := pop_eq_ok_iff.mp popped
  rw [Cells.height_push] at above ⊢
  exact ⟨Nat.le_of_lt_succ above, rfl⟩

theorem pop_of_lt (above : frame.operandBase < s.height) :
    ∃ cell t, frame.pop s = .ok (cell, t) := by
  obtain ⟨rest, cell, split⟩ : ∃ rest cell, s.toList = rest ++ [cell] := by
    have some : s.toList ≠ [] := List.ne_nil_of_length_pos (by simp; omega)
    exact ⟨_, _, (List.dropLast_concat_getLast some).symm⟩
  refine ⟨cell, .ofList rest, pop_eq_ok_iff.mpr ⟨above, ?_⟩⟩
  apply Cells.ext_toList
  rw [split, Cells.toList_push, Cells.toList_ofList]

end Frame

namespace Plain

/-- How many operands the instruction takes. -/
def pops : Plain → Nat
  | unreachable | nop | localGet _ | const _ => 0
  | drop | localSet _ | localTee _ | numeric (.unary _) => 1
  | numeric (.binary _) => 2
  | select => 3

/-- How many cells the instruction leaves in their place. -/
def pushes : Plain → Nat
  | unreachable | nop | drop | localSet _ => 0
  | select | localGet _ | localTee _ | const _ | numeric _ => 1

/-- The local that the instruction reads or writes. -/
def local? : Plain → Option Nat
  | localGet index | localSet index | localTee index => some index
  | _ => none

variable {frame : Frame} {s t : Cells} {op : Plain}

theorem pushes_le (op : Plain) : op.pushes ≤ 1 := by
  cases op with
  | unreachable | nop | drop | localSet index => exact Nat.zero_le 1
  | select | localGet index | localTee index | const value | numeric op => exact Nat.le_refl 1

theorem height_of_set? {pos : Nat} {cell : Cell} (written : s.set? pos cell = some t) :
    t.height = s.height := by
  have lengths := congrArg List.length (Cells.set?_eq_some_iff.mp written).2
  simpa using lengths

/-- The operands are replaced by what the instruction leaves. -/
theorem height_of_exec (run : op.exec frame s = .ok t) :
    t.height + op.pops = s.height + op.pushes := by
  cases changes_of_exec run with
  | nop => rfl
  | drop popped => exact (Frame.height_of_pop popped).2.symm
  | select one two three =>
    have first := (Frame.height_of_pop one).2
    have second := (Frame.height_of_pop two).2
    have third := (Frame.height_of_pop three).2
    simp only [Cells.height_push, pops, pushes]
    omega
  | localGet _ _ => exact Cells.height_push s _
  | localSet _ popped written =>
    rw [height_of_set? written]
    exact (Frame.height_of_pop popped).2.symm
  | localTee _ _ written =>
    rw [height_of_set? written]
    rfl
  | const => exact Cells.height_push s _
  | unary popped =>
    have first := (Frame.height_of_pop popped).2
    simp only [Cells.height_push, pops, pushes]
    omega
  | binary one two _ =>
    have first := (Frame.height_of_pop one).2
    have second := (Frame.height_of_pop two).2
    simp only [Cells.height_push, pops, pushes]
    omega

/-- An instruction that finds its operands above the floor and its local in range succeeds or
traps. -/
theorem exec_of_room (room : frame.operandBase + op.pops ≤ s.height)
    (inside : ∀ index, op.local? = some index → index < frame.localCount) :
    (∃ t, op.exec frame s = .ok t) ∨ ∃ trap, op.exec frame s = .error (.trap trap) := by
  cases op with
  | unreachable => exact .inr ⟨_, rfl⟩
  | nop => exact .inl ⟨s, rfl⟩
  | drop =>
    obtain ⟨cell, rest, popped⟩ := Frame.pop_of_lt room
    exact .inl ⟨rest, except_bind_eq_ok_iff.mpr ⟨_, popped, rfl⟩⟩
  | select =>
    simp only [pops] at room
    have three : frame.operandBase < s.height := by omega
    obtain ⟨condition, first, popped₁⟩ := Frame.pop_of_lt three
    have one := (Frame.height_of_pop popped₁).2
    have two : frame.operandBase < first.height := by omega
    obtain ⟨y, second, popped₂⟩ := Frame.pop_of_lt two
    have one' := (Frame.height_of_pop popped₂).2
    have last : frame.operandBase < second.height := by omega
    obtain ⟨x, third, popped₃⟩ := Frame.pop_of_lt last
    refine .inl ⟨third.push (if Cell.isTrue condition then x else y), ?_⟩
    refine except_bind_eq_ok_iff.mpr ⟨_, popped₁, ?_⟩
    refine except_bind_eq_ok_iff.mpr ⟨_, popped₂, ?_⟩
    exact except_bind_eq_ok_iff.mpr ⟨_, popped₃, rfl⟩
  | localGet index =>
    have floor : frame.operandBase ≤ s.height := room
    obtain ⟨cell, -, run⟩ := exec_localGet floor (inside index rfl)
    exact .inl ⟨_, run⟩
  | localSet index =>
    obtain ⟨cell, rest, popped⟩ := Frame.pop_of_lt room
    obtain ⟨t, -, run⟩ := exec_localSet (inside index rfl) popped
    exact .inl ⟨t, run⟩
  | localTee index =>
    obtain ⟨cell, rest, popped⟩ := Frame.pop_of_lt room
    obtain ⟨-, rfl⟩ := Frame.pop_eq_ok_iff.mp popped
    have top : (rest.push cell).peekAbove? frame.operandBase = some cell :=
      Cells.peekAbove?_eq_some_iff.mpr ⟨room, by simp⟩
    obtain ⟨t, -, run⟩ := exec_localTee (inside index rfl) top
    exact .inl ⟨t, run⟩
  | const value => exact .inl ⟨_, rfl⟩
  | numeric op =>
    cases op with
    | unary op =>
      obtain ⟨x, rest, popped⟩ := Frame.pop_of_lt room
      exact .inl ⟨_, except_bind_eq_ok_iff.mpr ⟨_, popped, rfl⟩⟩
    | binary op =>
      simp only [pops] at room
      have two : frame.operandBase < s.height := by omega
      obtain ⟨y, first, poppedY⟩ := Frame.pop_of_lt two
      have one := (Frame.height_of_pop poppedY).2
      have last : frame.operandBase < first.height := by omega
      obtain ⟨x, second, poppedX⟩ := Frame.pop_of_lt last
      cases value : op.eval x y with
      | ok result =>
        refine .inl ⟨second.push result, except_bind_eq_ok_iff.mpr ⟨_, poppedY, ?_⟩⟩
        refine except_bind_eq_ok_iff.mpr ⟨_, poppedX, ?_⟩
        simp only [value]
        rfl
      | error trap =>
        refine .inr ⟨trap, ?_⟩
        simp only [exec, Numeric.exec, poppedY, poppedX, value, bind, Except.bind]
        rfl

end Plain

end Wasm
