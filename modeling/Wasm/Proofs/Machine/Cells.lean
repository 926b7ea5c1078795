import Wasm.Machine.Plain

/-!
The value stack as a list, and what an activation leaves alone.

`Cells.toList` is the view that every later proof uses: one equation for each operation of the
stack. `Cells.Agree n s t` says that the lowest `n` cells of two stacks are the same, and
`Frame.Keeps` is what all work inside an activation has in common: the stack stays at or above the
operands' floor, and no cell below the activation's own locals changes.

* `Plain.changes_of_exec`: what each plain instruction that succeeds does to the cells;
* `Plain.keeps_of_exec`: it stays above the floor and keeps the cells below the locals;
* `Plain.exec_localGet`, `Plain.exec_localSet`, `Plain.exec_localTee`: on a stack that holds the
  locals, an access to a local in range can fail only for want of an operand.
-/

namespace Wasm

namespace Cells

/-- The cells of a stack, bottom first. -/
def toList (s : Cells) : List Cell := s.toArray.toList

@[simp] theorem length_toList (s : Cells) : s.toList.length = s.height := by
  simp [toList, height]

theorem ext_toList {s t : Cells} (same : s.toList = t.toList) : s = t := by
  obtain ⟨xs⟩ := s
  obtain ⟨ys⟩ := t
  simpa [toList] using same

@[simp] theorem toList_ofList (cells : List Cell) : (ofList cells).toList = cells := by
  simp [ofList, toList]

@[simp] theorem toList_push (s : Cells) (cell : Cell) :
    (s.push cell).toList = s.toList ++ [cell] := by
  simp [push, toList]

@[simp] theorem toList_pushZeros (s : Cells) (count : Nat) :
    (s.pushZeros count).toList = s.toList ++ List.replicate count 0 := by
  simp [pushZeros, toList]

theorem get?_eq (s : Cells) (pos : Nat) : s.get? pos = s.toList[pos]? := by
  simp [get?, toList]

/-- A cell above the floor can be looked at exactly when it is the last of the list. -/
theorem peekAbove?_eq_some_iff {s : Cells} {floor : Nat} {cell : Cell} :
    s.peekAbove? floor = some cell ↔ floor < s.height ∧ s.toList.getLast? = some cell := by
  unfold peekAbove?
  by_cases above : floor < s.height
  · simp [above, toList]
  · simp [above]

theorem peekAbove?_of_lt {s : Cells} {floor : Nat} (high : floor < s.height) :
    ∃ cell, s.peekAbove? floor = some cell := by
  have filled : s.toList ≠ [] := List.ne_nil_of_length_pos (by rw [length_toList]; omega)
  exact ⟨_, peekAbove?_eq_some_iff.mpr ⟨high, List.getLast?_eq_some_getLast filled⟩⟩

theorem popAbove?_of_lt {s : Cells} {floor : Nat} (high : floor < s.height) :
    ∃ cell t, s.popAbove? floor = some (cell, t) := by
  obtain ⟨cell, top⟩ := peekAbove?_of_lt high
  exact ⟨cell, _, by rw [popAbove?, top]⟩

theorem eq_empty_of_height {s : Cells} (none : s.height = 0) : s = empty := by
  rw [← length_toList] at none
  exact ext_toList (List.eq_nil_of_length_eq_zero none)

theorem set?_eq_some_iff {s t : Cells} {pos : Nat} {cell : Cell} :
    s.set? pos cell = some t ↔ pos < s.height ∧ t.toList = s.toList.set pos cell := by
  obtain ⟨xs⟩ := s
  obtain ⟨ys⟩ := t
  unfold set?
  by_cases inside : pos < xs.size
  · simp [inside, height, toList, ← Array.toList_inj, eq_comm]
  · simp [inside, height]

theorem height_of_unwind? {s t : Cells} {height keep : Nat}
    (unwound : s.unwind? height keep = some t) : t.height = height + keep := by
  obtain ⟨enough, cells⟩ := unwind?_eq_some_iff.mp unwound
  have lengths := congrArg List.length cells
  simp only [List.length_append, List.length_take, List.length_drop] at lengths
  have hs : s.toArray.toList.length = s.height := length_toList s
  have ht : t.toArray.toList.length = t.height := length_toList t
  omega

/-- Unwinding succeeds when the parts that are kept do not overlap. -/
theorem unwind?_of_le {s : Cells} {height keep : Nat} (enough : height + keep ≤ s.height) :
    ∃ t, s.unwind? height keep = some t := by
  rw [unwind?, if_pos enough]
  exact ⟨_, rfl⟩

/-- Unwinding takes out the middle of three parts. -/
theorem unwind?_ofList {height keep : Nat} {xs ys zs : List Cell} (low : xs.length = height)
    (top : zs.length = keep) :
    (ofList (xs ++ ys ++ zs)).unwind? height keep = some (ofList (xs ++ zs)) := by
  have tall : (ofList (xs ++ ys ++ zs)).height = xs.length + ys.length + zs.length := by
    rw [← length_toList, toList_ofList]
    simp only [List.length_append]
  refine unwind?_eq_some_iff.mpr ⟨by omega, ?_⟩
  have lower : (xs ++ ys ++ zs).take height = xs := by
    rw [List.append_assoc, ← low, List.take_left]
  have upper : (xs ++ ys ++ zs).drop ((ofList (xs ++ ys ++ zs)).height - keep) = zs := by
    rw [tall, ← top, Nat.add_sub_cancel, ← List.length_append, List.drop_left]
  rw [show (ofList (xs ++ ys ++ zs)).toArray.toList = xs ++ ys ++ zs from toList_ofList _, lower,
    upper]
  exact toList_ofList _

/-! ### Stacks with the same lowest cells -/

/-- The lowest `n` cells of two stacks are the same. -/
def Agree (n : Nat) (s t : Cells) : Prop :=
  s.toList.take n = t.toList.take n

namespace Agree

variable {n m : Nat} {s t u : Cells}

theorem refl (n : Nat) (s : Cells) : Agree n s s := rfl

theorem symm (same : Agree n s t) : Agree n t s := Eq.symm same

theorem trans (first : Agree n s t) (second : Agree n t u) : Agree n s u :=
  Eq.trans first second

theorem mono (le : m ≤ n) (same : Agree n s t) : Agree m s t := by
  have cut := congrArg (List.take m) same
  rwa [List.take_take, List.take_take, Nat.min_eq_left le] at cut

/-- What is put on top of `n` cells is not among the lowest `n`. -/
theorem of_append {above : List Cell} (le : n ≤ s.height) (grown : t.toList = s.toList ++ above) :
    Agree n s t := by
  unfold Agree
  rw [grown, List.take_append_of_le_length (by simpa using le)]

theorem of_set? {pos : Nat} {cell : Cell} (le : n ≤ pos) (written : s.set? pos cell = some t) :
    Agree n s t := by
  obtain ⟨-, cells⟩ := set?_eq_some_iff.mp written
  unfold Agree
  rw [cells, List.take_set_of_le le]

theorem of_unwind? {height keep : Nat} (le : n ≤ height)
    (unwound : s.unwind? height keep = some t) : Agree n s t := by
  obtain ⟨enough, cells⟩ := unwind?_eq_some_iff.mp unwound
  have long : n ≤ (s.toList.take height).length := by
    simp only [List.length_take, length_toList]
    omega
  have kept : t.toList.take n = (s.toList.take height).take n := by
    change t.toArray.toList.take n = _
    rw [cells]
    exact List.take_append_of_le_length long
  rw [Agree, kept, List.take_take, Nat.min_eq_left le]

end Agree

end Cells

/-! ### Work inside an activation -/

namespace Frame

variable {frame : Frame} {s t u : Cells} {cell : Cell}

/-- An operand comes off exactly when it is above the floor, and putting it back undoes it. -/
theorem pop_eq_ok_iff :
    frame.pop s = .ok (cell, t) ↔ frame.operandBase < s.height ∧ s = t.push cell := by
  rw [← Cells.popAbove?_eq_some_iff]
  unfold pop
  cases s.popAbove? frame.operandBase with
  | none => simp
  | some result => simp

/-- What work inside an activation has in common: the stack stays at or above the operands' floor,
and the cells below the locals stay as they are. -/
structure Keeps (frame : Frame) (s t : Cells) : Prop where
  floor : frame.operandBase ≤ t.height
  below : Cells.Agree frame.base s t

namespace Keeps

theorem refl (floor : frame.operandBase ≤ s.height) : Keeps frame s s :=
  ⟨floor, .refl _ _⟩

theorem trans (first : Keeps frame s t) (second : Keeps frame t u) : Keeps frame s u :=
  ⟨second.floor, first.below.trans second.below⟩

theorem of_pop (popped : frame.pop s = .ok (cell, t)) : Keeps frame s t := by
  obtain ⟨above, rfl⟩ := pop_eq_ok_iff.mp popped
  have floor : frame.operandBase ≤ t.height := by
    simp only [Cells.height_push] at above
    omega
  have base : frame.base ≤ t.height := by
    unfold operandBase at floor
    omega
  exact ⟨floor, (Cells.Agree.of_append base (Cells.toList_push t cell)).symm⟩

theorem push (floor : frame.operandBase ≤ s.height) (cell : Cell) :
    Keeps frame s (s.push cell) := by
  have base : frame.base ≤ s.height := by
    unfold operandBase at floor
    omega
  refine ⟨?_, .of_append base (Cells.toList_push s cell)⟩
  simp only [Cells.height_push]
  omega

theorem of_set? {index : Nat} (floor : frame.operandBase ≤ s.height)
    (written : s.set? (frame.base + index) cell = some t) : Keeps frame s t := by
  obtain ⟨-, cells⟩ := Cells.set?_eq_some_iff.mp written
  have same : t.height = s.height := by
    have lengths := congrArg List.length cells
    simpa using lengths
  exact ⟨by omega, .of_set? (by omega) written⟩

theorem of_unwind? {height keep : Nat} (floor : frame.operandBase ≤ height)
    (unwound : s.unwind? height keep = some t) : Keeps frame s t := by
  have tall := Cells.height_of_unwind? unwound
  have base : frame.base ≤ height := by
    unfold operandBase at floor
    omega
  exact ⟨by omega, .of_unwind? base unwound⟩

end Keeps

/-- The position of a local in range is counted from the base. -/
theorem local?_eq_some_iff {index pos : Nat} :
    frame.local? index = some pos ↔ index < frame.localCount ∧ frame.base + index = pos := by
  unfold local?
  by_cases inside : index < frame.localCount
  · simp [inside]
  · simp [inside]

end Frame

namespace Plain

variable {frame : Frame} {s t : Cells}

theorem locate_eq_ok_iff {index pos : Nat} :
    locate frame index = .ok pos ↔ index < frame.localCount ∧ frame.base + index = pos := by
  rw [← Frame.local?_eq_some_iff]
  unfold locate
  cases frame.local? index with
  | none => simp
  | some found => simp

theorem store_eq_ok_iff {pos : Nat} {cell : Cell} :
    store frame pos cell s = .ok t ↔ s.set? pos cell = some t := by
  unfold store
  cases s.set? pos cell with
  | none => simp
  | some written => simp

/-- The cells that a plain instruction makes out of others when it succeeds. -/
inductive Changes (frame : Frame) : Plain → Cells → Cells → Prop where
  | nop {s : Cells} : Changes frame .nop s s
  | drop {s t : Cells} {cell : Cell} (popped : frame.pop s = .ok (cell, t)) :
      Changes frame .drop s t
  | select {s first second third : Cells} {condition y x : Cell}
      (one : frame.pop s = .ok (condition, first)) (two : frame.pop first = .ok (y, second))
      (three : frame.pop second = .ok (x, third)) :
      Changes frame .select s (third.push (if Cell.isTrue condition then x else y))
  | localGet {s : Cells} {index : Nat} {cell : Cell} (inside : index < frame.localCount)
      (found : s.get? (frame.base + index) = some cell) :
      Changes frame (.localGet index) s (s.push cell)
  | localSet {s rest t : Cells} {index : Nat} {cell : Cell} (inside : index < frame.localCount)
      (popped : frame.pop s = .ok (cell, rest))
      (written : rest.set? (frame.base + index) cell = some t) :
      Changes frame (.localSet index) s t
  | localTee {s t : Cells} {index : Nat} {cell : Cell} (inside : index < frame.localCount)
      (top : s.peekAbove? frame.operandBase = some cell)
      (written : s.set? (frame.base + index) cell = some t) :
      Changes frame (.localTee index) s t
  | const {s : Cells} {value : Cell} : Changes frame (.const value) s (s.push value)
  | unary {s rest : Cells} {op : UnaryOp} {x : Cell} (popped : frame.pop s = .ok (x, rest)) :
      Changes frame (.numeric (.unary op)) s (rest.push (op.eval x))
  | binary {s first second : Cells} {op : BinaryOp} {y x result : Cell}
      (one : frame.pop s = .ok (y, first)) (two : frame.pop first = .ok (x, second))
      (value : op.eval x y = .ok result) :
      Changes frame (.numeric (.binary op)) s (second.push result)

theorem changes_of_exec {op : Plain} (run : op.exec frame s = .ok t) : Changes frame op s t := by
  cases op with
  | unreachable => cases run
  | nop =>
    cases run
    exact .nop
  | drop =>
    obtain ⟨⟨cell, rest⟩, popped, run⟩ := except_bind_eq_ok_iff.mp run
    cases run
    exact .drop popped
  | select =>
    obtain ⟨⟨condition, first⟩, one, run⟩ := except_bind_eq_ok_iff.mp run
    obtain ⟨⟨y, second⟩, two, run⟩ := except_bind_eq_ok_iff.mp run
    obtain ⟨⟨x, third⟩, three, run⟩ := except_bind_eq_ok_iff.mp run
    cases run
    exact .select one two three
  | localGet index =>
    obtain ⟨pos, located, run⟩ := except_bind_eq_ok_iff.mp run
    obtain ⟨inside, rfl⟩ := locate_eq_ok_iff.mp located
    cases found : s.get? (frame.base + index) with
    | none => simp [found] at run
    | some cell =>
      simp only [found] at run
      cases run
      exact .localGet inside found
  | localSet index =>
    obtain ⟨pos, located, run⟩ := except_bind_eq_ok_iff.mp run
    obtain ⟨inside, rfl⟩ := locate_eq_ok_iff.mp located
    obtain ⟨⟨cell, rest⟩, popped, run⟩ := except_bind_eq_ok_iff.mp run
    exact .localSet inside popped (store_eq_ok_iff.mp run)
  | localTee index =>
    obtain ⟨pos, located, run⟩ := except_bind_eq_ok_iff.mp run
    obtain ⟨inside, rfl⟩ := locate_eq_ok_iff.mp located
    cases top : s.peekAbove? frame.operandBase with
    | none => simp [top] at run
    | some cell =>
      simp only [top] at run
      exact .localTee inside top (store_eq_ok_iff.mp run)
  | const value =>
    cases run
    exact .const
  | numeric op =>
    cases op with
    | unary op =>
      obtain ⟨⟨x, rest⟩, popped, run⟩ := except_bind_eq_ok_iff.mp run
      cases run
      exact .unary popped
    | binary op =>
      obtain ⟨⟨y, first⟩, one, run⟩ := except_bind_eq_ok_iff.mp run
      obtain ⟨⟨x, second⟩, two, run⟩ := except_bind_eq_ok_iff.mp run
      cases value : op.eval x y with
      | error trap => simp [value] at run
      | ok result =>
        simp only [value] at run
        cases run
        exact .binary one two value

/-- A plain instruction that succeeds stays above the floor and touches nothing below the locals. -/
theorem keeps_of_exec {op : Plain} (floor : frame.operandBase ≤ s.height)
    (run : op.exec frame s = .ok t) : frame.Keeps s t := by
  cases changes_of_exec run with
  | nop => exact .refl floor
  | drop popped => exact .of_pop popped
  | select one two three =>
    have kept := ((Frame.Keeps.of_pop one).trans (.of_pop two)).trans (.of_pop three)
    exact kept.trans (.push kept.floor _)
  | localGet _ _ => exact .push floor _
  | localSet _ popped written =>
    have kept := Frame.Keeps.of_pop popped
    exact kept.trans (.of_set? kept.floor written)
  | localTee _ _ written => exact .of_set? floor written
  | const => exact .push floor _
  | unary popped =>
    have kept := Frame.Keeps.of_pop popped
    exact kept.trans (.push kept.floor _)
  | binary one two _ =>
    have kept := (Frame.Keeps.of_pop one).trans (.of_pop two)
    exact kept.trans (.push kept.floor _)

/-! ### Access to locals in range -/

/-- A stack that reaches the operands' floor has a cell for every local. -/
theorem local_lt_height {index : Nat} (floor : frame.operandBase ≤ s.height)
    (inside : index < frame.localCount) : frame.base + index < s.height := by
  unfold Frame.operandBase at floor
  omega

theorem exec_localGet {index : Nat} (floor : frame.operandBase ≤ s.height)
    (inside : index < frame.localCount) :
    ∃ cell, s.toList[frame.base + index]? = some cell ∧
      exec frame (.localGet index) s = .ok (s.push cell) := by
  have bound : frame.base + index < s.toList.length := by
    simpa using local_lt_height floor inside
  refine ⟨s.toList[frame.base + index], List.getElem?_eq_getElem bound, ?_⟩
  refine except_bind_eq_ok_iff.mpr ⟨_, locate_eq_ok_iff.mpr ⟨inside, rfl⟩, ?_⟩
  rw [Cells.get?_eq, List.getElem?_eq_getElem bound]
  rfl

theorem exec_localSet {index : Nat} {cell : Cell} {rest : Cells}
    (inside : index < frame.localCount) (popped : frame.pop s = .ok (cell, rest)) :
    ∃ t, t.toList = rest.toList.set (frame.base + index) cell ∧
      exec frame (.localSet index) s = .ok t := by
  have bound := local_lt_height (Frame.Keeps.of_pop popped).floor inside
  have written : ∃ t, rest.set? (frame.base + index) cell = some t := by
    rw [Cells.set?, dif_pos (show frame.base + index < rest.toArray.size from bound)]
    exact ⟨_, rfl⟩
  obtain ⟨t, written⟩ := written
  refine ⟨t, (Cells.set?_eq_some_iff.mp written).2, ?_⟩
  refine except_bind_eq_ok_iff.mpr ⟨_, locate_eq_ok_iff.mpr ⟨inside, rfl⟩, ?_⟩
  exact except_bind_eq_ok_iff.mpr ⟨_, popped, store_eq_ok_iff.mpr written⟩

theorem exec_localTee {index : Nat} {cell : Cell} (inside : index < frame.localCount)
    (top : s.peekAbove? frame.operandBase = some cell) :
    ∃ t, t.toList = s.toList.set (frame.base + index) cell ∧
      exec frame (.localTee index) s = .ok t := by
  have above := (Cells.peekAbove?_eq_some_iff.mp top).1
  have bound := local_lt_height (Nat.le_of_lt above) inside
  have written : ∃ t, s.set? (frame.base + index) cell = some t := by
    rw [Cells.set?, dif_pos (show frame.base + index < s.toArray.size from bound)]
    exact ⟨_, rfl⟩
  obtain ⟨t, written⟩ := written
  refine ⟨t, (Cells.set?_eq_some_iff.mp written).2, ?_⟩
  refine except_bind_eq_ok_iff.mpr ⟨_, locate_eq_ok_iff.mpr ⟨inside, rfl⟩, ?_⟩
  rw [top]
  exact store_eq_ok_iff.mpr written

end Plain

end Wasm
