import Wasm.Proofs.Machine.Effect
import Wasm.Proofs.Machine.Heights

/-!
States on top of a context.

A function runs on top of whatever its callers have left on the stacks, and finds its own part by
heights that are counted from the bottom. `State.above context s` is the state `s` with a context
put below it: the cells, activations and labels of the context at the bottom, and all heights of `s`
raised by as much.

What an instruction does to its own activation commutes with raising: `Plain.exec_above` for the
cells, `State.leave_above`, `State.branch_above` and `State.closeLabel_above` for control. Events
are left aside, since they count activations from the bottom.
-/

namespace Wasm

/-! ### Cells below -/

namespace Cells

/-- A stack on top of another. -/
def above (low s : Cells) : Cells := ⟨low.toArray ++ s.toArray⟩

variable {low s t : Cells} {cell : Cell}

@[simp] theorem toList_above (low s : Cells) : (low.above s).toList = low.toList ++ s.toList := by
  simp [above, toList]

@[simp] theorem height_above (low s : Cells) : (low.above s).height = low.height + s.height := by
  simp [above, height]

theorem push_above (low s : Cells) (cell : Cell) :
    (low.above s).push cell = low.above (s.push cell) := by
  apply ext_toList
  simp

theorem pushZeros_above (low s : Cells) (count : Nat) :
    (low.above s).pushZeros count = low.above (s.pushZeros count) := by
  apply ext_toList
  simp

theorem peekAbove?_above (low s : Cells) (floor : Nat) :
    (low.above s).peekAbove? (low.height + floor) = s.peekAbove? floor := by
  by_cases high : floor < s.height
  · obtain ⟨cell, top⟩ := peekAbove?_of_lt high
    obtain ⟨-, last⟩ := peekAbove?_eq_some_iff.mp top
    rw [top]
    refine peekAbove?_eq_some_iff.mpr ⟨by simpa using high, ?_⟩
    rw [toList_above, List.getLast?_append, last, Option.some_or]
  · simp [peekAbove?, high]

theorem get?_above (low s : Cells) (pos : Nat) :
    (low.above s).get? (low.height + pos) = s.get? pos := by
  rw [get?_eq, get?_eq, toList_above, List.getElem?_append_right (by simp)]
  simp

theorem set?_above (low s : Cells) (pos : Nat) (cell : Cell) :
    (low.above s).set? (low.height + pos) cell = (s.set? pos cell).map low.above := by
  cases written : s.set? pos cell with
  | some t =>
    obtain ⟨inside, cells⟩ := set?_eq_some_iff.mp written
    refine set?_eq_some_iff.mpr ⟨by simpa using inside, ?_⟩
    rw [toList_above, toList_above, cells, List.set_append_right _ _ (by simp)]
    simp
  | none =>
    have outside : ¬ pos < s.toArray.size := by
      intro inside
      simp [set?, inside] at written
    have beyond : ¬ low.height + pos < (low.above s).toArray.size := by
      change ¬ low.height + pos < (low.above s).height
      rw [height_above]
      change ¬ low.height + pos < low.height + s.toArray.size
      omega
    rw [set?, dif_neg beyond]
    rfl

theorem unwind?_above (low s : Cells) (height keep : Nat) :
    (low.above s).unwind? (low.height + height) keep = (s.unwind? height keep).map low.above := by
  cases unwound : s.unwind? height keep with
  | some t =>
    obtain ⟨enough, cells⟩ := unwind?_eq_some_iff.mp unwound
    refine unwind?_eq_some_iff.mpr ⟨by rw [height_above]; omega, ?_⟩
    change (low.above t).toList = (low.above s).toList.take _ ++ (low.above s).toList.drop _
    have taken : (low.toList ++ s.toList).take (low.height + height) =
        low.toList ++ s.toList.take height := by
      rw [← length_toList low, List.take_length_add_append]
    have dropped : (low.toList ++ s.toList).drop (low.height + s.height - keep) =
        s.toList.drop (s.height - keep) := by
      rw [← length_toList low, show low.toList.length + s.height - keep =
        low.toList.length + (s.height - keep) by omega, List.drop_length_add_append]
    rw [toList_above, toList_above, height_above, taken, dropped, List.append_assoc]
    exact congrArg (low.toList ++ ·) cells
  | none =>
    have short : ¬ height + keep ≤ s.height := by
      intro enough
      obtain ⟨t, found⟩ := unwind?_of_le enough
      rw [found] at unwound
      cases unwound
    rw [unwind?, if_neg (by rw [height_above]; omega)]
    rfl

end Cells

/-! ### Activations, labels and states above a context -/

/-- An activation whose part of the stacks starts where those of the context end. -/
def Frame.above (context : State) (frame : Frame) : Frame :=
  { frame with
    base := context.cells.height + frame.base
    labelBase := context.labels.length + frame.labelBase }

/-- A label whose height is counted from the top of the context. -/
def Label.above (context : State) (label : Label) : Label :=
  { label with height := context.cells.height + label.height }

/-- A state on top of a context. -/
def State.above (context s : State) : State :=
  ⟨context.cells.above s.cells, s.frames.map (.above context) ++ context.frames,
    s.labels.map (.above context) ++ context.labels⟩

variable {context : State}

@[simp] theorem Frame.operandBase_above (context : State) (frame : Frame) :
    (frame.above context).operandBase = context.cells.height + frame.operandBase :=
  Nat.add_assoc ..

theorem Frame.pop_above (context : State) (frame : Frame) (s : Cells) :
    (frame.above context).pop (context.cells.above s) =
      (frame.pop s).map fun (cell, t) => (cell, context.cells.above t) := by
  cases popped : frame.pop s with
  | ok result =>
    obtain ⟨cell, t⟩ := result
    obtain ⟨high, rfl⟩ := pop_eq_ok_iff.mp popped
    refine pop_eq_ok_iff.mpr ⟨?_, (Cells.push_above _ _ _).symm⟩
    rw [operandBase_above, Cells.height_above]
    omega
  | error e =>
    have low : ¬ frame.operandBase < s.height := by
      intro high
      obtain ⟨cell, t, found⟩ := pop_of_lt high
      rw [found] at popped
      cases popped
    have blamed : e = .stackUnderflow frame.func := by
      unfold pop at popped
      split at popped
      · cases popped
      · cases popped
        rfl
    have missing : (context.cells.above s).popAbove? (frame.above context).operandBase = none := by
      rw [operandBase_above, Cells.popAbove?, Cells.peekAbove?_above]
      simp [Cells.peekAbove?, low]
    simp only [pop, missing, blamed]
    rfl

/-- What goes on with an operand goes on with it above a context. -/
theorem Frame.pop_bind_above {frame : Frame} {s : Cells} {k k' : Cell × Cells → Except Error Cells}
    (goes : ∀ cell t, k' (cell, context.cells.above t) = (k (cell, t)).map context.cells.above) :
    ((frame.above context).pop (context.cells.above s) >>= k') =
      (frame.pop s >>= k).map context.cells.above := by
  rw [pop_above]
  cases frame.pop s with
  | error e => rfl
  | ok popped => exact goes popped.1 popped.2

/-! ### Plain instructions -/

namespace Plain

variable {frame : Frame} {s : Cells}

theorem locate_above (context : State) (frame : Frame) (index : Nat) :
    locate (frame.above context) index =
      (locate frame index).map (context.cells.height + ·) := by
  unfold locate Frame.local?
  by_cases inside : index < frame.localCount
  · have raised : index < (frame.above context).localCount := inside
    simp only [inside, raised, if_true, Except.map, Except.ok.injEq]
    exact Nat.add_assoc ..
  · have raised : ¬ index < (frame.above context).localCount := inside
    simp only [inside, raised, if_false]
    rfl

theorem store_above (context : State) (frame : Frame) (pos : Nat) (cell : Cell) (s : Cells) :
    store (frame.above context) (context.cells.height + pos) cell (context.cells.above s) =
      (store frame pos cell s).map context.cells.above := by
  unfold store
  rw [Cells.set?_above]
  cases s.set? pos cell with
  | some t => rfl
  | none => rfl

/-- A plain instruction does to the cells above a context what it does without it. -/
theorem exec_above (context : State) (frame : Frame) (op : Plain) (s : Cells) :
    op.exec (frame.above context) (context.cells.above s) =
      (op.exec frame s).map context.cells.above := by
  cases op with
  | unreachable => rfl
  | nop => rfl
  | drop => exact Frame.pop_bind_above fun _ _ => rfl
  | select =>
    refine Frame.pop_bind_above fun condition first => ?_
    refine Frame.pop_bind_above fun y second => ?_
    exact Frame.pop_bind_above fun x third => congrArg Except.ok (Cells.push_above _ _ _)
  | localGet index =>
    simp only [exec, locate_above]
    cases locate frame index with
    | error e => rfl
    | ok pos =>
      simp only [bind, Except.bind, Except.map, Cells.get?_above]
      cases s.get? pos with
      | none => rfl
      | some cell => exact congrArg Except.ok (Cells.push_above _ _ _)
  | localSet index =>
    simp only [exec, locate_above]
    cases locate frame index with
    | error e => rfl
    | ok pos => exact Frame.pop_bind_above fun cell t => store_above context frame pos cell t
  | localTee index =>
    simp only [exec, locate_above]
    cases locate frame index with
    | error e => rfl
    | ok pos =>
      simp only [bind, Except.bind, Except.map, Frame.operandBase_above, Cells.peekAbove?_above]
      cases s.peekAbove? frame.operandBase with
      | none => rfl
      | some cell => exact store_above context frame pos cell s
  | const value => exact congrArg Except.ok (Cells.push_above _ _ _)
  | numeric op =>
    cases op with
    | unary op =>
      exact Frame.pop_bind_above fun x t => congrArg Except.ok (Cells.push_above _ _ _)
    | binary op =>
      refine Frame.pop_bind_above fun y first => ?_
      refine Frame.pop_bind_above fun x second => ?_
      simp only
      cases op.eval x y with
      | error trap => rfl
      | ok result => exact congrArg Except.ok (Cells.push_above _ _ _)

end Plain

/-! ### Moving control -/

namespace State

variable {m : Module} {config : Config} {frame : Frame} {frames : List Frame} {cells : Cells}
  {labels : List Label}

theorem above_mk : context.above ⟨cells, frame :: frames, labels⟩ =
    ⟨context.cells.above cells,
      frame.above context :: (frames.map (.above context) ++ context.frames),
      labels.map (.above context) ++ context.labels⟩ :=
  rfl

theorem pop_above (s : State) (frame : Frame) :
    (context.above s).pop (frame.above context) =
      (s.pop frame).map fun (cell, t) => (cell, context.above t) := by
  obtain ⟨cells, frames, labels⟩ := s
  simp only [above, pop, Frame.pop_above]
  cases frame.pop cells with
  | error e => rfl
  | ok popped => rfl

theorem openLabel_above (s : State) (kind : LabelKind) (resultCount target : Nat) :
    (context.above s).openLabel kind resultCount target =
      context.above (s.openLabel kind resultCount target) := by
  simp only [above, openLabel, Cells.height_above]
  rfl

theorem openCount_above (s : State) (frame : Frame) :
    (context.above s).openCount (frame.above context) = s.openCount frame := by
  simp only [openCount, above, List.length_append, List.length_map, Frame.above]
  omega

/-- The state that is come to, above a context. -/
def raised (context : State) (result : Except Error Transition) : Except Error State :=
  result.map fun transition => context.above transition.1

theorem leave_above :
    (context.above ⟨cells, frame :: frames, labels⟩).leave.map Prod.fst =
      raised context (leave ⟨cells, frame :: frames, labels⟩) := by
  have short : (context.cells.above cells).height <
      (frame.above context).operandBase + (frame.above context).resultCount ↔
        cells.height < frame.operandBase + frame.resultCount := by
    rw [Cells.height_above, Frame.operandBase_above, Nat.add_assoc]
    exact Nat.add_lt_add_iff_left
  have own : labels.length + context.labels.length - (frame.above context).labelBase =
      labels.length - frame.labelBase := by
    change _ - (context.labels.length + frame.labelBase) = _
    omega
  have inside : labels.length - frame.labelBase ≤ (labels.map (Label.above context)).length := by
    rw [List.length_map]
    omega
  rw [above_mk]
  simp only [leave, short, List.length_append, List.length_map, own,
    List.drop_append_of_le_length inside, ← List.map_drop]
  split
  · rfl
  · have unwound : (context.cells.above cells).unwind? (frame.above context).base
        (frame.above context).resultCount =
          (cells.unwind? frame.base frame.resultCount).map context.cells.above :=
      Cells.unwind?_above ..
    rw [unwound]
    cases cells.unwind? frame.base frame.resultCount with
    | none => rfl
    | some kept => rfl

theorem branch_above (depth : Nat) :
    ((context.above ⟨cells, frame :: frames, labels⟩).branch (frame.above context) depth).map
        Prod.fst =
      raised context (branch ⟨cells, frame :: frames, labels⟩ frame depth) := by
  unfold branch
  rw [openCount_above]
  split
  · exact leave_above
  split
  · rfl
  · rename_i inner outside
    have inside : depth < labels.length := by
      simp only [openCount] at inner outside
      omega
    have dropped : (labels.map (Label.above context) ++ context.labels).drop depth =
        (labels.drop depth).map (.above context) ++ context.labels := by
      rw [List.drop_append_of_le_length (by rw [List.length_map]; omega), List.map_drop]
    rw [above_mk]
    simp only [dropped]
    cases target : labels.drop depth with
    | nil => exact absurd (List.drop_eq_nil_iff.mp target) (by omega)
    | cons label outer =>
      simp only [List.map_cons, List.cons_append]
      have unwound : (context.cells.above cells).unwind? (label.above context).height
          (label.above context).arity =
            (cells.unwind? label.height label.arity).map context.cells.above :=
        Cells.unwind?_above ..
      rw [unwound]
      cases cells.unwind? label.height label.arity with
      | none => rfl
      | some kept => rfl

theorem closeLabel_above (next : Nat) :
    ((context.above ⟨cells, frame :: frames, labels⟩).closeLabel (frame.above context) next).map
        Prod.fst =
      raised context (closeLabel ⟨cells, frame :: frames, labels⟩ frame next) := by
  unfold closeLabel
  rw [openCount_above]
  split
  · exact leave_above
  · rename_i inner
    cases labels with
    | nil => simp [openCount] at inner
    | cons label outer =>
      rw [above_mk]
      simp only [List.map_cons, List.cons_append]
      have unwound : (context.cells.above cells).unwind? (label.above context).height
          (label.above context).resultCount =
            (cells.unwind? label.height label.resultCount).map context.cells.above :=
        Cells.unwind?_above ..
      rw [unwound]
      cases cells.unwind? label.height label.resultCount with
      | none => rfl
      | some kept => rfl

end State

end Wasm
