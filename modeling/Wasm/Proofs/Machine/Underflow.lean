import Wasm.Proofs.Machine.Effect
import Wasm.Proofs.Machine.Heights

/-!
What happens to an instruction that finds too few operands.

`Instr.takes` is how many cells an instruction takes from above the floor of its activation. When
fewer are there it fails, and `Frame.Starves` says how: with an underflow, or in a way that no
operands put beneath those that are there would mend, such as a local that does not exist.

* `Plain.starves`, `State.enter_of_few`, `State.starves_exec`: every instruction fails so;
* `State.closeLabel_of_low`, `State.branch_of_low`: a block whose results are not there, above the
  height at which it was entered, is not left either.
-/

namespace Wasm

/-- The stack with further cells put in at a height. -/
def Cells.insertAt (s : Cells) (height : Nat) (extra : List Cell) : Cells :=
  .ofList (s.toList.take height ++ extra ++ s.toList.drop height)

@[simp] theorem Cells.insertAt_nil (s : Cells) (height : Nat) : s.insertAt height [] = s := by
  apply ext_toList
  rw [insertAt, toList_ofList, List.append_nil, List.take_append_drop]

/-- What is on top stays on top of what is put in below it. -/
theorem Cells.insertAt_push {s : Cells} {height : Nat} (low : height ≤ s.height) (cell : Cell)
    (extra : List Cell) :
    (s.push cell).insertAt height extra = (s.insertAt height extra).push cell := by
  have inside : height ≤ s.toList.length := by simpa using low
  apply ext_toList
  simp only [insertAt, toList_ofList, toList_push, List.take_append_of_le_length inside,
    List.drop_append_of_le_length inside, List.append_assoc]

theorem Cells.height_insertAt (s : Cells) (height : Nat) (extra : List Cell) :
    (s.insertAt height extra).height = s.height + extra.length := by
  rw [← length_toList, insertAt, toList_ofList]
  simp only [List.length_append, List.length_take, List.length_drop, length_toList]
  omega

namespace Frame

variable {α β : Type} {frame : Frame} {s : Cells}

/-- Work on the cells of an activation fails for want of operands, or in a way that does not depend
on what lies beneath those that are there. -/
def Starves (frame : Frame) (s : Cells) (work : Cells → Except Error α) : Prop :=
  work s = .error (.stackUnderflow frame.func) ∨
    ∃ e, ∀ extra, work (s.insertAt frame.operandBase extra) = .error e

theorem Starves.exists_error {work : Cells → Except Error α} (starves : frame.Starves s work) :
    ∃ e, work s = .error e := by
  rcases starves with underflow | ⟨e, fails⟩
  · exact ⟨_, underflow⟩
  · refine ⟨e, ?_⟩
    have alone := fails []
    rwa [Cells.insertAt_nil] at alone

theorem pop_of_le (low : s.height ≤ frame.operandBase) :
    frame.pop s = .error (.stackUnderflow frame.func) := by
  rw [pop, Cells.popAbove?, Cells.peekAbove?, if_neg (Nat.not_lt.mpr low)]

theorem pop_bind_of_le (low : s.height ≤ frame.operandBase)
    (next : Cell × Cells → Except Error α) :
    (frame.pop s >>= next) = .error (.stackUnderflow frame.func) := by
  rw [pop_of_le low]
  rfl

/-- Work that takes an operand and then, with `count` more to take, underflows. -/
theorem pop_bind_of_few (count : Nat) {next : Cell × Cells → Except Error α}
    (few : s.height < frame.operandBase + (count + 1))
    (rest : ∀ cell t, t.height < frame.operandBase + count →
      next (cell, t) = .error (.stackUnderflow frame.func)) :
    (frame.pop s >>= next) = .error (.stackUnderflow frame.func) := by
  by_cases low : s.height ≤ frame.operandBase
  · exact pop_bind_of_le low next
  · obtain ⟨cell, t, popped⟩ := pop_of_lt (Nat.lt_of_not_le low)
    have one := (height_of_pop popped).2
    rw [popped]
    exact rest cell t (by omega)

end Frame

/-! ### Plain instructions -/

namespace Plain

variable {frame : Frame} {s : Cells}

theorem locate_cases (frame : Frame) (index : Nat) :
    (∃ pos, locate frame index = .ok pos) ∨
      locate frame index = .error (.unknownLocal frame.func index) := by
  unfold locate
  cases frame.local? index with
  | none => exact .inr rfl
  | some pos => exact .inl ⟨pos, rfl⟩

/-- An instruction that first looks for its local fails without it whatever the cells are. -/
theorem starves_of_local {index : Nat} {work : Nat → Cells → Except Error Cells}
    (underflow : ∀ pos, work pos s = .error (.stackUnderflow frame.func)) :
    frame.Starves s fun s => locate frame index >>= fun pos => work pos s := by
  rcases locate_cases frame index with ⟨pos, located⟩ | missing
  · left
    rw [located]
    exact underflow pos
  · right
    refine ⟨.unknownLocal frame.func index, ?_⟩
    intro extra
    rw [missing]
    rfl

/-- A plain instruction without its operands fails. -/
theorem starves {op : Plain} (floor : frame.operandBase ≤ s.height)
    (few : s.height < frame.operandBase + op.pops) : frame.Starves s (op.exec frame) := by
  cases op with
  | unreachable | nop | localGet index | const value =>
    change s.height < frame.operandBase + 0 at few
    omega
  | drop => exact .inl (Frame.pop_bind_of_le (Nat.le_of_lt_succ few) _)
  | select =>
    refine .inl (Frame.pop_bind_of_few 2 few fun _ t few => ?_)
    refine Frame.pop_bind_of_few 1 few fun _ t few => ?_
    exact Frame.pop_bind_of_le (Nat.le_of_lt_succ few) _
  | localSet index =>
    refine starves_of_local fun pos => ?_
    exact Frame.pop_bind_of_le (Nat.le_of_lt_succ few) _
  | localTee index =>
    refine starves_of_local fun pos => ?_
    rw [Cells.peekAbove?, if_neg (Nat.not_lt.mpr (Nat.le_of_lt_succ few))]
    rfl
  | numeric op =>
    cases op with
    | unary op => exact .inl (Frame.pop_bind_of_le (Nat.le_of_lt_succ few) _)
    | binary op =>
      refine .inl (Frame.pop_bind_of_few 1 few fun _ t few => ?_)
      exact Frame.pop_bind_of_le (Nat.le_of_lt_succ few) _

end Plain

/-! ### All instructions -/

/-- How many cells an instruction takes: its operands, and the arguments of a function that it
calls. What a branch or an `end` carries out of a block is not counted. -/
def Instr.takes (m : Module) : Instr → Nat
  | .plain op => op.pops
  | .ifThen _ | .brIf _ | .brTable _ _ => 1
  | .call func => ((m.funcType? func).map (·.params.length)).getD 0
  | .callIndirect type _ => (m.types[type]?.map (·.params.length)).getD 0 + 1
  | .block _ | .loop _ | .elseArm | .endBlock | .br _ | .ret => 0

/-- A function that a table slot gives has the expected type. -/
theorem Module.funcType?_of_tableFunc {m : Module} {expected : FuncType} {index func : Nat}
    (found : m.tableFunc expected index = .ok func) : m.funcType? func = some expected := by
  unfold tableFunc at found
  split at found
  · cases found
  · cases found
  · split at found
    · cases found
    · rename_i actual declared
      split at found
      · rename_i same
        cases found
        rw [declared, same]
      · cases found

namespace State

variable {m : Module} {config : Config} {frame : Frame} {cells : Cells} {frames : List Frame}
  {labels : List Label} {fetched : Fetched} {targets : Nat → Except DecodeError BlockTargets}

theorem pop_of_le (low : cells.height ≤ frame.operandBase) :
    (⟨cells, frames, labels⟩ : State).pop frame = .error (.stackUnderflow frame.func) := by
  simp only [pop, Frame.pop_of_le low]

/-- A call without its arguments fails for want of them, or in a way that does not depend on the
cells. -/
theorem enter_of_few {func : Nat} {type : FuncType} (frames : List Frame)
    (declared : m.funcType? func = some type)
    (few : cells.height < floor frames + type.params.length) :
    (⟨cells, frames, labels⟩ : State).enter m config func =
        .error (.stackUnderflow (culprit func frames)) ∨
      ∃ e, ∀ cells', (⟨cells', frames, labels⟩ : State).enter m config func = .error e := by
  obtain ⟨callee, known, typed⟩ := Option.bind_eq_some_iff.mp declared
  simp only [enter_known known typed]
  by_cases many : 1 < type.results.length
  · exact .inr ⟨_, fun _ => if_pos many⟩
  simp only [if_neg many]
  by_cases deep : config.maxCallDepth ≤ frames.length
  · exact .inr ⟨_, fun _ => if_pos deep⟩
  simp only [if_neg deep]
  exact .inl (if_pos few)

/-- An instruction without its operands fails. -/
theorem starves_exec (floor : frame.operandBase ≤ cells.height)
    (few : cells.height < frame.operandBase + fetched.instr.takes m) :
    frame.Starves cells fun cells =>
      (⟨cells, frame :: frames, labels⟩ : State).exec m config targets frame fetched := by
  cases instr : fetched.instr with
  | plain op =>
    rw [instr] at few
    simp only [exec, execM, instr, Id.run_pure]
    rcases Plain.starves floor few with underflow | ⟨e, fails⟩
    · exact .inl (by simp only [underflow])
    · exact .inr ⟨e, fun extra => by simp only [fails extra]⟩
  | ifThen type =>
    rw [instr] at few
    simp only [exec, execM, instr, pure_bind, Id.run_pure]
    cases targets fetched.next with
    | error e => exact .inr ⟨_, fun _ => rfl⟩
    | ok found => exact .inl (by simp only [pop_of_le (Nat.le_of_lt_succ few)])
  | brIf depth =>
    rw [instr] at few
    simp only [exec, execM, instr, Id.run_pure]
    exact .inl (by simp only [pop_of_le (Nat.le_of_lt_succ few)])
  | brTable depths default =>
    rw [instr] at few
    simp only [exec, execM, instr, Id.run_pure]
    exact .inl (by simp only [pop_of_le (Nat.le_of_lt_succ few)])
  | call func =>
    rw [instr] at few
    simp only [exec, execM, instr, Id.run_pure, jump]
    cases declared : m.funcType? func with
    | none =>
      simp only [Instr.takes, declared, Option.map_none, Option.getD_none] at few
      omega
    | some type =>
      simp only [Instr.takes, declared, Option.map_some, Option.getD_some] at few
      rcases enter_of_few ({ frame with ip := fetched.next } :: frames) declared few with
        underflow | ⟨e, fails⟩
      · exact .inl underflow
      · exact .inr ⟨e, fun extra => fails _⟩
  | callIndirect type table =>
    rw [instr] at few
    simp only [exec, execM, instr, Id.run_pure, jump]
    split
    · exact .inr ⟨_, fun _ => rfl⟩
    cases known : m.types[type]? with
    | none => exact .inr ⟨_, fun _ => rfl⟩
    | some expected =>
      simp only [Instr.takes, known, Option.map_some, Option.getD_some] at few
      by_cases low : cells.height ≤ frame.operandBase
      · exact .inl (by simp only [pop_of_le low])
      obtain ⟨index, rest, popped⟩ := Frame.pop_of_lt (Nat.lt_of_not_le low)
      obtain ⟨above, one⟩ := Frame.height_of_pop popped
      -- The index is on top, whatever is put in at the floor.
      have stays : ∀ extra, frame.pop (cells.insertAt frame.operandBase extra) =
          .ok (index, rest.insertAt frame.operandBase extra) := by
        intro extra
        obtain ⟨-, rfl⟩ := Frame.pop_eq_ok_iff.mp popped
        refine Frame.pop_eq_ok_iff.mpr ⟨?_, Cells.insertAt_push above index extra⟩
        rw [Cells.height_insertAt]
        omega
      cases slot : m.tableFunc expected (Cell.index index) with
      | error e => exact .inr ⟨e, fun extra => by simp only [pop, stays extra, slot]⟩
      | ok func =>
        have declared := Module.funcType?_of_tableFunc slot
        have missing : rest.height < frame.operandBase + expected.params.length := by omega
        rcases enter_of_few ({ frame with ip := fetched.next } :: frames) declared missing with
          underflow | ⟨e, fails⟩
        · exact .inl (by simp only [pop, popped, slot]; exact underflow)
        · exact .inr ⟨e, fun extra => by simp only [pop, stays extra, slot, fails]⟩
  | block type | loop type | elseArm | endBlock | br depth | ret =>
    rw [instr] at few
    change cells.height < frame.operandBase + 0 at few
    omega

/-! ### Leaving blocks -/

variable {own rest : List Label}

/-- A block whose results are not there does not end. -/
theorem closeLabel_of_low {label : Label} (base : frame.labelBase = rest.length)
    (low : cells.height < label.height + label.resultCount) (next : Nat) :
    (⟨cells, frame :: frames, label :: (own ++ rest)⟩ : State).closeLabel frame next =
      .error (.stackUnderflow frame.func) := by
  have some : (⟨cells, frame :: frames, label :: (own ++ rest)⟩ : State).openCount frame ≠ 0 := by
    simp only [openCount, base, List.length_cons, List.length_append]
    omega
  rw [closeLabel, if_neg some]
  simp only [Cells.unwind?, if_neg (Nat.not_le.mpr low)]

/-- A branch does not reach a label when what it carries is not there above the label's height. -/
theorem branch_of_low {depth : Nat} {label : Label} {outer : List Label}
    (base : frame.labelBase = rest.length) (target : own.drop depth = label :: outer)
    (low : cells.height < label.height + label.arity) :
    (⟨cells, frame :: frames, own ++ rest⟩ : State).branch frame depth =
      .error (.stackUnderflow frame.func) := by
  have inside : depth < own.length := by
    apply Nat.lt_of_not_le
    intro outside
    rw [List.drop_eq_nil_of_le outside] at target
    cases target
  have whole : (own ++ rest).drop depth = label :: (outer ++ rest) := by
    rw [List.drop_append_of_le_length (Nat.le_of_lt inside), target, List.cons_append]
  rw [branch, openCount_eq base, if_neg (Nat.ne_of_lt inside),
    if_neg (Nat.not_lt.mpr (Nat.le_of_lt inside))]
  simp only [whole, Cells.unwind?, if_neg (Nat.not_le.mpr low)]

end State

end Wasm
