import Wasm.Machine.Step
import Wasm.Proofs.Machine.Cells

/-!
What one step can do.

A state is looked at from its running activation: the cells, the frame, and the labels as
`own ++ rest`, where `own` are those that the activation has opened. An instruction that succeeds
does one of three things, and `State.effect_of_exec` says which:

* `Inner`: it changes cells, own labels and offset, and nothing else of the state;
* `Ends`: it leaves the activation, with the cells that are there after its operand is taken;
* `Calls`: it enters a function, likewise.

`State.exec_of_inner`, `State.exec_of_ends` and `State.exec_of_calls` are the converses. Proofs
about runs go through these cases and do not open `State.exec` again.
-/

namespace Wasm

/-- A branch that is taken: its depth, and the cells without its operand. -/
inductive Branches (frame : Frame) (cells : Cells) : Instr → Nat → Cells → Prop where
  | elseArm : Branches frame cells .elseArm 0 cells
  | br {depth} : Branches frame cells (.br depth) depth cells
  | brIf {depth condition cells'} (popped : frame.pop cells = .ok (condition, cells'))
      (taken : Cell.isTrue condition = true) : Branches frame cells (.brIf depth) depth cells'
  | brTable {depths default index cells'} (popped : frame.pop cells = .ok (index, cells')) :
      Branches frame cells (.brTable depths default)
        (depths[Cell.index index]?.getD default) cells'

/-- An instruction that stays in its activation: the own labels before it, then the cells, own
labels and offset after it. -/
inductive Inner (targets : Nat → Except DecodeError BlockTargets) (frame : Frame)
    (fetched : Fetched) (cells : Cells) : List Label → Cells → List Label → Nat → Prop where
  | plain {own op cells'} (instr : fetched.instr = .plain op)
      (run : op.exec frame cells = .ok cells') :
      Inner targets frame fetched cells own cells' own fetched.next
  | block {own type found} (instr : fetched.instr = .block type)
      (scanned : targets fetched.next = .ok found) :
      Inner targets frame fetched cells own cells
        (⟨.block, fetched.arity, cells.height, found.endAt⟩ :: own) fetched.next
  | loop {own type} (instr : fetched.instr = .loop type) :
      Inner targets frame fetched cells own cells
        (⟨.loop, fetched.arity, cells.height, frame.ip⟩ :: own) fetched.next
  | thenArm {own type found condition cells'} (instr : fetched.instr = .ifThen type)
      (scanned : targets fetched.next = .ok found)
      (popped : frame.pop cells = .ok (condition, cells'))
      (holds : Cell.isTrue condition = true) :
      Inner targets frame fetched cells own cells'
        (⟨.cond, fetched.arity, cells'.height, found.endAt⟩ :: own) fetched.next
  | elseArm {own type found condition cells' elseAt} (instr : fetched.instr = .ifThen type)
      (scanned : targets fetched.next = .ok found)
      (popped : frame.pop cells = .ok (condition, cells'))
      (fails : Cell.isTrue condition = false) (arm : found.elseAt = some elseAt) :
      Inner targets frame fetched cells own cells'
        (⟨.cond, fetched.arity, cells'.height, found.endAt⟩ :: own) (elseAt + 1)
  | noArm {own type found condition cells'} (instr : fetched.instr = .ifThen type)
      (scanned : targets fetched.next = .ok found)
      (popped : frame.pop cells = .ok (condition, cells'))
      (fails : Cell.isTrue condition = false) (arm : found.elseAt = none) :
      Inner targets frame fetched cells own cells' own (found.endAt + 1)
  | endBlock {label own cells'} (instr : fetched.instr = .endBlock)
      (unwound : cells.unwind? label.height label.resultCount = some cells') :
      Inner targets frame fetched cells (label :: own) cells' own fetched.next
  | branch {own depth popped label outer cells'}
      (jump : Branches frame cells fetched.instr depth popped)
      (target : own.drop depth = label :: outer)
      (unwound : popped.unwind? label.height label.arity = some cells') :
      Inner targets frame fetched cells own cells' outer label.continuation
  | pass {own depth condition cells'} (instr : fetched.instr = .brIf depth)
      (popped : frame.pop cells = .ok (condition, cells'))
      (fails : Cell.isTrue condition = false) :
      Inner targets frame fetched cells own cells' own fetched.next

/-- An instruction that ends its activation: the own labels, and the cells without its operand. -/
inductive Ends (frame : Frame) (cells : Cells) : Instr → List Label → Cells → Prop where
  | ret {own} : Ends frame cells .ret own cells
  | endBlock : Ends frame cells .endBlock [] cells
  | branch {instr own cells'} (jump : Branches frame cells instr own.length cells') :
      Ends frame cells instr own cells'

/-- An instruction that calls a function, and the cells without its operand. -/
inductive Calls (m : Module) (frame : Frame) (cells : Cells) : Instr → Nat → Cells → Prop where
  | direct {func} : Calls m frame cells (.call func) func cells
  | indirect {type expected index cells' func} (known : m.types[type]? = some expected)
      (popped : frame.pop cells = .ok (index, cells'))
      (slot : m.tableFunc expected (Cell.index index) = .ok func) :
      Calls m frame cells (.callIndirect type 0) func cells'

/-! ### What the operations on states do -/

namespace State

variable {m : Module} {config : Config} {frame : Frame} {cells : Cells} {frames : List Frame}
  {own rest labels : List Label} {s : State} {event : Option Event}

theorem pop_eq_ok_iff {condition : Cell} :
    (⟨cells, frames, labels⟩ : State).pop frame = .ok (condition, s) ↔
      ∃ cells', frame.pop cells = .ok (condition, cells') ∧ s = ⟨cells', frames, labels⟩ := by
  cases popped : frame.pop cells with
  | error e => simp [pop, popped]
  | ok result =>
    obtain ⟨cell, cells'⟩ := result
    simp only [pop, popped, Except.ok.injEq, Prod.mk.injEq]
    constructor
    · rintro ⟨rfl, rfl⟩
      exact ⟨cells', ⟨rfl, rfl⟩, rfl⟩
    · rintro ⟨_, ⟨rfl, rfl⟩, rfl⟩
      exact ⟨rfl, rfl⟩

theorem pop_of_frame {index : Cell} {cells' : Cells}
    (popped : frame.pop s.cells = .ok (index, cells')) :
    s.pop frame = .ok (index, ⟨cells', s.frames, s.labels⟩) :=
  pop_eq_ok_iff.mpr ⟨cells', popped, rfl⟩

/-- Leaving succeeds exactly when the results are there; they replace what lies above the base. -/
theorem leave_eq_ok_iff (base : frame.labelBase = rest.length) :
    (⟨cells, frame :: frames, own ++ rest⟩ : State).leave = .ok (s, event) ↔
      frame.operandBase + frame.resultCount ≤ cells.height ∧
        ∃ cells', cells.unwind? frame.base frame.resultCount = some cells' ∧
          s = ⟨cells', frames, rest⟩ ∧ event = some (.returned frame.func frames.length) := by
  have outer : (own ++ rest).drop ((own ++ rest).length - frame.labelBase) = rest := by
    rw [base, List.length_append, Nat.add_sub_cancel]
    exact List.drop_left
  unfold leave
  by_cases short : cells.height < frame.operandBase + frame.resultCount
  · simp [short, Nat.not_le.mpr short]
  · simp only [short, if_false, Nat.not_lt.mp short, true_and, outer]
    cases cells.unwind? frame.base frame.resultCount with
    | none => simp
    | some kept => simp [eq_comm]

/-- The activation that a call begins, on the stack that holds its arguments. -/
def entered (func : Nat) (callee : Func) (type : FuncType) (cells : Cells) (labels : List Label) :
    Frame :=
  { func
    ip := 0
    base := cells.height - type.params.length
    localCount := type.params.length + callee.body.localCount
    labelBase := labels.length
    resultCount := type.results.length }

/-- The height below which a call may not take arguments. -/
def floor : List Frame → Nat
  | [] => 0
  | caller :: _ => caller.operandBase

/-- The function to blame when arguments are missing. -/
def culprit (func : Nat) : List Frame → Nat
  | [] => func
  | caller :: _ => caller.func

/-- The checks that a call of a known function makes, in their order. -/
theorem enter_known {func : Nat} {callee : Func} {type : FuncType}
    (known : m.funcs[func]? = some callee) (typed : m.types[callee.type]? = some type) :
    (⟨cells, frames, labels⟩ : State).enter m config func =
      if 1 < type.results.length then
        .error (.unsupported .multiValueResults)
      else if config.maxCallDepth ≤ frames.length then
        .error (.trap .callStackExhausted)
      else if cells.height < floor frames + type.params.length then
        .error (.stackUnderflow (culprit func frames))
      else if config.maxStackHeight < (entered func callee type cells labels).operandBase then
        .error (.trap .callStackExhausted)
      else
        .ok (⟨cells.pushZeros callee.body.localCount,
          entered func callee type cells labels :: frames, labels⟩,
          some (.entered func (frames.length + 1))) := by
  cases frames with
  | nil =>
    simp only [enter, known, typed]
    rfl
  | cons caller frames =>
    simp only [enter, known, typed]
    rfl

/-- A function is entered exactly when it exists, has at most one result, finds its arguments among
the caller's operands, and the limits allow it. -/
theorem enter_eq_ok_iff {func : Nat} :
    (⟨cells, frames, labels⟩ : State).enter m config func = .ok (s, event) ↔
      ∃ callee type, m.funcs[func]? = some callee ∧ m.types[callee.type]? = some type ∧
        type.results.length ≤ 1 ∧ frames.length < config.maxCallDepth ∧
        floor frames + type.params.length ≤ cells.height ∧
        (entered func callee type cells labels).operandBase ≤ config.maxStackHeight ∧
        s = ⟨cells.pushZeros callee.body.localCount,
          entered func callee type cells labels :: frames, labels⟩ ∧
        event = some (.entered func (frames.length + 1)) := by
  constructor
  · intro run
    cases known : m.funcs[func]? with
    | none => simp [enter, known] at run
    | some callee =>
      cases typed : m.types[callee.type]? with
      | none => simp [enter, known, typed] at run
      | some type =>
        rw [enter_known known typed] at run
        split at run
        · cases run
        split at run
        · cases run
        split at run
        · cases run
        split at run
        · cases run
        cases run
        exact ⟨callee, type, rfl, typed, by omega, by omega, by omega, by omega, rfl, rfl⟩
  · rintro ⟨callee, type, known, typed, single, shallow, arguments, low, rfl, rfl⟩
    rw [enter_known known typed, if_neg (by omega), if_neg (by omega), if_neg (by omega),
      if_neg (by omega)]

theorem openCount_eq (base : frame.labelBase = rest.length) :
    (⟨cells, frames, own ++ rest⟩ : State).openCount frame = own.length := by
  simp [openCount, base]

/-- Control goes on behind a block when the block has left as many cells as it keeps. -/
theorem jump_unwound_eq_ok_iff {height keep ip : Nat} :
    (match cells.unwind? height keep with
      | none => .error (.stackUnderflow frame.func)
      | some kept => .ok (jump ⟨kept, frame :: frames, labels⟩ ip, none) :
        Except Error Transition) = .ok (s, event) ↔
      ∃ kept, cells.unwind? height keep = some kept ∧
        s = ⟨kept, { frame with ip } :: frames, labels⟩ ∧ event = none := by
  cases cells.unwind? height keep with
  | none => simp
  | some kept =>
    constructor
    · intro run
      cases run
      exact ⟨kept, rfl, rfl, rfl⟩
    · rintro ⟨_, same, rfl, rfl⟩
      cases same
      rfl

/-- A branch goes to one of the own labels, or leaves when it goes past the last of them. -/
theorem branch_eq_ok_iff {depth : Nat} (base : frame.labelBase = rest.length) :
    (⟨cells, frame :: frames, own ++ rest⟩ : State).branch frame depth = .ok (s, event) ↔
      (∃ label outer cells', own.drop depth = label :: outer ∧
        cells.unwind? label.height label.arity = some cells' ∧
        s = ⟨cells', { frame with ip := label.continuation } :: frames, outer ++ rest⟩ ∧
        event = none) ∨
      (depth = own.length ∧
        (⟨cells, frame :: frames, own ++ rest⟩ : State).leave = .ok (s, event)) := by
  unfold branch
  rw [openCount_eq base]
  rcases Nat.lt_trichotomy depth own.length with inside | outermost | outside
  · obtain ⟨label, outer, target⟩ : ∃ label outer, own.drop depth = label :: outer := by
      cases dropped : own.drop depth with
      | nil => exact absurd (List.drop_eq_nil_iff.mp dropped) (by omega)
      | cons label outer => exact ⟨label, outer, rfl⟩
    have whole : (own ++ rest).drop depth = label :: (outer ++ rest) := by
      rw [List.drop_append_of_le_length (by omega), target, List.cons_append]
    simp only [Nat.ne_of_lt inside, if_false, Nat.not_lt.mpr (Nat.le_of_lt inside), whole, target,
      false_and, or_false, List.cons.injEq]
    refine jump_unwound_eq_ok_iff.trans ?_
    constructor
    · rintro ⟨kept, unwound, rfl, rfl⟩
      exact ⟨label, outer, kept, ⟨rfl, rfl⟩, unwound, rfl, rfl⟩
    · rintro ⟨_, _, kept, ⟨rfl, rfl⟩, unwound, rfl, rfl⟩
      exact ⟨kept, unwound, rfl, rfl⟩
  · subst outermost
    simp
  · simp [Nat.ne_of_gt outside, outside, List.drop_eq_nil_of_le (Nat.le_of_lt outside)]

/-- An `end` closes the innermost own label, or leaves when there is none. -/
theorem closeLabel_eq_ok_iff {next : Nat} (base : frame.labelBase = rest.length) :
    (⟨cells, frame :: frames, own ++ rest⟩ : State).closeLabel frame next = .ok (s, event) ↔
      (∃ label outer cells', own = label :: outer ∧
        cells.unwind? label.height label.resultCount = some cells' ∧
        s = ⟨cells', { frame with ip := next } :: frames, outer ++ rest⟩ ∧ event = none) ∨
      (own = [] ∧
        (⟨cells, frame :: frames, own ++ rest⟩ : State).leave = .ok (s, event)) := by
  unfold closeLabel
  rw [openCount_eq base]
  cases own with
  | nil => simp
  | cons label outer =>
    simp only [List.length_cons, Nat.add_eq_zero_iff, Nat.one_ne_zero, and_false, if_false,
      List.cons_append, List.cons.injEq, reduceCtorEq, false_and, or_false]
    refine jump_unwound_eq_ok_iff.trans ?_
    constructor
    · rintro ⟨kept, unwound, rfl, rfl⟩
      exact ⟨label, outer, kept, ⟨rfl, rfl⟩, unwound, rfl, rfl⟩
    · rintro ⟨_, _, kept, ⟨rfl, rfl⟩, unwound, rfl, rfl⟩
      exact ⟨kept, unwound, rfl, rfl⟩

/-! ### Executing each kind of instruction -/

variable {targets : Nat → Except DecodeError BlockTargets} {fetched : Fetched}

theorem exec_of_branches {depth : Nat} {popped : Cells}
    (jump : Branches frame cells fetched.instr depth popped) :
    (⟨cells, frame :: frames, labels⟩ : State).exec m config targets frame fetched =
      (⟨popped, frame :: frames, labels⟩ : State).branch frame depth := by
  generalize same : fetched.instr = instr at jump
  cases jump with
  | elseArm => simp only [exec, execM, same, Id.run_pure]
  | br => simp only [exec, execM, same, Id.run_pure]
  | brIf popped taken =>
    simp only [exec, execM, same, Id.run_pure, pop_eq_ok_iff.mpr ⟨_, popped, rfl⟩, taken, if_true]
  | brTable popped =>
    simp only [exec, execM, same, Id.run_pure, pop_eq_ok_iff.mpr ⟨_, popped, rfl⟩, selectLabel_eq]

theorem exec_of_ends {cells' : Cells} (base : frame.labelBase = rest.length)
    (ends : Ends frame cells fetched.instr own cells') :
    (⟨cells, frame :: frames, own ++ rest⟩ : State).exec m config targets frame fetched =
      (⟨cells', frame :: frames, own ++ rest⟩ : State).leave := by
  generalize same : fetched.instr = instr at ends
  cases ends with
  | ret => simp only [exec, execM, same, Id.run_pure]
  | endBlock =>
    simp only [exec, execM, same, Id.run_pure, closeLabel, openCount_eq base, List.length_nil,
      if_true]
  | branch jump =>
    subst same
    rw [exec_of_branches jump, branch, openCount_eq base, if_pos rfl]

theorem exec_of_calls {func : Nat} {cells' : Cells}
    (calls : Calls m frame cells fetched.instr func cells') :
    (⟨cells, frame :: frames, labels⟩ : State).exec m config targets frame fetched =
      (⟨cells', { frame with ip := fetched.next } :: frames, labels⟩ : State).enter
        m config func := by
  generalize same : fetched.instr = instr at calls
  cases calls with
  | direct => simp only [exec, execM, same, Id.run_pure, jump]
  | indirect known popped slot =>
    simp only [exec, execM, same, Id.run_pure, ne_eq, not_true, if_false, known,
      pop_eq_ok_iff.mpr ⟨_, popped, rfl⟩, slot, jump]

theorem exec_of_inner {cells' : Cells} {own' : List Label} {ip : Nat}
    (base : frame.labelBase = rest.length)
    (inner : Inner targets frame fetched cells own cells' own' ip) :
    (⟨cells, frame :: frames, own ++ rest⟩ : State).exec m config targets frame fetched =
      .ok (⟨cells', { frame with ip } :: frames, own' ++ rest⟩, none) := by
  cases inner with
  | plain instr run => simp only [exec, execM, instr, Id.run_pure, run, jump]
  | block instr scanned =>
    simp only [exec, execM, instr, pure_bind, Id.run_pure, scanned, openLabel, jump,
      List.cons_append]
  | loop instr => simp only [exec, execM, instr, Id.run_pure, openLabel, jump, List.cons_append]
  | thenArm instr scanned popped holds =>
    simp only [exec, execM, instr, pure_bind, Id.run_pure, scanned,
      pop_eq_ok_iff.mpr ⟨_, popped, rfl⟩, holds, if_true, openLabel, jump, List.cons_append]
  | elseArm instr scanned popped fails arm =>
    simp only [exec, execM, instr, pure_bind, Id.run_pure, scanned,
      pop_eq_ok_iff.mpr ⟨_, popped, rfl⟩, fails, Bool.false_eq_true, if_false, arm, openLabel, jump,
      List.cons_append]
  | noArm instr scanned popped fails arm =>
    simp only [exec, execM, instr, pure_bind, Id.run_pure, scanned,
      pop_eq_ok_iff.mpr ⟨_, popped, rfl⟩, fails, Bool.false_eq_true, if_false, arm, jump]
  | endBlock instr unwound =>
    simp only [exec, execM, instr, Id.run_pure]
    exact (closeLabel_eq_ok_iff base).mpr (.inl ⟨_, _, _, rfl, unwound, rfl, rfl⟩)
  | branch taken target unwound =>
    rw [exec_of_branches taken]
    exact (branch_eq_ok_iff base).mpr (.inl ⟨_, _, _, target, unwound, rfl, rfl⟩)
  | pass instr popped fails =>
    simp only [exec, execM, instr, Id.run_pure, pop_eq_ok_iff.mpr ⟨_, popped, rfl⟩, fails,
      Bool.false_eq_true, if_false, jump]

/-! ### The cases of a step -/

/-- The three ways in which an instruction can lead from a state to the next. -/
def Effect (m : Module) (config : Config) (targets : Nat → Except DecodeError BlockTargets)
    (frame : Frame) (fetched : Fetched) (cells : Cells) (frames : List Frame)
    (own rest : List Label) (s : State) (event : Option Event) : Prop :=
  (∃ cells' own' ip, Inner targets frame fetched cells own cells' own' ip ∧
    s = ⟨cells', { frame with ip } :: frames, own' ++ rest⟩ ∧ event = none) ∨
  (∃ cells', Ends frame cells fetched.instr own cells' ∧
    (⟨cells', frame :: frames, own ++ rest⟩ : State).leave = .ok (s, event)) ∨
  (∃ func cells', Calls m frame cells fetched.instr func cells' ∧
    (⟨cells', { frame with ip := fetched.next } :: frames, own ++ rest⟩ : State).enter
      m config func = .ok (s, event))

theorem effect_of_branch {depth : Nat} {popped : Cells} (base : frame.labelBase = rest.length)
    (taken : Branches frame cells fetched.instr depth popped)
    (run : (⟨popped, frame :: frames, own ++ rest⟩ : State).branch frame depth = .ok (s, event)) :
    Effect m config targets frame fetched cells frames own rest s event := by
  rcases (branch_eq_ok_iff base).mp run with
    ⟨label, outer, cells', target, unwound, rfl, rfl⟩ | ⟨rfl, left⟩
  · exact .inl ⟨_, _, _, .branch taken target unwound, rfl, rfl⟩
  · exact .inr (.inl ⟨popped, .branch taken, left⟩)

/-- An instruction that succeeds stays in its activation, ends it or calls a function. -/
theorem effect_of_exec (base : frame.labelBase = rest.length)
    (run : (⟨cells, frame :: frames, own ++ rest⟩ : State).exec m config targets frame fetched =
      .ok (s, event)) :
    Effect m config targets frame fetched cells frames own rest s event := by
  cases instr : fetched.instr with
  | plain op =>
    simp only [exec, execM, instr, Id.run_pure] at run
    cases done : op.exec frame cells with
    | error e => simp [done] at run
    | ok cells' =>
      simp only [done] at run
      cases run
      exact .inl ⟨_, _, _, .plain instr done, rfl, rfl⟩
  | block type =>
    simp only [exec, execM, instr, pure_bind, Id.run_pure] at run
    cases scanned : targets fetched.next with
    | error e => simp [scanned] at run
    | ok found =>
      simp only [scanned] at run
      cases run
      exact .inl ⟨_, _, _, .block instr scanned, rfl, rfl⟩
  | loop type =>
    simp only [exec, execM, instr, Id.run_pure] at run
    cases run
    exact .inl ⟨_, _, _, .loop instr, rfl, rfl⟩
  | ifThen type =>
    simp only [exec, execM, instr, pure_bind, Id.run_pure] at run
    cases scanned : targets fetched.next with
    | error e => simp [scanned] at run
    | ok found =>
      simp only [scanned] at run
      split at run
      · cases run
      · rename_i condition after took
        obtain ⟨cells', popped, rfl⟩ := pop_eq_ok_iff.mp took
        cases holds : Cell.isTrue condition with
        | true =>
          simp only [holds, if_true] at run
          cases run
          exact .inl ⟨_, _, _, .thenArm instr scanned popped holds, rfl, rfl⟩
        | false =>
          simp only [holds, Bool.false_eq_true, if_false] at run
          cases arm : found.elseAt with
          | some elseAt =>
            simp only [arm] at run
            cases run
            exact .inl ⟨_, _, _, .elseArm instr scanned popped holds arm, rfl, rfl⟩
          | none =>
            simp only [arm] at run
            cases run
            exact .inl ⟨_, _, _, .noArm instr scanned popped holds arm, rfl, rfl⟩
  | elseArm =>
    simp only [exec, execM, instr, Id.run_pure] at run
    exact effect_of_branch base (instr ▸ .elseArm) run
  | endBlock =>
    simp only [exec, execM, instr, Id.run_pure] at run
    rcases (closeLabel_eq_ok_iff base).mp run with
      ⟨label, outer, cells', rfl, unwound, rfl, rfl⟩ | ⟨rfl, left⟩
    · exact .inl ⟨_, _, _, .endBlock instr unwound, rfl, rfl⟩
    · exact .inr (.inl ⟨cells, instr ▸ .endBlock, left⟩)
  | br depth =>
    simp only [exec, execM, instr, Id.run_pure] at run
    exact effect_of_branch base (instr ▸ .br) run
  | brIf depth =>
    simp only [exec, execM, instr, Id.run_pure] at run
    split at run
    · cases run
    · rename_i condition after took
      obtain ⟨cells', popped, rfl⟩ := pop_eq_ok_iff.mp took
      cases holds : Cell.isTrue condition with
      | true =>
        simp only [holds, if_true] at run
        exact effect_of_branch base (instr ▸ .brIf popped holds) run
      | false =>
        simp only [holds, Bool.false_eq_true, if_false] at run
        cases run
        exact .inl ⟨_, _, _, .pass instr popped holds, rfl, rfl⟩
  | brTable depths default =>
    simp only [exec, execM, instr, Id.run_pure, selectLabel_eq] at run
    split at run
    · cases run
    · rename_i index after took
      obtain ⟨cells', popped, rfl⟩ := pop_eq_ok_iff.mp took
      exact effect_of_branch base (instr ▸ .brTable popped) run
  | ret =>
    simp only [exec, execM, instr, Id.run_pure] at run
    exact .inr (.inl ⟨cells, instr ▸ .ret, run⟩)
  | call func =>
    simp only [exec, execM, instr, Id.run_pure] at run
    exact .inr (.inr ⟨func, cells, instr ▸ .direct, run⟩)
  | callIndirect type table =>
    simp only [exec, execM, instr, Id.run_pure] at run
    split at run
    · cases run
    rename_i single
    obtain rfl : table = 0 := Decidable.not_not.mp single
    cases known : m.types[type]? with
    | none => simp [known] at run
    | some expected =>
      simp only [known] at run
      split at run
      · cases run
      · rename_i index after took
        obtain ⟨cells', popped, rfl⟩ := pop_eq_ok_iff.mp took
        cases slot : m.tableFunc expected (Cell.index index) with
        | error e => simp [slot] at run
        | ok func =>
          simp only [slot] at run
          exact .inr (.inr ⟨func, cells', instr ▸ .indirect known popped slot, run⟩)

end State

end Wasm
