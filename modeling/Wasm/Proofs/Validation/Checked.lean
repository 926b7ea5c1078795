import Wasm.Proofs.Structured.Site
import Wasm.Proofs.Validation.Targets

/-!
States that checking has foreseen.

`Checked` says of a state that every activation stands in front of code that is valid with the
heights that the state has: the running one with the operands that are on the stack, a waiting one
with those that will be there when the call above it returns. `Safe` says of the outcome of a step
that it is such a state again or a trap.

* `Nested`: the open labels of an activation are the blocks that checking has open there;
* `Nested.of_pop`: where code is run, what checking takes off is really there;
* `Facing.of_inner`, `Facing.of_ends`, `Facing.of_branches`, `Facing.of_calls`: what each kind of
  instruction has to show for its outcome to be safe.
-/

namespace Wasm

/-! ### Labels and blocks -/

/-- The code of the activation is valid from an offset on. -/
def Frame.Onward (m : Module) (frame : Frame) (pos : Nat) (s : Static) : Prop :=
  ValidFrom m frame.localCount (m.code frame.func) pos s

/-- A label stands for an open block: it has the block's heights, and it goes on where the code is
valid with what a branch leaves. -/
structure Label.Matches (onward : Nat → Static → Prop) (base : Nat) (label : Label) (c : Control)
    (outer : List Control) : Prop where
  height : label.height = base + c.height
  results : label.resultCount = c.arity
  arity : label.arity = c.labelArity
  live : c.dead = false
  above : ∀ o ∈ outer, o.height ≤ c.height
  continues : onward label.continuation ⟨c.height + c.labelArity, outer⟩

/-- The labels of an activation stand for the open blocks, without the body. -/
inductive Nested (onward : Nat → Static → Prop) (base results : Nat) :
    List Label → List Control → Prop where
  | body : Nested onward base results [] [.body results]
  | cons {label labels c outer} (top : label.Matches onward base c outer)
      (rest : Nested onward base results labels outer) :
      Nested onward base results (label :: labels) (c :: outer)

namespace Nested

variable {onward : Nat → Static → Prop} {base results : Nat} {own : List Label}
  {controls : List Control}

/-- The innermost block is not dead, and no other one starts above it. -/
theorem exists_top (nested : Nested onward base results own controls) :
    ∃ c outer, controls = c :: outer ∧ c.dead = false ∧ ∀ o ∈ controls, o.height ≤ c.height := by
  cases nested with
  | body => exact ⟨.body results, [], rfl, rfl, by simp⟩
  | @cons label labels c outer top rest =>
    refine ⟨c, outer, rfl, top.live, ?_⟩
    intro o member
    rcases List.mem_cons.mp member with rfl | member
    · exact Nat.le_refl _
    · exact top.above o member

theorem getLast?_eq (nested : Nested onward base results own controls) :
    controls.getLast? = some (.body results) := by
  induction nested with
  | body => rfl
  | cons top rest ih => rw [List.getLast?_cons, ih, Option.getD_some]

/-- The block at some depth is one that a label stands for, or the body. -/
theorem target {depth : Nat} {c : Control} (nested : Nested onward base results own controls)
    (found : controls[depth]? = some c) :
    (∃ label labels outer, own.drop depth = label :: labels ∧ label.Matches onward base c outer ∧
      Nested onward base results labels outer) ∨
    (depth = own.length ∧ c = .body results) := by
  induction nested generalizing depth with
  | body =>
    cases depth with
    | zero => exact .inr ⟨rfl, (Option.some.inj found).symm⟩
    | succ depth => cases found
  | @cons label labels first outer top rest ih =>
    cases depth with
    | zero =>
      obtain rfl : first = c := Option.some.inj found
      exact .inl ⟨label, labels, outer, rfl, top, rest⟩
    | succ depth =>
      rcases ih found with inside | ⟨rfl, same⟩
      · exact .inl inside
      · exact .inr ⟨rfl, same⟩

/-- In code that is run, operands that may be taken are there. -/
theorem of_pop {taken before : Nat} {s' : Static} (nested : Nested onward base results own controls)
    (popped : Static.pop taken ⟨before, controls⟩ = some s') :
    ∃ height, before = height + taken ∧ s' = ⟨height, controls⟩ ∧
      ∀ c ∈ controls, c.height ≤ height := by
  obtain ⟨c, outer, rfl, live, lowest⟩ := nested.exists_top
  -- The innermost block is not dead, so that no operand was supplied.
  simp only [Static.pop, live, Bool.false_eq_true, if_false] at popped
  obtain ⟨room, same⟩ := Option.ite_none_right_eq_some.mp popped
  cases same
  refine ⟨before - taken, by omega, rfl, ?_⟩
  intro o member
  have low := lowest o member
  omega

/-- The same for an operand and others below it. -/
theorem of_operand_pop {taken before : Nat} {t s' : Static}
    (nested : Nested onward base results own controls)
    (operand : Static.pop 1 ⟨before, controls⟩ = some t) (popped : t.pop taken = some s') :
    ∃ height, before = height + taken + 1 ∧ s' = ⟨height, controls⟩ ∧
      ∀ c ∈ controls, c.height ≤ height := by
  obtain ⟨middle, rfl, rfl, -⟩ := nested.of_pop operand
  obtain ⟨height, rfl, same, floor⟩ := nested.of_pop popped
  exact ⟨height, rfl, same, floor⟩

end Nested

/-- All entries of a table lead to blocks that take as many operands as the default. -/
theorem Static.exists_table_target {depths : Array Nat} {default index : Nat} {c : Control}
    {controls : List Control} (target : controls[default]? = some c)
    (agree : depths.all (fun depth => controls[depth]?.any (·.labelArity = c.labelArity)) = true) :
    ∃ c', controls[depths[index]?.getD default]? = some c' ∧ c'.labelArity = c.labelArity := by
  cases found : depths[index]? with
  | none => exact ⟨c, target, rfl⟩
  | some depth =>
    have entry := Array.all_eq_true_iff_forall_mem.mp agree depth (Array.mem_of_getElem? found)
    obtain ⟨c', there, same⟩ := (Option.any_eq_true _ _).mp entry
    exact ⟨c', there, of_decide_eq_true same⟩

/-! ### Checked states -/

/-- The activation stands in front of valid code, with the given number of operands. -/
structure Sited (m : Module) (frame : Frame) (own : List Label) (height : Nat)
    (controls : List Control) : Prop where
  known : ∃ func, m.funcs[frame.func]? = some func
  nested : Nested (frame.Onward m) frame.operandBase frame.resultCount own controls
  floor : ∀ c ∈ controls, c.height ≤ height
  here : frame.Onward m frame.ip ⟨height, controls⟩

/-- All activations stand in front of valid code when the value stack has the given height; a
waiting one when the one above it has left its results, and `count` is what the outermost leaves. -/
inductive Checked (m : Module) (count : Nat) : Nat → List Frame → List Label → Prop where
  | ended : Checked m count count [] []
  | cons {frame frames own rest height controls} (base : frame.labelBase = rest.length)
      (sited : Sited m frame own height controls)
      (below : Checked m count (frame.base + frame.resultCount) frames rest) :
      Checked m count (frame.operandBase + height) (frame :: frames) (own ++ rest)

/-- The state that is come to is checked, or the failure is a trap. -/
def Safe (m : Module) (count : Nat) : Except Error Transition → Prop
  | .ok (s, _) => Checked m count s.cells.height s.frames s.labels
  | .error e => ∃ trap, e = .trap trap

/-- What the instruction that the running activation has come to leads to is safe. -/
def Proceeds (m : Module) (config : Config) (count : Nat) (frame : Frame) (frames : List Frame)
    (own rest : List Label) (cells : Cells) (fetched : Fetched) : Prop :=
  Safe m count ((⟨cells, frame :: frames, own ++ rest⟩ : State).exec m config (m.scan frame.func)
    frame fetched)

/-- The running activation in front of an instruction that checks. -/
structure Facing (m : Module) (count : Nat) (frame : Frame) (frames : List Frame)
    (own rest : List Label) (cells : Cells) (fetched : Fetched) (s s' : Static) : Prop
    extends Sited m frame own s.height s.controls where
  base : frame.labelBase = rest.length
  below : Checked m count (frame.base + frame.resultCount) frames rest
  level : cells.height = frame.operandBase + s.height
  read : fetched.instr.fetched m fetched.next = .ok fetched
  checks : s.check m frame.localCount fetched.instr = some s'
  onward : frame.Onward m fetched.next s'

theorem Module.Valid.exists_type {m : Module} {index : Nat} {func : Func} (valid : m.Valid)
    (known : m.funcs[index]? = some func) :
    ∃ type, m.types[func.type]? = some type ∧ func.ValidAt m type :=
  valid.funcs func (Array.mem_of_getElem? known)

/-- In a valid module, functions have at most one result. -/
theorem Module.Valid.single {m : Module} {func : Nat} {type : FuncType} (valid : m.Valid)
    (declared : m.funcType? func = some type) : type.results.length ≤ 1 := by
  obtain ⟨callee, known, typed⟩ := Option.bind_eq_some_iff.mp declared
  obtain ⟨_, typed', single, -⟩ := valid.exists_type known
  cases typed.symm.trans typed'
  exact single

/-- In a valid module, a table slot gives a function of the expected type or a trap. -/
theorem Module.Valid.tableFunc_cases {m : Module} (valid : m.Valid) (expected : FuncType)
    (index : Nat) :
    (∃ func, m.tableFunc expected index = .ok func ∧ m.funcType? func = some expected) ∨
      ∃ trap, m.tableFunc expected index = .error (.trap trap) := by
  unfold Module.tableFunc
  cases slot : m.table.bind (·.slot? index) with
  | none => exact .inr ⟨_, rfl⟩
  | some content =>
    cases content with
    | none => exact .inr ⟨_, rfl⟩
    | some func =>
      obtain ⟨table, present, found⟩ := Option.bind_eq_some_iff.mp slot
      have inside := valid.slots table present (some func) (Array.mem_of_getElem? found) func rfl
      obtain ⟨type, typed, -⟩ := valid.exists_type (Array.getElem?_eq_getElem inside)
      have declared : m.funcType? func = some type :=
        Option.bind_eq_some_iff.mpr ⟨_, Array.getElem?_eq_getElem inside, typed⟩
      simp only [declared]
      by_cases same : type = expected
      · subst same
        rw [if_pos rfl]
        exact .inl ⟨func, rfl, declared⟩
      · rw [if_neg same]
        exact .inr ⟨_, rfl⟩

/-- A function that is entered with its arguments on the stack starts in front of its body, above
what waits for its results. -/
theorem Safe.of_enter {m : Module} {count func : Nat} {type : FuncType} {cells : Cells}
    {frames : List Frame} {labels : List Label} (config : Config) (valid : m.Valid)
    (declared : m.funcType? func = some type)
    (room : State.floor frames + type.params.length ≤ cells.height)
    (below : Checked m count (cells.height - type.params.length + type.results.length) frames
      labels) :
    Safe m count ((⟨cells, frames, labels⟩ : State).enter m config func) := by
  obtain ⟨callee, known, typed⟩ := Option.bind_eq_some_iff.mp declared
  obtain ⟨_, typed', single, body⟩ := valid.exists_type known
  cases typed.symm.trans typed'
  rw [State.enter_known known typed, if_neg (by omega)]
  split
  · exact ⟨_, rfl⟩
  rw [if_neg (by omega)]
  split
  · exact ⟨_, rfl⟩
  have sited : Sited m (State.entered func callee type cells labels) [] 0
      [.body type.results.length] := by
    refine ⟨⟨callee, known⟩, .body, ?_, ?_⟩
    · simp [Control.body]
    · change ValidFrom m _ (m.code func) 0 _
      rw [Module.code_of_known known]
      exact body
  have level : (cells.pushZeros callee.body.localCount).height =
      (State.entered func callee type cells labels).operandBase + 0 := by
    simp only [Cells.height_pushZeros, State.entered, Frame.operandBase]
    omega
  change Checked m count (cells.pushZeros callee.body.localCount).height _ ([] ++ labels)
  rw [level]
  exact .cons rfl sited below

namespace Facing

variable {m : Module} {config : Config} {count : Nat} {frame : Frame} {frames : List Frame}
  {own rest : List Label} {cells cells' : Cells} {fetched : Fetched} {s s' : Static}

theorem of_inner {own' : List Label} {ip height : Nat} {controls : List Control}
    (facing : Facing m count frame frames own rest cells fetched s s')
    (inner : Inner (m.scan frame.func) frame fetched cells own cells' own' ip)
    (level : cells'.height = frame.operandBase + height)
    (nested : Nested (frame.Onward m) frame.operandBase frame.resultCount own' controls)
    (floor : ∀ c ∈ controls, c.height ≤ height) (onward : frame.Onward m ip ⟨height, controls⟩) :
    Proceeds m config count frame frames own rest cells fetched := by
  unfold Proceeds
  rw [State.exec_of_inner facing.base inner]
  change Checked m count cells'.height ({ frame with ip } :: frames) (own' ++ rest)
  have base : ({ frame with ip } : Frame).labelBase = rest.length := facing.base
  have sited : Sited m { frame with ip } own' height controls :=
    ⟨facing.known, nested, floor, onward⟩
  rw [level]
  exact .cons base sited facing.below

theorem of_ends (facing : Facing m count frame frames own rest cells fetched s s')
    (ends : Ends frame cells fetched.instr own cells')
    (results : frame.operandBase + frame.resultCount ≤ cells'.height) :
    Proceeds m config count frame frames own rest cells fetched := by
  have enough : frame.base + frame.resultCount ≤ cells'.height := by
    unfold Frame.operandBase at results
    omega
  obtain ⟨kept, unwound⟩ := Cells.unwind?_of_le enough
  have left : (⟨cells', frame :: frames, own ++ rest⟩ : State).leave =
      .ok (⟨kept, frames, rest⟩, some (.returned frame.func frames.length)) :=
    (State.leave_eq_ok_iff facing.base).mpr ⟨results, kept, unwound, rfl, rfl⟩
  unfold Proceeds
  rw [State.exec_of_ends facing.base ends, left]
  change Checked m count kept.height frames rest
  rw [Cells.height_of_unwind? unwound]
  exact facing.below

theorem of_branches {depth height : Nat} {c : Control}
    (facing : Facing m count frame frames own rest cells fetched s s')
    (taken : Branches frame cells fetched.instr depth cells')
    (level : cells'.height = frame.operandBase + height)
    (target : s.controls[depth]? = some c) (room : c.height + c.labelArity ≤ height) :
    Proceeds m config count frame frames own rest cells fetched := by
  rcases facing.nested.target target with
    ⟨label, labels, outer, dropped, matched, nested⟩ | ⟨rfl, rfl⟩
  · have enough : label.height + label.arity ≤ cells'.height := by
      rw [matched.height, matched.arity]
      omega
    obtain ⟨kept, unwound⟩ := Cells.unwind?_of_le enough
    have kept_level : kept.height = frame.operandBase + (c.height + c.labelArity) := by
      rw [Cells.height_of_unwind? unwound, matched.height, matched.arity, Nat.add_assoc]
    refine facing.of_inner (.branch taken dropped unwound) kept_level nested ?_ matched.continues
    intro o member
    exact Nat.le_add_right_of_le (matched.above o member)
  · refine facing.of_ends (.branch taken) ?_
    change 0 + frame.resultCount ≤ height at room
    omega

theorem of_calls {func height : Nat} {type : FuncType} {controls : List Control}
    (valid : m.Valid) (facing : Facing m count frame frames own rest cells fetched s s')
    (calls : Calls m frame cells fetched.instr func cells')
    (declared : m.funcType? func = some type)
    (level : cells'.height = frame.operandBase + (height + type.params.length))
    (nested : Nested (frame.Onward m) frame.operandBase frame.resultCount own controls)
    (floor : ∀ c ∈ controls, c.height ≤ height)
    (onward : frame.Onward m fetched.next ⟨height + type.results.length, controls⟩) :
    Proceeds m config count frame frames own rest cells fetched := by
  unfold Proceeds
  rw [State.exec_of_calls calls]
  have base : ({ frame with ip := fetched.next } : Frame).labelBase = rest.length := facing.base
  have sited : Sited m { frame with ip := fetched.next } own (height + type.results.length)
      controls := by
    refine ⟨facing.known, nested, ?_, onward⟩
    intro c member
    exact Nat.le_add_right_of_le (floor c member)
  have waiting : Checked m count (cells'.height - type.params.length + type.results.length)
      ({ frame with ip := fetched.next } :: frames) (own ++ rest) := by
    have after : cells'.height - type.params.length + type.results.length =
        frame.operandBase + (height + type.results.length) := by omega
    rw [after]
    exact .cons base sited facing.below
  refine Safe.of_enter config valid declared ?_ waiting
  change frame.operandBase + type.params.length ≤ cells'.height
  omega

end Facing

end Wasm
