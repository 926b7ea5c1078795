import Wasm.Proofs.Structured.Refinement
import Wasm.Proofs.Validation.Checked

/-!
Valid code does not go wrong.

An invocation of a valid module ends in a value or a trap: no failure that the machine guards
against in code that has not been validated can arise.

* `Facing.plain`, `Facing.block`, ..., `Facing.callIndirect`: one lemma for each instruction;
* `Checked.step`: progress and preservation;
* `Checked.run`: what a run comes to;
* `valid_module_ends_or_traps`: what an invocation of a valid module comes to.
-/

namespace Wasm

namespace Facing

variable {m : Module} {config : Config} {count : Nat} {frame : Frame} {frames : List Frame}
  {own rest : List Label} {cells : Cells} {fetched : Fetched} {s s' : Static}

/-! ### One lemma for each instruction -/

/-- Taking an operand that checking takes. -/
theorem pop_operand {height : Nat}
    (facing : Facing m count frame frames own rest cells fetched s s')
    (operand : s.height = height + 1) :
    ∃ cell cells', frame.pop cells = .ok (cell, cells') ∧
      cells'.height = frame.operandBase + height := by
  have level := facing.level
  have high : frame.operandBase < cells.height := by omega
  obtain ⟨cell, cells', popped⟩ := Frame.pop_of_lt high
  have height := (Frame.height_of_pop popped).2
  exact ⟨cell, cells', popped, by omega⟩

theorem plain {op : Plain} (facing : Facing m count frame frames own rest cells fetched s s')
    (instr : fetched.instr = .plain op) :
    Proceeds m config count frame frames own rest cells fetched := by
  have traps : ∀ trap, op.exec frame cells = .error (.trap trap) →
      Proceeds m config count frame frames own rest cells fetched := by
    intro trap run
    simp only [Proceeds, State.exec, State.execM, instr, Id.run_pure, run]
    exact ⟨trap, rfl⟩
  have checks := facing.checks
  simp only [instr, Static.check] at checks
  split at checks
  · rename_i same
    subst same
    exact traps _ rfl
  obtain ⟨inside, checks⟩ := Option.ite_none_right_eq_some.mp checks
  obtain ⟨t, popped, moved⟩ := Option.map_eq_some_iff.mp checks
  obtain ⟨height, before, rfl, floor⟩ := facing.nested.of_pop popped
  have level := facing.level
  have room : frame.operandBase + op.pops ≤ cells.height := by omega
  have locals : ∀ index, op.local? = some index → index < frame.localCount := by
    intro index same
    simpa [same] using inside
  rcases Plain.exec_of_room room locals with ⟨cells', run⟩ | ⟨trap, run⟩
  · have heights := Plain.height_of_exec run
    have level' : cells'.height = frame.operandBase + (height + op.pushes) := by omega
    have onward := facing.onward
    rw [← moved] at onward
    refine facing.of_inner (.plain instr run) level' facing.nested ?_ onward
    intro c member
    exact Nat.le_add_right_of_le (floor c member)
  · exact traps trap run

/-- The arity that was fetched is that of the block. -/
theorem blockArity {type : BlockType}
    (facing : Facing m count frame frames own rest cells fetched s s')
    (opens : fetched.instr = .block type ∨ fetched.instr = .loop type ∨
      fetched.instr = .ifThen type) : m.blockArity type = .ok fetched.arity := by
  have read := facing.read
  rcases opens with instr | instr | instr
  all_goals
    simp only [instr, Instr.fetched] at read
    obtain ⟨arity, typed, same⟩ := except_map_eq_ok_iff.mp read
    rw [typed, ← same]

/-- A label that has just been opened stands for the block that checking opens. -/
theorem opened {height : Nat} (facing : Facing m count frame frames own rest cells fetched s s')
    (label : Label) (kind : LabelKind) (level : label.height = frame.operandBase + height)
    (floor : ∀ c ∈ s.controls, c.height ≤ height)
    (arity : label.arity = Control.labelArity ⟨kind, label.resultCount, height, false⟩)
    (continues : frame.Onward m label.continuation
      ⟨height + Control.labelArity ⟨kind, label.resultCount, height, false⟩, s.controls⟩) :
    Nested (frame.Onward m) frame.operandBase frame.resultCount (label :: own)
        (⟨kind, label.resultCount, height, false⟩ :: s.controls) ∧
      ∀ c ∈ (⟨kind, label.resultCount, height, false⟩ :: s.controls : List Control),
        c.height ≤ height := by
  refine ⟨.cons ⟨level, rfl, arity, rfl, floor, continues⟩ facing.nested, ?_⟩
  intro c member
  rcases List.mem_cons.mp member with rfl | member
  · exact Nat.le_refl _
  · exact floor c member

theorem block {type : BlockType} (facing : Facing m count frame frames own rest cells fetched s s')
    (instr : fetched.instr = .block type) :
    Proceeds m config count frame frames own rest cells fetched := by
  have checks := facing.checks
  simp only [instr, Static.check, facing.blockArity (.inl instr)] at checks
  cases checks
  obtain ⟨found, scanned, targets⟩ := facing.onward.scan
  obtain ⟨nested, floor⟩ := facing.opened ⟨.block, fetched.arity, cells.height, found.endAt⟩ .block
    facing.level facing.floor rfl targets.behind
  exact facing.of_inner (.block instr scanned) facing.level nested floor facing.onward

theorem loop {type : BlockType} (facing : Facing m count frame frames own rest cells fetched s s')
    (instr : fetched.instr = .loop type) :
    Proceeds m config count frame frames own rest cells fetched := by
  have checks := facing.checks
  simp only [instr, Static.check, facing.blockArity (.inr (.inl instr))] at checks
  cases checks
  -- A branch to the label comes back to the `loop` itself, where the code is valid as it is now.
  obtain ⟨nested, floor⟩ := facing.opened ⟨.loop, fetched.arity, cells.height, frame.ip⟩ .loop
    facing.level facing.floor rfl facing.here
  exact facing.of_inner (.loop instr) facing.level nested floor facing.onward

theorem ifThen {type : BlockType} (facing : Facing m count frame frames own rest cells fetched s s')
    (instr : fetched.instr = .ifThen type) :
    Proceeds m config count frame frames own rest cells fetched := by
  have checks := facing.checks
  simp only [instr, Static.check, facing.blockArity (.inr (.inr instr))] at checks
  obtain ⟨t, taken, rfl⟩ := Option.map_eq_some_iff.mp checks
  obtain ⟨height, operand, rfl, floor⟩ := facing.nested.of_pop taken
  obtain ⟨condition, cells', popped, level⟩ := facing.pop_operand operand
  obtain ⟨found, scanned, targets⟩ := facing.onward.scan
  cases holds : Cell.isTrue condition with
  | true =>
    obtain ⟨nested, floor⟩ := facing.opened ⟨.cond, fetched.arity, cells'.height, found.endAt⟩
      .cond level floor rfl targets.behind
    exact facing.of_inner (.thenArm instr scanned popped holds) level nested floor facing.onward
  | false =>
    cases arm : found.elseAt with
    | some elseAt =>
      have onward := (targets.arm elseAt arm).resolve_left (Option.some_ne_none elseAt).symm
      -- Behind the `else` the block can no longer go without one, so checking has it as a `block`.
      obtain ⟨nested, floor⟩ := facing.opened ⟨.cond, fetched.arity, cells'.height, found.endAt⟩
        .block level floor rfl targets.behind
      exact facing.of_inner (.elseArm instr scanned popped holds arm) level nested floor onward
    | none =>
      have bare : fetched.arity = 0 := (targets.bare arm).2 rfl
      have onward := targets.behind
      simp only [bare, Nat.add_zero] at onward
      exact facing.of_inner (.noArm instr scanned popped holds arm) level facing.nested floor onward

/-- The results of the innermost block are all that lies above it, when it is finished. -/
theorem height_of_finish {c : Control} {outer : List Control}
    (facing : Facing m count frame frames own rest cells fetched s s')
    (finished : s.finish = some (c, outer)) :
    s.controls = c :: outer ∧ s.height = c.height + c.arity := by
  obtain ⟨split, t, popped, lowest⟩ := Static.exists_pop_of_finish finished
  obtain ⟨height, before, rfl, -⟩ := facing.nested.of_pop popped
  obtain rfl : height = c.height := lowest
  exact ⟨split, before⟩

theorem elseArm (facing : Facing m count frame frames own rest cells fetched s s')
    (instr : fetched.instr = .elseArm) :
    Proceeds m config count frame frames own rest cells fetched := by
  have checks := facing.checks
  rw [instr] at checks
  obtain ⟨c, outer, finished, isCond, -⟩ := Static.exists_finish_of_elseArm checks
  obtain ⟨split, height⟩ := facing.height_of_finish finished
  have taken : Branches frame cells fetched.instr 0 cells := instr ▸ .elseArm
  have target : s.controls[0]? = some c := by
    rw [split]
    rfl
  have carried : c.labelArity = c.arity := by
    unfold Control.labelArity
    rw [isCond]
  refine facing.of_branches taken facing.level target ?_
  omega

theorem endBlock (facing : Facing m count frame frames own rest cells fetched s s')
    (instr : fetched.instr = .endBlock) :
    Proceeds m config count frame frames own rest cells fetched := by
  have checks := facing.checks
  rw [instr] at checks
  obtain ⟨c, outer, finished, -, rfl⟩ := Static.exists_finish_of_endBlock checks
  obtain ⟨split, height⟩ := facing.height_of_finish finished
  have level := facing.level
  have nested := facing.nested
  rw [split] at nested
  cases nested with
  | body =>
    have ends : Ends frame cells fetched.instr [] cells := instr ▸ .endBlock
    refine facing.of_ends ends ?_
    change s.height = 0 + frame.resultCount at height
    omega
  | @cons label labels _ _ matched nested =>
    have enough : label.height + label.resultCount ≤ cells.height := by
      rw [matched.height, matched.results]
      omega
    obtain ⟨kept, unwound⟩ := Cells.unwind?_of_le enough
    have kept_level : kept.height = frame.operandBase + (c.height + c.arity) := by
      rw [Cells.height_of_unwind? unwound, matched.height, matched.results, Nat.add_assoc]
    refine facing.of_inner (.endBlock instr unwound) kept_level nested ?_ facing.onward
    intro o member
    exact Nat.le_add_right_of_le (matched.above o member)

theorem br {depth : Nat} (facing : Facing m count frame frames own rest cells fetched s s')
    (instr : fetched.instr = .br depth) :
    Proceeds m config count frame frames own rest cells fetched := by
  have checks := facing.checks
  rw [instr] at checks
  obtain ⟨c, target, checks⟩ := Option.bind_eq_some_iff.mp checks
  obtain ⟨t, popped, -⟩ := Option.map_eq_some_iff.mp checks
  obtain ⟨height, before, -, floor⟩ := facing.nested.of_pop popped
  have taken : Branches frame cells fetched.instr depth cells := instr ▸ .br
  refine facing.of_branches taken facing.level target ?_
  have low := floor c (List.mem_of_getElem? target)
  omega

theorem brIf {depth : Nat} (facing : Facing m count frame frames own rest cells fetched s s')
    (instr : fetched.instr = .brIf depth) :
    Proceeds m config count frame frames own rest cells fetched := by
  have checks := facing.checks
  rw [instr] at checks
  obtain ⟨c, target, checks⟩ := Option.bind_eq_some_iff.mp checks
  obtain ⟨t, operand, checks⟩ := Option.bind_eq_some_iff.mp checks
  obtain ⟨t', carried, rfl⟩ := Option.map_eq_some_iff.mp checks
  obtain ⟨height, before, rfl, floor⟩ := facing.nested.of_operand_pop operand carried
  obtain ⟨condition, cells', popped, level⟩ := facing.pop_operand before
  cases holds : Cell.isTrue condition with
  | true =>
    have taken : Branches frame cells fetched.instr depth cells' := instr ▸ .brIf popped holds
    refine facing.of_branches taken level target ?_
    have low := floor c (List.mem_of_getElem? target)
    omega
  | false =>
    refine facing.of_inner (.pass instr popped holds) level facing.nested ?_ facing.onward
    intro o member
    exact Nat.le_add_right_of_le (floor o member)

theorem brTable {depths : Array Nat} {default : Nat}
    (facing : Facing m count frame frames own rest cells fetched s s')
    (instr : fetched.instr = .brTable depths default) :
    Proceeds m config count frame frames own rest cells fetched := by
  have checks := facing.checks
  rw [instr] at checks
  obtain ⟨c, target, checks⟩ := Option.bind_eq_some_iff.mp checks
  obtain ⟨agree, checks⟩ := Option.ite_none_right_eq_some.mp checks
  obtain ⟨t, operand, checks⟩ := Option.bind_eq_some_iff.mp checks
  obtain ⟨t', carried, -⟩ := Option.map_eq_some_iff.mp checks
  obtain ⟨height, before, -, floor⟩ := facing.nested.of_operand_pop operand carried
  obtain ⟨index, cells', popped, level⟩ := facing.pop_operand before
  obtain ⟨c', target', same⟩ := Static.exists_table_target target agree
  have taken : Branches frame cells fetched.instr (depths[Cell.index index]?.getD default) cells' :=
    instr ▸ .brTable popped
  refine facing.of_branches taken level target' ?_
  have low := floor c' (List.mem_of_getElem? target')
  omega

theorem ret (facing : Facing m count frame frames own rest cells fetched s s')
    (instr : fetched.instr = .ret) :
    Proceeds m config count frame frames own rest cells fetched := by
  have checks := facing.checks
  rw [instr] at checks
  obtain ⟨body, last, checks⟩ := Option.bind_eq_some_iff.mp checks
  obtain rfl := Option.some.inj (facing.nested.getLast?_eq.symm.trans last)
  obtain ⟨t, popped, -⟩ := Option.map_eq_some_iff.mp checks
  obtain ⟨height, before, -, -⟩ := facing.nested.of_pop popped
  change s.height = height + frame.resultCount at before
  have level := facing.level
  have ends : Ends frame cells fetched.instr own cells := instr ▸ .ret
  refine facing.of_ends ends ?_
  omega

theorem call {func : Nat} (valid : m.Valid)
    (facing : Facing m count frame frames own rest cells fetched s s')
    (instr : fetched.instr = .call func) :
    Proceeds m config count frame frames own rest cells fetched := by
  have checks := facing.checks
  rw [instr] at checks
  obtain ⟨type, declared, checks⟩ := Option.bind_eq_some_iff.mp checks
  obtain ⟨t, popped, rfl⟩ := Option.map_eq_some_iff.mp checks
  obtain ⟨height, before, rfl, floor⟩ := facing.nested.of_pop popped
  have calls : Calls m frame cells fetched.instr func cells := instr ▸ .direct
  have level := facing.level
  rw [before] at level
  exact facing.of_calls valid calls declared level facing.nested floor facing.onward

theorem callIndirect {index table : Nat} (valid : m.Valid)
    (facing : Facing m count frame frames own rest cells fetched s s')
    (instr : fetched.instr = .callIndirect index table) :
    Proceeds m config count frame frames own rest cells fetched := by
  have checks := facing.checks
  rw [instr] at checks
  obtain ⟨rfl, checks⟩ := Option.ite_none_right_eq_some.mp checks
  obtain ⟨type, known, checks⟩ := Option.bind_eq_some_iff.mp checks
  obtain ⟨t, operand, checks⟩ := Option.bind_eq_some_iff.mp checks
  obtain ⟨t', popped, rfl⟩ := Option.map_eq_some_iff.mp checks
  obtain ⟨height, before, rfl, floor⟩ := facing.nested.of_operand_pop operand popped
  obtain ⟨slot, cells', took, level⟩ := facing.pop_operand before
  rcases valid.tableFunc_cases type (Cell.index slot) with ⟨func, found, declared⟩ | ⟨trap, failed⟩
  · have calls : Calls m frame cells fetched.instr func cells' := instr ▸ .indirect known took found
    exact facing.of_calls valid calls declared level facing.nested floor facing.onward
  · simp only [Proceeds, State.exec, State.execM, instr, Id.run_pure, ne_eq, not_true, if_false,
      known, State.pop_eq_ok_iff.mpr ⟨_, took, rfl⟩, failed]
    exact ⟨trap, rfl⟩

theorem exec (valid : m.Valid) (facing : Facing m count frame frames own rest cells fetched s s') :
    Proceeds m config count frame frames own rest cells fetched := by
  cases instr : fetched.instr with
  | plain op => exact facing.plain instr
  | block type => exact facing.block instr
  | loop type => exact facing.loop instr
  | ifThen type => exact facing.ifThen instr
  | elseArm => exact facing.elseArm instr
  | endBlock => exact facing.endBlock instr
  | br depth => exact facing.br instr
  | brIf depth => exact facing.brIf instr
  | brTable depths default => exact facing.brTable instr
  | ret => exact facing.ret instr
  | call func => exact facing.call valid instr
  | callIndirect type table => exact facing.callIndirect valid instr

end Facing

/-! ### Steps and runs -/

section Steps

variable {m : Module} {config : Config} {count : Nat} {frame : Frame} {instr : Instr} {next : Nat}

/-- The machine reads the instruction that checking reads. -/
theorem fetch_of_at? {height : Nat} (known : ∃ func, m.funcs[frame.func]? = some func)
    (decoded : Instr.at? (m.code frame.func) frame.ip = some (instr, next))
    (room : instr.isTable = true → frame.operandBase < height) :
    fetch m height frame = instr.fetched m next := by
  obtain ⟨func, known⟩ := known
  rw [Module.code_of_known known] at decoded
  obtain ⟨byte, opcode, read, found, opcodeKnown, supported, result⟩ :=
    Instr.at?_eq_some_iff.mp decoded
  refine fetch_of_read known ⟨byte, found, opcodeKnown⟩ supported result ?_
  rintro rfl
  cases supported
  obtain ⟨depths, middle, -, result⟩ := Reader.bind_eq_ok_iff.mp result
  obtain ⟨default, after, -, result⟩ := Reader.bind_eq_ok_iff.mp result
  cases result
  exact room rfl

/-- The type of a block that checks is one that the machine takes. -/
theorem Static.exists_fetched {locals : Nat} {s s' : Static}
    (checks : s.check m locals instr = some s') (next : Nat) :
    ∃ arity, instr.fetched m next = .ok ⟨instr, next, arity⟩ := by
  cases instr with
  | block type | loop type =>
    obtain ⟨arity, typed, -⟩ := Option.map_eq_some_iff.mp checks
    exact ⟨arity, except_map_eq_ok_iff.mpr ⟨arity, toOption_eq_some_iff.mp typed, rfl⟩⟩
  | ifThen type =>
    obtain ⟨arity, typed, -⟩ := Option.bind_eq_some_iff.mp checks
    exact ⟨arity, except_map_eq_ok_iff.mpr ⟨arity, toOption_eq_some_iff.mp typed, rfl⟩⟩
  | _ => exact ⟨0, rfl⟩

/-- A branch through a table has its index. -/
theorem Sited.table_operand {own : List Label} {height : Nat} {controls : List Control}
    {s' : Static} (sited : Sited m frame own height controls)
    (checks : Static.check m frame.localCount ⟨height, controls⟩ instr = some s')
    (table : instr.isTable = true) : 0 < height := by
  cases instr with
  | brTable depths default =>
    obtain ⟨c, -, checks⟩ := Option.bind_eq_some_iff.mp checks
    obtain ⟨-, checks⟩ := Option.ite_none_right_eq_some.mp checks
    obtain ⟨t, operand, -⟩ := Option.bind_eq_some_iff.mp checks
    obtain ⟨below, rfl, -⟩ := sited.nested.of_pop operand
    exact Nat.succ_pos below
  | _ => cases table

/-- Progress and preservation: a step from a checked state leads to another one or traps. -/
theorem Checked.step {s : State} (valid : m.Valid)
    (checked : Checked m count s.cells.height s.frames s.labels) :
    Safe m count (s.step m config) := by
  obtain ⟨cells, frames, labels⟩ := s
  generalize level : cells.height = height at checked
  cases checked with
  | ended =>
    subst level
    exact .ended
  | @cons frame frames own rest height controls base sited below =>
    obtain ⟨c, outer, split, -⟩ := sited.nested.exists_top
    have inside : controls ≠ [] := by
      rw [split]
      exact List.cons_ne_nil c outer
    obtain ⟨instr, next, s', decoded, checks, onward⟩ := ValidFrom.exists_instr sited.here inside
    obtain ⟨arity, read⟩ := Static.exists_fetched checks next
    have fetches : fetch m cells.height frame = .ok ⟨instr, next, arity⟩ := by
      rw [← read]
      refine fetch_of_at? sited.known decoded fun table => ?_
      have operand := sited.table_operand checks table
      omega
    have facing : Facing m count frame frames own rest cells ⟨instr, next, arity⟩
        ⟨height, controls⟩ s' :=
      ⟨sited, base, below, level, read, checks, onward⟩
    simp only [State.step, fetches]
    exact facing.exec valid

/-- When no activation is left, the results of the outermost are. -/
theorem Checked.height_eq {height : Nat} {labels : List Label}
    (checked : Checked m count height [] labels) : height = count := by
  cases checked with
  | ended => rfl

/-- A run from a checked state that ends leaves the results of the outermost activation, or
traps. -/
theorem Checked.run {fuel : Nat} {s t : State} {record final : Record} {result : Except Error Unit}
    (valid : m.Valid) (checked : Checked m count s.cells.height s.frames s.labels)
    (sound : record.cache.Sound m)
    (runs : s.run m config fuel record = (some result, t, final)) :
    (result = .ok () ∧ t.cells.height = count) ∨ ∃ trap, result = .error (.trap trap) := by
  induction fuel generalizing s record with
  | zero =>
    simp only [State.run, Prod.mk.injEq] at runs
    obtain ⟨ended, rfl, -⟩ := runs
    split at ended
    · rename_i none
      rw [List.isEmpty_iff.mp none] at checked
      cases ended
      exact .inl ⟨rfl, checked.height_eq⟩
    · cases ended
  | succ fuel ih =>
    unfold State.run at runs
    split at runs
    · rename_i none
      rw [List.isEmpty_iff.mp none] at checked
      cases runs
      exact .inl ⟨rfl, checked.height_eq⟩
    have safe : Safe m count (s.step m config) := checked.step valid
    split at runs
    · rename_i e after advanced
      rw [State.step_of_advance_error sound advanced] at safe
      obtain ⟨trap, rfl⟩ := safe
      cases runs
      exact .inr ⟨trap, rfl⟩
    · rename_i t after advanced
      obtain ⟨⟨event, step⟩, kept⟩ := State.step_of_advance sound advanced
      rw [step] at safe
      exact ih safe kept runs

end Steps

/-- With as many arguments as its function takes, an invocation starts in a checked state or
traps. -/
theorem Checked.of_start {m : Module} {func : Nat} {type : FuncType} {args : List Cell}
    (config : Config) (valid : m.Valid) (declared : m.funcType? func = some type)
    (arguments : args.length = type.params.length) :
    (∃ s event, Instance.start m config .empty func args = .ok ((s, event), type.results.head?) ∧
      Checked m type.results.length s.cells.height s.frames s.labels) ∨
    ∃ trap, Instance.start m config .empty func args = .error (.trap trap) := by
  rw [Instance.start_of_declared config declared arguments (valid.single declared)]
  generalize given : Cells.ofList (List.zipWith ValType.canonical type.params args) = cells
  have height : cells.height = type.params.length := by
    rw [← given, ← Cells.length_toList, Cells.toList_ofList, List.length_zipWith, arguments,
      Nat.min_self]
  have room : State.floor [] + type.params.length ≤ cells.height := by
    change 0 + _ ≤ _
    omega
  have root : Checked m type.results.length
      (cells.height - type.params.length + type.results.length) [] [] := by
    rw [height, Nat.sub_self, Nat.zero_add]
    exact .ended
  have safe := Safe.of_enter config valid declared room root
  cases begun : (⟨cells, [], []⟩ : State).enter m config func with
  | error e =>
    rw [begun] at safe
    obtain ⟨trap, rfl⟩ := safe
    exact .inr ⟨trap, rfl⟩
  | ok transition =>
    rw [begun] at safe
    exact .inl ⟨_, _, rfl, safe⟩

/-- An invocation of a function of a valid module with as many arguments as it takes gives a value
or traps, if it ends, whatever was invoked before and whatever the limits are. -/
theorem valid_module_ends_or_traps {m : Module} {config : Config} {inst : Instance}
    {func : Nat} {type : FuncType} {args : List Cell} (valid : m.Valid)
    (history : Instance.History m config inst) (declared : m.funcType? func = some type)
    (arguments : args.length = type.params.length) (fuel : Nat) :
    (∃ cell, (inst.invoke fuel func args).outcome = .value cell) ∨
      (∃ trap, (inst.invoke fuel func args).outcome = .failed (.trap trap)) ∨
      (inst.invoke fuel func args).outcome = .outOfFuel := by
  rw [inst.outcome_invoke]
  unfold Instance.execute Instance.reset
  simp only [history.program_eq, history.config_eq]
  rcases Checked.of_start config valid declared arguments with
    ⟨s, event, start, checked⟩ | ⟨trap, start⟩
  · have sound : (({ cache := inst.cache } : Record).report event).cache.Sound m := by
      rw [Record.cache_report]
      exact history.sound
    obtain ⟨⟨ending, t, final⟩, ran⟩ : ∃ ended,
        s.run m config fuel (({ cache := inst.cache } : Record).report event) = ended := ⟨_, rfl⟩
    simp only [start, ran]
    cases ending with
    | none => exact .inr (.inr rfl)
    | some result =>
      rcases Checked.run valid checked sound ran with ⟨rfl, count⟩ | ⟨trap, rfl⟩
      · obtain ⟨cell, given⟩ := Instance.exists_result func (valid.single declared) count
        simp only [given]
        exact .inl ⟨cell, rfl⟩
      · exact .inr (.inl ⟨trap, rfl⟩)
  · simp only [start]
    exact .inr (.inl ⟨trap, rfl⟩)

namespace Dispatch

/-- A module with two functions from `i32` to `i32` and a table that holds the second one in its
second slot. The first function calls through the table when its argument is zero, and else gives
seven; behind its `br_table` there is an instruction that is never run and finds no operand. The
second function adds one. -/
def program : Module :=
  { types := #[.new [.i32] [.i32]]
    funcs := #[
      ⟨0, 0, #[0x02, 0x40, 0x02, 0x40, 0x20, 0x00, 0x0E, 0x01, 0x00, 0x01, 0x1A, 0x0B, 0x20, 0x00,
        0x41, 0x01, 0x11, 0x00, 0x00, 0x0F, 0x0B, 0x41, 0x07, 0x0B]⟩,
      ⟨0, 0, #[0x20, 0x00, 0x41, 0x01, 0x6A, 0x0B]⟩]
    exports := #[]
    table := some ⟨#[none, some 1]⟩ }

/-- An instance of the module whose first function has been invoked with zero. -/
def inst : Instance :=
  ((Instance.new program {}).invoke 100 0 [0]).inst

end Dispatch

/-- The theorem at a module with dead code and a call through a table, on an instance that has been
used before. -/
theorem dispatch_ends_or_traps :
    Dispatch.program.Valid ∧ ∀ fuel,
      (∃ cell, (Dispatch.inst.invoke fuel 0 [5]).outcome = .value cell) ∨
        (∃ trap, (Dispatch.inst.invoke fuel 0 [5]).outcome = .failed (.trap trap)) ∨
        (Dispatch.inst.invoke fuel 0 [5]).outcome = .outOfFuel := by
  have valid : Dispatch.program.Valid := by decide +kernel
  have history : Instance.History Dispatch.program {} Dispatch.inst := .invoke .new 100 0 [0]
  exact ⟨valid, valid_module_ends_or_traps valid history rfl rfl⟩

end Wasm
