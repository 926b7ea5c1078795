import Wasm.Proofs.Machine.Layout
import Wasm.Proofs.Machine.Underflow
import Wasm.Proofs.Validation.Soundness

/-!
What code can take off the value stack.

The floor that the machine guards is that of the activation: `Floors` says that nothing is taken
from below it, and that a block that has taken operands from below the height at which it was
entered cannot be left. The height of a block is a floor only for code that has been validated,
where every instruction finds its operands above all open blocks.

* `State.starves_step`: a step that finds too few operands fails;
* `Checked.of_visits`: every state between two steps of an invocation of a valid module is checked;
* `floors_between_steps`: both floors, in every state between two steps;
* `Digging.taken_from_outside_block`: without validation, code in a block reaches below it.
-/

namespace Wasm

/-! ### Steps without operands -/

section Steps

variable {m : Module} {config : Config} {frame : Frame} {frames : List Frame} {labels : List Label}
  {cells : Cells} {instr : Instr} {next : Nat}

/-- Only the opcode of a branch through a table decodes to one. -/
theorem Opcode.Decodes.table {opcode : Opcode} (decodes : opcode.Decodes instr)
    (table : instr.isTable = true) : opcode = .brTable := by
  have reads := decodes.reads
  cases opcode with
  | brTable => rfl
  | elseArm | endBlock | ret =>
    cases reads
    cases table
  | callIndirect =>
    obtain ⟨type, index, rfl⟩ := reads
    cases table
  | other shape => cases reads
  | _ =>
    obtain ⟨immediate, rfl⟩ := reads
    cases table

/-- The index of a branch through a table is missed before the table is read. -/
theorem fetch_of_table {height : Nat} (known : ∃ func, m.funcs[frame.func]? = some func)
    (decoded : Instr.at? (m.code frame.func) frame.ip = some (instr, next))
    (table : instr.isTable = true) (low : height ≤ frame.operandBase) :
    fetch m height frame = .error (.stackUnderflow frame.func) := by
  obtain ⟨func, known⟩ := known
  rw [Module.code_of_known known] at decoded
  obtain ⟨byte, opcode, read, found, opcodeKnown, supported, result⟩ :=
    Instr.at?_eq_some_iff.mp decoded
  obtain rfl : opcode = .brTable := Opcode.Decodes.table ⟨read, _, _, _, supported, result⟩ table
  simp only [fetch, known, found, opcodeKnown, supported, low, and_self, if_true]

theorem Instr.instr_of_fetched {fetched : Fetched} (read : instr.fetched m next = .ok fetched) :
    fetched.instr = instr := by
  cases instr with
  | block type | loop type | ifThen type =>
    obtain ⟨arity, -, same⟩ := except_map_eq_ok_iff.mp read
    rw [← same]
  | _ =>
    cases read
    rfl

/-- A step that finds fewer operands than its instruction takes fails. -/
theorem State.starves_step (known : ∃ func, m.funcs[frame.func]? = some func)
    (floor : frame.operandBase ≤ cells.height)
    (decoded : Instr.at? (m.code frame.func) frame.ip = some (instr, next))
    (few : cells.height < frame.operandBase + instr.takes m) :
    frame.Starves cells fun cells => (⟨cells, frame :: frames, labels⟩ : State).step m config := by
  by_cases missed : instr.isTable = true ∧ cells.height ≤ frame.operandBase
  · left
    simp only [step, fetch_of_table known decoded missed.1 missed.2]
  · have fetches : ∀ height, cells.height ≤ height →
        fetch m height frame = instr.fetched m next := by
      intro height above
      refine fetch_of_at? known decoded fun table => ?_
      have high : ¬ cells.height ≤ frame.operandBase := fun low => missed ⟨table, low⟩
      omega
    have below := fetches cells.height (Nat.le_refl _)
    have inserted : ∀ extra, fetch m (cells.insertAt frame.operandBase extra).height frame =
        instr.fetched m next := by
      intro extra
      refine fetches _ ?_
      rw [Cells.height_insertAt]
      omega
    cases read : instr.fetched m next with
    | error e =>
      right
      refine ⟨e, ?_⟩
      intro extra
      simp only [step, inserted extra, read]
    | ok fetched =>
      rw [← Instr.instr_of_fetched read] at few
      have starves : frame.Starves cells fun cells =>
          (⟨cells, frame :: frames, labels⟩ : State).exec m config (m.scan frame.func) frame
            fetched := starves_exec floor few
      rcases starves with underflow | ⟨e, fails⟩
      · left
        simp only [step, below, read]
        exact underflow
      · right
        refine ⟨e, ?_⟩
        intro extra
        simp only [step, inserted extra, read]
        exact fails extra

end Steps

/-! ### The floor of the activation -/

/-- What the running activation, which has opened the labels `own`, can take off the value stack. -/
structure Floors (m : Module) (config : Config) (s : State) (frame : Frame) (own : List Label) :
    Prop where
  /-- Nothing has been taken from below the activation's operands. -/
  floor : frame.operandBase ≤ s.cells.height
  /-- No block was entered with operands missing. -/
  labels : ∀ label ∈ own, frame.operandBase ≤ label.height
  /-- An instruction that takes more operands than there are above the floor fails, for want of them
  or in a way that operands beneath would not mend. -/
  operands : ∀ instr next, Instr.at? (m.code frame.func) frame.ip = some (instr, next) →
    s.cells.height < frame.operandBase + instr.takes m →
    (∃ e, s.step m config = .error e) ∧
      frame.Starves s.cells fun cells => (⟨cells, s.frames, s.labels⟩ : State).step m config
  /-- A block does not end unless its results are above the height at which it was entered. -/
  ending : ∀ fetched label outer, fetch m s.cells.height frame = .ok fetched →
    fetched.instr = .endBlock → own = label :: outer →
    s.cells.height < label.height + label.resultCount →
    s.step m config = .error (.stackUnderflow frame.func)
  /-- Nor is it left by a branch that does not find there what it carries. -/
  branching : ∀ fetched depth cells label outer, fetch m s.cells.height frame = .ok fetched →
    Branches frame s.cells fetched.instr depth cells → own.drop depth = label :: outer →
    cells.height < label.height + label.arity →
    s.step m config = .error (.stackUnderflow frame.func)
  /-- The activation is not left without its results above its floor. -/
  leaving : ∀ fetched cells, fetch m s.cells.height frame = .ok fetched →
    Ends frame s.cells fetched.instr own cells →
    cells.height < frame.operandBase + frame.resultCount →
    s.step m config = .error (.stackUnderflow frame.func)

theorem Floors.of_arranged {m : Module} {frame : Frame} {frames : List Frame}
    {own rest : List Label} {cells : Cells} (config : Config)
    (arranged : Arranged m ⟨cells, frame :: frames, own ++ rest⟩)
    (base : frame.labelBase = rest.length) (floored : Floored frame own) (typed : frame.Typed m) :
    Floors m config ⟨cells, frame :: frames, own ++ rest⟩ frame own := by
  have floor : frame.operandBase ≤ cells.height := arranged.regions.1
  obtain ⟨type, declared, -, -⟩ := typed
  obtain ⟨callee, known, -⟩ := Option.bind_eq_some_iff.mp declared
  constructor
  case floor => exact floor
  case labels => exact floored
  case operands =>
    intro instr next decoded few
    have starves : frame.Starves cells fun cells =>
        (⟨cells, frame :: frames, own ++ rest⟩ : State).step m config :=
      State.starves_step ⟨callee, known⟩ floor decoded few
    exact ⟨starves.exists_error, starves⟩
  case ending =>
    intro fetched label outer fetches instr opened low
    subst opened
    simp only [State.step, fetches, State.exec, State.execM, instr, Id.run_pure]
    exact State.closeLabel_of_low base low fetched.next
  case branching =>
    intro fetched depth cells' label outer fetches taken target low
    simp only [State.step, fetches]
    rw [State.exec_of_branches taken]
    exact State.branch_of_low base target low
  case leaving =>
    intro fetched cells' fetches ends low
    simp only [State.step, fetches]
    rw [State.exec_of_ends base ends]
    simp only [State.leave, if_pos low]

/-! ### The floor of a block -/

section Blocks

variable {m : Module} {config : Config} {frame : Frame} {own : List Label}

/-- Every state between two steps of an invocation of a valid module is checked. -/
theorem Checked.of_visits {inst : Instance} {func : Nat} {args : List Cell} {s : State}
    {record : Record} (valid : m.Valid) (history : Instance.History m config inst)
    (visits : inst.Visits func args s record) :
    ∃ count, Checked m count s.cells.height s.frames s.labels := by
  refine visits.induct (fun s => ∃ count, Checked m count s.cells.height s.frames s.labels) history
    ?_ ?_
  · intro first event result begun
    obtain ⟨type, declared, arguments, -, -, -⟩ := Instance.start_eq_ok_iff.mp begun
    rcases Checked.of_start config valid declared arguments with
      ⟨s, event', start, checked⟩ | ⟨trap, start⟩
    · cases begun.symm.trans start
      exact ⟨_, checked⟩
    · cases begun.symm.trans start
  · rintro s t event ⟨count, checked⟩ step
    have safe : Safe m count (s.step m config) := checked.step valid
    rw [step] at safe
    exact ⟨count, safe⟩

/-- A height that no open block starts above is at or above every label. -/
theorem Nested.label_le {onward : Nat → Static → Prop} {base results height : Nat}
    {controls : List Control} (nested : Nested onward base results own controls)
    (floor : ∀ c ∈ controls, c.height ≤ height) :
    ∀ label ∈ own, label.height ≤ base + height := by
  induction nested with
  | body =>
    intro label member
    cases member
  | @cons first labels c outer top rest ih =>
    intro label member
    rcases List.mem_cons.mp member with rfl | member
    · rw [top.height]
      exact Nat.add_le_add_left (floor c (List.mem_cons_self ..)) base
    · exact ih (fun o inner => floor o (List.mem_cons_of_mem _ inner)) label member

/-- An instruction that checks takes nothing from below a block that is open. -/
theorem Sited.floor_of_check {instr : Instr} {height : Nat} {controls : List Control} {s' : Static}
    (sited : Sited m frame own height controls)
    (checks : Static.check m frame.localCount ⟨height, controls⟩ instr = some s') :
    ∃ left, height = left + instr.takes m ∧ ∀ c ∈ controls, c.height ≤ left := by
  cases instr with
  | plain op =>
    simp only [Static.check] at checks
    split at checks
    · rename_i same
      subst same
      exact ⟨height, rfl, sited.floor⟩
    obtain ⟨-, checks⟩ := Option.ite_none_right_eq_some.mp checks
    obtain ⟨t, popped, -⟩ := Option.map_eq_some_iff.mp checks
    obtain ⟨left, before, -, floor⟩ := sited.nested.of_pop popped
    exact ⟨left, before, floor⟩
  | ifThen type =>
    obtain ⟨arity, -, checks⟩ := Option.bind_eq_some_iff.mp checks
    obtain ⟨t, popped, -⟩ := Option.map_eq_some_iff.mp checks
    obtain ⟨left, before, -, floor⟩ := sited.nested.of_pop popped
    exact ⟨left, before, floor⟩
  | brIf depth =>
    obtain ⟨c, -, checks⟩ := Option.bind_eq_some_iff.mp checks
    obtain ⟨t, popped, -⟩ := Option.bind_eq_some_iff.mp checks
    obtain ⟨left, before, -, floor⟩ := sited.nested.of_pop popped
    exact ⟨left, before, floor⟩
  | brTable depths default =>
    obtain ⟨c, -, checks⟩ := Option.bind_eq_some_iff.mp checks
    obtain ⟨-, checks⟩ := Option.ite_none_right_eq_some.mp checks
    obtain ⟨t, popped, -⟩ := Option.bind_eq_some_iff.mp checks
    obtain ⟨left, before, -, floor⟩ := sited.nested.of_pop popped
    exact ⟨left, before, floor⟩
  | call func =>
    obtain ⟨type, declared, checks⟩ := Option.bind_eq_some_iff.mp checks
    obtain ⟨t, popped, -⟩ := Option.map_eq_some_iff.mp checks
    obtain ⟨left, before, -, floor⟩ := sited.nested.of_pop popped
    refine ⟨left, ?_, floor⟩
    rw [Instr.takes, declared]
    exact before
  | callIndirect type table =>
    obtain ⟨-, checks⟩ := Option.ite_none_right_eq_some.mp checks
    obtain ⟨expected, known, checks⟩ := Option.bind_eq_some_iff.mp checks
    obtain ⟨t, operand, checks⟩ := Option.bind_eq_some_iff.mp checks
    obtain ⟨t', popped, -⟩ := Option.map_eq_some_iff.mp checks
    obtain ⟨left, before, -, floor⟩ := sited.nested.of_operand_pop operand popped
    refine ⟨left, ?_, floor⟩
    rw [Instr.takes, known]
    exact before
  | block type | loop type | elseArm | endBlock | br depth | ret =>
    exact ⟨height, rfl, sited.floor⟩

/-- In a checked state the next instruction finds its operands above all open blocks. -/
theorem Checked.takes_above {count height : Nat} {frames : List Frame} {rest : List Label}
    (checked : Checked m count height (frame :: frames) (own ++ rest))
    (base : frame.labelBase = rest.length) :
    ∃ instr next, Instr.at? (m.code frame.func) frame.ip = some (instr, next) ∧
      ∀ label ∈ own, label.height + instr.takes m ≤ height := by
  generalize whole : own ++ rest = labels at checked
  cases checked with
  | @cons _ _ own' rest' height controls base' sited below =>
    obtain ⟨rfl, -⟩ : own = own' ∧ rest = rest' :=
      List.append_inj' whole (base.symm.trans base')
    obtain ⟨c, outer, split, -⟩ := sited.nested.exists_top
    have inside : controls ≠ [] := by
      rw [split]
      exact List.cons_ne_nil c outer
    obtain ⟨instr, next, s', decoded, checks, -⟩ := ValidFrom.exists_instr sited.here inside
    obtain ⟨left, rfl, floor⟩ := sited.floor_of_check checks
    refine ⟨instr, next, decoded, ?_⟩
    intro label member
    have low := sited.nested.label_le floor label member
    omega

end Blocks

/-- Between any two steps of an invocation, whatever the code, the running activation takes nothing
from below its own floor; and if the module is valid, nothing from below any block that it has
open. -/
theorem floors_between_steps {m : Module} {config : Config} {inst : Instance} {func : Nat}
    {args : List Cell} {s : State} {record : Record} {frame : Frame} {own : List Label}
    (history : Instance.History m config inst) (visits : inst.Visits func args s record)
    (running : s.activations.head? = some (frame, own)) :
    Floors m config s frame own ∧
      (m.Valid → ∃ instr next, Instr.at? (m.code frame.func) frame.ip = some (instr, next) ∧
        ∀ label ∈ own, label.height + instr.takes m ≤ s.cells.height) := by
  have arranged := Arranged.of_visits history visits
  have checked := fun valid => Checked.of_visits valid history visits
  obtain ⟨cells, frames, labels⟩ := s
  cases stacked : arranged.stacked with
  | nil => cases running
  | @cons top frames own' rest base holds below =>
    change (activationsOf (top :: frames) (own' ++ rest)).head? = _ at running
    rw [activationsOf_cons base] at running
    cases running
    obtain ⟨floored, typed⟩ := holds
    refine ⟨.of_arranged config arranged base floored typed, ?_⟩
    intro valid
    obtain ⟨count, checked⟩ := checked valid
    exact checked.takes_above base

/-- The state in two blocks of the first function, in front of the branch through the table. -/
def Dispatch.inBlocks : State :=
  { cells := ⟨#[5, 5]⟩
    frames := [⟨0, 6, 0, 1, 0, 1⟩]
    labels := [⟨.block, 0, 1, 11⟩, ⟨.block, 0, 1, 20⟩] }

/-- The theorem at a state in two blocks of a valid module, on an instance that has been used
before. -/
theorem floors_in_blocks :
    Dispatch.program.Valid ∧
      Floors Dispatch.program {} Dispatch.inBlocks ⟨0, 6, 0, 1, 0, 1⟩ Dispatch.inBlocks.labels ∧
      ∃ instr next, Instr.at? (Dispatch.program.code 0) 6 = some (instr, next) ∧
        ∀ label ∈ Dispatch.inBlocks.labels, label.height + instr.takes Dispatch.program ≤ 2 := by
  have valid : Dispatch.program.Valid := by decide +kernel
  have history : Instance.History Dispatch.program {} Dispatch.inst := .invoke .new 100 0 [0]
  have begun : Instance.start Dispatch.program {} .empty 0 [5] =
      .ok ((⟨⟨#[5]⟩, [⟨0, 0, 0, 1, 0, 1⟩], []⟩, some (.entered 0 1)), some .i32) :=
    Sample.ok_of_toOption (by decide +kernel)
  obtain ⟨record, visits⟩ := Instance.Visits.of_stepsWhile history begun
    (show State.stepsWhile Dispatch.program {} State.Running 3 _ = some Dispatch.inBlocks by
      decide +kernel)
  obtain ⟨floors, blocks⟩ := floors_between_steps history visits rfl
  exact ⟨valid, floors, blocks valid⟩

namespace Digging

/-- A module with one function, which leaves seven on the stack, and in a `block` drops it and puts
nine there. -/
def bytes : Bytes :=
  #[0x00, 0x61, 0x73, 0x6D, 0x01, 0x00, 0x00, 0x00,
    0x01, 0x05, 0x01, 0x60, 0x00, 0x01, 0x7F,
    0x03, 0x02, 0x01, 0x00,
    0x0A, 0x0C, 0x01, 0x0A, 0x00, 0x41, 0x07, 0x02, 0x40, 0x1A, 0x41, 0x09, 0x0B, 0x0B]

/-- The module that `bytes` decode to. -/
def program : Module :=
  { types := #[.new [] [.i32]]
    funcs := #[⟨0, 0, #[0x41, 0x07, 0x02, 0x40, 0x1A, 0x41, 0x09, 0x0B, 0x0B]⟩]
    exports := #[]
    table := none }

/-- The state behind the `drop`. -/
def dropped : State :=
  { cells := ⟨#[]⟩
    frames := [⟨0, 5, 0, 0, 0, 1⟩]
    labels := [⟨.block, 0, 1, 7⟩] }

/-- Code in a block takes an operand that was there before the block was entered, and replaces it:
the stack is lower than the height of the open label, and the invocation goes on to give the value
that has been put there. -/
theorem taken_from_outside_block :
    Module.decode bytes = .ok program ∧
      (∃ record, (Instance.new program {}).Visits 0 [] dropped record) ∧
      (∃ frame own, dropped.activations.head? = some (frame, own) ∧
        ∃ label ∈ own, dropped.cells.height < label.height) ∧
      ((Instance.new program {}).invoke 10 0 []).outcome = .value 9 := by
  have begun : Instance.start program {} .empty 0 [] =
      .ok ((⟨⟨#[]⟩, [⟨0, 0, 0, 0, 0, 1⟩], []⟩, some (.entered 0 1)), some .i32) :=
    Sample.ok_of_toOption (by decide +kernel)
  refine ⟨Sample.ok_of_toOption (by decide +kernel), ?_, ?_, by decide +kernel⟩
  · exact Instance.Visits.of_stepsWhile .new begun
      (show State.stepsWhile program {} State.Running 3 _ = _ by decide +kernel)
  · exact ⟨_, _, rfl, _, List.mem_cons_self .., Nat.zero_lt_one⟩

end Digging

end Wasm
