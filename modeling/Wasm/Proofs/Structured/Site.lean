import Wasm.Proofs.Machine.Effect
import Wasm.Proofs.Structured.Eval

/-!
A place in the machine's state, seen from a block.

Where the meaning of a block speaks of locals and of operands of its own, the machine has one value
stack. A `Site` is all that lies around these two: the cells below the locals, the operands of the
blocks outside, the labels and the other activations. `Site.state` puts a state together from it,
and the operations on the stack are then operations on lists:

* `Site.pop_cells`, `Site.unwind?_cells`: operands come off, and go when a block is left;
* `Site.exec_of_eval`: a plain instruction does to the cells what it does to locals and operands;
* `fetch_of_decoded`: the machine reads the instruction whose form stands at its offset;
* `Module.blockArity_of_blockResults?`, `Module.tableFunc_of_tableTarget?`: it finds the arities and
  functions that the meaning of a program finds.
-/

namespace Wasm

/-- What lies around the locals of the running activation and the operands of a block of it. -/
structure Site where
  /-- The running activation, wherever it is in its code. -/
  frame : Frame
  frames : List Frame
  /-- The cells below the locals. -/
  below : List Cell
  /-- The operands of the blocks around, bottom first. -/
  outer : List Cell
  /-- The labels that the activation has opened. -/
  own : List Label
  rest : List Label

namespace Site

/-- The running activation at an offset of its code. -/
def frameAt (site : Site) (ip : Nat) : Frame :=
  { site.frame with ip }

/-- The value stack. -/
def cells (site : Site) (locals operands : List Cell) : Cells :=
  .ofList (site.below ++ locals ++ site.outer ++ operands.reverse)

/-- The state at an offset, with the given locals and operands. -/
def state (site : Site) (ip : Nat) (locals operands : List Cell) : State :=
  ⟨site.cells locals operands, site.frameAt ip :: site.frames, site.own ++ site.rest⟩

/-- The state after the activation has returned. -/
def left (site : Site) (results : List Cell) : State :=
  ⟨.ofList (site.below ++ results.reverse), site.frames, site.rest⟩

/-- The activation's bases lie where the site has them, and the labels among the operands. -/
structure Fits (m : Module) (site : Site) : Prop where
  known : ∃ func, m.funcs[site.frame.func]? = some func
  base : site.below.length = site.frame.base
  labelBase : site.frame.labelBase = site.rest.length
  heights : ∀ label ∈ site.own, site.frame.operandBase ≤ label.height ∧
    label.height ≤ site.frame.operandBase + site.outer.length

variable {m : Module} {site : Site} {ip : Nat} {locals operands : List Cell} {cell : Cell}

@[simp] theorem toList_cells :
    (site.cells locals operands).toList =
      site.below ++ locals ++ site.outer ++ operands.reverse := by
  simp [cells]

@[simp] theorem push_cells :
    (site.cells locals operands).push cell = site.cells locals (cell :: operands) := by
  apply Cells.ext_toList
  simp

theorem height_cells (fits : site.Fits m) (count : locals.length = site.frame.localCount) :
    (site.cells locals operands).height =
      site.frame.operandBase + site.outer.length + operands.length := by
  have base := fits.base
  rw [← Cells.length_toList, toList_cells]
  simp only [List.length_append, List.length_reverse, Frame.operandBase]
  omega

/-- The top operand comes off. -/
theorem pop_cells (fits : site.Fits m) (count : locals.length = site.frame.localCount) :
    (site.frameAt ip).pop (site.cells locals (cell :: operands)) =
      .ok (cell, site.cells locals operands) := by
  refine Frame.pop_eq_ok_iff.mpr ⟨?_, push_cells.symm⟩
  rw [height_cells fits count]
  change site.frame.operandBase < _
  simp only [List.length_cons]
  omega

theorem reverse_split (operands : List Cell) (keep : Nat) :
    operands.reverse = (operands.drop keep).reverse ++ (operands.take keep).reverse := by
  rw [← List.reverse_append, List.take_append_drop]

/-- Leaving a block at `height` drops the operands above, except for those that are kept. -/
theorem unwind?_cells {height keep : Nat} (fits : site.Fits m)
    (count : locals.length = site.frame.localCount) (low : site.frame.operandBase ≤ height)
    (high : height ≤ site.frame.operandBase + site.outer.length) (enough : keep ≤ operands.length) :
    (site.cells locals operands).unwind? height keep =
      some ({ site with outer := site.outer.take (height - site.frame.operandBase) }.cells
        locals (operands.take keep)) := by
  have base := fits.base
  unfold Frame.operandBase at low high ⊢
  obtain ⟨inner, reach⟩ : ∃ inner, height - (site.frame.base + site.frame.localCount) = inner :=
    ⟨_, rfl⟩
  rw [reach]
  have split : site.cells locals operands =
      .ofList ((site.below ++ locals ++ site.outer.take inner) ++
        (site.outer.drop inner ++ (operands.drop keep).reverse) ++
          (operands.take keep).reverse) := by
    unfold cells
    rw [reverse_split operands keep]
    congr 1
    simp only [← List.append_assoc]
    rw [List.append_assoc (site.below ++ locals) (site.outer.take inner), List.take_append_drop]
  rw [split]
  apply Cells.unwind?_ofList
  · simp only [List.length_append, List.length_take]
    omega
  · simp only [List.length_reverse, List.length_take]
    omega

/-- Returning drops the locals and all operands except for the results. -/
theorem unwind?_base {keep : Nat} (fits : site.Fits m) (enough : keep ≤ operands.length) :
    (site.cells locals operands).unwind? site.frame.base keep =
      some (.ofList (site.below ++ (operands.take keep).reverse)) := by
  have split : site.cells locals operands =
      .ofList (site.below ++ (locals ++ site.outer ++ (operands.drop keep).reverse) ++
        (operands.take keep).reverse) := by
    unfold cells
    rw [reverse_split operands keep]
    simp only [← List.append_assoc]
  rw [split]
  apply Cells.unwind?_ofList fits.base
  simp only [List.length_reverse, List.length_take]
  omega

/-! ### A function's start -/

/-- The site of a function that has been entered with `args` on top of `below`. -/
def begun (func : Nat) (callee : Func) (type : FuncType) (below args : List Cell)
    (frames : List Frame) (labels : List Label) : Site :=
  { frame := State.entered func callee type (.ofList (below ++ args)) labels
    frames
    below
    outer := []
    own := []
    rest := labels }

section Begun

variable {func : Nat} {callee : Func} {type : FuncType} {below args : List Cell}
  {frames : List Frame} {labels : List Label}

theorem Fits.begun (known : m.funcs[func]? = some callee)
    (arguments : args.length = type.params.length) :
    (begun func callee type below args frames labels).Fits m where
  known := ⟨callee, known⟩
  base := by
    change below.length = (Cells.ofList (below ++ args)).height - type.params.length
    rw [← Cells.length_toList, Cells.toList_ofList, List.length_append]
    omega
  labelBase := rfl
  heights := nofun

/-- The state in which a function has been entered. -/
theorem state_begun :
    (begun func callee type below args frames labels).state 0
        (args ++ List.replicate callee.body.localCount 0) [] =
      ⟨(Cells.ofList (below ++ args)).pushZeros callee.body.localCount,
        State.entered func callee type (.ofList (below ++ args)) labels :: frames, labels⟩ := by
  have cells : (begun func callee type below args frames labels).cells
      (args ++ List.replicate callee.body.localCount 0) [] =
        (Cells.ofList (below ++ args)).pushZeros callee.body.localCount := by
    apply Cells.ext_toList
    simp [begun]
  simp only [state, cells]
  rfl

end Begun

/-! ### Plain instructions -/

theorem get?_cells {index : Nat} (fits : site.Fits m) (inside : index < locals.length) :
    (site.cells locals operands).get? (site.frame.base + index) = locals[index]? := by
  have base := fits.base
  rw [Cells.get?_eq, toList_cells, List.append_assoc, List.append_assoc,
    List.getElem?_append_right (by omega), List.getElem?_append_left (by omega)]
  congr 1
  omega

theorem set?_cells {index : Nat} (fits : site.Fits m) (inside : index < locals.length) :
    (site.cells locals operands).set? (site.frame.base + index) cell =
      some (site.cells (locals.set index cell) operands) := by
  have base := fits.base
  refine Cells.set?_eq_some_iff.mpr ⟨?_, ?_⟩
  · rw [← Cells.length_toList, toList_cells]
    simp only [List.length_append]
    omega
  · rw [toList_cells, toList_cells, List.append_assoc, List.append_assoc, List.append_assoc,
      List.append_assoc, List.set_append_right _ _ (by omega), List.set_append_left _ _ (by omega)]
    congr 3
    omega

theorem peekAbove?_cells (fits : site.Fits m) (count : locals.length = site.frame.localCount) :
    (site.cells locals (cell :: operands)).peekAbove? (site.frameAt ip).operandBase =
      some cell := by
  refine Cells.peekAbove?_eq_some_iff.mpr ⟨?_, ?_⟩
  · rw [height_cells fits count]
    change site.frame.operandBase < _
    simp only [List.length_cons]
    omega
  · rw [toList_cells, List.reverse_cons, ← List.append_assoc, List.getLast?_concat]

theorem locate_frameAt {index : Nat} (inside : index < site.frame.localCount) :
    Plain.locate (site.frameAt ip) index = .ok (site.frame.base + index) :=
  Plain.locate_eq_ok_iff.mpr ⟨inside, rfl⟩

/-- A plain instruction does to the cells what it does to locals and operands, or traps like it. -/
theorem exec_of_eval {op : Plain} {ending : Ending} (ip : Nat) (fits : site.Fits m)
    (count : locals.length = site.frame.localCount)
    (evaluates : op.eval locals operands = some ending) :
    (∃ locals' operands', ending = .done locals' operands' ∧
      op.exec (site.frameAt ip) (site.cells locals operands) =
        .ok (site.cells locals' operands')) ∨
    (∃ t, ending = .trap t ∧
      op.exec (site.frameAt ip) (site.cells locals operands) = .error (.trap t)) := by
  have pop : ∀ {cell operands}, (site.frameAt ip).pop (site.cells locals (cell :: operands)) =
      .ok (cell, site.cells locals operands) := pop_cells fits count
  cases op with
  | unreachable =>
    cases evaluates
    exact .inr ⟨_, rfl, rfl⟩
  | nop =>
    cases evaluates
    exact .inl ⟨_, _, rfl, rfl⟩
  | drop =>
    cases operands with
    | nil => cases evaluates
    | cons cell operands =>
      cases evaluates
      refine .inl ⟨_, _, rfl, ?_⟩
      exact except_bind_eq_ok_iff.mpr ⟨_, pop, rfl⟩
  | select =>
    match operands, evaluates with
    | condition :: second :: first :: operands, evaluates =>
      cases evaluates
      refine .inl ⟨_, _, rfl, ?_⟩
      refine except_bind_eq_ok_iff.mpr ⟨_, pop, ?_⟩
      refine except_bind_eq_ok_iff.mpr ⟨_, pop, ?_⟩
      refine except_bind_eq_ok_iff.mpr ⟨_, pop, ?_⟩
      rw [← push_cells]
      rfl
  | localGet index =>
    obtain ⟨cell, found, same⟩ := Option.bind_eq_some_iff.mp evaluates
    cases same
    have inside := (List.getElem?_eq_some_iff.mp found).1
    refine .inl ⟨_, _, rfl, ?_⟩
    refine except_bind_eq_ok_iff.mpr ⟨_, locate_frameAt (by omega), ?_⟩
    rw [get?_cells fits inside, found, ← push_cells]
    rfl
  | localSet index =>
    cases operands with
    | nil => cases evaluates
    | cons cell operands =>
      obtain ⟨inside, same⟩ := Option.ite_none_right_eq_some.mp evaluates
      cases same
      refine .inl ⟨_, _, rfl, ?_⟩
      refine except_bind_eq_ok_iff.mpr ⟨_, locate_frameAt (by omega), ?_⟩
      refine except_bind_eq_ok_iff.mpr ⟨_, pop, ?_⟩
      exact Plain.store_eq_ok_iff.mpr (set?_cells fits inside)
  | localTee index =>
    cases operands with
    | nil => cases evaluates
    | cons cell operands =>
      obtain ⟨inside, same⟩ := Option.ite_none_right_eq_some.mp evaluates
      cases same
      refine .inl ⟨_, _, rfl, ?_⟩
      refine except_bind_eq_ok_iff.mpr ⟨_, locate_frameAt (by omega), ?_⟩
      rw [peekAbove?_cells fits count]
      exact Plain.store_eq_ok_iff.mpr (set?_cells fits inside)
  | const value =>
    cases evaluates
    refine .inl ⟨_, _, rfl, ?_⟩
    rw [← push_cells]
    rfl
  | numeric op =>
    cases op with
    | unary op =>
      cases operands with
      | nil => cases evaluates
      | cons x operands =>
        cases evaluates
        refine .inl ⟨_, _, rfl, ?_⟩
        refine except_bind_eq_ok_iff.mpr ⟨_, pop, ?_⟩
        rw [← push_cells]
        rfl
    | binary op =>
      match operands, evaluates with
      | y :: x :: operands, evaluates =>
        cases value : op.eval x y with
        | ok result =>
          rw [Plain.eval_binary, value] at evaluates
          cases evaluates
          refine .inl ⟨_, _, rfl, ?_⟩
          simp only [Plain.exec, Numeric.exec, pop, bind, Except.bind, value, push_cells]
          rfl
        | error trap =>
          rw [Plain.eval_binary, value] at evaluates
          cases evaluates
          refine .inr ⟨_, rfl, ?_⟩
          simp only [Plain.exec, Numeric.exec, pop, bind, Except.bind, value]
          rfl

end Site

/-! ### Lookups -/

section Lookups

variable {m : Module} {frame : Frame} {height : Nat} {bytes : List UInt8}
  {opcode : Opcode} {instr : Instr}

/-- The machine reads the instruction whose form stands at its offset. -/
theorem fetch_of_decoded (known : ∃ func, m.funcs[frame.func]? = some func)
    (decoded : Decoded bytes opcode instr) (written : BytesAt (m.code frame.func) frame.ip bytes)
    (room : opcode = .brTable → frame.operandBase < height) :
    fetch m height frame = instr.fetched m (frame.ip + bytes.length) := by
  obtain ⟨func, known⟩ := known
  rw [Module.code_of_known known] at written
  obtain @⟨byte, xs, _, read, _, opcodeKnown, supported, reads⟩ := decoded
  have next : frame.ip + 1 + xs.length = frame.ip + (byte :: xs).length := by
    simp only [List.length_cons]
    omega
  rw [fetch_of_read known ⟨byte, written.1, opcodeKnown⟩ supported (reads _ _ written.2) room, next]

/-- The arity that the machine gives a block is the number of its results. -/
theorem Module.blockArity_of_blockResults? {type : BlockType} {arity : Nat}
    (typed : m.blockResults? type = some arity) : m.blockArity type = .ok arity := by
  cases type with
  | empty =>
    cases typed
    rfl
  | value type =>
    cases typed
    rfl
  | index index =>
    obtain ⟨type, found, typed⟩ := Option.bind_eq_some_iff.mp typed
    obtain ⟨⟨plain, single⟩, same⟩ := Option.ite_none_right_eq_some.mp typed
    cases same
    have supported : ¬ (type.params ≠ [] ∨ 1 < type.results.length) := by
      rintro (params | many)
      · exact params plain
      · omega
    simp only [blockArity, found, if_neg supported]

/-- The table gives the machine the function or the trap that it gives the program. -/
theorem Module.tableFunc_of_tableTarget? {type index : Nat} {target : Except Trap Nat}
    (found : m.tableTarget? type index = some target) :
    ∃ expected, m.types[type]? = some expected ∧
      m.tableFunc expected index = target.mapError .trap := by
  obtain ⟨expected, known, found⟩ := Option.bind_eq_some_iff.mp found
  refine ⟨expected, known, ?_⟩
  unfold tableFunc Table.slot?
  cases slot : m.table.bind (·.slots[index]?) with
  | none =>
    rw [slot] at found
    cases found
    rfl
  | some entry =>
    rw [slot] at found
    cases entry with
    | none =>
      cases found
      rfl
    | some func =>
      obtain ⟨actual, typed, same⟩ := Option.bind_eq_some_iff.mp found
      cases same
      simp only [typed]
      split
      · rfl
      · rfl

end Lookups

end Wasm
