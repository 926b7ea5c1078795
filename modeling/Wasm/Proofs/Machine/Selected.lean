import Mathlib.Algebra.Group.Nat.Defs
import Wasm.Proofs.Machine.Immediates
import Wasm.Proofs.Module.WellTyped

/-!
Instructions that select by an index.

A `br_table` and a `call_indirect` take an index off the stack and look something up with it, a
label among their own immediates or a function in the table of the module. What follows is a plain
branch or a plain call. Both are stated here as that: one step at the selecting instruction has the
outcome of the instruction that it selects, on the stack without the index, of which only the low 32
bits count. `State.advanceWith` says so of instructions that need not be in the code. Nothing is
assumed of the state.

* `LabelTable.reads`, `LabelTable.Fails.skip_eq`: the labels are read one behind the other, up to
  the first that does not decode;
* `State.advance_brTable`: a `br_table` is a `br` to the label that its index selects;
* `State.advance_callIndirect`: a `call_indirect` is a `call` of the function that its index
  selects, once that has been checked.
-/

namespace Wasm

theorem Cell.index_eq_mod (cell : Cell) : Cell.index cell = cell.toNat % 2 ^ 32 := by
  simp [Cell.index]

/-! ### Tables of labels -/

namespace Reader

variable {α : Type} {element : Reader α} {bytes : Bytes}

/-- Elements stand one behind the other, the first at `pos` and the last before `stop`. -/
inductive Listed (element : Reader α) (bytes : Bytes) : (pos : Nat) → List α → (stop : Nat) → Prop
  | nil {pos} : Listed element bytes pos [] pos
  | cons {pos after stop a as} (first : element bytes pos = .ok (a, after))
      (others : Listed element bytes after as stop) : Listed element bytes pos (a :: as) stop

/-- A loop that collects elements passes those that are there. -/
theorem Listed.iterate_eq {pos stop : Nat} {as : List α} (listed : Listed element bytes pos as stop)
    (more : Nat) (acc : Array α) :
    iterate (fun acc => do let a ← element; pure (acc.push a)) bytes (as.length + more) acc pos =
      iterate (fun acc => do let a ← element; pure (acc.push a)) bytes more (acc ++ as.toArray)
        stop := by
  induction listed generalizing acc with
  | nil => rw [List.length_nil, Nat.zero_add, Array.append_empty]
  | @cons pos after stop a as first _ ih =>
    have one : (do let a ← element; pure (acc.push a) : Reader (Array α)) bytes pos =
        .ok (acc.push a, after) := by
      rw [bind_ok first, pure_apply]
    have both : acc.push a ++ as.toArray = acc ++ (a :: as).toArray := by
      apply Array.ext'
      simp
    rw [List.length_cons, Nat.add_right_comm, iterate, one, ← both]
    exact ih (acc.push a)

/-- A count of elements that are all there is a vector of them. -/
theorem Listed.vector_eq {pos start stop : Nat} {as : List α}
    (counted : Leb128.u32 bytes pos = .ok (as.length, start))
    (listed : Listed element bytes start as stop) :
    vector element bytes pos = .ok (as.toArray, stop) := by
  have read := listed.iterate_eq 0 #[]
  rw [Nat.add_zero, Array.empty_append, iterate] at read
  exact (bind_ok counted).trans read

/-- A vector whose count promises more elements than there are fails like the first that is
missing. -/
theorem Listed.vector_error {pos start stop count : Nat} {as : List α} {e : DecodeError}
    (counted : Leb128.u32 bytes pos = .ok (count, start))
    (listed : Listed element bytes start as stop) (promised : as.length < count)
    (fails : element bytes stop = .error e) : vector element bytes pos = .error e := by
  obtain ⟨more, rfl⟩ : ∃ more, count = as.length + (more + 1) := ⟨count - as.length - 1, by omega⟩
  have read := listed.iterate_eq (more + 1) #[]
  rw [iterate, bind_error fails] at read
  exact (bind_ok counted).trans read

/-- As many elements as wanted are there, or one fails before. -/
theorem Listed.total (element : Reader α) (bytes : Bytes) (count pos : Nat) :
    (∃ as stop, as.length = count ∧ Listed element bytes pos as stop) ∨
      ∃ as stop e, as.length < count ∧ Listed element bytes pos as stop ∧
        element bytes stop = .error e := by
  induction count generalizing pos with
  | zero => exact .inl ⟨[], pos, rfl, .nil⟩
  | succ count ih =>
    cases first : element bytes pos with
    | error e => exact .inr ⟨[], pos, e, Nat.succ_pos count, .nil, first⟩
    | ok value =>
      obtain ⟨a, after⟩ := value
      rcases ih after with ⟨as, stop, rfl, listed⟩ | ⟨as, stop, e, few, listed, fails⟩
      · exact .inl ⟨a :: as, stop, rfl, .cons first listed⟩
      · exact .inr ⟨a :: as, stop, e, Nat.succ_lt_succ few, .cons first listed, fails⟩

end Reader

/-- The immediates of a `br_table`: a count, that many labels, and the default label. -/
inductive LabelTable (code : Bytes) (pos : Nat) : List Nat → (default next : Nat) → Prop
  | mk {labels default start stop next} (counted : Leb128.u32 code pos = .ok (labels.length, start))
      (listed : Reader.Listed Leb128.u32 code start labels stop)
      (last : Leb128.u32 code stop = .ok (default, next)) : LabelTable code pos labels default next

namespace LabelTable

/-- The first of the immediates of a `br_table` that does not decode is the count, or else the label
or the default label behind those labels that do. -/
inductive Fails (code : Bytes) (pos : Nat) (e : DecodeError) : Prop
  | count (fails : Leb128.u32 code pos = .error e)
  | label {count start labels stop} (counted : Leb128.u32 code pos = .ok (count, start))
      (listed : Reader.Listed Leb128.u32 code start labels stop) (promised : labels.length ≤ count)
      (fails : Leb128.u32 code stop = .error e)

variable {code : Bytes} {pos next default : Nat} {labels : List Nat} {e : DecodeError}

theorem or_fails (code : Bytes) (pos : Nat) :
    (∃ labels default next, LabelTable code pos labels default next) ∨ ∃ e, Fails code pos e := by
  cases counted : Leb128.u32 code pos with
  | error e => exact .inr ⟨e, .count counted⟩
  | ok value =>
    obtain ⟨count, start⟩ := value
    rcases Reader.Listed.total Leb128.u32 code count start with
      ⟨labels, stop, rfl, listed⟩ | ⟨labels, stop, e, few, listed, fails⟩
    · cases last : Leb128.u32 code stop with
      | error e => exact .inr ⟨e, .label counted listed (Nat.le_refl _) last⟩
      | ok value => exact .inl ⟨labels, value.1, value.2, .mk counted listed last⟩
    · exact .inr ⟨e, .label counted listed (Nat.le_of_lt few) fails⟩

theorem reads (table : LabelTable code pos labels default next) :
    (do
      let depths ← Reader.vector Leb128.u32
      let default ← Leb128.u32
      pure (Instr.brTable depths default) : Reader Instr) code pos =
      .ok (.brTable labels.toArray default, next) := by
  obtain ⟨counted, listed, last⟩ := table
  rw [Reader.bind_ok (listed.vector_eq counted), Reader.bind_ok last, Reader.pure_apply]

theorem Fails.skip_eq (fails : Fails code pos e) : Shape.labelTable.skip code pos = .error e := by
  cases fails with
  | count fails =>
    have vector : Reader.vector Leb128.u32 code pos = .error e := Reader.bind_error fails
    exact Reader.bind_error vector
  | label counted listed promised fails =>
    rcases Nat.lt_or_eq_of_le promised with few | rfl
    · exact Reader.bind_error (listed.vector_error counted few fails)
    · rw [Shape.skip, Reader.bind_ok (listed.vector_eq counted), Reader.bind_error fails]

end LabelTable

/-! ### What is fetched -/

section Fetch

variable {m : Module} {height next : Nat} {frame : Frame}

theorem fetch_brTable {labels : List Nat} {default : Nat}
    (stands : OpcodeAt (m.code frame.func) frame.ip .brTable)
    (table : LabelTable (m.code frame.func) (frame.ip + 1) labels default next)
    (room : frame.operandBase < height) :
    fetch m height frame = .ok ⟨.brTable labels.toArray default, next, 0⟩ :=
  fetch_of_opcodeAt stands rfl table.reads fun _ => room

theorem fetch_brTable_of_fails {e : DecodeError}
    (stands : OpcodeAt (m.code frame.func) frame.ip .brTable)
    (fails : LabelTable.Fails (m.code frame.func) (frame.ip + 1) e)
    (room : frame.operandBase < height) :
    fetch m height frame = .error (.malformedOperand frame.func e) := by
  rw [fetch_of_skip_error stands (by decide) fails.skip_eq, if_neg]
  rintro ⟨-, low⟩
  exact Nat.not_le.mpr room low

theorem fetch_callIndirect {type table tableAt : Nat} (height : Nat)
    (stands : OpcodeAt (m.code frame.func) frame.ip .callIndirect)
    (typed : Leb128.u32 (m.code frame.func) (frame.ip + 1) = .ok (type, tableAt))
    (tabled : Leb128.u32 (m.code frame.func) tableAt = .ok (table, next)) :
    fetch m height frame = .ok ⟨.callIndirect type table, next, 0⟩ := by
  have reads : (do
      let type ← Leb128.u32
      let table ← Leb128.u32
      pure (Instr.callIndirect type table) : Reader Instr) (m.code frame.func) (frame.ip + 1) =
      .ok (.callIndirect type table, next) := by
    rw [Reader.bind_ok typed, Reader.bind_ok tabled, Reader.pure_apply]
  exact fetch_of_opcodeAt stands rfl reads nofun

end Fetch

/-! ### Branches -/

namespace State

variable {m : Module} {config : Config} {record : Record} {s : State} {frame : Frame}
  {frames : List Frame} {rest : Cells} {index : Cell} {next : Nat}

theorem advanceWith_brTable {labels : List Nat} {default depth : Nat}
    (popped : frame.pop s.cells = .ok (index, rest))
    (selects : labels[Cell.index index]?.getD default = depth) :
    s.advanceWith m config record frame ⟨.brTable labels.toArray default, next, 0⟩ =
      (⟨rest, s.frames, s.labels⟩ : State).advanceWith m config record frame
        ⟨.br depth, next, 0⟩ := by
  simp only [advanceWith, Record.consult, Fetched.scanStart?, exec, execM, Id.run_pure,
    pop_of_frame popped, selectLabel_eq, List.getElem?_toArray, selects]

/-- A `br_table` is a `br` on the stack without the index: to the label that the low 32 bits of the
index count out, or to the default label when there are no more labels than that. All its immediates
have to decode, whichever is selected, and the first that does not is the failure. -/
theorem advance_brTable (config : Config) (record : Record) (running : s.frames = frame :: frames)
    (stands : OpcodeAt (m.code frame.func) frame.ip .brTable)
    (popped : frame.pop s.cells = .ok (index, rest)) :
    (∀ labels default next, LabelTable (m.code frame.func) (frame.ip + 1) labels default next →
      (∀ depth, labels[index.toNat % 2 ^ 32]? = some depth →
        s.advance m config record =
          (⟨rest, s.frames, s.labels⟩ : State).advanceWith m config record frame
            ⟨.br depth, next, 0⟩) ∧
      (labels.length ≤ index.toNat % 2 ^ 32 →
        s.advance m config record =
          (⟨rest, s.frames, s.labels⟩ : State).advanceWith m config record frame
            ⟨.br default, next, 0⟩)) ∧
    (∀ e, LabelTable.Fails (m.code frame.func) (frame.ip + 1) e →
      s.advance m config record = (.error (.malformedOperand frame.func e), record)) ∧
    ((∃ labels default next, LabelTable (m.code frame.func) (frame.ip + 1) labels default next) ∨
      ∃ e, LabelTable.Fails (m.code frame.func) (frame.ip + 1) e) := by
  have room : frame.operandBase < s.cells.height := (Frame.pop_eq_ok_iff.mp popped).1
  rw [← Cell.index_eq_mod]
  refine ⟨fun labels default next table => ?_, fun e fails => ?_, LabelTable.or_fails _ _⟩
  · have fetches := fetch_brTable stands table room
    rw [advance_of_fetch running fetches]
    constructor
    · intro depth found
      exact advanceWith_brTable popped (by rw [found, Option.getD_some])
    · intro beyond
      exact advanceWith_brTable popped (by rw [List.getElem?_eq_none beyond, Option.getD_none])
  · exact advance_of_fetch_error running (fetch_brTable_of_fails stands fails room)

end State

namespace Sample

/-- A `br_table` with the labels 1 and 0, the first of them in two bytes, and the default label 2;
and a `br_table` whose second label is cut off. -/
def tables : Module :=
  { types := #[.new [] []]
    funcs := #[⟨0, 0, #[0x0E, 0x02, 0x81, 0x00, 0x00, 0x02, 0x0E, 0x02, 0x00, 0x80]⟩]
    exports := #[]
    table := none }

/-- The function of `tables` at an offset, inside two blocks and with an index on the stack. -/
def choosing (ip : Nat) (index : Cell) : State :=
  ⟨.ofList [index], [⟨0, ip, 0, 0, 0, 0⟩], [⟨.block, 0, 0, 20⟩, ⟨.block, 0, 0, 30⟩]⟩

end Sample

open Sample in
/-- The theorem at an index with high bits, at the last label, at the first index and the last one
beyond the labels, and at a table whose first label is selected and whose second does not decode. -/
theorem labels_of_tables_selected :
    (choosing 0 0xFFFFFFFF00000000).advance tables {} {} =
      (.ok ⟨.empty, [⟨0, 31, 0, 0, 0, 0⟩], []⟩, {}) ∧
    (choosing 0 1).advance tables {} {} =
      (.ok ⟨.empty, [⟨0, 21, 0, 0, 0, 0⟩], [⟨.block, 0, 0, 30⟩]⟩, {}) ∧
    (choosing 0 2).advance tables {} {} = (.ok ⟨.empty, [], []⟩, ⟨{}, #[.returned 0 0]⟩) ∧
    (choosing 0 0xFFFFFFFF).advance tables {} {} =
      (.ok ⟨.empty, [], []⟩, ⟨{}, #[.returned 0 0]⟩) ∧
    (choosing 6 0).advance tables {} {} =
      (.error (.malformedOperand 0 (.unexpectedEnd 10)), {}) := by
  have stands : OpcodeAt (tables.code 0) 0 .brTable := ⟨0x0E, rfl, rfl⟩
  have wide : Leb128.u32 (tables.code 0) 2 = .ok (1, 4) :=
    toOption_eq_some_iff.mp (by decide +kernel)
  have table : LabelTable (tables.code 0) 1 [1, 0] 2 6 :=
    .mk rfl (.cons wide (.cons rfl .nil)) rfl
  have popped : ∀ index, Frame.pop ⟨0, 0, 0, 0, 0, 0⟩ (choosing 0 index).cells =
      .ok (index, .empty) := fun _ => rfl
  have selects := fun index =>
    (State.advance_brTable {} {} rfl stands (popped index)).1 _ _ _ table
  have cut : OpcodeAt (tables.code 0) 6 .brTable := ⟨0x0E, rfl, rfl⟩
  have fails : LabelTable.Fails (tables.code 0) 7 (.unexpectedEnd 10) :=
    .label rfl (.cons rfl .nil) (by decide) rfl
  refine ⟨?_, ?_, ?_, ?_, ?_⟩
  · exact (selects _).1 1 (by decide)
  · exact (selects _).1 0 (by decide)
  · exact (selects _).2 (by decide)
  · exact (selects _).2 (by decide)
  · exact (State.advance_brTable (s := choosing 6 0) {} {} rfl cut rfl).2.1 _ fails

/-! ### Calls -/

namespace State

variable {m : Module} {config : Config} {record : Record} {s : State} {frame : Frame}
  {frames : List Frame} {rest : Cells} {index : Cell} {next : Nat}

theorem advanceWith_callIndirect_of_error {type : Nat} {expected : FuncType} {e : Error}
    (known : m.types[type]? = some expected) (popped : frame.pop s.cells = .ok (index, rest))
    (fails : m.tableFunc expected (Cell.index index) = .error e) :
    s.advanceWith m config record frame ⟨.callIndirect type 0, next, 0⟩ = (.error e, record) := by
  simp only [advanceWith, Record.consult, Fetched.scanStart?, exec, execM, Id.run_pure, ne_eq,
    not_true, if_false, known, pop_of_frame popped, fails]

theorem advanceWith_callIndirect {type func : Nat} {expected : FuncType}
    (known : m.types[type]? = some expected) (popped : frame.pop s.cells = .ok (index, rest))
    (selects : m.tableFunc expected (Cell.index index) = .ok func) :
    s.advanceWith m config record frame ⟨.callIndirect type 0, next, 0⟩ =
      (⟨rest, s.frames, s.labels⟩ : State).advanceWith m config record frame
        ⟨.call func, next, 0⟩ := by
  simp only [advanceWith, Record.consult, Fetched.scanStart?, exec, execM, Id.run_pure, ne_eq,
    not_true, if_false, known, pop_of_frame popped, selects]

/-- A `call_indirect` is a `call` of the function in the slot that the low 32 bits of the index
count out, on the stack without the index and with the same place to return to. Before that the slot
has to exist, not to be empty, and to hold a function of the module with the parameters and results
of the type that is given. -/
theorem advance_callIndirect {bytes : Bytes} {type tableAt : Nat} {expected : FuncType}
    (config : Config) (record : Record) (decoded : Module.decode bytes = .ok m)
    (running : s.frames = frame :: frames)
    (stands : OpcodeAt (m.code frame.func) frame.ip .callIndirect)
    (typed : Leb128.u32 (m.code frame.func) (frame.ip + 1) = .ok (type, tableAt))
    (first : Leb128.u32 (m.code frame.func) tableAt = .ok (0, next))
    (known : m.types[type]? = some expected) (popped : frame.pop s.cells = .ok (index, rest)) :
    (m.table = none →
      s.advance m config record = (.error (.trap .undefinedElement), record)) ∧
    ∀ table, m.table = some table →
      (table.size ≤ index.toNat % 2 ^ 32 →
        s.advance m config record = (.error (.trap .undefinedElement), record)) ∧
      (table.slots[index.toNat % 2 ^ 32]? = some none →
        s.advance m config record = (.error (.trap .uninitializedElement), record)) ∧
      ∀ func, table.slots[index.toNat % 2 ^ 32]? = some (some func) →
        (m.funcs.size ≤ func →
          s.advance m config record = (.error (.unknownFunc func), record)) ∧
        (func < m.funcs.size → ∃ actual, m.funcType? func = some actual ∧
          (¬ (actual.params = expected.params ∧ actual.results = expected.results) →
            s.advance m config record = (.error (.trap .signatureMismatch), record)) ∧
          (actual.params = expected.params ∧ actual.results = expected.results →
            s.advance m config record =
              (⟨rest, s.frames, s.labels⟩ : State).advanceWith m config record frame
                ⟨.call func, next, 0⟩)) := by
  have fetches := fetch_callIndirect s.cells.height stands typed first
  have fails : ∀ e, m.tableFunc expected (Cell.index index) = .error e →
      s.advance m config record = (.error e, record) := by
    intro e fails
    rw [advance_of_fetch running fetches, advanceWith_callIndirect_of_error known popped fails]
  rw [← Cell.index_eq_mod]
  refine ⟨fun none => fails _ (by simp [Module.tableFunc, none]), fun table tabled => ⟨?_, ?_, ?_⟩⟩
  · intro beyond
    have missing : table.slot? (Cell.index index) = none := Array.getElem?_eq_none beyond
    exact fails _ (by simp [Module.tableFunc, tabled, missing])
  · intro empty
    have held : table.slot? (Cell.index index) = some none := empty
    exact fails _ (by simp [Module.tableFunc, tabled, held])
  · intro func filled
    have held : table.slot? (Cell.index index) = some (some func) := filled
    constructor
    · intro large
      have unknown : m.funcType? func = none := by
        simp [Module.funcType?, Array.getElem?_eq_none large]
      exact fails _ (by simp [Module.tableFunc, tabled, held, unknown])
    · intro small
      have callee : m.funcs[func]? = some m.funcs[func] := Array.getElem?_eq_getElem small
      obtain ⟨actual, declared⟩ := Module.WellTyped.of_decode decoded func _ callee
      have typeOf : m.funcType? func = some actual := by
        rw [Module.funcType?, callee]
        exact declared
      refine ⟨actual, typeOf, fun differs => ?_, fun same => ?_⟩
      · rw [← FuncType.eq_iff] at differs
        exact fails _ (by simp [Module.tableFunc, tabled, held, typeOf, differs])
      · obtain rfl := FuncType.eq_iff.mpr same
        have selects : m.tableFunc actual (Cell.index index) = .ok func := by
          simp [Module.tableFunc, tabled, held, typeOf]
        rw [advance_of_fetch running fetches, advanceWith_callIndirect known popped selects]

end State

namespace Sample

/-- A function that calls through the table with a type of one parameter. Of the four slots, two
hold functions, the types of which have the same value types in all, one is empty, and one holds no
function of the module. -/
def dispatch : Module :=
  { types := #[.new [.i32] [], .new [] [.i32], .new [.i32] [], .new [] []]
    funcs := #[⟨3, 0, #[0x11, 0x00, 0x00, 0x0B]⟩, ⟨2, 0, #[0x0B]⟩, ⟨1, 0, #[0x41, 0x07, 0x0B]⟩]
    exports := #[]
    table := some ⟨#[some 1, some 2, none, some 9]⟩ }

def dispatchBytes : Bytes :=
  #[0x00, 0x61, 0x73, 0x6D, 0x01, 0x00, 0x00, 0x00,
    0x01, 0x10, 0x04, 0x60, 0x01, 0x7F, 0x00, 0x60, 0x00, 0x01, 0x7F,
    0x60, 0x01, 0x7F, 0x00, 0x60, 0x00, 0x00,
    0x03, 0x04, 0x03, 0x03, 0x02, 0x01,
    0x04, 0x04, 0x01, 0x70, 0x00, 0x04,
    0x09, 0x0E, 0x02, 0x00, 0x41, 0x00, 0x0B, 0x02, 0x01, 0x02,
    0x00, 0x41, 0x03, 0x0B, 0x01, 0x09,
    0x0A, 0x0F, 0x03, 0x05, 0x00, 0x11, 0x00, 0x00, 0x0B, 0x02, 0x00, 0x0B,
    0x04, 0x00, 0x41, 0x07, 0x0B]

/-- The first function of `dispatch` with an argument and an index on the stack. -/
def dispatching (index : Cell) : State :=
  ⟨.ofList [7, index], [⟨0, 0, 0, 0, 0, 0⟩], []⟩

end Sample

open Sample in
/-- The theorem at each slot of the table, the first by an index with high bits, and behind the
last: a function whose type is another with the same parameters and results is called, one that has
the parameter as its result is not. -/
theorem slots_of_dispatch_called :
    (dispatching 0xFFFFFFFF00000000).advance dispatch {} {} =
      (.ok ⟨.ofList [7], [⟨1, 0, 0, 1, 0, 0⟩, ⟨0, 3, 0, 0, 0, 0⟩], []⟩, ⟨{}, #[.entered 1 2]⟩) ∧
    (dispatching 1).advance dispatch {} {} = (.error (.trap .signatureMismatch), {}) ∧
    (dispatching 2).advance dispatch {} {} = (.error (.trap .uninitializedElement), {}) ∧
    (dispatching 3).advance dispatch {} {} = (.error (.unknownFunc 9), {}) ∧
    (dispatching 4).advance dispatch {} {} = (.error (.trap .undefinedElement), {}) := by
  have decoded : Module.decode dispatchBytes = .ok dispatch :=
    toOption_eq_some_iff.mp (by decide +kernel)
  have stands : OpcodeAt (dispatch.code 0) 0 .callIndirect := ⟨0x11, rfl, rfl⟩
  have popped : ∀ index, Frame.pop ⟨0, 0, 0, 0, 0, 0⟩ (dispatching index).cells =
      .ok (index, .ofList [7]) := fun _ => rfl
  have checked := fun index =>
    (State.advance_callIndirect {} {} decoded rfl stands rfl rfl rfl (popped index)).2 _ rfl
  refine ⟨?_, ?_, ?_, ?_, ?_⟩
  · obtain ⟨actual, typed, -, same⟩ :=
      ((checked 0xFFFFFFFF00000000).2.2 1 (by decide)).2 (by decide)
    cases typed
    exact same ⟨rfl, rfl⟩
  · obtain ⟨actual, typed, differs, -⟩ := ((checked 1).2.2 2 (by decide)).2 (by decide)
    cases typed
    exact differs (by decide)
  · exact (checked _).2.1 (by decide)
  · exact ((checked _).2.2 9 (by decide)).1 (by decide)
  · exact (checked _).1 (by decide)

end Wasm
