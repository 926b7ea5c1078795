import Wasm.Proofs.Instr.Extension
import Wasm.Proofs.Machine.Cache
import Wasm.Proofs.Machine.Control

/-!
What stands behind a whole body makes no difference.

A function returns when it comes to an `end` with no block open, and also when its code has nothing
more to run. So the `end` of a body can be left out, and what stands behind it is never reached: no
jump leads past the end of a whole body, and no scan looks there.

`Module.Padded m m'` says that `m'` is `m` with an `end` and anything else put behind some of its
whole bodies. Two runs of the same function in `m` and in `m'` go through the same states.

* `fetch_padded`: the machine reads the same instruction, or it returns in two ways;
* `State.advance_padded`: a step does the same to every state of `m` whose activations are in place;
* `State.run_padded`: so do runs, by induction on the fuel;
* `invoke_ignores_code_behind_body`: replacing what stands behind a whole body changes neither the
  outcome of any invocation nor what it reports.
-/

namespace Wasm

/-! ### Modules that differ behind their bodies -/

/-- The second function is the first, or has an `end` and more behind the first one's body. -/
inductive Func.Padded (f : Func) : Func → Prop where
  | same : Padded f f
  | ended (whole : Whole f.body.code) (rest : Bytes) :
      Padded f { f with body := { f.body with code := f.body.code ++ (#[0x0B] ++ rest) } }

theorem Func.Padded.kept {f f' : Func} (padded : f.Padded f') :
    f'.type = f.type ∧ f'.body.localCount = f.body.localCount := by
  cases padded with
  | same => exact ⟨rfl, rfl⟩
  | ended => exact ⟨rfl, rfl⟩

/-- The modules are the same but for what stands behind bodies. -/
structure Module.Padded (m padded : Module) : Prop where
  types : padded.types = m.types
  table : padded.table = m.table
  funcs : ∀ index : Nat, Option.Rel Func.Padded m.funcs[index]? padded.funcs[index]?

namespace Module.Padded

variable {m m' : Module} {config : Config}

/-- A function is in both modules or in none. -/
theorem func_cases (padded : Padded m m') (index : Nat) :
    (m.funcs[index]? = none ∧ m'.funcs[index]? = none) ∨
      ∃ f f', m.funcs[index]? = some f ∧ m'.funcs[index]? = some f' ∧ f.Padded f' := by
  have related := padded.funcs index
  generalize m.funcs[index]? = first at related
  generalize m'.funcs[index]? = second at related
  cases related with
  | none => exact .inl ⟨rfl, rfl⟩
  | some related => exact .inr ⟨_, _, rfl, rfl, related⟩

theorem funcType?_eq (padded : Padded m m') (func : Nat) :
    m'.funcType? func = m.funcType? func := by
  unfold funcType?
  rw [padded.types]
  rcases padded.func_cases func with ⟨unknown, unknown'⟩ | ⟨f, f', known, known', alike⟩
  · rw [unknown, unknown']
  · simp only [known, known', Option.bind_some, alike.kept.1]

theorem blockArity_eq (padded : Padded m m') : m'.blockArity = m.blockArity := by
  funext type
  unfold blockArity
  rw [padded.types]

theorem tableFunc_eq (padded : Padded m m') (expected : FuncType) (index : Nat) :
    m'.tableFunc expected index = m.tableFunc expected index := by
  unfold tableFunc
  rw [padded.table]
  simp only [padded.funcType?_eq]

/-- Entering a function does not look at its code. -/
theorem enter_eq (padded : Padded m m') (config : Config) (func : Nat) (s : State) :
    s.enter m' config func = s.enter m config func := by
  unfold State.enter
  rcases padded.func_cases func with ⟨unknown, unknown'⟩ | ⟨f, f', known, known', alike⟩
  · rw [unknown, unknown']
  · simp only [known, known', padded.types, alike.kept]

theorem start_eq (padded : Padded m m') (config : Config) (state : State) (func : Nat)
    (args : List Cell) :
    Instance.start m' config state func args = Instance.start m config state func args := by
  unfold Instance.start
  simp only [padded.funcType?_eq, padded.enter_eq]

/-- Executing an instruction looks at code only for the targets of the block that it opens. -/
theorem exec_eq (padded : Padded m m') {targets targets' : Nat → Except DecodeError BlockTargets}
    {frame : Frame} {fetched : Fetched} (s : State)
    (found : ∀ start, fetched.scanStart? = some start → targets' start = targets start) :
    s.exec m' config targets' frame fetched = s.exec m config targets frame fetched := by
  cases instr : fetched.instr with
  | block type =>
    have same := found fetched.next (by simp only [Fetched.scanStart?, instr])
    simp only [State.exec, State.execM, instr, pure_bind, Id.run_pure, same]
  | ifThen type =>
    have same := found fetched.next (by simp only [Fetched.scanStart?, instr])
    simp only [State.exec, State.execM, instr, pure_bind, Id.run_pure, same]
  | call func => simp only [State.exec, State.execM, instr, Id.run_pure, padded.enter_eq]
  | callIndirect type table =>
    simp only [State.exec, State.execM, instr, Id.run_pure, padded.types, padded.tableFunc_eq,
      padded.enter_eq]
  | _ => simp only [State.exec, State.execM, instr, Id.run_pure]

end Module.Padded

/-! ### The instruction that is read, and the targets that are found -/

section Code

variable {m m' : Module} {frame : Frame} {opens : List Opener}

/-- In place, the machine reads the same instruction; behind a whole body, it finds nothing and
returns, or finds the `end` that makes it return. -/
theorem fetch_padded (padded : Module.Padded m m')
    (boundary : Boundary (m.code frame.func) frame.ip opens) (height : Nat) :
    fetch m' height frame = fetch m height frame ∨
      (opens = [] ∧ fetch m height frame = .ok ⟨.ret, frame.ip, 0⟩ ∧
        fetch m' height frame = .ok ⟨.endBlock, frame.ip + 1, 0⟩) := by
  rcases padded.func_cases frame.func with ⟨unknown, unknown'⟩ | ⟨f, f', known, known', alike⟩
  · exact .inl (by simp only [fetch, unknown, unknown'])
  rw [Module.code_of_known known] at boundary
  cases alike with
  | same => exact .inl (by simp only [fetch, known, known', padded.blockArity_eq])
  | ended whole rest =>
    rcases Nat.lt_or_eq_of_le boundary.le_size with inside | atEnd
    · obtain ⟨opcode, next, instr⟩ := boundary.exists_instr whole inside
      obtain ⟨⟨byte, found, isOpcode⟩, skipped⟩ := instr
      have found' : (f.body.code ++ (#[0x0B] ++ rest))[frame.ip]? = some byte := by
        rw [Array.getElem?_append_left inside, found]
      left
      simp only [fetch, known, known', found, found', isOpcode, padded.blockArity_eq]
      cases supported : opcode.instr? with
      | none => rfl
      | some read =>
        -- What can be skipped in the body can be read there, and then also with more behind it.
        rw [Opcode.skip_eq_read supported] at skipped
        obtain ⟨decoded, after, result, -⟩ := Reader.bind_eq_ok_iff.mp skipped
        have result' := (Opcode.local_instr? supported).append (i := ()) result (#[0x0B] ++ rest)
        simp only [result, result']
    · have nothing : f.body.code[frame.ip]? = none := by
        rw [atEnd]
        exact Array.getElem?_eq_none (Nat.le_refl _)
      have ending : (f.body.code ++ (#[0x0B] ++ rest))[frame.ip]? = some 0x0B := by
        rw [atEnd, Array.getElem?_append_right (Nat.le_refl _), Nat.sub_self,
          Array.getElem?_append_left Nat.zero_lt_one]
        rfl
      rw [atEnd] at boundary
      refine .inr ⟨boundary.unique whole, ?_, ?_⟩
      · simp only [fetch, known, nothing]
      · simp only [fetch, known', ending]
        rfl

/-- The block that an instruction in place opens has the same targets. -/
theorem scan_padded {height start : Nat} {fetched : Fetched} (padded : Module.Padded m m')
    (boundary : Boundary (m.code frame.func) frame.ip opens)
    (fetches : fetch m height frame = .ok fetched) (needed : fetched.scanStart? = some start) :
    m'.scan frame.func start = m.scan frame.func start := by
  obtain ⟨rfl, o, inside⟩ : start = fetched.next ∧ ∃ o,
      Boundary (m.code frame.func) fetched.next (o :: opens) := by
    unfold Fetched.scanStart? at needed
    split at needed
    · rename_i type instr
      cases needed
      have stands : InstrAt (m.code frame.func) frame.ip (LabelKind.opcode .block) fetched.next :=
        Placed.opener_at fetches (by simp [instr, Instr.nest])
      exact ⟨rfl, _, boundary.behind_opener stands⟩
    · rename_i type instr
      cases needed
      have stands : InstrAt (m.code frame.func) frame.ip (LabelKind.opcode .cond) fetched.next :=
        Placed.opener_at fetches (by simp [instr, Instr.nest])
      exact ⟨rfl, _, boundary.behind_opener stands⟩
    · cases needed
  unfold Module.scan
  rcases padded.func_cases frame.func with ⟨unknown, unknown'⟩ | ⟨f, f', known, known', alike⟩
  · simp only [Module.code, unknown, unknown']
  · rw [Module.code_of_known known] at inside ⊢
    rw [Module.code_of_known known']
    cases alike with
    | same => rfl
    | ended whole rest => exact whole.scan_append inside _

end Code

theorem Record.blockTargets_congr {m m' : Module} {func start : Nat} (record : Record)
    (same : m'.scan func start = m.scan func start) :
    record.blockTargets m' func start = record.blockTargets m func start := by
  unfold blockTargets
  rw [same]

/-! ### Steps and runs -/

namespace State

variable {m m' : Module} {config : Config}

/-- A step of an activation in place does the same in both modules, and leaves the same record. -/
theorem advance_placed {cells : Cells} {frame : Frame} {frames : List Frame}
    {own rest : List Label} (padded : Module.Padded m m') (base : frame.labelBase = rest.length)
    (placed : Placed m frame own) (record : Record) :
    advance m' config ⟨cells, frame :: frames, own ++ rest⟩ record =
      advance m config ⟨cells, frame :: frames, own ++ rest⟩ record := by
  obtain ⟨opens, boundary, tracks⟩ := placed
  rcases fetch_padded padded boundary cells.height with same | ⟨rfl, returns, ends⟩
  · cases fetches : fetch m cells.height frame with
    | error e =>
      rw [advance_of_fetch_error rfl (same.trans fetches), advance_of_fetch_error rfl fetches]
    | ok fetched =>
      have asked : ∀ start, fetched.scanStart? = some start →
          record.blockTargets m' frame.func start = record.blockTargets m frame.func start :=
        fun _ needed => record.blockTargets_congr (scan_padded padded boundary fetches needed)
      have consulted :
          record.consult m' frame.func fetched = record.consult m frame.func fetched := by
        unfold Record.consult
        cases needed : fetched.scanStart? with
        | none => rfl
        | some start => simp only [asked start needed]
      rw [advance_of_fetch rfl (same.trans fetches), advance_of_fetch rfl fetches]
      unfold advanceWith
      rw [padded.exec_eq _ fun start needed => congrArg Prod.fst (asked start needed), consulted]
  · -- Behind a whole body no block is open, so that its `end` ends the function.
    cases tracks
    rw [advance_of_fetch rfl ends, advance_of_fetch rfl returns]
    simp only [advanceWith, Record.consult, Fetched.scanStart?, exec, execM, Id.run_pure,
      closeLabel, openCount_eq base, List.length_nil, if_true]

theorem advance_padded (padded : Module.Padded m m') {s : State}
    (stacked : Stacked (Placed m) s.frames s.labels) (record : Record) :
    s.advance m' config record = s.advance m config record := by
  obtain ⟨cells, frames, labels⟩ := s
  cases stacked with
  | nil => rfl
  | cons base placed _ => exact advance_placed padded base placed record

/-- A whole run does the same in both modules, and leaves the same record. -/
theorem run_padded (padded : Module.Padded m m') {s : State} {record : Record} (fuel : Nat)
    (stacked : Stacked (Placed m) s.frames s.labels) (sound : record.cache.Sound m) :
    s.run m' config fuel record = s.run m config fuel record := by
  induction fuel generalizing s record with
  | zero => rfl
  | succ fuel ih =>
    unfold run
    rw [advance_padded padded stacked]
    cases advanced : s.advance m config record with
    | mk result after =>
      cases result with
      | error e => rfl
      | ok t =>
        obtain ⟨⟨event, step⟩, sound'⟩ := step_of_advance sound advanced
        simp only [ih (Placed.of_step stacked step) sound']

end State

namespace Instance

variable {m m' : Module} {config : Config} {inst : Instance}

theorem execute_padded (padded : Module.Padded m m') (history : History m config inst)
    (fuel func : Nat) (args : List Cell) :
    ({ inst with program := m' } : Instance).reset.execute fuel func args =
      inst.reset.execute fuel func args := by
  unfold execute reset
  simp only [history.program_eq, history.config_eq, padded.start_eq]
  cases begun : start m config .empty func args with
  | error e => rfl
  | ok started =>
    obtain ⟨⟨s, event⟩, type⟩ := started
    have sound : (({ cache := inst.cache } : Record).report event).cache.Sound m := by
      rw [Record.cache_report]
      exact history.sound
    simp only [State.run_padded padded fuel (Placed.of_start begun) sound]

/-- Calls leave two instances that differ in their module alone. -/
theorem afterCalls_padded (padded : Module.Padded m m') (history : History m config inst)
    (calls : List Call) :
    ({ inst with program := m' } : Instance).afterCalls calls =
      { inst.afterCalls calls with program := m' } := by
  induction calls generalizing inst with
  | nil => rfl
  | cons call calls ih =>
    have made : (({ inst with program := m' } : Instance).invoke call.fuel call.func
        call.args).inst =
        { (inst.invoke call.fuel call.func call.args).inst with program := m' } := by
      unfold invoke
      dsimp only
      rw [execute_padded padded history]
      rfl
    rw [afterCalls, made]
    exact ih (history.invoke call.fuel call.func call.args)

/-- Whatever calls were made before, an invocation in a padded module has the same outcome and
reports the same. -/
theorem invoke_padded (padded : Module.Padded m m') (config : Config) (calls : List Call)
    (fuel func : Nat) (args : List Cell) :
    (((new m' config).afterCalls calls).invoke fuel func args).outcome =
        (((new m config).afterCalls calls).invoke fuel func args).outcome ∧
      (((new m' config).afterCalls calls).invoke fuel func args).events =
        (((new m config).afterCalls calls).invoke fuel func args).events := by
  have history : History m config ((new m config).afterCalls calls) := History.new.afterCalls calls
  have after : (new m' config).afterCalls calls =
      { (new m config).afterCalls calls with program := m' } :=
    afterCalls_padded padded (History.new : History m config (new m config)) calls
  rw [after]
  unfold invoke
  dsimp only
  rw [execute_padded padded history]
  exact ⟨rfl, rfl⟩

end Instance

/-! ### Replacing the code of one function -/

namespace Module

variable {m : Module} {func : Nat} {body : Bytes}

/-- The module with other code in one of its functions. -/
def withCode (m : Module) (func : Nat) (code : Bytes) : Module :=
  { m with funcs := m.funcs.modify func fun f => { f with body := { f.body with code } } }

theorem getElem?_withCode (m : Module) (func : Nat) (code : Bytes) (index : Nat) :
    (m.withCode func code).funcs[index]? =
      if func = index then m.funcs[index]?.map fun f => { f with body := { f.body with code } }
      else m.funcs[index]? :=
  Array.getElem?_modify

/-- Two modules with other code in one function differ there alone. -/
theorem Padded.of_withCode (code code' : Bytes)
    (alike : ∀ f, m.funcs[func]? = some f →
      Func.Padded { f with body := { f.body with code } }
        { f with body := { f.body with code := code' } }) :
    Padded (m.withCode func code) (m.withCode func code') where
  types := rfl
  table := rfl
  funcs index := by
    rw [getElem?_withCode, getElem?_withCode]
    split
    · rename_i here
      subst here
      cases found : m.funcs[func]? with
      | none => exact .none
      | some f => exact .some (alike f found)
    · cases m.funcs[index]? with
      | none => exact .none
      | some f => exact .some .same

theorem Padded.of_whole (whole : Whole body) (rest : Bytes) :
    Padded (m.withCode func body) (m.withCode func (body.push 0x0B ++ rest)) :=
  .of_withCode _ _ fun f _ => by
    have added : body.push 0x0B ++ rest = body ++ (#[0x0B] ++ rest) := by
      rw [Array.push_eq_append, Array.append_assoc]
    rw [added]
    exact Func.Padded.ended (f := { f with body := { f.body with code := body } }) whole rest

theorem withCode_code (m : Module) (func : Nat) : m.withCode func (m.code func) = m := by
  have same : (m.withCode func (m.code func)).funcs = m.funcs := by
    apply Array.ext_getElem?
    intro index
    rw [getElem?_withCode]
    split
    · rename_i here
      subst here
      cases found : m.funcs[func]? with
      | none => rfl
      | some f => rw [code_of_known found, Option.map_some]
    · rfl
  exact congrArg (fun funcs => { m with funcs }) same

end Module

/-- The end of a whole body can be left out, and anything can be put behind it: whatever calls were
made before, every invocation of any function has the same outcome and reports the same. -/
theorem invoke_ignores_code_behind_body {m : Module} {func : Nat} {body : Bytes}
    (whole : Whole body) (ended : m.code func = body.push 0x0B) {code : Bytes}
    (replaced : code = body ∨ ∃ rest, code = body.push 0x0B ++ rest) (config : Config)
    (calls : List Call) (fuel callee : Nat) (args : List Cell) :
    (((Instance.new (m.withCode func code) config).afterCalls calls).invoke fuel callee
          args).outcome =
        (((Instance.new m config).afterCalls calls).invoke fuel callee args).outcome ∧
      (((Instance.new (m.withCode func code) config).afterCalls calls).invoke fuel callee
          args).events =
        (((Instance.new m config).afterCalls calls).invoke fuel callee args).events := by
  have original : Module.Padded (m.withCode func body) m := by
    have padded : Module.Padded (m.withCode func body) _ := .of_whole whole #[]
    rwa [Array.append_empty, ← ended, m.withCode_code func] at padded
  obtain ⟨outcome, events⟩ := Instance.invoke_padded original config calls fuel callee args
  rcases replaced with rfl | ⟨rest, rfl⟩
  · exact ⟨outcome.symm, events.symm⟩
  · have padded : Module.Padded (m.withCode func body) _ := .of_whole whole rest
    have other := Instance.invoke_padded padded config calls fuel callee args
    exact ⟨other.1.trans outcome.symm, other.2.trans events.symm⟩

namespace Sample

/-- The code of `factorial` without its `end`. -/
def body : Bytes :=
  #[0x20, 0x00, 0x04, 0x7F, 0x20, 0x00, 0x20, 0x00, 0x41, 0x01, 0x6B, 0x10, 0x00, 0x6C, 0x05, 0x41,
    0x01, 0x0B]

theorem body_whole : Whole body := by
  have given : Boundary body 2 [] := Boundary.start.next ⟨⟨0x20, rfl, rfl⟩, rfl⟩
  have opened : Boundary body 4 [⟨.cond, 2⟩] := given.next ⟨⟨0x04, rfl, rfl⟩, rfl⟩
  have factor : Boundary body 6 [⟨.cond, 2⟩] := opened.next ⟨⟨0x20, rfl, rfl⟩, rfl⟩
  have again : Boundary body 8 [⟨.cond, 2⟩] := factor.next ⟨⟨0x20, rfl, rfl⟩, rfl⟩
  have one : Boundary body 10 [⟨.cond, 2⟩] := again.next ⟨⟨0x41, rfl, rfl⟩, rfl⟩
  have less : Boundary body 11 [⟨.cond, 2⟩] := one.next ⟨⟨0x6B, rfl, rfl⟩, rfl⟩
  have called : Boundary body 13 [⟨.cond, 2⟩] := less.next ⟨⟨0x10, rfl, rfl⟩, rfl⟩
  have multiplied : Boundary body 14 [⟨.cond, 2⟩] := called.next ⟨⟨0x6C, rfl, rfl⟩, rfl⟩
  have otherwise : Boundary body 15 [⟨.cond, 2⟩] := multiplied.next ⟨⟨0x05, rfl, rfl⟩, rfl⟩
  have base : Boundary body 17 [⟨.cond, 2⟩] := otherwise.next ⟨⟨0x41, rfl, rfl⟩, rfl⟩
  exact base.next ⟨⟨0x0B, rfl, rfl⟩, rfl⟩

end Sample

/-- The theorem at a body with an `if` and a call of the function itself, followed by its `end` and
by bytes that are no instructions. -/
theorem invoke_ignores_illegal_bytes :
    Whole Sample.body ∧ Sample.factorial.code 0 = Sample.body.push 0x0B ∧
      ((Instance.new (Sample.factorial.withCode 0 (Sample.body.push 0x0B ++ #[0x06, 0xFF]))
          {}).invoke 100 0 [5]).outcome = .value 120 := by
  have ended : Sample.factorial.code 0 = Sample.body.push 0x0B := by decide
  have same := invoke_ignores_code_behind_body Sample.body_whole ended
    (.inr ⟨#[0x06, 0xFF], rfl⟩) {} [] 100 0 [5]
  have original : ((Instance.new Sample.factorial {}).invoke 100 0 [5]).outcome = .value 120 := by
    decide +kernel
  exact ⟨Sample.body_whole, ended, same.1.trans original⟩

end Wasm
