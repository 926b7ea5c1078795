import Wasm.Proofs.Machine.Layout
import Wasm.Proofs.Machine.Raised

/-!
What a callee can see of its callers: nothing.

A step on top of a context is the step without the context, raised; only the limits, which are
counted from the bottom, can stop it earlier.

* `State.follows_enter`, `State.follows_exec`, `State.follows_step`: the step lemmas;
* `State.RunsWhile.alone`: a run in a context is a run on empty stacks, raised;
* `call_independent_of_context`: a call ends in any context as it ends on empty stacks.
-/

namespace Wasm

variable {context : State}

namespace State

variable {m : Module} {config : Config} {frame : Frame} {frames : List Frame} {cells : Cells}
  {labels : List Label}

/-! ### Entering, where the limits are counted from the bottom -/

/-- In the context the limits may be exceeded; otherwise the result is the one without context,
raised. -/
def Follows (context : State) (alone within : Except Error Transition) : Prop :=
  within = .error (.trap .callStackExhausted) ∨ within.map Prod.fst = raised context alone

theorem entered_above {func : Nat} {callee : Func} {type : FuncType}
    (arguments : type.params.length ≤ cells.height) :
    entered func callee type (context.cells.above cells)
        (labels.map (.above context) ++ context.labels) =
      (entered func callee type cells labels).above context := by
  have base : context.cells.height + cells.height - type.params.length =
      context.cells.height + (cells.height - type.params.length) := by omega
  simp only [entered, Frame.above, Cells.height_above, List.length_append, List.length_map, base,
    Nat.add_comm labels.length]

/-- The arguments of a call are operands of the activation that makes it; when that one belongs to
the context, they are all above the context. -/
def Ready (m : Module) (context : State) (func : Nat) (s : State) : Prop :=
  s.frames ≠ [] ∨ floor context.frames ≤ context.cells.height ∧
    ∀ type, m.funcType? func = some type → type.params.length ≤ s.cells.height

theorem Ready.underflow {func : Nat} {type : FuncType}
    (ready : Ready m context func ⟨cells, frames, labels⟩)
    (typed : m.funcType? func = some type) :
    ((context.cells.above cells).height <
        floor (frames.map (.above context) ++ context.frames) + type.params.length ↔
      cells.height < floor frames + type.params.length) ∧
    (cells.height < floor frames + type.params.length →
      culprit func (frames.map (.above context) ++ context.frames) = culprit func frames) := by
  rw [Cells.height_above]
  cases frames with
  | nil =>
    obtain ⟨room, arguments⟩ := ready.resolve_left (fun running => running rfl)
    have enough := arguments type typed
    change type.params.length ≤ cells.height at enough
    change (_ < floor context.frames + _ ↔ _ < 0 + _) ∧ (_ < 0 + _ → _)
    constructor
    · omega
    · omega
  | cons caller frames =>
    simp only [List.map_cons, List.cons_append, floor, Frame.operandBase_above]
    constructor
    · omega
    · exact fun _ => rfl

/-- Entering a function in a context is entering it without, unless that exceeds the limits. -/
theorem follows_enter {func : Nat} {s : State} (config : Config)
    (ready : Ready m context func s) :
    Follows context (s.enter m config func) ((context.above s).enter m config func) := by
  obtain ⟨cells, frames, labels⟩ := s
  cases known : m.funcs[func]? with
  | none => exact .inr (by simp only [enter, known]; rfl)
  | some callee =>
    cases typed : m.types[callee.type]? with
    | none => exact .inr (by simp only [enter, known, typed]; rfl)
    | some type =>
      have declared : m.funcType? func = some type := by
        simp only [Module.funcType?, known, Option.bind_some, typed]
      obtain ⟨short, blamed⟩ := ready.underflow declared
      unfold Follows above
      rw [enter_known known typed, enter_known known typed]
      simp only [short, List.length_append, List.length_map]
      by_cases many : 1 < type.results.length
      · rw [if_pos many, if_pos many]
        exact .inr rfl
      by_cases deep : config.maxCallDepth ≤ frames.length + context.frames.length
      · rw [if_neg many, if_pos deep]
        exact .inl rfl
      have shallow : ¬ config.maxCallDepth ≤ frames.length := by omega
      rw [if_neg many, if_neg many, if_neg deep, if_neg shallow]
      by_cases few : cells.height < floor frames + type.params.length
      · rw [if_pos few, if_pos few, blamed few]
        exact .inr rfl
      rw [if_neg few, if_neg few, entered_above (by omega), Frame.operandBase_above]
      by_cases high : config.maxStackHeight <
          context.cells.height + (entered func callee type cells labels).operandBase
      · rw [if_pos high]
        exact .inl rfl
      · rw [if_neg high, if_neg (by omega), Cells.pushZeros_above]
        exact .inr rfl

/-! ### Steps -/

/-- An operand is there in the context when it is there without, and it is the same. -/
theorem follows_pop {k k' : Cell → State → Except Error Transition}
    (goes : ∀ cell rest, Follows context (k cell ⟨rest, frame :: frames, labels⟩)
      (k' cell (context.above ⟨rest, frame :: frames, labels⟩))) :
    Follows context
      (match (⟨cells, frame :: frames, labels⟩ : State).pop frame with
        | .error e => .error e
        | .ok (cell, s) => k cell s)
      (match (context.above ⟨cells, frame :: frames, labels⟩).pop (frame.above context) with
        | .error e => .error e
        | .ok (cell, s) => k' cell s) := by
  rw [pop_above]
  cases popped : (⟨cells, frame :: frames, labels⟩ : State).pop frame with
  | error e => exact .inr rfl
  | ok result =>
    obtain ⟨cell, s⟩ := result
    obtain ⟨rest, -, rfl⟩ := pop_eq_ok_iff.mp popped
    exact goes cell rest

/-- An instruction does in the context what it does without, unless that exceeds the limits. -/
theorem follows_exec {targets : Nat → Except DecodeError BlockTargets} {fetched : Fetched} :
    Follows context
      ((⟨cells, frame :: frames, labels⟩ : State).exec m config targets frame fetched)
      ((context.above ⟨cells, frame :: frames, labels⟩).exec m config targets
        (frame.above context) fetched) := by
  cases instr : fetched.instr with
  | plain op =>
    refine .inr ?_
    simp only [exec, execM, instr, Id.run_pure, above_mk, Plain.exec_above]
    cases op.exec frame cells with
    | error e => rfl
    | ok cells' => rfl
  | block type =>
    refine .inr ?_
    simp only [exec, execM, instr, pure_bind, Id.run_pure]
    cases targets fetched.next with
    | error e => rfl
    | ok found =>
      simp only [openLabel_above]
      rfl
  | loop type =>
    refine .inr ?_
    simp only [exec, execM, instr, Id.run_pure, openLabel_above]
    rfl
  | ifThen type =>
    simp only [exec, execM, instr, pure_bind, Id.run_pure]
    cases targets fetched.next with
    | error e => exact .inr rfl
    | ok found =>
      refine follows_pop fun condition rest => .inr ?_
      simp only [openLabel_above]
      cases Cell.isTrue condition with
      | true => rfl
      | false =>
        cases found.elseAt with
        | some elseAt => rfl
        | none => rfl
  | elseArm =>
    simp only [exec, execM, instr, Id.run_pure]
    exact .inr (branch_above 0)
  | endBlock =>
    simp only [exec, execM, instr, Id.run_pure]
    exact .inr (closeLabel_above fetched.next)
  | br depth =>
    simp only [exec, execM, instr, Id.run_pure]
    exact .inr (branch_above depth)
  | brIf depth =>
    simp only [exec, execM, instr, Id.run_pure]
    refine follows_pop fun condition rest => .inr ?_
    cases Cell.isTrue condition with
    | true => exact branch_above depth
    | false => rfl
  | brTable depths default =>
    simp only [exec, execM, instr, Id.run_pure]
    exact follows_pop fun index rest => .inr (branch_above _)
  | ret =>
    simp only [exec, execM, instr, Id.run_pure]
    exact .inr leave_above
  | call func =>
    simp only [exec, execM, instr, Id.run_pure]
    have ready : Ready m context func (jump ⟨cells, frame :: frames, labels⟩ fetched.next) :=
      .inl (List.cons_ne_nil _ _)
    exact follows_enter config ready
  | callIndirect type table =>
    simp only [exec, execM, instr, Id.run_pure]
    split
    · exact .inr rfl
    cases m.types[type]? with
    | none => exact .inr rfl
    | some expected =>
      refine follows_pop fun index rest => ?_
      cases m.tableFunc expected (Cell.index index) with
      | error e => exact .inr rfl
      | ok func =>
        have ready : Ready m context func (jump ⟨rest, frame :: frames, labels⟩ fetched.next) :=
          .inl (List.cons_ne_nil _ _)
        exact follows_enter config ready

/-- The code is the same in the context, and so is whether a branch has its index. -/
theorem fetch_above (m : Module) (cells : Cells) (frame : Frame) :
    fetch m (context.cells.above cells).height (frame.above context) =
      fetch m cells.height frame := by
  have low : (context.cells.above cells).height ≤ (frame.above context).operandBase ↔
      cells.height ≤ frame.operandBase := by
    rw [Cells.height_above, Frame.operandBase_above]
    omega
  unfold fetch
  simp only [low]
  rfl

/-- A step of a running function in the context is the step without, unless that exceeds the
limits. -/
theorem follows_step {s : State} (running : s.frames ≠ []) :
    Follows context (s.step m config) ((context.above s).step m config) := by
  obtain ⟨cells, frames, labels⟩ := s
  cases frames with
  | nil => exact absurd rfl running
  | cons frame frames =>
    simp only [step, above_mk, fetch_above]
    cases fetch m cells.height frame with
    | error e => exact .inr rfl
    | ok fetched => exact follows_exec

theorem Follows.exists_ok {alone within : Except Error Transition} {t : State}
    {event : Option Event} (follows : Follows context alone within)
    (goes : within = .ok (t, event)) :
    ∃ s event', alone = .ok (s, event') ∧ t = context.above s := by
  subst goes
  rcases follows with exhausted | same
  · cases exhausted
  · cases alone with
    | error e => cases same
    | ok transition =>
      obtain ⟨s, event'⟩ := transition
      cases same
      exact ⟨s, event', rfl, rfl⟩

theorem Follows.error {alone within : Except Error Transition} {e : Error}
    (follows : Follows context alone within) (fails : within = .error e)
    (fits : e ≠ .trap .callStackExhausted) : alone = .error e := by
  subst fails
  rcases follows with exhausted | same
  · cases exhausted
    exact absurd rfl fits
  · cases alone with
    | error e' =>
      cases same
      rfl
    | ok transition => cases same

/-! ### Calls -/

/-- Stacks with nothing on them. -/
def fresh : State := ⟨.empty, [], []⟩

/-- The arguments of a call on top of a context. -/
def withArgs (context : State) (args : List Cell) : State :=
  ⟨context.cells.above (.ofList args), context.frames, context.labels⟩

/-- Some activation that does not belong to the context is left. -/
def Inside (context s : State) : Prop :=
  context.frames.length < s.frames.length

instance (context : State) : DecidablePred context.Inside :=
  fun s => inferInstanceAs (Decidable (context.frames.length < s.frames.length))

theorem withArgs_eq (context : State) (args : List Cell) :
    context.withArgs args = context.above (fresh.withArgs args) := by
  have cells : Cells.empty.above (.ofList args) = .ofList args := by
    apply Cells.ext_toList
    rw [Cells.toList_above]
    rfl
  unfold withArgs fresh
  rw [cells]
  rfl

theorem inside_above {s : State} : context.Inside (context.above s) ↔ s.frames ≠ [] := by
  simp only [Inside, above, List.length_append, List.length_map]
  rw [← List.length_pos_iff]
  omega

theorem inside_fresh {s : State} : fresh.Inside s ↔ s.frames ≠ [] :=
  List.length_pos_iff

/-- A run in the context that has not left it is a run without, raised. -/
theorem RunsWhile.alone {s u : State} {record record' final : Record}
    (runs : RunsWhile m config context.Inside (context.above s) record u final)
    (sound : record.cache.Sound m) (sound' : record'.cache.Sound m) :
    ∃ t final', u = context.above t ∧ RunsWhile m config fresh.Inside s record' t final' ∧
      final'.cache.Sound m := by
  generalize start : context.above s = s' at runs
  induction runs generalizing s record' with
  | refl =>
    exact ⟨s, record', start.symm, .refl _ _, sound'⟩
  | step goes advanced rest ih =>
    subst start
    have running := inside_above.mp goes
    obtain ⟨⟨event, step⟩, kept⟩ := step_of_advance sound advanced
    obtain ⟨t, event', step', rfl⟩ := (follows_step running).exists_ok step
    obtain ⟨record'', advanced', kept'⟩ := advance_of_step sound' step'
    obtain ⟨last, final', same, runs', sound''⟩ := ih kept kept' rfl
    exact ⟨last, final', same, .step (inside_fresh.mpr running) advanced' runs', sound''⟩

end State

open State in
/-- How a call ends that is made with the given arguments on top of a context: with the cells that
it leaves there, or with an error. -/
inductive CallEnds (m : Module) (config : Config) (context : State) (record : Record) (func : Nat)
    (args : List Cell) : Except Error (List Cell) → Prop where
  | refused {e} (fails : (context.withArgs args).enter m config func = .error e) :
      CallEnds m config context record func args (.error e)
  | failed {s t event final after e}
      (enters : (context.withArgs args).enter m config func = .ok (s, event))
      (runs : RunsWhile m config context.Inside s (record.report event) t final)
      (inside : context.Inside t) (fails : t.advance m config final = (.error e, after)) :
      CallEnds m config context record func args (.error e)
  | returned {s t event final}
      (enters : (context.withArgs args).enter m config func = .ok (s, event))
      (runs : RunsWhile m config context.Inside s (record.report event) t final)
      (back : t.frames.length = context.frames.length) :
      CallEnds m config context record func args
        (.ok (t.cells.toList.drop context.cells.height))

/-- In a state between two steps, the operands of the running function start within the stack. -/
theorem Instance.Visits.floor_le {m : Module} {config : Config} {inst : Instance} {func : Nat}
    {args : List Cell} {s : State} {record : Record} (history : History m config inst)
    (visits : inst.Visits func args s record) : State.floor s.frames ≤ s.cells.height := by
  have arranged := Arranged.of_visits history visits
  obtain ⟨cells, frames, labels⟩ := s
  cases frames with
  | nil => exact Nat.zero_le _
  | cons frame frames => exact arranged.regions.1

/-- A callee cannot tell its callers apart: if a call ends in some context, and not because the
limits are exceeded there, it ends in the same way on empty stacks. Of the context it is only asked
that the operands of the caller start within it, as they do between any two steps
(`Instance.Visits.floor_le`). -/
theorem call_independent_of_context {m : Module} {config : Config} {context : State}
    {record record' : Record} {func : Nat} {args : List Cell} {result : Except Error (List Cell)}
    (arguments : ∀ type, m.funcType? func = some type → args.length = type.params.length)
    (room : State.floor context.frames ≤ context.cells.height)
    (sound : record.cache.Sound m) (sound' : record'.cache.Sound m)
    (ends : CallEnds m config context record func args result)
    (fits : result ≠ .error (.trap .callStackExhausted)) :
    CallEnds m config .fresh record' func args result := by
  have ready : State.Ready m context func (State.fresh.withArgs args) := by
    refine .inr ⟨room, fun type typed => ?_⟩
    rw [← arguments type typed, ← Cells.length_toList]
    simp [State.withArgs, State.fresh]
  have follows := State.follows_enter config ready
  rw [← State.withArgs_eq] at follows
  -- The records with which the two runs start are sound, whatever entering reports.
  have reported : ∀ event, (record.report event).cache.Sound m := by
    intro event
    rwa [Record.cache_report]
  have reported' : ∀ event, (record'.report event).cache.Sound m := by
    intro event
    rwa [Record.cache_report]
  cases ends with
  | refused fails => exact .refused (follows.error fails (fun same => fits (congrArg _ same)))
  | failed enters runs inside fails =>
    obtain ⟨s, event', enters', rfl⟩ := follows.exists_ok enters
    obtain ⟨t, final', rfl, runs', kept⟩ := runs.alone (reported _) (reported' event')
    have running := State.inside_above.mp inside
    have step := State.step_of_advance_error (runs.sound (reported _)) fails
    have step' := (State.follows_step running).error step (fun same => fits (congrArg _ same))
    obtain ⟨after', fails'⟩ := State.advance_of_step_error kept step'
    exact .failed enters' runs' (State.inside_fresh.mpr running) fails'
  | returned enters runs back =>
    obtain ⟨s, event', enters', rfl⟩ := follows.exists_ok enters
    obtain ⟨t, final', rfl, runs', -⟩ := runs.alone (reported _) (reported' event')
    have ended : t.frames.length = State.fresh.frames.length := by
      simp only [State.above, List.length_append, List.length_map] at back
      change _ = 0
      omega
    have results : (context.above t).cells.toList.drop context.cells.height =
        t.cells.toList.drop State.fresh.cells.height := by
      change _ = t.cells.toList
      simp only [State.above, Cells.toList_above, ← Cells.length_toList context.cells,
        List.drop_left]
    rw [results]
    exact .returned enters' runs' ended

namespace Sample

/-- The first function is in its `loop`, before it reads its argument. -/
def inLoop : State :=
  { cells := ⟨#[5]⟩
    frames := [⟨0, 4, 0, 1, 0, 1⟩]
    labels := [⟨.loop, 0, 1, 2⟩, ⟨.block, 1, 1, 11⟩] }

/-- There, the second function has been entered with nine. -/
def calledInLoop : State :=
  { inLoop with
    cells := ⟨#[5, 9, 0]⟩
    frames := [⟨1, 0, 1, 2, 2, 1⟩, ⟨0, 4, 0, 1, 0, 1⟩] }

end Sample

/-- The theorem at a call from inside a `loop` in a `block`, with targets remembered from an earlier
invocation, compared with a call on empty stacks without any. -/
theorem call_in_loop_as_on_empty_stacks :
    ∃ record, Sample.inst.Visits 0 [5] Sample.inLoop record ∧
      CallEnds Sample.program {} Sample.inLoop record 1 [9] (.ok [9]) ∧
      CallEnds Sample.program {} .fresh {} 1 [9] (.ok [9]) := by
  obtain ⟨record, visits⟩ := Sample.visits_of_stepsWhile
    (show State.stepsWhile Sample.program {} State.Running 2 _ = some Sample.inLoop by
      decide +kernel)
  have enters : (Sample.inLoop.withArgs [9]).enter Sample.program {} 1 =
      .ok (Sample.calledInLoop, some (.entered 1 2)) := Sample.ok_of_toOption (by decide +kernel)
  have sound := visits.sound Sample.history
  have reported : (record.report (some (.entered 1 2))).cache.Sound Sample.program := sound
  obtain ⟨final, runs⟩ := State.RunsWhile.of_stepsWhile reported
    (show State.stepsWhile Sample.program {} Sample.inLoop.Inside 6 Sample.calledInLoop =
      some { Sample.inLoop with cells := ⟨#[5, 9]⟩ } by decide +kernel)
  have ends : CallEnds Sample.program {} Sample.inLoop record 1 [9] (.ok [9]) :=
    .returned enters runs rfl
  have arguments : ∀ type, Sample.program.funcType? 1 = some type → 1 = type.params.length := by
    intro type typed
    cases typed
    rfl
  exact ⟨record, visits, ends, call_independent_of_context arguments
    (visits.floor_le Sample.history) sound .empty ends nofun⟩

end Wasm
