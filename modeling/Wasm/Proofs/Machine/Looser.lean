import Wasm.Proofs.Machine.Runs

/-!
Looser limits change nothing but the failures that the tighter ones cause.

The limits are looked at in one place, when a function is entered, and the only thing that they can
do there is to trap. So two runs of one program that differ in their limits go through the same
states and leave the same records, until the tighter limits stop one of them.

* `State.Unstopped`: two results are the same, unless the tighter limits are exceeded;
* `State.unstopped_enter`, `State.unstopped_exec`: the step lemmas;
* `State.run_looser`: whole runs, by induction on the fuel;
* `invoke_looser_limits`: what an invocation gives and reports under tighter limits, other than
  their being exceeded, it gives and reports under looser ones.
-/

namespace Wasm

/-- All that the first limits allow, the second allow. -/
structure Config.Tighter (config looser : Config) : Prop where
  depth : config.maxCallDepth ≤ looser.maxCallDepth
  height : config.maxStackHeight ≤ looser.maxStackHeight

namespace State

variable {m : Module} {config looser : Config}

/-- The result under tighter limits says that they are exceeded, or it is the one under looser
limits. -/
def Unstopped {α : Type} (tight loose : Except Error α) : Prop :=
  tight = .error (.trap .callStackExhausted) ∨ loose = tight

/-- Looser limits let in whatever tighter ones let in, and whatever else refuses a call is checked
in the same order. -/
theorem unstopped_enter (tighter : config.Tighter looser) (s : State) (func : Nat) :
    Unstopped (s.enter m config func) (s.enter m looser func) := by
  obtain ⟨cells, frames, labels⟩ := s
  cases known : m.funcs[func]? with
  | none => exact .inr (by simp only [enter, known])
  | some callee =>
    cases typed : m.types[callee.type]? with
    | none => exact .inr (by simp only [enter, known, typed])
    | some type =>
      have depth := tighter.depth
      have height := tighter.height
      unfold Unstopped
      rw [enter_known known typed, enter_known known typed]
      by_cases many : 1 < type.results.length
      · rw [if_pos many, if_pos many]
        exact .inr rfl
      rw [if_neg many, if_neg many]
      by_cases deep : config.maxCallDepth ≤ frames.length
      · rw [if_pos deep]
        exact .inl rfl
      have shallow : ¬ looser.maxCallDepth ≤ frames.length := by omega
      rw [if_neg deep, if_neg shallow]
      by_cases few : cells.height < floor frames + type.params.length
      · rw [if_pos few, if_pos few]
        exact .inr rfl
      rw [if_neg few, if_neg few]
      by_cases high : config.maxStackHeight < (entered func callee type cells labels).operandBase
      · rw [if_pos high]
        exact .inl rfl
      · have low : ¬ looser.maxStackHeight <
            (entered func callee type cells labels).operandBase := by omega
        rw [if_neg high, if_neg low]
        exact .inr rfl

/-- Instructions other than calls do not look at the limits. -/
theorem unstopped_exec (tighter : config.Tighter looser)
    (targets : Nat → Except DecodeError BlockTargets) (frame : Frame) (fetched : Fetched)
    (s : State) :
    Unstopped (s.exec m config targets frame fetched) (s.exec m looser targets frame fetched) := by
  cases instr : fetched.instr with
  | call func =>
    simp only [exec, execM, instr, Id.run_pure]
    exact unstopped_enter tighter _ func
  | callIndirect type table =>
    simp only [exec, execM, instr, Id.run_pure]
    split
    · exact .inr rfl
    cases m.types[type]? with
    | none => exact .inr rfl
    | some expected =>
      cases s.pop frame with
      | error e => exact .inr rfl
      | ok operand =>
        obtain ⟨index, s⟩ := operand
        dsimp only
        cases m.tableFunc expected (Cell.index index) with
        | error e => exact .inr rfl
        | ok func => exact unstopped_enter tighter _ func
  | _ => exact .inr (by simp only [exec, execM, instr, Id.run_pure])

/-- A step that keeps a record keeps the same one under looser limits. -/
theorem advance_looser (tighter : config.Tighter looser) (s : State) (record : Record) :
    (s.advance m config record).1 = .error (.trap .callStackExhausted) ∨
      s.advance m looser record = s.advance m config record := by
  cases frames : s.frames with
  | nil => exact .inr (by rw [advance_of_ended frames, advance_of_ended frames])
  | cons frame rest =>
    cases fetches : fetch m s.cells.height frame with
    | error e =>
      right
      rw [advance_of_fetch_error frames fetches, advance_of_fetch_error frames fetches]
    | ok fetched =>
      rw [advance_of_fetch frames fetches, advance_of_fetch frames fetches]
      unfold advanceWith
      have unstopped := unstopped_exec (m := m) tighter
        (fun start => (record.blockTargets m frame.func start).1) frame fetched s
      rcases unstopped with stopped | same
      · left
        simp only [stopped]
      · right
        simp only [same]

/-- A whole run under looser limits has the result, the stacks and the record that it has under
tighter ones, unless these are exceeded. -/
theorem run_looser (tighter : config.Tighter looser) (fuel : Nat) (s : State) (record : Record) :
    (s.run m config fuel record).1 = some (.error (.trap .callStackExhausted)) ∨
      s.run m looser fuel record = s.run m config fuel record := by
  induction fuel generalizing s record with
  | zero => exact .inr rfl
  | succ fuel ih =>
    unfold run
    by_cases ended : s.frames.isEmpty
    · rw [if_pos ended, if_pos ended]
      exact .inr rfl
    rw [if_neg ended, if_neg ended]
    rcases advance_looser tighter s record with stopped | same
    · left
      cases advanced : s.advance m config record with
      | mk result after =>
        rw [advanced] at stopped
        obtain rfl : result = .error (.trap .callStackExhausted) := stopped
        rfl
    · rw [same]
      cases s.advance m config record with
      | mk result after =>
        cases result with
        | error e => exact .inr rfl
        | ok t => exact ih t after

end State

namespace Instance

variable {m : Module} {config looser : Config}

/-- The state in which an invocation starts is the same under looser limits. -/
theorem start_looser (tighter : config.Tighter looser) (state : State) (func : Nat)
    (args : List Cell) :
    State.Unstopped (start m config state func args) (start m looser state func args) := by
  unfold start
  cases m.funcType? func with
  | none => exact .inr rfl
  | some type =>
    dsimp only
    split
    · exact .inr rfl
    split
    · exact .inr rfl
    rcases State.unstopped_enter tighter
      ⟨state.cells.pushAll (List.zipWith ValType.canonical type.params args), state.frames,
        state.labels⟩ func with stopped | same
    · exact .inl (by rw [stopped]; rfl)
    · exact .inr (by rw [same])

theorem execute_looser (tighter : config.Tighter looser) (state : State) (cache : TargetCache)
    (fuel func : Nat) (args : List Cell) :
    (execute ⟨m, config, state, cache⟩ fuel func args).1 = .failed (.trap .callStackExhausted) ∨
      execute ⟨m, looser, state, cache⟩ fuel func args =
        execute ⟨m, config, state, cache⟩ fuel func args := by
  unfold execute
  rcases start_looser (m := m) tighter state func args with stopped | same
  · exact .inl (by simp only [stopped])
  simp only [same]
  cases start m config state func args with
  | error e => exact .inr rfl
  | ok begun =>
    obtain ⟨⟨s, event⟩, type⟩ := begun
    dsimp only
    rcases State.run_looser tighter fuel s (({ cache } : Record).report event) with stopped | same
    · left
      cases ran : s.run m config fuel (({ cache } : Record).report event) with
      | mk result left =>
        rw [ran] at stopped
        obtain rfl : result = some (.error (.trap .callStackExhausted)) := stopped
        rfl
    · exact .inr (by rw [same])

end Instance

/-- What an invocation on a new instance gives under some limits, other than the trap for their
being exceeded, it gives under any looser limits, with the same events. For an invocation that does
not end this holds step by step: it is out of fuel under both. -/
theorem invoke_looser_limits {m : Module} {config looser : Config} {fuel func : Nat}
    {args : List Cell} {outcome : Outcome}
    (depth : config.maxCallDepth ≤ looser.maxCallDepth)
    (height : config.maxStackHeight ≤ looser.maxStackHeight)
    (gives : ((Instance.new m config).invoke fuel func args).outcome = outcome)
    (fits : outcome ≠ .failed (.trap .callStackExhausted)) :
    ((Instance.new m looser).invoke fuel func args).outcome = outcome ∧
      ((Instance.new m looser).invoke fuel func args).events =
        ((Instance.new m config).invoke fuel func args).events := by
  have tighter : config.Tighter looser := ⟨depth, height⟩
  rcases Instance.execute_looser (m := m) tighter .empty {} fuel func args with stopped | same
  · exact absurd (gives.symm.trans stopped) fits
  · unfold Instance.new Instance.invoke Instance.reset at gives ⊢
    dsimp only at gives ⊢
    rw [same]
    exact ⟨gives, rfl⟩

/-- The theorem at the factorial of five, which calls itself until there are six activations: limits
that it just keeps within, and the default ones. -/
theorem nested_call_under_default_limits :
    ((Instance.new Sample.factorial ⟨6, 11⟩).invoke 100 0 [5]).outcome = .value 120 ∧
      ((Instance.new Sample.factorial {}).invoke 100 0 [5]).outcome = .value 120 := by
  have gives : ((Instance.new Sample.factorial ⟨6, 11⟩).invoke 100 0 [5]).outcome = .value 120 := by
    decide +kernel
  exact ⟨gives, (invoke_looser_limits (by decide) (by decide) gives (by decide)).1⟩

end Wasm
