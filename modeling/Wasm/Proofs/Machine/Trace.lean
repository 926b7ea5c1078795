import Wasm.Proofs.Machine.Cache
import Wasm.Proofs.Machine.Layout
import Wasm.Proofs.Machine.Leads

/-!
The events of an invocation tell which functions are running.

The beginning and the end of an activation are reported, each with the number of activations that
there are then. `Event.replay` keeps a stack of functions by these reports alone and refuses one
that does not fit. It never has to: the stack that it comes to is that of the activations.

* `State.Effect.replay`: what a step reports is what it does to the activations;
* `Traced.of_advance`, `Traced.of_failure`: so a step keeps the record and the state in agreement,
  and a step that fails reports nothing about activations;
* `Traced.of_visits`: they agree between any two steps of an invocation;
* `invocation_brackets_calls`: the reports of a whole invocation are well bracketed, and all
  activations that it reports to have begun have ended exactly when it gives a value.
-/

namespace Wasm

namespace Event

/-- The event tells of the beginning or the end of an activation. -/
def ofCall : Event → Bool
  | entered .. | returned .. => true
  | _ => false

/-- The functions that are running after an event, the innermost first, given those before it. The
beginning of an activation has to report how many there are with it, at most `limit`; the end has to
report the innermost function, and how many there are without it. -/
def replay (limit : Nat) : List Nat → Event → Option (List Nat)
  | running, entered func depth =>
    if depth = running.length + 1 ∧ depth ≤ limit then some (func :: running) else none
  | [], returned .. => none
  | innermost :: running, returned func depth =>
    if func = innermost ∧ depth = running.length then some running else none
  | running, _ => some running

end Event

theorem Record.toList_events_report (record : Record) (event : Option Event) :
    (record.report event).events.toList = record.events.toList ++ event.toList := by
  cases event with
  | none => simp [report]
  | some event => simp [report]

/-- What a step reports is what it does to the activations. -/
theorem State.Effect.replay {m : Module} {config : Config}
    {targets : Nat → Except DecodeError BlockTargets} {frame : Frame} {fetched : Fetched}
    {cells : Cells} {frames : List Frame} {own rest : List Label} {t : State}
    {event : Option Event} (base : frame.labelBase = rest.length)
    (effect : Effect m config targets frame fetched cells frames own rest t event) :
    event.toList.foldlM (Event.replay config.maxCallDepth) ((frame :: frames).map (·.func)) =
      some (t.frames.map (·.func)) := by
  rcases effect with ⟨cells', own', ip, -, rfl, rfl⟩ | ⟨cells', -, left⟩ |
    ⟨func, cells', -, entered⟩
  · rfl
  · obtain ⟨-, kept, -, rfl, rfl⟩ := (leave_eq_ok_iff base).mp left
    simp [Event.replay]
  · obtain ⟨callee, type, -, -, -, shallow, -, -, rfl, rfl⟩ := enter_eq_ok_iff.mp entered
    have within : frames.length + 1 + 1 ≤ config.maxCallDepth := shallow
    simp [Event.replay, within, State.entered]

/-- The record has reported an activation, and its reports add up to the activations that the state
has. -/
structure Traced (config : Config) (s : State) (record : Record) : Prop where
  reported : record.events.toList.any Event.ofCall = true
  running : record.events.toList.foldlM (Event.replay config.maxCallDepth) [] =
    some (s.frames.map (·.func))

namespace Traced

variable {m : Module} {config : Config} {s t : State} {record after : Record}

/-- More events, which lead from the activations of one state to those of another. -/
theorem extend {events : List Event} (traced : Traced config s record)
    (more : after.events.toList = record.events.toList ++ events)
    (replayed : events.foldlM (Event.replay config.maxCallDepth) (s.frames.map (·.func)) =
      some (t.frames.map (·.func))) : Traced config t after := by
  constructor
  · rw [more, List.any_append, traced.reported, Bool.true_or]
  · rw [more, List.foldlM_append, traced.running]
    exact replayed

/-- A scan is no activation. -/
theorem consult (traced : Traced config s record) (m : Module) (func : Nat) (fetched : Fetched) :
    Traced config s (record.consult m func fetched) := by
  rcases record.consult_cases m func fetched with ⟨same, -⟩ | ⟨start, found, -, -, -, same⟩
  · rwa [same]
  · have more : (record.consult m func fetched).events.toList =
        record.events.toList ++ [.scanned func start found] := by
      rw [same, Array.toList_push]
    exact traced.extend more rfl

/-- A step that succeeds reports what becomes of the activations. -/
theorem of_advance (sound : record.cache.Sound m) (arranged : Arranged m s)
    (traced : Traced config s record) (advanced : s.advance m config record = (.ok t, after)) :
    Traced config t after := by
  obtain ⟨cells, frames, labels⟩ := s
  cases frames with
  | nil =>
    cases advanced
    exact traced
  | cons frame frames =>
    obtain ⟨-, stacked⟩ := arranged
    cases stacked with
    | @cons _ _ own rest base =>
      cases fetches : fetch m cells.height frame with
      | error e =>
        rw [State.advance_of_fetch_error rfl fetches] at advanced
        cases advanced
      | ok fetched =>
        rw [State.advance_of_fetch rfl fetches, State.advanceWith_of_sound sound] at advanced
        split at advanced
        · cases advanced
        · rename_i next event run
          cases advanced
          have effect := State.effect_of_exec base run
          exact (traced.consult m frame.func fetched).extend
            (Record.toList_events_report _ event) (effect.replay base)

/-- A step that fails reports nothing of activations. -/
theorem of_failure {e : Error} (traced : Traced config s record)
    (failed : s.advance m config record = (.error e, after)) : Traced config s after := by
  cases frames : s.frames with
  | nil =>
    rw [State.advance_of_ended frames] at failed
    cases failed
  | cons frame rest =>
    cases fetches : fetch m s.cells.height frame with
    | error e =>
      rw [State.advance_of_fetch_error frames fetches] at failed
      cases failed
      exact traced
    | ok fetched =>
      rw [State.advance_of_fetch frames fetches] at failed
      unfold State.advanceWith at failed
      split at failed
      · cases failed
        exact traced.consult ..
      · cases failed

theorem of_runs {going : State → Prop} (runs : State.RunsWhile m config going s record t after)
    (sound : record.cache.Sound m) (arranged : Arranged m s) (traced : Traced config s record) :
    Traced config t after := by
  induction runs with
  | refl => exact traced
  | step _ advanced _ ih =>
    obtain ⟨⟨event, step⟩, sound'⟩ := State.step_of_advance sound advanced
    exact ih sound' (arranged.of_step step) (traced.of_advance sound arranged advanced)

/-- The first report of an invocation is that of its first activation. -/
theorem of_start {func : Nat} {args : List Cell} {event : Option Event} {type : Option ValType}
    (cache : TargetCache)
    (begun : Instance.start m config .empty func args = .ok ((s, event), type)) :
    Traced config s (({ cache } : Record).report event) := by
  obtain ⟨_, -, -, -, -, entered⟩ := Instance.start_eq_ok_iff.mp begun
  obtain ⟨callee, type, -, -, -, shallow, -, -, rfl, rfl⟩ := State.enter_eq_ok_iff.mp entered
  have within : 1 ≤ config.maxCallDepth := shallow
  constructor
  · rfl
  · simp [Record.report, Event.replay, within, State.entered]

/-- Between any two steps of an invocation, its reports add up to the activations that there are. -/
theorem of_visits {inst : Instance} {func : Nat} {args : List Cell}
    (history : Instance.History m config inst) (visits : inst.Visits func args s record) :
    Traced config s record := by
  obtain ⟨first, event, type, begun, runs⟩ := visits
  have sound := history.sound
  rw [history.program_eq, history.config_eq] at begun runs
  exact of_runs runs (by rwa [Record.cache_report]) (.of_start begun) (of_start inst.cache begun)

end Traced

namespace Instance

/-- The last event of an invocation, on how it ended, is no activation. -/
theorem foldlM_closing? (limit func : Nat) (args : List Cell) (outcome : Outcome)
    (running : List Nat) :
    (closing? func args outcome).toList.foldlM (Event.replay limit) running = some running := by
  cases outcome with
  | value cell | failed e | outOfFuel => rfl

theorem any_closing? (func : Nat) (args : List Cell) (outcome : Outcome) :
    (closing? func args outcome).toList.any Event.ofCall = false := by
  cases outcome with
  | value cell | failed e | outOfFuel => rfl

variable {m : Module} {config : Config} {inst : Instance}

/-- An invocation that starts leaves a record that adds up to the activations of its last state, and
there are none of these exactly when it gives a value. -/
theorem execute_traced (history : History m config inst) (fuel func : Nat) (args : List Cell) :
    (∃ e, inst.reset.execute fuel func args = (.failed e, .empty, { cache := inst.cache })) ∨
    ∃ s, Traced config s (inst.reset.execute fuel func args).2.2 ∧
      ((∃ cell, (inst.reset.execute fuel func args).1 = .value cell) ↔ s.frames = []) := by
  rcases execute_ends history fuel func args with ⟨e, -, failed⟩ |
    ⟨first, event, result, s, record, begun, visits, ends⟩
  · exact .inl ⟨e, failed⟩
  have traced := Traced.of_visits history visits
  refine .inr ⟨s, ?_⟩
  rcases ends with ⟨ended, outcome, kept⟩ | ⟨goes, ran⟩ | ⟨e, final, goes, failed, ran⟩
  · -- The results of the outermost activation are there once it has ended.
    obtain ⟨type, declared, -, -, rfl, -⟩ := start_eq_ok_iff.mp begun
    obtain ⟨cell, given⟩ := visits.exists_result history ended declared
    rw [outcome, kept]
    refine ⟨traced, fun _ => ended, fun _ => ⟨cell, ?_⟩⟩
    simp only [outcomeOf, given]
  · rw [ran]
    refine ⟨traced, ?_, fun ended => absurd ended goes⟩
    rintro ⟨cell, value⟩
    cases value
  · rw [ran]
    refine ⟨traced.of_failure failed, ?_, fun ended => absurd ended goes⟩
    rintro ⟨cell, value⟩
    cases value

end Instance

open Instance in
/-- Whatever an instance was used for before, replaying what an invocation reports about activations
on a stack that is empty at first works out: every beginning puts a function on the stack and
reports its new size, which the limit allows, and every end takes off the function that it reports,
which is on top, and reports the size that is left. The invocation gives a value if and only if
something was reported and the stack is empty in the end; this holds also if it is given up. -/
theorem invocation_brackets_calls (m : Module) (config : Config) (calls : List Call)
    (fuel func : Nat) (args : List Cell) :
    ∃ running,
      (((new m config).afterCalls calls).invoke fuel func args).events.toList.foldlM
          (Event.replay config.maxCallDepth) [] = some running ∧
        ((∃ cell, (((new m config).afterCalls calls).invoke fuel func args).outcome =
            .value cell) ↔
          (((new m config).afterCalls calls).invoke fuel func args).events.toList.any
              Event.ofCall = true ∧
            running = []) := by
  have history : History m config ((new m config).afterCalls calls) := History.new.afterCalls calls
  generalize (new m config).afterCalls calls = inst at history
  have events : (inst.invoke fuel func args).events.toList =
      (inst.reset.execute fuel func args).2.2.events.toList ++
        (closing? func args (inst.reset.execute fuel func args).1).toList :=
    Record.toList_events_report ..
  have outcome := inst.outcome_invoke fuel func args
  rw [events, outcome, List.foldlM_append, List.any_append, any_closing?, Bool.or_false]
  rcases execute_traced history fuel func args with ⟨e, failed⟩ | ⟨s, traced, ends⟩
  · rw [failed]
    refine ⟨[], foldlM_closing? .., ?_⟩
    simp
  · rw [traced.running, traced.reported]
    refine ⟨_, foldlM_closing? .., ?_⟩
    rw [ends, List.map_eq_nil_iff]
    simp

example :
    ((Instance.new Sample.program {}).invoke 100 0 [5]).events.toList.filter Event.ofCall =
      [.entered 0 1, .entered 1 2, .returned 1 1, .returned 0 0] := by
  decide +kernel

end Wasm
