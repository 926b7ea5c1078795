import Wasm.Proofs.Machine.Runs

/-!
What a run comes to.

`State.Leads m config s goal` says what becomes of the state `s` in terms of single steps: the
machine comes to a state, or a step fails with a trap. Either may be preempted by the limits, which
show as the trap for an exhausted call stack. `State.Settles` says the same of runs, for all fuel
from some number on, and `Instance.Returns` of invocations.

* `State.Leads.trans`: what is led to by way of a state;
* `State.Leads.settles`: a run does what its steps lead to;
* `State.run_of_le`: more fuel changes nothing about a run that has ended;
* `State.run_ends`: every run, whatever its fuel, goes to a last state;
* `Instance.returns_of_settles`: an invocation gives the result that its run settles on;
* `Instance.Returns.unique`: it ends in one way at most;
* `Instance.execute_ends`: every invocation fails to start or goes to a last state.
-/

namespace Wasm

namespace State

/-- The machine comes to a state or to a trap, unless it exhausts the call stack before. -/
inductive Leads (m : Module) (config : Config) : State → Except Trap State → Prop where
  | here (s : State) : Leads m config s (.ok s)
  | step {s t event goal} (first : s.step m config = .ok (t, event))
      (rest : Leads m config t goal) : Leads m config s goal
  | trap {s t} (failed : s.step m config = .error (.trap t)) : Leads m config s (.error t)
  | exhausted {s goal} (failed : s.step m config = .error (.trap .callStackExhausted)) :
      Leads m config s goal

/-- How a run has ended, if it has: in a state without activations, or in an error. -/
def ending : Option (Except Error Unit) × State × Record → Option (Except Error State)
  | (none, _, _) => none
  | (some (.error e), _, _) => some (.error e)
  | (some (.ok ()), s, _) => some (.ok s)

/-- Every run from the state that has enough fuel ends with the given result. -/
def Settles (m : Module) (config : Config) (s : State) (result : Except Error State) : Prop :=
  ∃ enough, ∀ fuel record, enough ≤ fuel → record.cache.Sound m →
    ending (s.run m config fuel record) = some result

variable {m : Module} {config : Config} {s t : State} {goal : Except Trap State}
  {result : Except Error State}

theorem Leads.trans (first : Leads m config s (.ok t)) (rest : Leads m config t goal) :
    Leads m config s goal := by
  generalize same : Except.ok t = middle at first
  induction first with
  | here s =>
    cases same
    exact rest
  | step first _ ih => exact .step first (ih same)
  | trap _ => cases same
  | exhausted failed => exact .exhausted failed

theorem running_of_step_error {e : Error} (failed : s.step m config = .error e) :
    s.frames.isEmpty = false := by
  cases frames : s.frames with
  | nil => simp [step, frames] at failed
  | cons frame frames => rfl

theorem Settles.of_step {event : Option Event} (first : s.step m config = .ok (t, event))
    (settles : Settles m config t result) : Settles m config s result := by
  cases frames : s.frames with
  | nil =>
    -- Without activations a step stays where it is.
    simp only [State.step, frames, Except.ok.injEq, Prod.mk.injEq] at first
    obtain ⟨rfl, -⟩ := first
    exact settles
  | cons frame frames =>
    obtain ⟨enough, ends⟩ := settles
    refine ⟨enough + 1, ?_⟩
    intro fuel record more sound
    obtain ⟨after, advanced, sound'⟩ := advance_of_step sound first
    cases fuel with
    | zero => omega
    | succ fuel =>
      rw [run, frames]
      simp only [List.isEmpty_cons, Bool.false_eq_true, if_false, advanced]
      exact ends fuel after (by omega) sound'

theorem Settles.of_error {e : Error} (failed : s.step m config = .error e) :
    Settles m config s (.error e) := by
  refine ⟨1, ?_⟩
  intro fuel record more sound
  have same := advance_eq_step config sound s
  rw [failed] at same
  cases fuel with
  | zero => omega
  | succ fuel =>
    rw [run, running_of_step_error failed]
    simp only [Bool.false_eq_true, if_false]
    split
    · rename_i e' after advanced
      rw [advanced] at same
      cases same
      rfl
    · rename_i s' after advanced
      rw [advanced] at same
      cases same

theorem Settles.of_ended (ended : s.frames = []) : Settles m config s (.ok s) := by
  refine ⟨0, ?_⟩
  intro fuel record _ _
  cases fuel with
  | zero => simp [run, ended, ending]
  | succ fuel => simp [run, ended, ending]

/-- A run does what its steps lead to, when that is a state without activations or a trap. -/
theorem Leads.settles (leads : Leads m config s goal) (ended : ∀ t, goal = .ok t → t.frames = []) :
    Settles m config s (goal.mapError .trap) ∨
      Settles m config s (.error (.trap .callStackExhausted)) := by
  induction leads with
  | here s => exact .inl (.of_ended (ended s rfl))
  | step first _ ih =>
    rcases ih ended with settles | settles
    · exact .inl (settles.of_step first)
    · exact .inr (settles.of_step first)
  | trap failed => exact .inl (.of_error failed)
  | exhausted failed => exact .inr (.of_error failed)

/-- More fuel changes nothing about a run that has ended. -/
theorem run_of_le {fuel more : Nat} (s : State) (record : Record) (le : fuel ≤ more)
    (ended : (s.run m config fuel record).1 ≠ none) :
    s.run m config more record = s.run m config fuel record := by
  induction fuel generalizing more s record with
  | zero =>
    cases frames : s.frames with
    | nil =>
      cases more with
      | zero => rfl
      | succ more => simp [run, frames]
    | cons frame rest => exact absurd (by simp [run, frames]) ended
  | succ fuel ih =>
    obtain ⟨more, rfl⟩ : ∃ rest, more = rest + 1 := ⟨more - 1, by omega⟩
    unfold run at ended ⊢
    split
    · rfl
    · rename_i goes
      rw [if_neg goes] at ended
      cases advanced : s.advance m config record with
      | mk result after =>
        rw [advanced] at ended
        cases result with
        | error e => rfl
        | ok t => exact ih t after (by omega) ended

/-- A run goes to a last state and keeps a record up to there: no activation is left, or the fuel is
used up, or the next step fails. -/
theorem run_ends (config : Config) (fuel : Nat) (s : State) (record : Record) :
    ∃ t after, RunsWhile m config Running s record t after ∧
      (t.frames = [] ∧ s.run m config fuel record = (some (.ok ()), t, after) ∨
        t.Running ∧ s.run m config fuel record = (none, t, after) ∨
        ∃ e final, t.Running ∧ t.advance m config after = (.error e, final) ∧
          s.run m config fuel record = (some (.error e), t, final)) := by
  induction fuel generalizing s record with
  | zero =>
    refine ⟨s, record, .refl s record, ?_⟩
    cases frames : s.frames with
    | nil => exact .inl ⟨rfl, by simp [run, frames]⟩
    | cons frame frames' => exact .inr (.inl ⟨by simp [Running, frames], by simp [run, frames]⟩)
  | succ fuel ih =>
    cases frames : s.frames with
    | nil => exact ⟨s, record, .refl s record, .inl ⟨frames, by simp [run, frames]⟩⟩
    | cons frame frames' =>
      have goes : s.Running := by simp [Running, frames]
      cases advanced : s.advance m config record with
      | mk result after =>
        rw [run, frames]
        simp only [List.isEmpty_cons, Bool.false_eq_true, if_false, advanced]
        cases result with
        | error e => exact ⟨s, record, .refl s record, .inr (.inr ⟨e, after, goes, advanced, rfl⟩)⟩
        | ok next =>
          obtain ⟨t, last, runs, ends⟩ := ih next after
          exact ⟨t, last, .step goes advanced runs, ends⟩

end State

namespace Instance

/-- The invocation ends with the given outcome: so it does with all fuel from some amount on. -/
def Returns (inst : Instance) (func : Nat) (args : List Cell) (outcome : Outcome) : Prop :=
  ∃ enough, ∀ fuel, enough ≤ fuel → (inst.invoke fuel func args).outcome = outcome

/-- The outcome of an invocation whose run has the given result. -/
def outcomeOf (func : Nat) (type : Option ValType) : Except Error State → Outcome
  | .error e => .failed e
  | .ok s =>
    match result func type s with
    | .error e => .failed e
    | .ok (cell, _) => .value cell

variable {m : Module} {config : Config} {inst : Instance} {func : Nat} {args : List Cell}

/-- What an invocation gives is what is executed on emptied stacks. -/
theorem outcome_invoke (inst : Instance) (fuel func : Nat) (args : List Cell) :
    (inst.invoke fuel func args).outcome = (inst.reset.execute fuel func args).1 :=
  rfl

/-- More fuel changes nothing about an invocation that has ended. -/
theorem outcome_invoke_of_le {fuel more : Nat} (inst : Instance) (func : Nat) (args : List Cell)
    (le : fuel ≤ more) (ended : (inst.invoke fuel func args).outcome ≠ .outOfFuel) :
    (inst.invoke more func args).outcome = (inst.invoke fuel func args).outcome := by
  rw [outcome_invoke] at ended
  rw [outcome_invoke, outcome_invoke]
  unfold execute at ended ⊢
  cases begun : start inst.reset.program inst.reset.config inst.reset.state func args with
  | error e => rfl
  | ok started =>
    obtain ⟨⟨s, event⟩, type⟩ := started
    rw [begun] at ended
    dsimp only at ended ⊢
    have stopped : (s.run inst.reset.program inst.reset.config fuel
        (({ cache := inst.reset.cache } : Record).report event)).1 ≠ none := by
      intro unfinished
      generalize s.run inst.reset.program inst.reset.config fuel _ = ran at ended unfinished
      obtain ⟨_, t, after⟩ := ran
      cases unfinished
      exact ended rfl
    rw [State.run_of_le s _ le stopped]

/-- An invocation that ends ends in one way. -/
theorem Returns.unique {outcome outcome' : Outcome} (returns : inst.Returns func args outcome)
    (returns' : inst.Returns func args outcome') : outcome = outcome' := by
  obtain ⟨enough, ends⟩ := returns
  obtain ⟨enough', ends'⟩ := returns'
  rw [← ends _ (Nat.le_max_left enough enough'), ends' _ (Nat.le_max_right enough enough')]

theorem returns_of_invoke (inst : Instance) (fuel func : Nat) (args : List Cell)
    (ended : (inst.invoke fuel func args).outcome ≠ .outOfFuel) :
    inst.Returns func args (inst.invoke fuel func args).outcome :=
  ⟨fuel, fun _ more => inst.outcome_invoke_of_le func args more ended⟩

theorem returns_of_start_error {e : Error} (history : History m config inst)
    (failed : start m config .empty func args = .error e) : inst.Returns func args (.failed e) := by
  refine ⟨0, ?_⟩
  intro fuel _
  rw [outcome_invoke]
  unfold execute reset
  simp only [history.program_eq, history.config_eq, failed]

/-- An invocation gives the result that the run from its first state settles on. -/
theorem returns_of_settles {s : State} {event : Option Event} {type : Option ValType}
    {result : Except Error State} (history : History m config inst)
    (begun : start m config .empty func args = .ok ((s, event), type))
    (settles : s.Settles m config result) :
    inst.Returns func args (outcomeOf func type result) := by
  obtain ⟨enough, ends⟩ := settles
  refine ⟨enough, ?_⟩
  intro fuel more
  have sound : (({ cache := inst.cache } : Record).report event).cache.Sound m := by
    rw [Record.cache_report]
    exact history.sound
  have ran := ends fuel _ more sound
  rw [outcome_invoke]
  unfold execute reset
  simp only [history.program_eq, history.config_eq, begun]
  split
  · rename_i t after stopped
    rw [stopped] at ran
    cases ran
  · rename_i e t after stopped
    rw [stopped] at ran
    cases ran
    rfl
  · rename_i t after stopped
    rw [stopped] at ran
    cases ran
    cases given : Instance.result func type t with
    | error e => simp only [outcomeOf, given]
    | ok cell => simp only [outcomeOf, given]

/-- An invocation fails to start, or it goes to a last state that it visits. -/
theorem execute_ends (history : History m config inst) (fuel func : Nat) (args : List Cell) :
    (∃ e, start m config .empty func args = .error e ∧
      inst.reset.execute fuel func args = (.failed e, .empty, { cache := inst.cache })) ∨
    ∃ first event type s record, start m config .empty func args = .ok ((first, event), type) ∧
      inst.Visits func args s record ∧
      (s.frames = [] ∧ (inst.reset.execute fuel func args).1 = outcomeOf func type (.ok s) ∧
          (inst.reset.execute fuel func args).2.2 = record ∨
        s.Running ∧ inst.reset.execute fuel func args = (.outOfFuel, s, record) ∨
        ∃ e final, s.Running ∧ s.advance m config record = (.error e, final) ∧
          inst.reset.execute fuel func args = (.failed e, s, final)) := by
  unfold execute Visits reset
  simp only [history.program_eq, history.config_eq]
  cases begun : start m config .empty func args with
  | error e => exact .inl ⟨e, rfl, rfl⟩
  | ok started =>
    obtain ⟨⟨first, event⟩, type⟩ := started
    obtain ⟨s, record, runs, ends⟩ := State.run_ends (m := m) config fuel first
      (({ cache := inst.cache } : Record).report event)
    refine .inr ⟨first, event, type, s, record, rfl, ⟨first, event, type, rfl, runs⟩, ?_⟩
    rcases ends with ⟨ended, ran⟩ | ⟨goes, ran⟩ | ⟨e, final, goes, failed, ran⟩
    · refine .inl ⟨ended, ?_⟩
      simp only [ran, outcomeOf]
      cases Instance.result func type s with
      | error e => exact ⟨rfl, rfl⟩
      | ok given => exact ⟨rfl, rfl⟩
    · exact .inr (.inl ⟨goes, by simp only [ran]⟩)
    · exact .inr (.inr ⟨e, final, goes, failed, by simp only [ran]⟩)

end Instance

end Wasm
