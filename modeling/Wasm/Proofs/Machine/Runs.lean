import Wasm.Instance
import Wasm.Proofs.Machine.Effect

/-!
The states that an invocation goes through, whatever was invoked before it.

`Instance.History m config inst` says that `inst` is what some sequence of invocations has made of a
new instance, and `Instance.Visits` that a state and a record lie between two steps of one more
invocation. All that an instance keeps is its block targets, so history matters only through them:

* `Instance.History.sound`: every remembered target is what a scan of the block finds;
* `State.execM_eq`: an instruction asks a record for the targets of the block that it opens, and for
  no others, and then does what it does when these are given;
* `State.advance_eq_step`: a step that looks targets up is then a step that scans for them;
* `State.advance_of_fetch`: a step is a fetch, and then what is done with the instruction fetched;
* `Instance.Visits.induct`: what holds at the start of an invocation and is kept by `State.step`
  holds of every state between two steps of it.
-/

namespace Wasm

/-! ### Remembered targets -/

namespace TargetCache

/-- Every remembered target is what a scan of the block finds. -/
def Sound (m : Module) (cache : TargetCache) : Prop :=
  ∀ func start found, cache.find? func start = some found → m.scan func start = .ok found

variable {m : Module} {cache : TargetCache}

theorem Sound.empty : Sound m {} := by
  intro func start found remembered
  cases remembered

theorem Sound.insert {func start : Nat} {found : BlockTargets} (sound : cache.Sound m)
    (scanned : m.scan func start = .ok found) : (cache.insert func start found).Sound m := by
  intro f p t remembered
  rw [find?_insert] at remembered
  split at remembered
  · rename_i same
    obtain ⟨rfl, rfl⟩ := same
    cases remembered
    exact scanned
  · exact sound f p t remembered

end TargetCache

namespace Record

variable {m : Module} {record : Record}

@[simp] theorem cache_report (record : Record) (event : Option Event) :
    (record.report event).cache = record.cache := by
  cases event <;> rfl

/-- What is remembered is not scanned for. What is found by a scan is remembered and reported, and a
scan that fails leaves nothing behind. -/
theorem blockTargets_cases (record : Record) (m : Module) (func start : Nat) :
    (∃ found, record.cache.find? func start = some found ∧
      record.blockTargets m func start = (.ok found, record)) ∨
    (∃ e, record.cache.find? func start = none ∧ m.scan func start = .error e ∧
      record.blockTargets m func start = (.error e, record)) ∨
    ∃ found, record.cache.find? func start = none ∧ m.scan func start = .ok found ∧
      record.blockTargets m func start =
        (.ok found, ⟨record.cache.insert func start found,
          record.events.push (.scanned func start found)⟩) := by
  unfold blockTargets
  cases record.cache.find? func start with
  | some found => exact .inl ⟨found, rfl, rfl⟩
  | none =>
    cases m.scan func start with
    | error e => exact .inr (.inl ⟨e, rfl, rfl, rfl⟩)
    | ok found => exact .inr (.inr ⟨found, rfl, rfl, rfl⟩)

/-- With sound targets, looking up and scanning cannot be told apart. -/
theorem blockTargets_eq_scan (sound : record.cache.Sound m) (func start : Nat) :
    (record.blockTargets m func start).1 = m.scan func start := by
  rcases record.blockTargets_cases m func start with
    ⟨found, remembered, same⟩ | ⟨e, -, failed, same⟩ | ⟨found, -, scanned, same⟩
  · rw [same, sound func start found remembered]
  · rw [same, failed]
  · rw [same, scanned]

theorem sound_blockTargets (sound : record.cache.Sound m) (func start : Nat) :
    (record.blockTargets m func start).2.cache.Sound m := by
  rcases record.blockTargets_cases m func start with
    ⟨found, -, same⟩ | ⟨e, -, -, same⟩ | ⟨found, -, scanned, same⟩
  · rwa [same]
  · rwa [same]
  · rw [same]
    exact sound.insert scanned

/-- The record behind an instruction, which asks for the targets of the block that it opens. -/
def consult (record : Record) (m : Module) (func : Nat) (fetched : Fetched) : Record :=
  match fetched.scanStart? with
  | none => record
  | some start => (record.blockTargets m func start).2

theorem sound_consult (sound : record.cache.Sound m) (func : Nat) (fetched : Fetched) :
    (record.consult m func fetched).cache.Sound m := by
  unfold consult
  cases fetched.scanStart? with
  | none => exact sound
  | some start => exact sound_blockTargets sound func start

end Record

/-! ### Steps with and without a record -/

namespace State

variable {m : Module} {config : Config} {s t : State} {record : Record}

/-- An instruction asks for the targets of no block but the one that it opens, and goes by the
answer. -/
theorem execM_eq (config : Config) (s : State) (record : Record) (frame : Frame)
    (fetched : Fetched) :
    (s.execM m config (fun start record => record.blockTargets m frame.func start) frame fetched :
        StateM Record (Except Error Transition)) record =
      (s.exec m config (fun start => (record.blockTargets m frame.func start).1) frame fetched,
        record.consult m frame.func fetched) := by
  cases instr : fetched.instr with
  | _ =>
    simp only [execM, exec, Record.consult, Fetched.scanStart?, instr, pure_bind, Id.run_pure]
    rfl

/-- The rest of a step, for an instruction that has been fetched. -/
def advanceWith (m : Module) (config : Config) (record : Record) (frame : Frame)
    (fetched : Fetched) (s : State) : Except Error State × Record :=
  match s.exec m config (fun start => (record.blockTargets m frame.func start).1) frame fetched with
  | .error e => (.error e, record.consult m frame.func fetched)
  | .ok (s, event) => (.ok s, (record.consult m frame.func fetched).report event)

theorem advance_of_fetch {frame : Frame} {frames : List Frame} {fetched : Fetched}
    (running : s.frames = frame :: frames) (fetches : fetch m s.cells.height frame = .ok fetched) :
    s.advance m config record = s.advanceWith m config record frame fetched := by
  simp only [advance, advanceWith, running, fetches, execM_eq]
  cases s.exec m config (fun start => (record.blockTargets m frame.func start).1) frame fetched with
  | error e => rfl
  | ok transition => rfl

theorem advance_of_fetch_error {frame : Frame} {frames : List Frame} {e : Error}
    (running : s.frames = frame :: frames) (fails : fetch m s.cells.height frame = .error e) :
    s.advance m config record = (.error e, record) := by
  simp only [advance, running, fails]

theorem advance_of_ended (ended : s.frames = []) : s.advance m config record = (.ok s, record) := by
  simp only [advance, ended]

/-- With sound targets, the rest of a step is what it is without a record. -/
theorem advanceWith_of_sound (sound : record.cache.Sound m) (frame : Frame) (fetched : Fetched) :
    s.advanceWith m config record frame fetched =
      match s.exec m config (m.scan frame.func) frame fetched with
      | .error e => (.error e, record.consult m frame.func fetched)
      | .ok (s, event) => (.ok s, (record.consult m frame.func fetched).report event) := by
  simp only [advanceWith, Record.blockTargets_eq_scan sound]

/-- With sound targets, a step that keeps a record goes where a step without one goes. -/
theorem advance_eq_step (config : Config) (sound : record.cache.Sound m) (s : State) :
    (s.advance m config record).1 = (s.step m config).map Prod.fst := by
  unfold step
  cases frames : s.frames with
  | nil =>
    rw [advance_of_ended frames]
    rfl
  | cons frame rest =>
    cases fetches : fetch m s.cells.height frame with
    | error e =>
      rw [advance_of_fetch_error frames fetches]
      simp only [fetches, Except.map]
    | ok fetched =>
      rw [advance_of_fetch frames fetches, advanceWith_of_sound sound]
      simp only [fetches]
      cases s.exec m config (m.scan frame.func) frame fetched with
      | error e => rfl
      | ok transition => rfl

theorem sound_advance (config : Config) (sound : record.cache.Sound m) (s : State) :
    (s.advance m config record).2.cache.Sound m := by
  cases frames : s.frames with
  | nil => rwa [advance_of_ended frames]
  | cons frame rest =>
    cases fetches : fetch m s.cells.height frame with
    | error e => rwa [advance_of_fetch_error frames fetches]
    | ok fetched =>
      have kept := Record.sound_consult sound frame.func fetched
      rw [advance_of_fetch frames fetches]
      unfold advanceWith
      split
      · exact kept
      · rw [Record.cache_report]
        exact kept

theorem step_of_advance {after : Record} (sound : record.cache.Sound m)
    (advanced : s.advance m config record = (.ok t, after)) :
    (∃ event, s.step m config = .ok (t, event)) ∧ after.cache.Sound m := by
  have same := advance_eq_step config sound s
  have kept := sound_advance config sound s
  rw [advanced] at same kept
  refine ⟨?_, kept⟩
  cases run : s.step m config with
  | error e => simp [run, Except.map] at same
  | ok transition =>
    simp only [run, Except.map, Except.ok.injEq] at same
    exact ⟨transition.2, by rw [same]⟩

theorem advance_of_step {event : Option Event} (sound : record.cache.Sound m)
    (step : s.step m config = .ok (t, event)) :
    ∃ after, s.advance m config record = (.ok t, after) ∧ after.cache.Sound m := by
  have same := advance_eq_step config sound s
  have kept := sound_advance config sound s
  rw [step] at same
  exact ⟨_, Prod.ext same rfl, kept⟩

/-- With sound targets, a step that keeps a record fails where a step without one fails. -/
theorem step_of_advance_error {after : Record} {e : Error}
    (sound : record.cache.Sound m) (fails : s.advance m config record = (.error e, after)) :
    s.step m config = .error e := by
  have same := advance_eq_step config sound s
  rw [fails] at same
  cases step : s.step m config with
  | error e' =>
    rw [step] at same
    cases same
    rfl
  | ok transition =>
    rw [step] at same
    cases same

theorem advance_of_step_error {e : Error}
    (sound : record.cache.Sound m) (fails : s.step m config = .error e) :
    ∃ after, s.advance m config record = (.error e, after) := by
  have same := advance_eq_step config sound s
  rw [fails] at same
  exact ⟨_, Prod.ext same rfl⟩

/-- A run that goes on as long as the states satisfy a condition. The last state need not. -/
inductive RunsWhile (m : Module) (config : Config) (going : State → Prop) :
    State → Record → State → Record → Prop where
  | refl (s : State) (record : Record) : RunsWhile m config going s record s record
  | step {s s' t : State} {record record' final : Record} (goes : going s)
      (advanced : s.advance m config record = (.ok s', record'))
      (rest : RunsWhile m config going s' record' t final) :
      RunsWhile m config going s record t final

/-- Some activation is left, so that a run goes on. -/
def Running (s : State) : Prop :=
  s.frames ≠ []

instance : DecidablePred Running :=
  fun s => inferInstanceAs (Decidable (s.frames ≠ []))

/-- The state after `n` steps of a run, if it goes on for so long. -/
def stepsWhile (m : Module) (config : Config) (going : State → Prop) [DecidablePred going] :
    Nat → State → Option State
  | 0, s => some s
  | n + 1, s =>
    if going s then
      match s.step m config with
      | .ok (s, _) => stepsWhile m config going n s
      | .error _ => none
    else
      none

/-- Steps without a record can be taken with any sound one. -/
theorem RunsWhile.of_stepsWhile {going : State → Prop} [DecidablePred going] {n : Nat}
    (sound : record.cache.Sound m) (reached : stepsWhile m config going n s = some t) :
    ∃ final, RunsWhile m config going s record t final := by
  induction n generalizing s record with
  | zero =>
    cases reached
    exact ⟨record, .refl _ _⟩
  | succ n ih =>
    unfold stepsWhile at reached
    split at reached
    · rename_i goes
      split at reached
      · rename_i next event step
        obtain ⟨after, advanced, sound'⟩ := advance_of_step sound step
        obtain ⟨final, rest⟩ := ih sound' reached
        exact ⟨final, .step goes advanced rest⟩
      · cases reached
    · cases reached

/-- What steps keep, runs keep. -/
theorem RunsWhile.preserves {going inv : State → Prop} {final : Record}
    (keeps : ∀ s t event, going s → inv s → s.step m config = .ok (t, event) → inv t)
    (runs : RunsWhile m config going s record t final) (sound : record.cache.Sound m)
    (holds : inv s) : inv t := by
  induction runs with
  | refl => exact holds
  | step goes advanced _ ih =>
    obtain ⟨⟨event, step⟩, sound'⟩ := step_of_advance sound advanced
    exact ih sound' (keeps _ _ event goes holds step)

theorem RunsWhile.sound {going : State → Prop} {final : Record}
    (runs : RunsWhile m config going s record t final) (sound : record.cache.Sound m) :
    final.cache.Sound m := by
  induction runs with
  | refl => exact sound
  | step _ advanced _ ih => exact ih (step_of_advance sound advanced).2

theorem sound_run (config : Config) (fuel : Nat) (s : State) (record : Record)
    (sound : record.cache.Sound m) :
    (s.run m config fuel record).2.2.cache.Sound m := by
  induction fuel generalizing s record with
  | zero => exact sound
  | succ fuel ih =>
    have kept := sound_advance config sound s
    unfold run
    split
    · exact sound
    · split
      · rename_i e after advanced
        rw [advanced] at kept
        exact kept
      · rename_i next after advanced
        rw [advanced] at kept
        exact ih next after kept

end State

/-! ### Histories -/

namespace Instance

/-- What some sequence of invocations makes of a new instance. Any of them may fail, trap or be
given up for want of fuel. -/
inductive History (m : Module) (config : Config) : Instance → Prop where
  | new : History m config (new m config)
  | invoke {inst : Instance} (before : History m config inst) (fuel func : Nat)
      (args : List Cell) : History m config (inst.invoke fuel func args).inst

namespace History

variable {m : Module} {config : Config} {inst : Instance}

theorem program_eq (history : History m config inst) : inst.program = m := by
  induction history with
  | new => rfl
  | invoke _ _ _ _ ih => exact ih

theorem config_eq (history : History m config inst) : inst.config = config := by
  induction history with
  | new => rfl
  | invoke _ _ _ _ ih => exact ih

/-- Whatever was invoked before, the remembered targets are sound. -/
theorem sound (history : History m config inst) : inst.cache.Sound m := by
  induction history with
  | new => exact .empty
  | @invoke inst before fuel func args ih =>
    change ((inst.reset.execute fuel func args).2.2.report _).cache.Sound m
    rw [Record.cache_report]
    unfold execute reset
    rw [before.program_eq]
    dsimp only
    cases start m inst.config .empty func args with
    | error e => exact ih
    | ok begun =>
      obtain ⟨⟨s, event⟩, type⟩ := begun
      have kept := State.sound_run inst.config fuel s
        (({ cache := inst.cache } : Record).report event) (by rwa [Record.cache_report])
      dsimp only
      split
      · rename_i final ended
        rwa [ended] at kept
      · rename_i e final ended
        rwa [ended] at kept
      · rename_i t final ended
        rw [ended] at kept
        split
        · exact kept
        · exact kept

end History

/-- A state and a record between two steps of an invocation, which starts on emptied stacks. -/
def Visits (inst : Instance) (func : Nat) (args : List Cell) (s : State) (record : Record) : Prop :=
  ∃ first event type,
    start inst.program inst.config inst.reset.state func args = .ok ((first, event), type) ∧
    State.RunsWhile inst.program inst.config State.Running first
      (({ cache := inst.cache } : Record).report event) s record

/-- What holds at the start of an invocation and is kept by every step holds of every state between
two steps of it. -/
theorem Visits.induct {m : Module} {config : Config} {inst : Instance} {func : Nat}
    {args : List Cell} {s : State} {record : Record} (inv : State → Prop)
    (history : History m config inst) (visits : inst.Visits func args s record)
    (starts : ∀ s event type, start m config .empty func args = .ok ((s, event), type) → inv s)
    (keeps : ∀ s t event, inv s → s.step m config = .ok (t, event) → inv t) : inv s := by
  obtain ⟨first, event, type, begun, runs⟩ := visits
  have sound := history.sound
  rw [history.program_eq, history.config_eq] at begun runs
  exact runs.preserves (fun s t event _ => keeps s t event)
    (by rwa [Record.cache_report]) (starts _ _ _ begun)

/-- What the steps from the start of an invocation come to, the invocation visits. -/
theorem Visits.of_stepsWhile {m : Module} {config : Config} {inst : Instance} {func n : Nat}
    {args : List Cell} {first s : State} {event : Option Event} {type : Option ValType}
    (history : History m config inst)
    (begun : start m config .empty func args = .ok ((first, event), type))
    (reached : State.stepsWhile m config State.Running n first = some s) :
    ∃ record, inst.Visits func args s record := by
  have sound : (({ cache := inst.cache } : Record).report event).cache.Sound m := by
    rw [Record.cache_report]
    exact history.sound
  obtain ⟨final, runs⟩ := State.RunsWhile.of_stepsWhile sound reached
  refine ⟨final, ?_⟩
  unfold Visits
  rw [history.program_eq, history.config_eq]
  exact ⟨_, _, _, begun, runs⟩

/-- Between two steps, too, the remembered targets are sound. -/
theorem Visits.sound {m : Module} {config : Config} {inst : Instance} {func : Nat}
    {args : List Cell} {s : State} {record : Record} (history : History m config inst)
    (visits : inst.Visits func args s record) : record.cache.Sound m := by
  obtain ⟨first, event, type, begun, runs⟩ := visits
  have sound := history.sound
  rw [history.program_eq, history.config_eq] at runs
  exact runs.sound (by rwa [Record.cache_report])

/-- An invocation starts in a state made by entering its function. -/
theorem start_eq_ok_iff {m : Module} {config : Config} {func : Nat} {args : List Cell} {s : State}
    {event : Option Event} {result : Option ValType} :
    start m config .empty func args = .ok ((s, event), result) ↔
      ∃ type, m.funcType? func = some type ∧ args.length = type.params.length ∧
        type.results.length ≤ 1 ∧ result = type.results.head? ∧
        (⟨Cells.ofList (List.zipWith ValType.canonical type.params args), [], []⟩ : State).enter
          m config func = .ok (s, event) := by
  simp only [start, State.empty, Cells.pushAll_empty]
  cases m.funcType? func with
  | none => simp
  | some type =>
    simp only [Option.some.injEq, exists_eq_left']
    by_cases count : args.length = type.params.length
    · by_cases many : 1 < type.results.length
      · simp [count, many, Nat.not_le.mpr many]
      · simp only [count, ne_eq, not_true, if_false, many, Nat.not_lt.mp many, true_and]
        cases State.enter m config func
          ⟨Cells.ofList (List.zipWith ValType.canonical type.params args), [], []⟩ with
        | error e => simp [Except.map]
        | ok transition =>
          obtain ⟨t, reported⟩ := transition
          simp only [Except.map, Except.ok.injEq, Prod.mk.injEq]
          constructor
          · rintro ⟨⟨rfl, rfl⟩, rfl⟩
            exact ⟨rfl, rfl, rfl⟩
          · rintro ⟨rfl, rfl, rfl⟩
            exact ⟨⟨rfl, rfl⟩, rfl⟩
    · simp [count]

/-- The result of a function is there when the stack has as many cells as the function has results,
and no cell is left when it is taken off. -/
theorem exists_result {type : FuncType} {s : State} (func : Nat)
    (single : type.results.length ≤ 1) (count : s.cells.height = type.results.length) :
    ∃ cell, result func type.results.head? s = .ok (cell, ⟨.empty, s.frames, s.labels⟩) := by
  obtain ⟨cells, frames, labels⟩ := s
  change cells.height = _ at count
  rcases results : type.results with _ | ⟨first, others⟩
  · rw [results] at count
    obtain rfl := Cells.eq_empty_of_height count
    exact ⟨0, rfl⟩
  · rw [results] at count single
    have one : cells.height = 1 := Nat.le_antisymm (count ▸ single) (by simp [count])
    have filled : 0 < cells.height := one ▸ Nat.zero_lt_one
    obtain ⟨cell, rest, popped⟩ := Cells.popAbove?_of_lt filled
    obtain ⟨-, rfl⟩ := Cells.popAbove?_eq_some_iff.mp popped
    rw [Cells.height_push] at one
    obtain rfl := Cells.eq_empty_of_height (Nat.succ.inj one)
    simp only [result, List.head?_cons, popped]
    exact ⟨_, rfl⟩

end Instance

/-! ### A run to look at -/

namespace Sample

/-- A module with two functions from `i32` to `i32`. The first calls the second from a `loop` in a
`block` and branches out with its result; the second hands its argument on through a local that it
sets in a `block`. -/
def bytes : Bytes :=
  #[0x00, 0x61, 0x73, 0x6D, 0x01, 0x00, 0x00, 0x00,
    0x01, 0x06, 0x01, 0x60, 0x01, 0x7F, 0x01, 0x7F,
    0x03, 0x03, 0x02, 0x00, 0x00,
    0x0A, 0x1E, 0x02,
    0x0E, 0x00, 0x02, 0x7F, 0x03, 0x40, 0x20, 0x00, 0x10, 0x01, 0x0C, 0x01, 0x0B, 0x0B, 0x0B,
    0x0D, 0x01, 0x01, 0x7F, 0x02, 0x40, 0x20, 0x00, 0x21, 0x01, 0x0B, 0x20, 0x01, 0x0B]

/-- The module that `bytes` decode to. -/
def program : Module :=
  { types := #[.new [.i32] [.i32]]
    funcs := #[
      ⟨0, 0, #[0x02, 0x7F, 0x03, 0x40, 0x20, 0x00, 0x10, 0x01, 0x0C, 0x01, 0x0B, 0x0B, 0x0B]⟩,
      ⟨0, 1, #[0x02, 0x40, 0x20, 0x00, 0x21, 0x01, 0x0B, 0x20, 0x01, 0x0B]⟩]
    exports := #[]
    table := none }

/-- An instance of the module that has been invoked once. -/
def inst : Instance :=
  ((Instance.new program {}).invoke 100 0 [7]).inst

/-- The state in the second function, called by the first, before it sets its local. -/
def inNestedCall : State :=
  { cells := ⟨#[5, 5, 0, 5]⟩
    frames := [⟨1, 4, 1, 2, 2, 1⟩, ⟨0, 8, 0, 1, 0, 1⟩]
    labels := [⟨.block, 0, 3, 6⟩, ⟨.loop, 0, 1, 2⟩, ⟨.block, 1, 1, 11⟩] }

theorem ok_of_toOption {ε α : Type} {x : Except ε α} {a : α} (given : x.toOption = some a) :
    x = .ok a :=
  toOption_eq_some_iff.mp given

theorem decode_bytes : Module.decode bytes = .ok program :=
  ok_of_toOption (by decide +kernel)

theorem history : Instance.History program {} inst :=
  .invoke .new 100 0 [7]

/-- What an invocation of the first function with five comes to, it visits. -/
theorem visits_of_stepsWhile {n : Nat} {s : State}
    (reached : State.stepsWhile program {} State.Running n
      ⟨⟨#[5]⟩, [⟨0, 0, 0, 1, 0, 1⟩], []⟩ = some s) :
    ∃ record, inst.Visits 0 [5] s record := by
  have begun : Instance.start program {} .empty 0 [5] =
      .ok ((⟨⟨#[5]⟩, [⟨0, 0, 0, 1, 0, 1⟩], []⟩, some (.entered 0 1)), some .i32) :=
    ok_of_toOption (by decide +kernel)
  exact Instance.Visits.of_stepsWhile history begun reached

theorem visits_inNestedCall : ∃ record, inst.Visits 0 [5] inNestedCall record :=
  visits_of_stepsWhile (show State.stepsWhile program {} State.Running 6 _ = _ by decide +kernel)

/-- A module whose function from `i32` to `i32` is the factorial: an `if` calls the function for the
number below, and multiplies. -/
def factorial : Module :=
  { types := #[.new [.i32] [.i32]]
    funcs := #[
      ⟨0, 0, #[0x20, 0x00, 0x04, 0x7F, 0x20, 0x00, 0x20, 0x00, 0x41, 0x01, 0x6B, 0x10, 0x00, 0x6C,
        0x05, 0x41, 0x01, 0x0B, 0x0B]⟩]
    exports := #[]
    table := none }

end Sample

end Wasm
