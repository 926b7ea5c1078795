import Wasm.Proofs.Machine.Runs

/-!
What an instance has been used for makes no difference to what it gives.

Block targets are all that one invocation leaves to the next, as the stacks are emptied in between.
A target that is remembered is a scan that is not made, and so an event that is not reported. Two
records of the same run are compared by a relation that scanning and reporting keep (`Record.Kept`),
and then so does the whole run:

* `State.asked_advance`: a step that opens a block scans for its targets unless they are remembered,
  and remembers and reports what it finds;
* `Record.Kept.advance`, `Record.Kept.run`, `Record.Kept.execute`: runs that differ in what they
  remember go through the same states, and their records stay related;
* `Record.Exact`: what is remembered is what has been scanned, once for each block;
* `Record.Trails`: a used instance reports what a new one reports, less the scans that it need not
  repeat;
* `invoke_after_calls`: so an instance that has served any calls gives what a new one gives.
-/

namespace Wasm

/-! ### Scans in the log and in the cache -/

namespace Event

/-- The block that was scanned: its function and the offset of its first instruction. -/
def scannedKey? : Event → Option (Nat × Nat)
  | scanned func start _ => some (func, start)
  | _ => none

/-- Nothing is reported, or something other than a scan. -/
def Quiet (event : Option Event) : Prop :=
  event.bind scannedKey? = none

end Event

namespace TargetCache

variable {cache : TargetCache} {func start : Nat}

/-- The blocks whose targets are remembered, the last one first. -/
def keys (cache : TargetCache) : List (Nat × Nat) :=
  cache.entries.map Prod.fst

/-- The event is a scan of a block whose targets are remembered. -/
def repeats (cache : TargetCache) (event : Event) : Bool :=
  match event.scannedKey? with
  | some key => decide (key ∈ cache.keys)
  | none => false

@[simp] theorem keys_insert (cache : TargetCache) (func start : Nat) (found : BlockTargets) :
    (cache.insert func start found).keys = (func, start) :: cache.keys :=
  rfl

theorem mem_keys_of_find? {found : BlockTargets}
    (remembered : cache.find? func start = some found) : (func, start) ∈ cache.keys := by
  obtain ⟨before, after, same, -⟩ := List.lookup_eq_some_iff.mp remembered
  simp [keys, same]

theorem notMem_keys_of_find? (missing : cache.find? func start = none) :
    (func, start) ∉ cache.keys := by
  intro member
  obtain ⟨entry, inside, same⟩ := List.mem_map.mp member
  have differs := List.lookup_eq_none_iff.mp missing entry inside
  simp [same] at differs

end TargetCache

namespace Record

variable {m : Module} {record : Record}

/-- An instruction leaves the record as it is, unless it opens a block that is not remembered and
that can be scanned: this scan is remembered and reported. -/
theorem consult_cases (record : Record) (m : Module) (func : Nat) (fetched : Fetched) :
    (record.consult m func fetched = record ∧ ∀ start, fetched.scanStart? = some start →
      (func, start) ∈ record.cache.keys ∨ ∃ e, m.scan func start = .error e) ∨
    ∃ start found, fetched.scanStart? = some start ∧ (func, start) ∉ record.cache.keys ∧
      m.scan func start = .ok found ∧
      record.consult m func fetched =
        ⟨record.cache.insert func start found, record.events.push (.scanned func start found)⟩ := by
  unfold consult
  cases opens : fetched.scanStart? with
  | none => exact .inl ⟨rfl, nofun⟩
  | some start =>
    dsimp only
    rcases record.blockTargets_cases m func start with
      ⟨found, remembered, same⟩ | ⟨e, -, failed, same⟩ | ⟨found, missing, scanned, same⟩
    · rw [same]
      refine .inl ⟨rfl, ?_⟩
      rintro _ ⟨⟩
      exact .inl (TargetCache.mem_keys_of_find? remembered)
    · rw [same]
      refine .inl ⟨rfl, ?_⟩
      rintro _ ⟨⟩
      exact .inr ⟨e, failed⟩
    · rw [same]
      exact .inr ⟨start, found, rfl, TargetCache.notMem_keys_of_find? missing, scanned, rfl⟩

end Record

/-! ### Instructions report no scans -/

namespace State

variable {m : Module} {config : Config} {s t : State} {frame : Frame} {event : Option Event}

theorem quiet_of_leave (left : s.leave = .ok (t, event)) : Event.Quiet event := by
  unfold leave at left
  split at left
  · split at left
    · cases left
    split at left
    · cases left
    · cases left
      rfl
  · cases left
    rfl

theorem quiet_of_enter {func : Nat} (entered : s.enter m config func = .ok (t, event)) :
    Event.Quiet event := by
  obtain ⟨_, _, -, -, -, -, -, -, -, rfl⟩ := enter_eq_ok_iff.mp entered
  rfl

theorem quiet_of_branch {depth : Nat} (taken : s.branch frame depth = .ok (t, event)) :
    Event.Quiet event := by
  unfold branch at taken
  split at taken
  · exact quiet_of_leave taken
  split at taken
  · cases taken
  dsimp only at taken
  split at taken
  · cases taken
  split at taken
  · cases taken
  · cases taken
    rfl

theorem quiet_of_closeLabel {next : Nat} (closed : s.closeLabel frame next = .ok (t, event)) :
    Event.Quiet event := by
  unfold closeLabel at closed
  split at closed
  · exact quiet_of_leave closed
  split at closed
  · split at closed
    · cases closed
    · cases closed
      rfl
  · exact quiet_of_leave closed

theorem quiet_of_exec {targets : Nat → Except DecodeError BlockTargets} {fetched : Fetched}
    (run : s.exec m config targets frame fetched = .ok (t, event)) : Event.Quiet event := by
  unfold exec execM at run
  dsimp only at run
  split at run <;> simp only [pure_bind, Id.run_pure] at run
  · split at run
    · cases run
    · cases run
      rfl
  · split at run
    · cases run
    · cases run
      rfl
  · cases run
    rfl
  · split at run
    · cases run
    split at run
    · cases run
    split at run
    · cases run
      rfl
    split at run
    · cases run
      rfl
    · cases run
      rfl
  · exact quiet_of_branch run
  · exact quiet_of_closeLabel run
  · exact quiet_of_branch run
  · split at run
    · cases run
    split at run
    · exact quiet_of_branch run
    · cases run
      rfl
  · split at run
    · cases run
    · exact quiet_of_branch run
  · exact quiet_of_leave run
  · exact quiet_of_enter run
  · split at run
    · cases run
    split at run
    · cases run
    split at run
    · cases run
    split at run
    · cases run
    · exact quiet_of_enter run

end State

/-! ### What a step at an opened block leaves behind -/

/-- The blocks of which the record reports a scan, in their order. -/
def Record.scans (record : Record) : List (Nat × Nat) :=
  record.events.toList.filterMap Event.scannedKey?

/-- What becomes of a record that has been asked for the targets of a block: it remembers them, if
the block has any, and reports a scan of the block, unless it remembered them before. Of other
blocks it remembers what it did. -/
structure Record.Asked (m : Module) (func start : Nat) (record after : Record) : Prop where
  remembered : after.cache.find? func start = (m.scan func start).toOption
  others : ∀ f p, (f, p) ≠ (func, start) → after.cache.find? f p = record.cache.find? f p
  reported : after.scans = record.scans ++
    if (record.cache.find? func start).isNone ∧ (m.scan func start).toOption.isSome then
      [(func, start)]
    else
      []

namespace Record

variable {m : Module} {func start : Nat} {record after : Record}

@[simp] theorem scans_report {event : Option Event} (quiet : Event.Quiet event) :
    (record.report event).scans = record.scans := by
  cases event with
  | none => rfl
  | some event =>
    have silent : event.scannedKey? = none := quiet
    simp [scans, report, silent]

theorem asked_blockTargets (sound : record.cache.Sound m) (func start : Nat) :
    Asked m func start record (record.blockTargets m func start).2 := by
  rcases record.blockTargets_cases m func start with
    ⟨found, remembered, same⟩ | ⟨e, missing, failed, same⟩ | ⟨found, missing, scanned, same⟩
  · have scanned := sound func start found remembered
    rw [same]
    exact ⟨by rw [remembered, scanned]; rfl, fun _ _ _ => rfl, by simp [remembered]⟩
  · rw [same]
    exact ⟨by rw [missing, failed]; rfl, fun _ _ _ => rfl, by simp [failed, Except.toOption]⟩
  · rw [same]
    refine ⟨?_, ?_, ?_⟩
    · simp [TargetCache.find?_insert, scanned, Except.toOption]
    · intro f p other
      rw [TargetCache.find?_insert, if_neg fun same => other (Prod.ext same.1 same.2)]
    · simp [missing, scanned, Except.toOption, scans, Event.scannedKey?]

theorem Asked.report {event : Option Event} (asked : Asked m func start record after)
    (quiet : Event.Quiet event) : Asked m func start record (after.report event) where
  remembered := by rw [cache_report, asked.remembered]
  others := by simpa only [cache_report] using asked.others
  reported := by rw [scans_report quiet, asked.reported]

end Record

/-- Whether or not it succeeds, a step at an instruction that opens a block asks for its targets. -/
theorem State.asked_advance {m : Module} {record : Record} {s : State} {frame : Frame}
    {frames : List Frame} {fetched : Fetched} {start : Nat} (config : Config)
    (sound : record.cache.Sound m) (running : s.frames = frame :: frames)
    (fetches : fetch m s.cells.height frame = .ok fetched)
    (opens : fetched.scanStart? = some start) :
    Record.Asked m frame.func start record (s.advance m config record).2 := by
  have asked : Record.Asked m frame.func start record (record.consult m frame.func fetched) := by
    unfold Record.consult
    rw [opens]
    exact Record.asked_blockTargets sound frame.func start
  rw [advance_of_fetch running fetches, advanceWith_of_sound sound]
  cases run : s.exec m config (m.scan frame.func) frame fetched with
  | error e => exact asked
  | ok transition => exact asked.report (quiet_of_exec run)

/-- A step at any other instruction remembers and scans nothing. -/
theorem State.keeps_advance {m : Module} {record : Record} {s : State} {frame : Frame}
    {frames : List Frame} {fetched : Fetched} (config : Config)
    (running : s.frames = frame :: frames)
    (fetches : fetch m s.cells.height frame = .ok fetched) (flat : fetched.scanStart? = none) :
    (s.advance m config record).2.cache = record.cache ∧
      (s.advance m config record).2.scans = record.scans := by
  have kept : record.consult m frame.func fetched = record := by
    unfold Record.consult
    rw [flat]
  rw [advance_of_fetch running fetches, advanceWith, kept]
  split
  · exact ⟨rfl, rfl⟩
  · rename_i run
    exact ⟨record.cache_report _, Record.scans_report (quiet_of_exec run)⟩

/-! ### Two records of one run -/

/-- A relation between records with sound targets that is kept when both records see the same block
opened, or the same event other than a scan. -/
structure Record.Kept (m : Module) (R : Record → Record → Prop) : Prop where
  sound : ∀ {r r'}, R r r' → r.cache.Sound m ∧ r'.cache.Sound m
  consult : ∀ {r r'} (func : Nat) (fetched : Fetched), R r r' →
    R (r.consult m func fetched) (r'.consult m func fetched)
  report : ∀ {r r' event}, Event.Quiet event → R r r' → R (r.report event) (r'.report event)

namespace Record.Kept

variable {m : Module} {config : Config} {R : Record → Record → Prop} {r r' : Record}

/-- One step, with either record, goes to the same state and keeps the relation. -/
theorem advance (kept : Kept m R) (config : Config) (related : R r r') (s : State) :
    (s.advance m config r).1 = (s.advance m config r').1 ∧
      R (s.advance m config r).2 (s.advance m config r').2 := by
  obtain ⟨sound, sound'⟩ := kept.sound related
  refine ⟨by rw [State.advance_eq_step config sound, State.advance_eq_step config sound'], ?_⟩
  cases frames : s.frames with
  | nil =>
    rw [State.advance_of_ended frames, State.advance_of_ended frames]
    exact related
  | cons frame rest =>
    cases fetches : fetch m s.cells.height frame with
    | error e =>
      rw [State.advance_of_fetch_error frames fetches, State.advance_of_fetch_error frames fetches]
      exact related
    | ok fetched =>
      have consulted := kept.consult frame.func fetched related
      rw [State.advance_of_fetch frames fetches, State.advance_of_fetch frames fetches,
        State.advanceWith_of_sound sound, State.advanceWith_of_sound sound']
      cases run : s.exec m config (m.scan frame.func) frame fetched with
      | error e => exact consulted
      | ok transition => exact kept.report (State.quiet_of_exec run) consulted

/-- A whole run, with either record, ends in the same way on the same stacks and keeps the
relation. -/
theorem run (kept : Kept m R) (config : Config) (fuel : Nat) (related : R r r') (s : State) :
    (s.run m config fuel r).1 = (s.run m config fuel r').1 ∧
      (s.run m config fuel r).2.1 = (s.run m config fuel r').2.1 ∧
      R (s.run m config fuel r).2.2 (s.run m config fuel r').2.2 := by
  induction fuel generalizing s r r' with
  | zero => exact ⟨rfl, rfl, related⟩
  | succ fuel ih =>
    obtain ⟨same, related'⟩ := kept.advance config related s
    unfold State.run
    split
    · exact ⟨rfl, rfl, related⟩
    · cases first : s.advance m config r with
      | mk result after =>
        cases second : s.advance m config r' with
        | mk result' after' =>
          rw [first, second] at same related'
          obtain rfl : result = result' := same
          cases result with
          | error e => exact ⟨rfl, rfl, related'⟩
          | ok t => exact ih related' t

theorem runsWhile (kept : Kept m R) {going : State → Prop} {s t : State} {final : Record}
    (related : R r r) (runs : State.RunsWhile m config going s r t final) : R final final := by
  induction runs with
  | refl => exact related
  | @step s s' t record record' final goes advanced rest ih =>
    have after := (kept.advance config related s).2
    rw [advanced] at after
    exact ih after

end Record.Kept

/-! ### Two instances of one module -/

/-- How an invocation ended is not a scan. -/
theorem Instance.quiet_closing? (func : Nat) (args : List Cell) (outcome : Outcome) :
    Event.Quiet (closing? func args outcome) := by
  cases outcome with
  | value cell | failed e | outOfFuel => rfl

namespace Record.Kept

variable {m : Module} {config : Config} {R : Record → Record → Prop} {inst inst' : Instance}

theorem execute (kept : Kept m R) (history : Instance.History m config inst)
    (history' : Instance.History m config inst')
    (related : R { cache := inst.cache } { cache := inst'.cache }) (fuel func : Nat)
    (args : List Cell) :
    (inst.reset.execute fuel func args).1 = (inst'.reset.execute fuel func args).1 ∧
      R (inst.reset.execute fuel func args).2.2 (inst'.reset.execute fuel func args).2.2 := by
  unfold Instance.execute Instance.reset
  simp only [history.program_eq, history.config_eq, history'.program_eq, history'.config_eq]
  cases begun : Instance.start m config .empty func args with
  | error e => exact ⟨rfl, related⟩
  | ok started =>
    obtain ⟨⟨s, event⟩, type⟩ := started
    obtain ⟨_, -, -, -, -, entered⟩ := Instance.start_eq_ok_iff.mp begun
    obtain ⟨same, left, related'⟩ :=
      kept.run config fuel (kept.report (State.quiet_of_enter entered) related) s
    dsimp only
    generalize s.run m config fuel _ = first at same left related' ⊢
    generalize s.run m config fuel _ = second at same left related' ⊢
    obtain ⟨result, t, after⟩ := first
    obtain ⟨result', t', after'⟩ := second
    obtain rfl : result = result' := same
    obtain rfl : t = t' := left
    match result with
    | none => exact ⟨rfl, related'⟩
    | some (.error e) => exact ⟨rfl, related'⟩
    | some (.ok ()) =>
      dsimp only
      cases Instance.result func type t with
      | error e => exact ⟨rfl, related'⟩
      | ok given => exact ⟨rfl, related'⟩

/-- Whatever two instances of one module remember, an invocation on either has the same outcome, and
what they remember and report stays related. -/
theorem invoke (kept : Kept m R) (history : Instance.History m config inst)
    (history' : Instance.History m config inst')
    (related : R { cache := inst.cache } { cache := inst'.cache }) (fuel func : Nat)
    (args : List Cell) :
    (inst.invoke fuel func args).outcome = (inst'.invoke fuel func args).outcome ∧
      R ⟨(inst.invoke fuel func args).inst.cache, (inst.invoke fuel func args).events⟩
        ⟨(inst'.invoke fuel func args).inst.cache, (inst'.invoke fuel func args).events⟩ := by
  obtain ⟨same, related'⟩ := kept.execute history history' related fuel func args
  refine ⟨same, ?_⟩
  have closed := kept.report
    (Instance.quiet_closing? func args (inst.reset.execute fuel func args).1) related'
  change R ((inst.reset.execute fuel func args).2.2.report _)
    ((inst'.reset.execute fuel func args).2.2.report
      (Instance.closing? func args (inst'.reset.execute fuel func args).1))
  rw [← same]
  exact closed

end Record.Kept

/-! ### What is remembered is what has been scanned -/

/-- What is remembered is what has been scanned, as the log `before` and the events of the record
tell it: the blocks in their order, each of them once, and its targets as a scan finds them. -/
structure Record.Exact (m : Module) (before : List Event) (record : Record) : Prop where
  keys_eq : record.cache.keys.reverse =
    (before ++ record.events.toList).filterMap Event.scannedKey?
  nodup : record.cache.keys.Nodup
  faithful : ∀ entry ∈ record.cache.entries, m.scan entry.1.1 entry.1.2 = .ok entry.2

namespace Record.Exact

variable {m : Module} {before : List Event} {record : Record}

theorem sound (agrees : Exact m before record) : record.cache.Sound m := by
  intro func start found remembered
  obtain ⟨first, last, same, -⟩ := List.lookup_eq_some_iff.mp remembered
  have member : ((func, start), found) ∈ record.cache.entries := by simp [same]
  exact agrees.faithful _ member

theorem consult (agrees : Exact m before record) (func : Nat) (fetched : Fetched) :
    Exact m before (record.consult m func fetched) := by
  rcases record.consult_cases m func fetched with ⟨same, -⟩ |
    ⟨start, found, -, missing, scanned, same⟩
  · rwa [same]
  · rw [same]
    constructor
    · simp [agrees.keys_eq, Event.scannedKey?]
    · rw [TargetCache.keys_insert]
      exact List.nodup_cons.mpr ⟨missing, agrees.nodup⟩
    · intro entry member
      rcases List.mem_cons.mp member with rfl | member
      · exact scanned
      · exact agrees.faithful entry member

theorem report {event : Option Event} (agrees : Exact m before record) (quiet : Event.Quiet event) :
    Exact m before (record.report event) := by
  cases event with
  | none => exact agrees
  | some event =>
    refine ⟨?_, agrees.nodup, agrees.faithful⟩
    have silent : event.scannedKey? = none := quiet
    simp [Record.report, agrees.keys_eq, silent]

/-- Scanning and reporting keep two exact records exact. -/
theorem kept (m : Module) (before : List Event) :
    Kept m fun r r' => Exact m before r ∧ Exact m before r' where
  sound related := ⟨related.1.sound, related.2.sound⟩
  consult func fetched related :=
    ⟨related.1.consult func fetched, related.2.consult func fetched⟩
  report quiet related := ⟨related.1.report quiet, related.2.report quiet⟩

end Record.Exact

/-! ### What a used instance leaves out -/

/-- The record `used` of a run that began with the targets `known`, beside the record `fresh` of the
same run begun with none: it remembers those targets too, and has all events but their scans. -/
structure Record.Trails (m : Module) (known : TargetCache) (fresh used : Record) : Prop where
  fresh_sound : fresh.cache.Sound m
  used_sound : used.cache.Sound m
  keys_iff : ∀ key, key ∈ used.cache.keys ↔ key ∈ known.keys ∨ key ∈ fresh.cache.keys
  events_eq : used.events.toList = fresh.events.toList.filter fun event => !known.repeats event

namespace Record.Trails

variable {m : Module} {known : TargetCache} {fresh used : Record}

theorem consult (trails : Trails m known fresh used) (func : Nat) (fetched : Fetched) :
    Trails m known (fresh.consult m func fetched) (used.consult m func fetched) := by
  have freshSound := Record.sound_consult trails.fresh_sound func fetched
  have usedSound := Record.sound_consult trails.used_sound func fetched
  rcases fresh.consult_cases m func fetched with ⟨freshSame, freshKnows⟩ |
    ⟨start, found, opens, freshMisses, scanned, freshGrown⟩
  · rcases used.consult_cases m func fetched with ⟨usedSame, -⟩ |
      ⟨start, found, opens, usedMisses, scanned, -⟩
    · rwa [freshSame, usedSame]
    · -- A block that the used instance has to scan, a new one has to scan too.
      rcases freshKnows start opens with member | ⟨e, failed⟩
      · exact absurd ((trails.keys_iff _).mpr (.inr member)) usedMisses
      · rw [scanned] at failed
        cases failed
  · rcases used.consult_cases m func fetched with ⟨usedSame, usedKnows⟩ |
      ⟨start', found', opens', usedMisses, scanned', usedGrown⟩
    · -- The new instance alone scans the block, so the used one knew it from the start.
      have repeated : (func, start) ∈ known.keys := by
        rcases usedKnows start opens with member | ⟨e, failed⟩
        · exact ((trails.keys_iff _).mp member).resolve_right freshMisses
        · rw [scanned] at failed
          cases failed
      rw [freshGrown] at freshSound ⊢
      rw [usedSame] at usedSound ⊢
      refine ⟨freshSound, usedSound, ?_, ?_⟩
      · intro key
        rw [trails.keys_iff, TargetCache.keys_insert, List.mem_cons]
        constructor
        · rintro (member | member)
          · exact .inl member
          · exact .inr (.inr member)
        · rintro (member | rfl | member)
          · exact .inl member
          · exact .inl repeated
          · exact .inr member
      · simp [trails.events_eq, TargetCache.repeats, Event.scannedKey?, repeated]
    · obtain rfl : start = start' := Option.some.inj (opens.symm.trans opens')
      cases scanned.symm.trans scanned'
      have unknown : (func, start) ∉ known.keys := fun member =>
        usedMisses ((trails.keys_iff _).mpr (.inl member))
      rw [freshGrown] at freshSound ⊢
      rw [usedGrown] at usedSound ⊢
      refine ⟨freshSound, usedSound, ?_, ?_⟩
      · intro key
        rw [TargetCache.keys_insert, TargetCache.keys_insert, List.mem_cons, List.mem_cons,
          trails.keys_iff, or_left_comm]
      · simp [trails.events_eq, TargetCache.repeats, Event.scannedKey?, unknown]

theorem report {event : Option Event} (trails : Trails m known fresh used)
    (quiet : Event.Quiet event) : Trails m known (fresh.report event) (used.report event) := by
  cases event with
  | none => exact trails
  | some event =>
    have silent : event.scannedKey? = none := quiet
    refine ⟨trails.fresh_sound, trails.used_sound, trails.keys_iff, ?_⟩
    simp [Record.report, trails.events_eq, TargetCache.repeats, silent]

theorem kept (m : Module) (known : TargetCache) : Kept m (Trails m known) where
  sound trails := ⟨trails.fresh_sound, trails.used_sound⟩
  consult func fetched trails := trails.consult func fetched
  report quiet trails := trails.report quiet

end Record.Trails

/-! ### Calls on one instance -/

/-- A call that an instance is asked to make, and the steps that it may take. -/
structure Call where
  fuel : Nat
  func : Nat
  args : List Cell
  deriving DecidableEq, Repr

namespace Instance

/-- The instance after some calls, one after the other. Any of them may fail, trap or be given
up. -/
def afterCalls (inst : Instance) : List Call → Instance
  | [] => inst
  | call :: calls => (inst.invoke call.fuel call.func call.args).inst.afterCalls calls

/-- Everything that is reported during the calls. -/
def logOfCalls (inst : Instance) : List Call → List Event
  | [] => []
  | call :: calls =>
    let made := inst.invoke call.fuel call.func call.args
    made.events.toList ++ made.inst.logOfCalls calls

variable {m : Module} {config : Config} {inst : Instance} {log : List Event}

theorem History.afterCalls (history : History m config inst) (calls : List Call) :
    History m config (inst.afterCalls calls) := by
  induction calls generalizing inst with
  | nil => exact history
  | cons call calls ih => exact ih (history.invoke call.fuel call.func call.args)

/-- What an invocation scans, and only that, is new among what the instance remembers. -/
theorem exact_invoke (history : History m config inst)
    (agrees : Record.Exact m log { cache := inst.cache }) (fuel func : Nat) (args : List Cell) :
    Record.Exact m (log ++ (inst.invoke fuel func args).events.toList)
      { cache := (inst.invoke fuel func args).inst.cache } := by
  obtain ⟨-, after, -⟩ :=
    (Record.Exact.kept m log).invoke history history ⟨agrees, agrees⟩ fuel func args
  refine ⟨?_, after.nodup, after.faithful⟩
  rw [after.keys_eq]
  simp

theorem exact_afterCalls (history : History m config inst)
    (agrees : Record.Exact m log { cache := inst.cache }) (calls : List Call) :
    Record.Exact m (log ++ inst.logOfCalls calls) { cache := (inst.afterCalls calls).cache } := by
  induction calls generalizing inst log with
  | nil =>
    rw [logOfCalls, List.append_nil]
    exact agrees
  | cons call calls ih =>
    have after := ih (history.invoke call.fuel call.func call.args)
      (exact_invoke history agrees call.fuel call.func call.args)
    rwa [List.append_assoc] at after

/-- A new instance remembers nothing, as nothing has been scanned. -/
theorem exact_new (m : Module) (config : Config) :
    Record.Exact m [] { cache := (new m config).cache } :=
  ⟨rfl, List.nodup_nil, nofun⟩

end Instance

/-- Whatever calls were made, and however they ended, the stacks are empty behind them. -/
theorem Instance.state_afterCalls {inst : Instance} (empty : inst.state = .empty)
    (calls : List Call) : (inst.afterCalls calls).state = .empty := by
  induction calls generalizing inst with
  | nil => exact empty
  | cons call calls ih => exact ih rfl

-- The call of the second function is one too many, with two blocks of the first one open.
example :
    let inst := Instance.new Sample.program ⟨1, 100⟩
    let left := (inst.execute 100 0 [7]).2.1
    left.cells = .ofList [7, 7] ∧ left.frames.length = 1 ∧ left.labels.length = 2 ∧
      (inst.invoke 100 0 [7]).inst.state = .empty := by
  decide +kernel

/-- What a record is to the run that keeps it: what it remembers is what a scan finds, so that the
next step goes where a machine goes that scans every block anew; an instruction that opens a block
asks for its targets, and no other scans anything. -/
structure State.Transparent (m : Module) (config : Config) (s : State) (record : Record) :
    Prop where
  faithful : ∀ entry ∈ record.cache.entries, m.scan entry.1.1 entry.1.2 = .ok entry.2
  step_eq : (s.advance m config record).1 = (s.step m config).map Prod.fst
  asks : ∀ frame frames fetched start, s.frames = frame :: frames →
    fetch m s.cells.height frame = .ok fetched → fetched.scanStart? = some start →
      Record.Asked m frame.func start record (s.advance m config record).2
  keeps : ∀ frame frames fetched, s.frames = frame :: frames →
    fetch m s.cells.height frame = .ok fetched → fetched.scanStart? = none →
      (s.advance m config record).2.cache = record.cache ∧
        (s.advance m config record).2.scans = record.scans

open Instance in
/-- An instance that has made any calls has empty stacks, and it gives what a new one gives, for
every function, arguments and number of steps, even if something were left on its stacks. It reports
the same events, less the scans of blocks that it had scanned before. Its record is transparent
before every step. What it remembers in the end is what it has ever scanned, and it has scanned no
block twice. -/
theorem invoke_after_calls (m : Module) (config : Config) (calls : List Call) (fuel func : Nat)
    (args : List Cell) :
    let used := (new m config).afterCalls calls
    let made := used.invoke fuel func args
    let fresh := (new m config).invoke fuel func args
    let scanned :=
      ((new m config).logOfCalls calls ++ made.events.toList).filterMap Event.scannedKey?
    used.state = .empty ∧ made.inst.state = .empty ∧
      (∀ state, ({ used with state } : Instance).invoke fuel func args = made) ∧
      made.outcome = fresh.outcome ∧
      made.events.toList =
        fresh.events.toList.filter (fun event => !used.cache.repeats event) ∧
      (∀ entry ∈ used.cache.entries, m.scan entry.1.1 entry.1.2 = .ok entry.2) ∧
      (∀ s record, used.Visits func args s record → s.Transparent m config record) ∧
      scanned = made.inst.cache.keys.reverse ∧ scanned.Nodup := by
  intro used made fresh scanned
  have history : History m config used := History.new.afterCalls calls
  have agrees := exact_afterCalls .new (exact_new m config) calls
  rw [List.nil_append] at agrees
  have trails : Record.Trails m used.cache { cache := (new m config).cache }
      { cache := used.cache } :=
    ⟨.empty, history.sound, fun key => (or_iff_left List.not_mem_nil).symm, rfl⟩
  obtain ⟨same, after⟩ := (Record.Trails.kept m _).invoke .new history trails fuel func args
  have lifetime := exact_invoke history agrees fuel func args
  have keys : scanned = made.inst.cache.keys.reverse := by
    have keys := lifetime.keys_eq.symm
    rwa [Array.toList_empty, List.append_nil] at keys
  refine ⟨state_afterCalls rfl calls, rfl, fun _ => rfl, same.symm, after.events_eq,
    agrees.faithful, ?_, keys, ?_⟩
  · rintro s record ⟨first, event, type, begun, runs⟩
    rw [history.program_eq, history.config_eq] at begun runs
    obtain ⟨_, -, -, -, -, entered⟩ := start_eq_ok_iff.mp begun
    have started := agrees.report (State.quiet_of_enter entered)
    obtain ⟨now, -⟩ := (Record.Exact.kept m _).runsWhile ⟨started, started⟩ runs
    exact ⟨now.faithful, State.advance_eq_step config now.sound s,
      fun _ _ _ _ => State.asked_advance config now.sound,
      fun _ _ _ => State.keeps_advance config⟩
  · rw [keys]
    exact (List.reverse_perm _).nodup_iff.mpr lifetime.nodup

example :
    let used := (Instance.new Sample.program {}).afterCalls [⟨100, 0, [7]⟩]
    used.cache.keys = [(1, 2), (0, 2)] ∧
      (used.invoke 100 0 [5]).events.toList.filterMap Event.scannedKey? = [] := by
  decide +kernel

end Wasm
