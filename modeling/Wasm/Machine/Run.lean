import Wasm.Machine.Step

/-! # Runs

A run takes steps until no activation is left or a step fails. Along the way it keeps two things
that outlive both: the block targets found so far, so that no block is scanned twice, and the events
reported so far. `Record.blockTargets` is the one place where blocks are scanned for.

A run may go on forever, so it is given fuel, one unit for each step. Running out of fuel is neither
a result nor a failure: it says only that the run was not followed to its end.
-/

namespace Wasm

/-- Block targets that were found earlier, by function and the offset of the block's first
instruction. -/
structure TargetCache where
  entries : List ((Nat × Nat) × BlockTargets) := []
  deriving DecidableEq, Repr

namespace TargetCache

/-- The remembered targets of a block. -/
def find? (cache : TargetCache) (func start : Nat) : Option BlockTargets :=
  cache.entries.lookup (func, start)

/-- Remembers the targets of a block. -/
def insert (cache : TargetCache) (func start : Nat) (targets : BlockTargets) : TargetCache :=
  ⟨((func, start), targets) :: cache.entries⟩

/-- A lookup finds the targets remembered last. -/
theorem find?_insert (cache : TargetCache) (f p g q : Nat) (t : BlockTargets) :
    (cache.insert f p t).find? g q = if g = f ∧ q = p then some t else cache.find? g q := by
  by_cases h : g = f ∧ q = p
  · obtain ⟨rfl, rfl⟩ := h
    simp [insert, find?]
  · rw [if_neg h]
    have hne : ((g, q) == (f, p)) = false := by
      simpa only [beq_eq_false_iff_ne, ne_eq, Prod.mk.injEq] using h
    simp [insert, find?, List.lookup_cons, hne]

end TargetCache

/-- What a run leaves behind, whether it ends well or not. -/
structure Record where
  cache : TargetCache := {}
  events : Array Event := #[]
  deriving DecidableEq, Repr

namespace Record

/-- Adds an event. -/
def report (record : Record) : Option Event → Record
  | none => record
  | some event => { record with events := record.events.push event }

/-- The targets of the block that starts at an offset of a function. When they are not remembered
the code is scanned for them; a scan that succeeds is remembered and reported, one that fails leaves
nothing behind. -/
def blockTargets (record : Record) (m : Module) (func start : Nat) :
    Except DecodeError BlockTargets × Record :=
  match record.cache.find? func start with
  | some found => (.ok found, record)
  | none =>
    match m.scan func start with
    | .error e => (.error e, record)
    | .ok found =>
      (.ok found,
        { cache := record.cache.insert func start found
          events := record.events.push (.scanned func start found) })

end Record

namespace State

/-- A step that keeps a record, and asks it for the targets of blocks. -/
def advance (m : Module) (config : Config) (s : State) (record : Record) :
    Except Error State × Record :=
  match s.frames with
  | [] => (.ok s, record)
  | frame :: _ =>
    match fetch m s.cells.height frame with
    | .error e => (.error e, record)
    | .ok fetched =>
      let run : StateM Record (Except Error Transition) :=
        s.execM m config (fun start record => record.blockTargets m frame.func start) frame fetched
      match run record with
      | (.error e, record) => (.error e, record)
      | (.ok (s, event), record) => (.ok s, record.report event)

/-- Steps until no activation is left, a step fails, or the fuel is used up, in which case there is
no result. The stacks that are left are those before the step that failed. -/
def run (m : Module) (config : Config) :
    (fuel : Nat) → State → Record → Option (Except Error Unit) × State × Record
  | 0, s, record => (if s.frames.isEmpty then some (.ok ()) else none, s, record)
  | fuel + 1, s, record =>
    if s.frames.isEmpty then
      (some (.ok ()), s, record)
    else
      match s.advance m config record with
      | (.error e, record) => (some (.error e), s, record)
      | (.ok s, record) => run m config fuel s record

end State

end Wasm
