import Wasm.Machine.Run
import Wasm.Module.Section

/-! # Instances

An instance is a module ready to be used: its functions can be looked up and invoked. It owns the
stacks that its invocations run on and the block targets found so far. The stacks are emptied before
and after every invocation, so that one which fails leaves no cell, activation or open block behind;
the block targets stay.
-/

namespace Wasm

/-- A module, the limits for running it, the stacks, and what is remembered of earlier runs. -/
structure Instance where
  program : Module
  config : Config
  state : State
  cache : TargetCache
  deriving DecidableEq, Repr

/-- How an invocation ended. -/
inductive Outcome
  | value (result : Cell)
  | failed (error : Error)
  | outOfFuel
  deriving DecidableEq, Repr

/-- An invocation that was made: how it ended, the instance afterwards, and what was reported. -/
structure Invocation where
  outcome : Outcome
  inst : Instance
  events : Array Event
  deriving DecidableEq, Repr

namespace Instance

/-- An instance that has run nothing yet. -/
def new (program : Module) (config : Config) : Instance :=
  { program, config, state := .empty, cache := {} }

/-- Decodes a module and makes an instance of it. -/
def load (bytes : Bytes) (config : Config) : Except Error (Instance × Event) :=
  match Module.decode bytes with
  | .error e => .error (.decode e)
  | .ok m =>
    .ok (new m config,
      .decoded m.types.size m.funcs.size m.exports.size m.tableSize)

/-- Empties the stacks. -/
def reset (inst : Instance) : Instance :=
  { inst with state := .empty }

/-- The state in which an invocation starts on the given stacks, with the type of the result that it
is to leave. Arguments are cut to their types. -/
def start (m : Module) (config : Config) (state : State) (func : Nat) (args : List Cell) :
    Except Error (Transition × Option ValType) :=
  match m.funcType? func with
  | none => .error (.unknownFunc func)
  | some type =>
    if args.length ≠ type.params.length then
      .error (.argumentCount type.params.length args.length)
    else if 1 < type.results.length then
      .error (.unsupported .multiValueResults)
    else
      match state with
      | ⟨cells, frames, labels⟩ =>
        let cells := cells.pushAll (List.zipWith ValType.canonical type.params args)
        (State.enter m config func ⟨cells, frames, labels⟩).map fun transition =>
          (transition, type.results.head?)

/-- Takes the result of an invocation off the stack, cut to its type; zero when it has none. -/
def result (func : Nat) (type : Option ValType) (s : State) : Except Error (Cell × State) :=
  match type with
  | none => .ok (0, s)
  | some type =>
    match s with
    | ⟨cells, frames, labels⟩ =>
      match cells.popAbove? 0 with
      | some (cell, cells) => .ok (type.canonical cell, ⟨cells, frames, labels⟩)
      | none => .error (.stackUnderflow func)

/-- Runs a function to its end, if `fuel` steps get there. What is on the stacks then is left there.
-/
def execute (inst : Instance) (fuel func : Nat) (args : List Cell) : Outcome × State × Record :=
  let record : Record := { cache := inst.cache }
  match start inst.program inst.config inst.state func args with
  | .error e => (.failed e, inst.state, record)
  | .ok ((s, event), type) =>
    match s.run inst.program inst.config fuel (record.report event) with
    | (none, s, record) => (.outOfFuel, s, record)
    | (some (.error e), s, record) => (.failed e, s, record)
    | (some (.ok ()), s, record) =>
      match result func type s with
      | .error e => (.failed e, s, record)
      | .ok (cell, s) => (.value cell, s, record)

/-- The event that reports how an invocation ended. -/
def closing? (func : Nat) (args : List Cell) : Outcome → Option Event
  | .value cell => some (.invoked func args cell)
  | .failed e => some (.aborted func e)
  | .outOfFuel => none

/-- Invokes a function with the given arguments, for at most `fuel` steps. The stacks are emptied
before, and again afterwards, however the invocation ended. -/
def invoke (inst : Instance) (fuel func : Nat) (args : List Cell) : Invocation :=
  let inst := inst.reset
  let (outcome, state, record) := inst.execute fuel func args
  let record := record.report (closing? func args outcome)
  { outcome
    inst := { inst with state, cache := record.cache }.reset
    events := record.events }

end Instance

end Wasm
