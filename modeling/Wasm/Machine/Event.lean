import Wasm.Instr.Nesting
import Wasm.Machine.Error
import Wasm.Types

/-! # What a run reports

Loading and running leave a sequence of events behind. An event is data; `Event.line` is how it is
written down, one line each, with its level in front.
-/

namespace Wasm

/-- Something that happened while loading a module or running a function. -/
inductive Event
  /-- A module was decoded. -/
  | decoded (types funcs exports tableSize : Nat)
  /-- An activation of `func` began; with it there are `depth`. -/
  | entered (func depth : Nat)
  /-- An activation of `func` ended; without it there are `depth`. -/
  | returned (func depth : Nat)
  /-- The block of `func` whose first instruction is at `start` was scanned. -/
  | scanned (func start : Nat) (targets : BlockTargets)
  /-- An invocation gave a value. -/
  | invoked (func : Nat) (args : List Cell) (result : Cell)
  /-- An invocation failed. -/
  | aborted (func : Nat) (error : Error)
  deriving DecidableEq, Repr

/-- How much an event matters. -/
inductive Level
  | debug
  | trace
  deriving DecidableEq, Repr

/-- The name of a level. -/
def Level.text : Level → String
  | debug => "DEBUG"
  | trace => "TRACE"

/-- The written form of block targets. -/
def BlockTargets.text (t : BlockTargets) : String :=
  let elseText :=
    match t.elseAt with
    | none => "None"
    | some offset => s!"Some({offset})"
  "BlockTargets \x7b else_: " ++ elseText ++ ", end: " ++ toString t.endAt ++ " \x7d"

namespace Event

/-- The level of an event. -/
def level : Event → Level
  | decoded .. | invoked .. | aborted .. => .debug
  | entered .. | returned .. | scanned .. => .trace

/-- The wording of an event. -/
def text : Event → String
  | decoded types funcs exports tableSize =>
    s!"decoded module with {types} types, {funcs} functions, {exports} exports, " ++
      s!"table size {tableSize}"
  | entered func depth => s!"entered function {func} at depth {depth}"
  | returned func depth => s!"returned from function {func} to depth {depth}"
  | scanned func start targets =>
    s!"scanned block at offset {start} in function {func}: {targets.text}"
  | invoked func args result =>
    let argsText := String.intercalate ", " (args.map fun arg => toString arg.toNat)
    s!"invoked function {func} with [{argsText}]: {hexadecimal result.toNat}"
  | aborted func error => s!"invocation of function {func} aborted: {error.message}"

/-- The line that reports an event. -/
def line (event : Event) : String :=
  event.level.text ++ " " ++ event.text

end Event

end Wasm
