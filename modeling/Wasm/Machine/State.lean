import Wasm.Machine.Cells
import Wasm.Machine.Event
import Wasm.Module.Basic

/-! # States of the machine

A state is the value stack, the activations and the open blocks. Activations and blocks do not own
parts of the stack: a `Frame` remembers the height at which its locals start and how many blocks
were open when it began, a `Label` the height at which its block was entered.

The operations here are the ways in which control moves: `enter` and `leave` a function,
`openLabel`, `closeLabel`, `branch`, and `jump` inside the running function. Each either gives the
next state, with the event that it reports, or fails.
-/

namespace Wasm

/-- Limits on what a run may use. -/
structure Config where
  maxCallDepth : Nat := 1024
  maxStackHeight : Nat := 0x100000
  deriving DecidableEq, Repr

/-- An activation of a function. -/
structure Frame where
  func : Nat
  /-- The offset of the next instruction. -/
  ip : Nat
  /-- The height at which the locals start. -/
  base : Nat
  /-- The number of locals, parameters included. -/
  localCount : Nat
  /-- How many labels belong to the activations below. -/
  labelBase : Nat
  resultCount : Nat
  deriving DecidableEq, Repr

namespace Frame

/-- The height at which the operands start. -/
def operandBase (frame : Frame) : Nat :=
  frame.base + frame.localCount

/-- The position of a local on the value stack. -/
def local? (frame : Frame) (index : Nat) : Option Nat :=
  if index < frame.localCount then some (frame.base + index) else none

/-- Takes an operand off the stack. -/
def pop (frame : Frame) (cells : Cells) : Except Error (Cell × Cells) :=
  match cells.popAbove? frame.operandBase with
  | some result => .ok result
  | none => .error (.stackUnderflow frame.func)

end Frame

/-- What kind of instruction opened a label. -/
inductive LabelKind
  | block
  | loop
  | cond
  deriving DecidableEq, Repr

/-- An open block. -/
structure Label where
  kind : LabelKind
  resultCount : Nat
  /-- The height of the value stack when the block was entered. -/
  height : Nat
  /-- The offset of the `loop` itself, or of the `end` of any other block. -/
  target : Nat
  deriving DecidableEq, Repr

namespace Label

/-- How many cells a branch to the label carries: none to the start of a loop. -/
def arity (label : Label) : Nat :=
  match label.kind with
  | .loop => 0
  | .block | .cond => label.resultCount

/-- Where a branch to the label goes on: at the `loop` again, or behind the `end`. -/
def continuation (label : Label) : Nat :=
  match label.kind with
  | .loop => label.target
  | .block | .cond => label.target + 1

end Label

/-- A state between two instructions. The first frame is the running one, the first label the
innermost. -/
structure State where
  cells : Cells
  frames : List Frame
  labels : List Label
  deriving DecidableEq, Repr

/-- The next state and the event that leads to it, if it reports one. -/
abbrev Transition := State × Option Event

namespace State

/-- Empty stacks. -/
def empty : State := ⟨.empty, [], []⟩

/-- Goes on at another offset of the running function. -/
def jump (s : State) (ip : Nat) : State :=
  match s with
  | ⟨cells, frame :: frames, labels⟩ => ⟨cells, { frame with ip } :: frames, labels⟩
  | s => s

/-- Takes an operand of the running function off the stack. -/
def pop (s : State) (frame : Frame) : Except Error (Cell × State) :=
  match s with
  | ⟨cells, frames, labels⟩ =>
    match frame.pop cells with
    | .error e => .error e
    | .ok (cell, cells) => .ok (cell, ⟨cells, frames, labels⟩)

/-- Opens a block at the current height. -/
def openLabel (s : State) (kind : LabelKind) (resultCount target : Nat) : State :=
  match s with
  | ⟨cells, frames, labels⟩ =>
    let label := { kind, resultCount, height := cells.height, target }
    ⟨cells, frames, label :: labels⟩

/-- Begins an activation of a function whose arguments are on top of the stack. They have to be
operands of the caller, and the limits are checked here and nowhere else. -/
def enter (m : Module) (config : Config) (func : Nat) (s : State) : Except Error Transition :=
  match m.funcs[func]? with
  | none => .error (.unknownFunc func)
  | some callee =>
    match m.types[callee.type]? with
    | none => .error (.unknownType callee.type)
    | some type =>
      let depth := s.frames.length
      let paramCount := type.params.length
      let (floor, culprit) :=
        match s.frames with
        | [] => (0, func)
        | caller :: _ => (caller.operandBase, caller.func)
      if 1 < type.results.length then
        .error (.unsupported .multiValueResults)
      else if config.maxCallDepth ≤ depth then
        .error (.trap .callStackExhausted)
      else if s.cells.height < floor + paramCount then
        .error (.stackUnderflow culprit)
      else
        match s with
        | ⟨cells, frames, labels⟩ =>
          let frame :=
            { func
              ip := 0
              base := cells.height - paramCount
              localCount := paramCount + callee.body.localCount
              labelBase := labels.length
              resultCount := type.results.length }
          if config.maxStackHeight < frame.operandBase then
            .error (.trap .callStackExhausted)
          else
            .ok (⟨cells.pushZeros callee.body.localCount, frame :: frames, labels⟩,
              some (.entered func (depth + 1)))

/-- Ends the running activation: its results replace its locals and operands, and its blocks are
closed. -/
def leave (s : State) : Except Error Transition :=
  match s with
  | ⟨cells, frame :: frames, labels⟩ =>
    if cells.height < frame.operandBase + frame.resultCount then
      .error (.stackUnderflow frame.func)
    else
      match cells.unwind? frame.base frame.resultCount with
      | none => .error (.stackUnderflow frame.func)
      | some cells =>
        .ok (⟨cells, frames, labels.drop (labels.length - frame.labelBase)⟩,
          some (.returned frame.func frames.length))
  | s => .ok (s, none)

/-- How many blocks of an activation are open, when it is the running one. -/
def openCount (s : State) (frame : Frame) : Nat :=
  s.labels.length - frame.labelBase

/-- Branches out of `depth` blocks to the one around them. The body of the function counts as the
outermost block, and a branch to it leaves the function. -/
def branch (s : State) (frame : Frame) (depth : Nat) : Except Error Transition :=
  if depth = s.openCount frame then
    s.leave
  else if s.openCount frame < depth then
    .error (.unknownLabel frame.func depth)
  else
    match s with
    | ⟨cells, frames, labels⟩ =>
      match labels.drop depth with
      | [] => .error (.unknownLabel frame.func depth)
      | label :: outer =>
        match cells.unwind? label.height label.arity with
        | none => .error (.stackUnderflow frame.func)
        | some cells => .ok (jump ⟨cells, frames, outer⟩ label.continuation, none)

/-- Comes to the `end` of the innermost block, or to that of the function when no block is open. -/
def closeLabel (s : State) (frame : Frame) (next : Nat) : Except Error Transition :=
  if s.openCount frame = 0 then
    s.leave
  else
    match s with
    | ⟨cells, frames, label :: outer⟩ =>
      match cells.unwind? label.height label.resultCount with
      | none => .error (.stackUnderflow frame.func)
      | some cells => .ok (jump ⟨cells, frames, outer⟩ next, none)
    | s => s.leave

end State

end Wasm
