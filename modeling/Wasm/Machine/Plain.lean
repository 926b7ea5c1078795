import Wasm.Instr.Basic
import Wasm.Machine.State

/-! # Plain instructions on the value stack

The effect of an instruction that moves no control, as a function on the cells. The frame says which
cells are the running function's locals and operands, and whom to blame.
-/

namespace Wasm

/-- The result of an integer instruction replaces its operands. -/
def Numeric.exec (frame : Frame) (op : Numeric) (cells : Cells) : Except Error Cells :=
  match op with
  | .unary op => do
    let (x, cells) ← frame.pop cells
    pure (cells.push (op.eval x))
  | .binary op => do
    let (y, cells) ← frame.pop cells
    let (x, cells) ← frame.pop cells
    match op.eval x y with
    | .ok result => pure (cells.push result)
    | .error trap => throw (.trap trap)

namespace Plain

/-- The position of a local, which has to exist. -/
def locate (frame : Frame) (index : Nat) : Except Error Nat :=
  match frame.local? index with
  | some pos => .ok pos
  | none => .error (.unknownLocal frame.func index)

/-- Writes a cell at the position of a local. -/
def store (frame : Frame) (pos : Nat) (cell : Cell) (cells : Cells) : Except Error Cells :=
  match cells.set? pos cell with
  | some cells => .ok cells
  | none => .error (.stackUnderflow frame.func)

/-- The cells after a plain instruction. -/
def exec (frame : Frame) (op : Plain) (cells : Cells) : Except Error Cells :=
  match op with
  | unreachable => .error (.trap .unreachable)
  | nop => .ok cells
  | drop => do
    let (_, cells) ← frame.pop cells
    pure cells
  | select => do
    let (condition, cells) ← frame.pop cells
    let (second, cells) ← frame.pop cells
    let (first, cells) ← frame.pop cells
    pure (cells.push (if Cell.isTrue condition then first else second))
  | localGet index => do
    let pos ← locate frame index
    match cells.get? pos with
    | some cell => pure (cells.push cell)
    | none => throw (.stackUnderflow frame.func)
  | localSet index => do
    let pos ← locate frame index
    let (cell, cells) ← frame.pop cells
    store frame pos cell cells
  | localTee index => do
    let pos ← locate frame index
    match cells.peekAbove? frame.operandBase with
    | some cell => store frame pos cell cells
    | none => throw (.stackUnderflow frame.func)
  | const value => .ok (cells.push value)
  | numeric op => op.exec frame cells

end Plain

end Wasm
