import Wasm.Instr.Opcode

/-! # Decoded instructions

`Instr` is an instruction with its immediates read. The instructions that only touch the cells of
the running function are kept apart as `Plain`: they never move control, so their effect can be told
without a machine. `Opcode.instr?` reads the immediates of every opcode that can be run.
-/

namespace Wasm

/-- An instruction that works on operands and locals only. -/
inductive Plain
  | unreachable
  | nop
  | drop
  | select
  | localGet (index : Nat)
  | localSet (index : Nat)
  | localTee (index : Nat)
  | const (value : Cell)
  | numeric (op : Numeric)
  deriving DecidableEq, Repr

/-- An instruction of a function body. -/
inductive Instr
  | plain (op : Plain)
  | block (type : BlockType)
  | loop (type : BlockType)
  | ifThen (type : BlockType)
  | elseArm
  | endBlock
  | br (depth : Nat)
  | brIf (depth : Nat)
  | brTable (depths : Array Nat) (default : Nat)
  | ret
  | call (func : Nat)
  | callIndirect (type table : Nat)
  deriving DecidableEq, Repr

namespace Opcode

open Reader Leb128

/-- Reads the immediates of an opcode, or is absent for an opcode that cannot be run. The types that
a `select` may state are read and then forgotten. -/
def instr? : Opcode → Option (Reader Instr)
  | unreachable => some (pure (.plain .unreachable))
  | nop => some (pure (.plain .nop))
  | block => some do
    let type ← BlockType.read
    pure (.block type)
  | loop => some do
    let type ← BlockType.read
    pure (.loop type)
  | ifThen => some do
    let type ← BlockType.read
    pure (.ifThen type)
  | elseArm => some (pure .elseArm)
  | endBlock => some (pure .endBlock)
  | br => some do
    let depth ← u32
    pure (.br depth)
  | brIf => some do
    let depth ← u32
    pure (.brIf depth)
  | brTable => some do
    let depths ← vector u32
    let default ← u32
    pure (.brTable depths default)
  | ret => some (pure .ret)
  | call => some do
    let func ← u32
    pure (.call func)
  | callIndirect => some do
    let type ← u32
    let table ← u32
    pure (.callIndirect type table)
  | drop => some (pure (.plain .drop))
  | select => some (pure (.plain .select))
  | selectTyped => some do
    let _ ← vector ValType.read
    pure (.plain .select)
  | localGet => some do
    let index ← u32
    pure (.plain (.localGet index))
  | localSet => some do
    let index ← u32
    pure (.plain (.localSet index))
  | localTee => some do
    let index ← u32
    pure (.plain (.localTee index))
  | const w => some do
    let value ← signed w.bits
    pure (.plain (.const (IntType.toCell ⟨w, .signed⟩ value)))
  | numeric op => some (pure (.plain (.numeric op)))
  | other _ => none

end Opcode

end Wasm
