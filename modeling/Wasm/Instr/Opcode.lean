import Wasm.Integer

/-! # Opcodes and the shape of their immediates

The first byte of an instruction is its opcode, which fixes the shape of the immediates behind it.
Every opcode of the instruction set is known here, also those that are only ever skipped: without
their shapes the instructions behind them could not be found. `Shape.skip` reads past immediates
without giving them a meaning.
-/

namespace Wasm

/-- The shape of the immediates behind an opcode. -/
inductive Shape
  | empty
  | blockType
  | index
  | indexPair
  | labelTable
  | valueTypes
  | memoryArgument
  | byte
  | i32
  | i64
  | f32
  | f64
  /-- A second opcode, which has a shape of its own. -/
  | prefixed
  deriving DecidableEq, Repr

/-- An instruction of the integer arithmetic. -/
inductive Numeric
  | unary (op : UnaryOp)
  | binary (op : BinaryOp)
  deriving DecidableEq, Repr

/-- The kind of instruction that an opcode byte starts. -/
inductive Opcode
  | unreachable
  | nop
  | block
  | loop
  | ifThen
  | elseArm
  | endBlock
  | br
  | brIf
  | brTable
  | ret
  | call
  | callIndirect
  | drop
  | select
  | selectTyped
  | localGet
  | localSet
  | localTee
  | const (width : Width)
  | numeric (op : Numeric)
  /-- An instruction that can be skipped but not run. -/
  | other (shape : Shape)
  deriving DecidableEq, Repr

namespace Opcode

/-- The opcodes below `0x20`: control and parametric instructions. -/
def control? : Nat → Option Opcode
  | 0x00 => some unreachable
  | 0x01 => some nop
  | 0x02 => some block
  | 0x03 => some loop
  | 0x04 => some ifThen
  | 0x05 => some elseArm
  | 0x0B => some endBlock
  | 0x0C => some br
  | 0x0D => some brIf
  | 0x0E => some brTable
  | 0x0F => some ret
  | 0x10 => some call
  | 0x11 => some callIndirect
  | 0x1A => some drop
  | 0x1B => some select
  | 0x1C => some selectTyped
  | _ => none

/-- The opcodes from `0x20` to `0x44`: variables, tables, memory and constants. -/
def storage? (code : Nat) : Option Opcode :=
  match code with
  | 0x20 => some localGet
  | 0x21 => some localSet
  | 0x22 => some localTee
  | 0x41 => some (const .w32)
  | 0x42 => some (const .w64)
  | 0x43 => some (other .f32)
  | 0x44 => some (other .f64)
  | _ =>
    if 0x23 ≤ code ∧ code ≤ 0x26 then some (other .index)
    else if 0x28 ≤ code ∧ code ≤ 0x3E then some (other .memoryArgument)
    else if 0x3F ≤ code ∧ code ≤ 0x40 then some (other .byte)
    else none

/-- Tests and comparisons of one width, in the order of their opcodes. -/
def comparisons (w : Width) : List Numeric :=
  .unary (.eqz w) ::
    [.eq, .ne, .lt .signed, .lt .unsigned, .gt .signed, .gt .unsigned,
      .le .signed, .le .unsigned, .ge .signed, .ge .unsigned].map fun op => .binary (.compare w op)

/-- Bit counts and arithmetic of one width, in the order of their opcodes. -/
def arithmetic (w : Width) : List Numeric :=
  [.unary (.clz w), .unary (.ctz w), .unary (.popcnt w)] ++
    [.add, .sub, .mul, .div .signed, .div .unsigned, .rem .signed, .rem .unsigned,
      .and, .or, .xor, .shl, .shr .signed, .shr .unsigned, .rotl, .rotr].map
      fun op => .binary (.arith w op)

/-- The families of integer instructions. Each has consecutive opcodes from the given one on. -/
def numericFamilies : List (Nat × List Numeric) :=
  [(0x45, comparisons .w32),
    (0x50, comparisons .w64),
    (0x67, arithmetic .w32),
    (0x79, arithmetic .w64),
    (0xA7, [.unary .wrap]),
    (0xAC, [.unary (.extend .signed), .unary (.extend .unsigned)]),
    (0xC0, [.unary (.signExtend .w32 8), .unary (.signExtend .w32 16),
      .unary (.signExtend .w64 8), .unary (.signExtend .w64 16), .unary (.signExtend .w64 32)])]

/-- The integer instruction of an opcode. -/
def numeric? (code : Nat) : Option Numeric :=
  numericFamilies.findSome? fun (first, family) =>
    if first ≤ code then family[code - first]? else none

/-- The opcode that a byte stands for. -/
def ofByte? (byte : UInt8) : Option Opcode :=
  let code := byte.toNat
  if code < 0x20 then
    control? code
  else if code < 0x45 then
    storage? code
  else if code < 0xC5 then
    match numeric? code with
    | some op => some (numeric op)
    | none => some (other .empty)
  else
    match code with
    | 0xD0 => some (other .byte)
    | 0xD1 => some (other .empty)
    | 0xD2 => some (other .index)
    | 0xFC => some (other .prefixed)
    | _ => none

/-- The shape of the immediates behind an opcode. -/
def shape : Opcode → Shape
  | unreachable | nop | elseArm | endBlock | ret | drop | select | numeric _ => .empty
  | block | loop | ifThen => .blockType
  | br | brIf | call | localGet | localSet | localTee => .index
  | brTable => .labelTable
  | callIndirect => .indexPair
  | selectTyped => .valueTypes
  | const .w32 => .i32
  | const .w64 => .i64
  | other shape => shape

end Opcode

/-! ### Skipping -/

namespace Shape

open Reader Leb128

/-- Reads past the immediates of a second opcode. -/
def skipPrefixed (code : Nat) : Reader Unit :=
  match code with
  | 8 => do
    let _ ← u32
    let _ ← Reader.byte
  | 9 | 13 | 15 | 16 | 17 => do
    let _ ← u32
  | 10 => do
    let _ ← Reader.byte
    let _ ← Reader.byte
  | 11 => do
    let _ ← Reader.byte
  | 12 | 14 => do
    let _ ← u32
    let _ ← u32
  | code => if code ≤ 7 then pure () else malformed .illegalOpcode

/-- Reads past immediates of the given shape. -/
def skip : Shape → Reader Unit
  | empty => pure ()
  | blockType => do
    let _ ← BlockType.read
  | index => do
    let _ ← u32
  | indexPair | memoryArgument => do
    let _ ← u32
    let _ ← u32
  | labelTable => do
    let _ ← vector u32
    let _ ← u32
  | valueTypes => do
    let _ ← vector ValType.read
  | byte => do
    let _ ← Reader.byte
  | i32 => do
    let _ ← Leb128.i32
  | i64 => do
    let _ ← Leb128.i64
  | f32 => do
    let _ ← take 4
  | f64 => do
    let _ ← take 8
  | prefixed => do
    let code ← u32
    skipPrefixed code

end Shape

end Wasm
