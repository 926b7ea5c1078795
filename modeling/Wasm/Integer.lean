import Wasm.Trap
import Wasm.Types

/-! # Integer operators on cells

Integers are bit vectors of 32 or 64 bits; an operator says by a `Sign` how it reads them where that
matters. A cell gives an operand its low bits, and takes a result padded with zeros, so a 32-bit
result never has a high half.

Only division and remainder can trap: both on a zero divisor, signed division also on the one
quotient that does not fit.
-/

namespace Wasm

/-- The width of an integer. -/
inductive Width
  | w32
  | w64
  deriving DecidableEq, Repr

/-- The number of bits of a width. -/
def Width.bits : Width → Nat
  | w32 => 32
  | w64 => 64

/-- How the bits of an integer are read as a number. -/
inductive Sign
  | signed
  | unsigned
  deriving DecidableEq, Repr

namespace Cell

/-- The low `n` bits of a cell. -/
def bits (n : Nat) (cell : Cell) : BitVec n :=
  cell.toBitVec.setWidth n

/-- The cell that holds the given bits and zeros above them. -/
def ofBits {n : Nat} (x : BitVec n) : Cell :=
  ⟨x.setWidth 64⟩

/-- The cell of a truth value. -/
def ofBool (b : Bool) : Cell :=
  if b then 1 else 0

/-- Whether a cell counts as true when it is read as a 32-bit condition. -/
def isTrue (cell : Cell) : Bool :=
  cell.toUInt32 != 0

/-- A cell read as an index, which has 32 bits. -/
def index (cell : Cell) : Nat :=
  cell.toUInt32.toNat

end Cell

/-! ### Reading and writing numbers -/

/-- An integer type: a width and a way to read its bits. -/
structure IntType where
  width : Width
  sign : Sign
  deriving DecidableEq, Repr

/-- The number that a cell holds under the type. -/
def IntType.ofCell (type : IntType) (cell : Cell) : Int :=
  match type.sign with
  | .signed => (Cell.bits type.width.bits cell).toInt
  | .unsigned => (Cell.bits type.width.bits cell).toNat

/-- The cell that holds a number of the type. -/
def IntType.toCell (type : IntType) (value : Int) : Cell :=
  Cell.ofBits (BitVec.ofInt type.width.bits value)

/-! ### Operators on bit vectors -/

/-- An operator with two integer operands and an integer result. -/
inductive Arith
  | add
  | sub
  | mul
  | div (sign : Sign)
  | rem (sign : Sign)
  | and
  | or
  | xor
  | shl
  | shr (sign : Sign)
  | rotl
  | rotr
  deriving DecidableEq, Repr

/-- Quotient rounded toward zero. -/
def divide {n : Nat} (sign : Sign) (x y : BitVec n) : Except Trap (BitVec n) :=
  if y = 0 then
    .error .divideByZero
  else
    match sign with
    | .unsigned => .ok (x / y)
    | .signed =>
      if x = BitVec.intMin n ∧ y = BitVec.allOnes n then
        .error .integerOverflow
      else
        .ok (x.sdiv y)

/-- Remainder of the quotient rounded toward zero; it has the sign of the dividend. -/
def remainder {n : Nat} (sign : Sign) (x y : BitVec n) : Except Trap (BitVec n) :=
  if y = 0 then
    .error .divideByZero
  else
    match sign with
    | .unsigned => .ok (x % y)
    | .signed => .ok (x.srem y)

/-- The result of an operator. Shift and rotation counts are taken modulo the width. -/
def Arith.eval {n : Nat} : Arith → BitVec n → BitVec n → Except Trap (BitVec n)
  | add, x, y => .ok (x + y)
  | sub, x, y => .ok (x - y)
  | mul, x, y => .ok (x * y)
  | div sign, x, y => divide sign x y
  | rem sign, x, y => remainder sign x y
  | and, x, y => .ok (x &&& y)
  | or, x, y => .ok (x ||| y)
  | xor, x, y => .ok (x ^^^ y)
  | shl, x, y => .ok (x <<< (y.toNat % n))
  | shr .signed, x, y => .ok (x.sshiftRight (y.toNat % n))
  | shr .unsigned, x, y => .ok (x >>> (y.toNat % n))
  | rotl, x, y => .ok (x.rotateLeft (y.toNat % n))
  | rotr, x, y => .ok (x.rotateRight (y.toNat % n))

/-- A comparison of two integers. -/
inductive Comparison
  | eq
  | ne
  | lt (sign : Sign)
  | gt (sign : Sign)
  | le (sign : Sign)
  | ge (sign : Sign)
  deriving DecidableEq, Repr

/-- Whether `x` is less than `y`. -/
def less {n : Nat} (sign : Sign) (x y : BitVec n) : Bool :=
  match sign with
  | .signed => x.slt y
  | .unsigned => x.ult y

/-- Whether a comparison holds. -/
def Comparison.eval {n : Nat} : Comparison → BitVec n → BitVec n → Bool
  | eq, x, y => x == y
  | ne, x, y => x != y
  | lt sign, x, y => less sign x y
  | gt sign, x, y => less sign y x
  | le sign, x, y => !less sign y x
  | ge sign, x, y => !less sign x y

/-! ### Operators on cells -/

/-- A numeric operator with one operand. -/
inductive UnaryOp
  | eqz (width : Width)
  | clz (width : Width)
  | ctz (width : Width)
  | popcnt (width : Width)
  /-- A 64-bit integer cut to 32 bits. -/
  | wrap
  /-- A 32-bit integer widened to 64 bits. -/
  | extend (sign : Sign)
  /-- The low `bits` bits of an integer, read as signed and widened to `width`. -/
  | signExtend (width : Width) (bits : Nat)
  deriving DecidableEq, Repr

/-- The result cell of an operator with one operand. -/
def UnaryOp.eval : UnaryOp → Cell → Cell
  | eqz w, x => Cell.ofBool (Cell.bits w.bits x == 0)
  | clz w, x => Cell.ofBits (Cell.bits w.bits x).clz
  | ctz w, x => Cell.ofBits (Cell.bits w.bits x).ctz
  | popcnt w, x => Cell.ofBits (Cell.bits w.bits x).cpop
  | wrap, x => Cell.ofBits (Cell.bits 32 x)
  | extend .signed, x => Cell.ofBits ((Cell.bits 32 x).signExtend 64)
  | extend .unsigned, x => Cell.ofBits (Cell.bits 32 x)
  | signExtend w n, x => Cell.ofBits ((Cell.bits n x).signExtend w.bits)

/-- The width of an operator's result. -/
def UnaryOp.resultWidth : UnaryOp → Width
  | eqz _ | wrap => .w32
  | extend _ => .w64
  | clz w | ctz w | popcnt w | signExtend w _ => w

/-- A numeric operator with two operands of one width. -/
inductive BinaryOp
  | arith (width : Width) (op : Arith)
  | compare (width : Width) (op : Comparison)
  deriving DecidableEq, Repr

/-- The result cell of an operator with two operands. -/
def BinaryOp.eval : BinaryOp → Cell → Cell → Except Trap Cell
  | arith w op, x, y => (op.eval (Cell.bits w.bits x) (Cell.bits w.bits y)).map Cell.ofBits
  | compare w op, x, y => .ok (Cell.ofBool (op.eval (Cell.bits w.bits x) (Cell.bits w.bits y)))

/-- The width of an operator's result. -/
def BinaryOp.resultWidth : BinaryOp → Width
  | arith w _ => w
  | compare _ _ => .w32

end Wasm
