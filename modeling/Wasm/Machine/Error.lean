import Wasm.Binary.Error
import Wasm.Trap

/-! # Why loading or running fails

Running code can trap, which valid code may do too, or fail, because code is run without having been
validated. A failure blames the function that was running, or a byte of its code.
-/

namespace Wasm

/-- A number in lower-case hexadecimal, without leading zeros. -/
def hexadecimal (n : Nat) : String :=
  "0x" ++ String.ofList (Nat.toDigits 16 n)

/-- A byte in lower-case hexadecimal, always with two digits. -/
def hexadecimalByte (byte : UInt8) : String :=
  let digits := Nat.toDigits 16 byte.toNat
  "0x" ++ String.ofList (if digits.length < 2 then '0' :: digits else digits)

/-- Why a module could not be loaded or an invocation gave no value. -/
inductive Error
  | decode (cause : DecodeError)
  | trap (cause : Trap)
  /-- The immediates of an instruction of `func` do not decode, or a block in it has no end. -/
  | malformedOperand (func : Nat) (cause : DecodeError)
  | illegalOpcode (opcode : UInt8) (offset : Nat)
  | unsupportedOpcode (opcode : UInt8) (offset : Nat)
  | unsupported (feature : Feature)
  | unknownFunc (index : Nat)
  | unknownType (index : Nat)
  | argumentCount (expected actual : Nat)
  | stackUnderflow (func : Nat)
  | unknownLocal (func index : Nat)
  | unknownLabel (func depth : Nat)
  deriving DecidableEq, Repr

/-- The wording of an error. -/
def Error.message : Error → String
  | decode cause => s!"failed to decode module: {cause.message}"
  | trap cause => s!"trap: {cause.message}"
  | malformedOperand func _ => s!"malformed operand in function {func}"
  | illegalOpcode opcode offset =>
    s!"illegal opcode {hexadecimalByte opcode} at offset {offset}"
  | unsupportedOpcode opcode offset =>
    s!"unsupported opcode {hexadecimalByte opcode} at offset {offset}"
  | unsupported feature => s!"unsupported feature: {feature.text}"
  | unknownFunc index => s!"unknown function {index}"
  | unknownType index => s!"unknown type {index}"
  | argumentCount expected actual => s!"expected {expected} arguments, got {actual}"
  | stackUnderflow func => s!"operand stack underflow in function {func}"
  | unknownLocal func index => s!"unknown local {index} in function {func}"
  | unknownLabel func depth => s!"unknown label {depth} in function {func}"

end Wasm
