/-! # Traps

A trap is an end that the semantics itself prescribes for a computation, as opposed to code or bytes
that no valid module has.
-/

namespace Wasm

/-- Why a computation ends without a value. -/
inductive Trap
  | unreachable
  | divideByZero
  | integerOverflow
  | undefinedElement
  | uninitializedElement
  | signatureMismatch
  | callStackExhausted
  deriving DecidableEq, Repr

/-- The wording of a trap. -/
def Trap.message : Trap → String
  | unreachable => "unreachable"
  | divideByZero => "integer divide by zero"
  | integerOverflow => "integer overflow"
  | undefinedElement => "undefined element"
  | uninitializedElement => "uninitialized element"
  | signatureMismatch => "indirect call type mismatch"
  | callStackExhausted => "call stack exhausted"

end Wasm
