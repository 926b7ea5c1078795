import Wasm.Feature

/-! # Why bytes fail to decode

A decoding error is a cause, not a text. Causes that blame a place carry its offset; inside a
size-prefixed region offsets count from the start of that region. `DecodeError.message` is the only
place where a cause becomes words.
-/

namespace Wasm

/-- A rule of the binary format that some bytes break. -/
inductive Malformation
  | magic
  | version
  | sectionId
  | sectionSize
  | valueType
  | functionType
  | referenceType
  | blockType
  | limitsFlags
  | limitsOrder
  | importKind
  | exportKind
  | duplicateExport
  | segmentKind
  | elementKind
  | endExpected
  | tooManyLocals
  | illegalOpcode
  | functionCount
  | unknownType
  | unknownTable
  | segmentOutOfBounds
  deriving DecidableEq, Repr

/-- The wording of a broken rule. -/
def Malformation.text : Malformation → String
  | magic => "magic header not detected"
  | version => "unknown binary version"
  | sectionId => "malformed section id"
  | sectionSize => "section size mismatch"
  | valueType => "malformed value type"
  | functionType => "malformed function type"
  | referenceType => "malformed reference type"
  | blockType => "malformed block type"
  | limitsFlags => "malformed limits flags"
  | limitsOrder => "size minimum must not be greater than maximum"
  | importKind => "malformed import kind"
  | exportKind => "malformed export kind"
  | duplicateExport => "duplicate export name"
  | segmentKind => "malformed elements segment kind"
  | elementKind => "malformed element kind"
  | endExpected => "END opcode expected"
  | tooManyLocals => "too many locals"
  | illegalOpcode => "illegal opcode"
  | functionCount => "function and code section have inconsistent lengths"
  | unknownType => "unknown type"
  | unknownTable => "unknown table"
  | segmentOutOfBounds => "element segment out of bounds"

/-- Why a read failed. -/
inductive DecodeError
  /-- The input ends at `offset`, where more was needed. -/
  | unexpectedEnd (offset : Nat)
  /-- The integer that starts at `offset` has more groups than `bits` bits need. -/
  | intTooLong (offset bits : Nat)
  /-- The integer that starts at `offset` does not fit in `bits` bits. -/
  | intTooLarge (offset bits : Nat)
  /-- The name that starts at `offset` is not UTF-8. -/
  | invalidUtf8 (offset : Nat)
  /-- A rule of the format is broken at `offset`. -/
  | malformed (offset : Nat) (rule : Malformation)
  /-- The module needs a construct that is refused. -/
  | unsupported (feature : Feature)
  deriving DecidableEq, Repr

/-- The wording of a decoding error. -/
def DecodeError.message : DecodeError → String
  | unexpectedEnd offset => s!"unexpected end of input at offset {offset}"
  | intTooLong offset bits =>
    s!"integer representation too long at offset {offset} (max {bits} bits)"
  | intTooLarge offset bits => s!"integer too large at offset {offset} (max {bits} bits)"
  | invalidUtf8 offset => s!"invalid UTF-8 string at offset {offset}"
  | malformed offset rule => s!"malformed binary at offset {offset}: {rule.text}"
  | unsupported feature => s!"unsupported module feature: {feature.text}"

end Wasm
