import Wasm.Binary.Counted

/-! # Types of values, functions, blocks and tables

Each type comes with its reader. One byte stands for a value type; a block type is a value type, the
empty type, or a non-negative signed index into the module's types, told apart by the first byte.
-/

namespace Wasm

/-- One slot of the value stack: 64 raw bits, whatever their type. -/
abbrev Cell := UInt64

/-- The type of a value. -/
inductive ValType
  | i32
  | i64
  | f32
  | f64
  | v128
  | funcref
  | externref
  deriving DecidableEq, Repr

/-- The value type that a byte stands for. -/
def ValType.ofByte? (byte : UInt8) : Option ValType :=
  match byte.toNat with
  | 0x7F => some i32
  | 0x7E => some i64
  | 0x7D => some f32
  | 0x7C => some f64
  | 0x7B => some v128
  | 0x70 => some funcref
  | 0x6F => some externref
  | _ => none

/-- The cell that holds a value of the type: 32-bit types have no high half. -/
def ValType.canonical (type : ValType) (cell : Cell) : Cell :=
  match type with
  | i32 | f32 => cell.toUInt32.toUInt64
  | _ => cell

/-- A value type. A byte that stands for none is blamed itself. -/
def ValType.read : Reader ValType := do
  let start ← Reader.position
  let byte ← Reader.byte
  match ofByte? byte with
  | some type => pure type
  | none => Reader.fail (.malformed start .valueType)

/-- Parameter and result types of a function, in one sequence: the parameters come first, and there
are `paramCount` of them. -/
structure FuncType where
  types : List ValType
  paramCount : Nat
  split : paramCount ≤ types.length
  deriving DecidableEq, Repr

namespace FuncType

/-- The type with the given parameters and results. -/
def new (params results : List ValType) : FuncType where
  types := params ++ results
  paramCount := params.length
  split := by simp

/-- The types of the parameters. -/
def params (type : FuncType) : List ValType :=
  type.types.take type.paramCount

/-- The types of the results. -/
def results (type : FuncType) : List ValType :=
  type.types.drop type.paramCount

@[simp] theorem params_new (params results : List ValType) : (new params results).params = params :=
  List.take_left

@[simp] theorem results_new (params results : List ValType) :
    (new params results).results = results :=
  List.drop_left

@[simp] theorem new_params_results (type : FuncType) : new type.params type.results = type := by
  obtain ⟨types, paramCount, split⟩ := type
  have length : (types.take paramCount).length = paramCount := List.length_take_of_le split
  simp only [new, params, results, length, List.take_append_drop]

/-- Function types are equal when they have the same parameters and the same results. -/
theorem eq_iff {a b : FuncType} : a = b ↔ a.params = b.params ∧ a.results = b.results := by
  constructor
  · rintro rfl
    exact ⟨rfl, rfl⟩
  · rintro ⟨params, results⟩
    rw [← a.new_params_results, ← b.new_params_results, params, results]

end FuncType

/-- A function type: its mark, the parameters, the results. -/
def FuncType.read : Reader FuncType := do
  let mark ← Reader.byte
  if mark ≠ 0x60 then
    Reader.malformed .functionType
  else
    let params ← Reader.vector ValType.read
    let results ← Reader.vector ValType.read
    pure (.new params.toList results.toList)

/-- The type of a `block`, `loop` or `if`. -/
inductive BlockType
  | empty
  | value (type : ValType)
  | index (type : Nat)
  deriving DecidableEq, Repr

/-- A block type. The one-byte forms are tried first, then a 33-bit index that must not be
negative. -/
def BlockType.read : Reader BlockType := do
  let first ← Reader.peek
  if first = 0x40 then
    let _ ← Reader.byte
    pure .empty
  else
    match ValType.ofByte? first with
    | some type =>
      let _ ← Reader.byte
      pure (.value type)
    | none =>
      let index ← Leb128.signed 33
      if index < 0 then Reader.malformed .blockType else pure (.index index.toNat)

/-- A least size and, if there is one, a greatest. -/
structure Limits where
  min : Nat
  max : Option Nat
  deriving DecidableEq, Repr

/-- Limits, with a flag in front that says whether there is a greatest size. -/
def Limits.read : Reader Limits := do
  let flag ← Reader.byte
  match flag.toNat with
  | 0 =>
    let min ← Leb128.u32
    pure { min, max := none }
  | 1 =>
    let min ← Leb128.u32
    let max ← Leb128.u32
    pure { min, max := some max }
  | _ => Reader.malformed .limitsFlags

/-- What a table holds and how large it is. -/
structure TableType where
  element : ValType
  limits : Limits
  deriving DecidableEq, Repr

/-- A table type. Tables hold references only. -/
def TableType.read : Reader TableType := do
  let element ← ValType.read
  if element = .funcref ∨ element = .externref then
    let limits ← Limits.read
    pure { element, limits }
  else
    Reader.malformed .referenceType

end Wasm
