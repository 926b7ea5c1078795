import Wasm.Module.Table

/-! # Modules

A module is what is left of its binary form once it has been decoded: types, functions with their
undecoded bodies, the functions that it exports by name, and at most one table.
-/

namespace Wasm

/-- The body of a function: how many locals it declares beside its parameters, and its code. -/
structure Body where
  localCount : Nat
  code : Bytes
  deriving DecidableEq, Repr

/-- A function: the index of its type, and its body. -/
structure Func where
  type : Nat
  body : Body
  deriving DecidableEq, Repr

/-- A function that a module offers under a name. -/
structure Export where
  name : String
  func : Nat
  deriving DecidableEq, Repr

/-- A decoded module. No two exports have one name. -/
structure Module where
  types : Array FuncType
  funcs : Array Func
  exports : Array Export
  table : Option Table
  deriving DecidableEq, Repr

namespace Module

/-- The type of a function, unless the module has no such function. -/
def funcType? (m : Module) (func : Nat) : Option FuncType :=
  m.funcs[func]?.bind fun f => m.types[f.type]?

/-- The code of a function, empty when there is no such function. -/
def code (m : Module) (func : Nat) : Bytes :=
  match m.funcs[func]? with
  | some f => f.body.code
  | none => #[]

/-- The function exported under a name. -/
def exported? (m : Module) (name : String) : Option Nat :=
  (m.exports.find? (·.name == name)).map (·.func)

/-- The exported functions, by name in the order of code points. -/
def exportsByName (m : Module) : List Export :=
  m.exports.toList.mergeSort fun a b => decide (a.name ≤ b.name)

/-- The number of table slots, zero without a table. -/
def tableSize (m : Module) : Nat :=
  match m.table with
  | some table => table.size
  | none => 0

end Module

end Wasm
