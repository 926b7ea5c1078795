import Wasm.Machine.Plain

/-! # One step of the machine

A step fetches the instruction at the running function's offset and executes it. Fetching looks at
the code only, with one exception: the index of a `br_table` has to be on the stack before its
labels are read. Executing needs to know where the block ends that an instruction opens, and asks
for it in a monad (`State.execM`): `State.step` scans for it every time, a run that remembers
earlier scans looks it up.
-/

namespace Wasm

namespace Module

/-- How many results a block of the given type has. Blocks take no operands and leave at most one.
-/
def blockArity (m : Module) : BlockType → Except Error Nat
  | .empty => .ok 0
  | .value _ => .ok 1
  | .index index =>
    match m.types[index]? with
    | none => .error (.unknownType index)
    | some type =>
      if type.params ≠ [] ∨ 1 < type.results.length then
        .error (.unsupported .multiValueBlocks)
      else
        .ok type.results.length

/-- The function in a table slot, which has to be of the expected type. -/
def tableFunc (m : Module) (expected : FuncType) (index : Nat) : Except Error Nat :=
  match m.table.bind (·.slot? index) with
  | none => .error (.trap .undefinedElement)
  | some none => .error (.trap .uninitializedElement)
  | some (some func) =>
    match m.funcType? func with
    | none => .error (.unknownFunc func)
    | some actual =>
      if actual = expected then .ok func else .error (.trap .signatureMismatch)

/-- The targets of a block of a function, found by scanning its code. -/
def scan (m : Module) (func start : Nat) : Except DecodeError BlockTargets :=
  BlockTargets.scan (m.code func) start

end Module

/-- An instruction ready to be executed. -/
structure Fetched where
  instr : Instr
  /-- The offset behind the instruction. -/
  next : Nat
  /-- How many results the block has that the instruction opens, if it opens one. -/
  arity : Nat
  deriving DecidableEq, Repr

namespace Fetched

/-- The start of the block whose targets the instruction needs. -/
def scanStart? (fetched : Fetched) : Option Nat :=
  match fetched.instr with
  | .block _ | .ifThen _ => some fetched.next
  | _ => none

end Fetched

/-- The instruction that a frame comes to, when the value stack has the given height. Behind the
last instruction, a function returns. -/
def fetch (m : Module) (height : Nat) (frame : Frame) : Except Error Fetched :=
  match m.funcs[frame.func]? with
  | none => .error (.unknownFunc frame.func)
  | some func =>
    match func.body.code[frame.ip]? with
    | none => .ok { instr := .ret, next := frame.ip, arity := 0 }
    | some byte =>
      match Opcode.ofByte? byte with
      | none => .error (.illegalOpcode byte frame.ip)
      | some opcode =>
        match opcode.instr? with
        | none => .error (.unsupportedOpcode byte frame.ip)
        | some read =>
          if opcode = .brTable ∧ height ≤ frame.operandBase then
            .error (.stackUnderflow frame.func)
          else
            match read func.body.code (frame.ip + 1) with
            | .error e => .error (.malformedOperand frame.func e)
            | .ok (instr, next) =>
              match instr with
              | .block type | .loop type | .ifThen type =>
                (m.blockArity type).map fun arity => { instr, next, arity }
              | _ => .ok { instr, next, arity := 0 }

/-- Counts through the labels of a `br_table`, from the number `count` on, and keeps the one whose
number is `index`. All of them are read, also behind the one that is kept. -/
def countLabels (index : Nat) : (count : Nat) → (target : Option Nat) → List Nat → Option Nat
  | _, target, [] => target
  | count, target, depth :: depths =>
    countLabels index (count + 1) (if count = index then some depth else target) depths

/-- The label that a `br_table` branches to: the one with the given number, or the default. -/
def selectLabel (index : Nat) (depths : Array Nat) (default : Nat) : Nat :=
  (countLabels index 0 none depths.toList).getD default

theorem countLabels_eq (index count : Nat) (target : Option Nat) (depths : List Nat) :
    countLabels index count target depths =
      if count ≤ index then depths[index - count]?.or target else target := by
  induction depths generalizing count target with
  | nil => simp [countLabels]
  | cons depth depths ih =>
    rw [countLabels, ih]
    rcases Nat.lt_trichotomy count index with below | rfl | above
    · obtain ⟨rest, rfl⟩ : ∃ rest, index = count + (rest + 1) := ⟨index - count - 1, by omega⟩
      have number : count + (rest + 1) - (count + 1) = rest := by omega
      simp [number]
    · have passed : ¬ count + 1 ≤ count := Nat.not_succ_le_self count
      simp [passed]
    · have passed : ¬ count + 1 ≤ index := by omega
      simp [passed, Nat.not_le.mpr above, Nat.ne_of_gt above]

/-- Counting through the labels comes to the one at the index. -/
@[simp] theorem selectLabel_eq (index : Nat) (depths : Array Nat) (default : Nat) :
    selectLabel index depths default = depths[index]?.getD default := by
  simp [selectLabel, countLabels_eq]

namespace State

/-- Executes the instruction that the running frame has come to. `targets` is asked for the targets
of the block that starts at an offset of the running function. -/
@[specialize] def execM {μ : Type → Type} [Monad μ] (m : Module) (config : Config)
    (targets : Nat → μ (Except DecodeError BlockTargets)) (frame : Frame) (fetched : Fetched)
    (s : State) : μ (Except Error Transition) :=
  let next := fetched.next
  match fetched.instr with
  | .plain op => pure <|
    match s with
    | ⟨cells, frames, labels⟩ =>
      match op.exec frame cells with
      | .error e => .error e
      | .ok cells => .ok (jump ⟨cells, frames, labels⟩ next, none)
  | .block _ => do
    let found ← targets next
    return match found with
      | .error e => .error (.malformedOperand frame.func e)
      | .ok t => .ok ((s.openLabel .block fetched.arity t.endAt).jump next, none)
  | .loop _ => pure <| .ok ((s.openLabel .loop fetched.arity frame.ip).jump next, none)
  | .ifThen _ => do
    let found ← targets next
    return match found with
      | .error e => .error (.malformedOperand frame.func e)
      | .ok t =>
        match s.pop frame with
        | .error e => .error e
        | .ok (condition, s) =>
          if Cell.isTrue condition then
            .ok ((s.openLabel .cond fetched.arity t.endAt).jump next, none)
          else
            match t.elseAt with
            | some elseAt => .ok ((s.openLabel .cond fetched.arity t.endAt).jump (elseAt + 1), none)
            | none => .ok (s.jump (t.endAt + 1), none)
  | .elseArm => pure <| s.branch frame 0
  | .endBlock => pure <| s.closeLabel frame next
  | .br depth => pure <| s.branch frame depth
  | .brIf depth => pure <|
    match s.pop frame with
    | .error e => .error e
    | .ok (condition, s) =>
      if Cell.isTrue condition then s.branch frame depth else .ok (s.jump next, none)
  | .brTable depths default => pure <|
    match s.pop frame with
    | .error e => .error e
    | .ok (index, s) => s.branch frame (selectLabel (Cell.index index) depths default)
  | .ret => pure <| s.leave
  | .call func => pure <| (s.jump next).enter m config func
  | .callIndirect type table => pure <|
    if table ≠ 0 then
      .error (.unsupported .multipleTables)
    else
      match m.types[type]? with
      | none => .error (.unknownType type)
      | some expected =>
        match s.pop frame with
        | .error e => .error e
        | .ok (index, s) =>
          match m.tableFunc expected (Cell.index index) with
          | .error e => .error e
          | .ok func => (s.jump next).enter m config func

/-- Executes an instruction when the targets of blocks are simply given. -/
def exec (m : Module) (config : Config) (targets : Nat → Except DecodeError BlockTargets)
    (frame : Frame) (fetched : Fetched) (s : State) : Except Error Transition :=
  Id.run (s.execM m config (fun start => pure (targets start)) frame fetched)

/-- One instruction of the running function, by a machine that scans every block that it comes to.
A state without frames stays as it is. -/
def step (m : Module) (config : Config) (s : State) : Except Error Transition :=
  match s.frames with
  | [] => .ok (s, none)
  | frame :: _ =>
    match fetch m s.cells.height frame with
    | .error e => .error e
    | .ok fetched => s.exec m config (m.scan frame.func) frame fetched

end State

end Wasm
