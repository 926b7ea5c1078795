import Wasm.Proofs.Instr.Boundary
import Wasm.Proofs.Machine.Heights

/-!
Valid code: the operand heights that can be told without running it.

Code is checked from its first byte to its last. In front of each instruction, `Static` has the
number of operands and the blocks that are open, the body itself the outermost; `Static.check` says
what an instruction requires of it and what it makes of it. Behind an instruction that never goes
on, the rest of its block is dead: it is checked, but operands that are missing there are supplied.

* `ValidFrom`: all the code from an offset on checks, and it ends with the body's own `end`;
* `validates_iff`: this is decided by checking one instruction after the other;
* `Module.Valid`: every body is valid from its start, and all functions that are named exist.
-/

namespace Wasm

/-! ### Instructions as checking reads them -/

/-- The instruction at an offset and the offset behind it, when the opcode can be run and its
immediates decode. -/
def Instr.at? (code : Bytes) (pos : Nat) : Option (Instr × Nat) :=
  code[pos]?.bind fun byte =>
    (Opcode.ofByte? byte).bind fun opcode =>
      opcode.instr?.bind fun read => (read code (pos + 1)).toOption

theorem Instr.at?_eq_some_iff {code : Bytes} {pos next : Nat} {instr : Instr} :
    Instr.at? code pos = some (instr, next) ↔
      ∃ byte opcode read, code[pos]? = some byte ∧ Opcode.ofByte? byte = some opcode ∧
        opcode.instr? = some read ∧ read code (pos + 1) = .ok (instr, next) := by
  simp only [Instr.at?, Option.bind_eq_some_iff, toOption_eq_some_iff]
  constructor
  · rintro ⟨byte, found, opcode, known, read, supported, result⟩
    exact ⟨byte, opcode, read, found, known, supported, result⟩
  · rintro ⟨byte, opcode, read, found, known, supported, result⟩
    exact ⟨byte, found, opcode, known, read, supported, result⟩

theorem Instr.instrAt_of_at? {code : Bytes} {pos next : Nat} {instr : Instr}
    (decoded : Instr.at? code pos = some (instr, next)) :
    ∃ opcode, InstrAt code pos opcode next ∧ opcode.Decodes instr := by
  obtain ⟨byte, opcode, read, found, known, supported, result⟩ := at?_eq_some_iff.mp decoded
  refine ⟨opcode, ⟨⟨byte, found, known⟩, ?_⟩, read, code, pos + 1, next, supported, result⟩
  rw [Opcode.skip_eq_read supported, Reader.bind_ok result]
  rfl

/-! ### What an instruction requires and leaves -/

/-- An open block, or the body of the function, as checking sees it. -/
structure Control where
  kind : LabelKind
  /-- How many results the block leaves. -/
  arity : Nat
  /-- How many operands there were when the block was entered. -/
  height : Nat
  /-- What follows in the block, up to its `else` or `end`, is never run. -/
  dead : Bool := false
  deriving DecidableEq, Repr

namespace Control

/-- How many operands a branch to the block carries: none to the start of a loop. -/
def labelArity (c : Control) : Nat :=
  match c.kind with
  | .loop => 0
  | .block | .cond => c.arity

/-- The body of a function, which a branch leaves with the function's results. -/
def body (results : Nat) : Control :=
  { kind := .block, arity := results, height := 0 }

/-- The block behind its `else`. -/
def otherArm (c : Control) : Control :=
  { c with kind := .block, dead := false }

end Control

/-- What is known in front of an instruction: the number of operands, and the open blocks with the
innermost first. -/
structure Static where
  height : Nat
  controls : List Control
  deriving DecidableEq, Repr

namespace Static

/-- Takes operands, which must have been put there inside the innermost block. In dead code those
that are missing are supplied. -/
def pop (count : Nat) (s : Static) : Option Static :=
  match s.controls with
  | [] => none
  | c :: _ =>
    if c.height + count ≤ s.height then some { s with height := s.height - count }
    else if c.dead then some { s with height := c.height }
    else none

/-- Puts operands on. -/
def push (count : Nat) (s : Static) : Static :=
  { s with height := s.height + count }

/-- Behind an instruction that never goes on: the rest of the block is dead. -/
def kill (s : Static) : Static :=
  match s.controls with
  | [] => s
  | c :: outer => ⟨c.height, { c with dead := true } :: outer⟩

/-- Opens a block. -/
def enter (kind : LabelKind) (arity : Nat) (s : Static) : Static :=
  ⟨s.height, { kind, arity, height := s.height } :: s.controls⟩

/-- The innermost block and those around it, when its results are all that it has put on. -/
def finish (s : Static) : Option (Control × List Control) :=
  match s.controls with
  | [] => none
  | c :: outer =>
    (s.pop c.arity).bind fun rest => if rest.height = c.height then some (c, outer) else none

/-- What an instruction makes of what is known in front of it, unless it is not allowed there. -/
def check (m : Module) (locals : Nat) (s : Static) : Instr → Option Static
  | .plain op =>
    if op = .unreachable then some s.kill
    else if op.local?.all (· < locals) then (s.pop op.pops).map (push op.pushes)
    else none
  | .block type => (m.blockArity type).toOption.map fun arity => s.enter .block arity
  | .loop type => (m.blockArity type).toOption.map fun arity => s.enter .loop arity
  | .ifThen type =>
    (m.blockArity type).toOption.bind fun arity => (s.pop 1).map (enter .cond arity)
  | .elseArm => s.finish.bind fun (c, outer) =>
    if c.kind = .cond then some ⟨c.height, c.otherArm :: outer⟩ else none
  | .endBlock => s.finish.bind fun (c, outer) =>
    -- An `if` that leaves a result has to have an `else`, which makes its control a `block`.
    if c.kind = .cond ∧ c.arity ≠ 0 then none else some ⟨c.height + c.arity, outer⟩
  | .br depth => s.controls[depth]?.bind fun c => (s.pop c.labelArity).map kill
  | .brIf depth => s.controls[depth]?.bind fun c =>
    (s.pop 1).bind fun s => (s.pop c.labelArity).map (push c.labelArity)
  | .brTable depths default => s.controls[default]?.bind fun c =>
    if depths.all fun depth => s.controls[depth]?.any (·.labelArity = c.labelArity) then
      (s.pop 1).bind fun s => (s.pop c.labelArity).map kill
    else none
  | .ret => s.controls.getLast?.bind fun body => (s.pop body.arity).map kill
  | .call func => (m.funcType? func).bind fun type =>
    (s.pop type.params.length).map (push type.results.length)
  | .callIndirect type table =>
    if table = 0 then
      m.types[type]?.bind fun type => (s.pop 1).bind fun s =>
        (s.pop type.params.length).map (push type.results.length)
    else none

end Static

/-! ### Valid code -/

/-- The code is valid from an offset on, given what is known there: each instruction is allowed
where it stands, and behind the last one even the body has ended. -/
inductive ValidFrom (m : Module) (locals : Nat) (code : Bytes) : Nat → Static → Prop where
  | ended {s} (closed : s.controls = []) : ValidFrom m locals code code.size s
  | instr {pos next s s' instr} (inside : s.controls ≠ [])
      (decoded : Instr.at? code pos = some (instr, next))
      (checks : s.check m locals instr = some s') (rest : ValidFrom m locals code next s') :
      ValidFrom m locals code pos s

/-- As long as a block is open, an instruction that checks comes next. -/
theorem ValidFrom.exists_instr {m : Module} {locals : Nat} {code : Bytes} {pos : Nat} {s : Static}
    (valid : ValidFrom m locals code pos s) (inside : s.controls ≠ []) :
    ∃ instr next s', Instr.at? code pos = some (instr, next) ∧
      s.check m locals instr = some s' ∧ ValidFrom m locals code next s' := by
  cases valid with
  | ended closed => exact absurd closed inside
  | instr _ decoded checks rest => exact ⟨_, _, _, decoded, checks, rest⟩

/-- What is known at the start of a body: nothing is there, and only the body is open. -/
def Static.start (results : Nat) : Static :=
  ⟨0, [.body results]⟩

/-- Checks one instruction after the other. Every instruction has a byte, so `fuel` need not exceed
the bytes that are left. -/
def validates (m : Module) (locals : Nat) (code : Bytes) : (fuel pos : Nat) → Static → Bool
  | 0, pos, s => s.controls.isEmpty && pos == code.size
  | fuel + 1, pos, s =>
    if s.controls.isEmpty then pos == code.size
    else
      match Instr.at? code pos with
      | none => false
      | some (instr, next) =>
        match s.check m locals instr with
        | none => false
        | some s' => validates m locals code fuel next s'

theorem validates_iff {m : Module} {locals : Nat} {code : Bytes} {fuel pos : Nat} {s : Static}
    (enough : code.size - pos ≤ fuel) :
    validates m locals code fuel pos s = true ↔ ValidFrom m locals code pos s := by
  induction fuel generalizing pos s with
  | zero =>
    constructor
    · intro passes
      simp only [validates, Bool.and_eq_true, List.isEmpty_iff, beq_iff_eq] at passes
      obtain ⟨closed, rfl⟩ := passes
      exact .ended closed
    · intro valid
      cases valid with
      | ended closed => simp [validates, closed]
      | instr inside decoded checks rest =>
        obtain ⟨opcode, stands, -⟩ := Instr.instrAt_of_at? decoded
        have outside := stands.pos_lt
        omega
  | succ fuel ih =>
    by_cases closed : s.controls = []
    · constructor
      · intro passes
        simp only [validates, closed, List.isEmpty_nil, if_true, beq_iff_eq] at passes
        subst passes
        exact .ended closed
      · intro valid
        cases valid with
        | ended => simp [validates, closed]
        | instr inside => exact absurd closed inside
    · have going : s.controls.isEmpty = false := by simp [closed]
      constructor
      · intro passes
        simp only [validates, going, Bool.false_eq_true, if_false] at passes
        split at passes
        · cases passes
        rename_i instr next decoded
        split at passes
        · cases passes
        rename_i s' checks
        obtain ⟨opcode, stands, -⟩ := Instr.instrAt_of_at? decoded
        have forwards := stands.lt_next
        have inside := stands.pos_lt
        exact .instr closed decoded checks ((ih (by omega)).mp passes)
      · intro valid
        cases valid with
        | ended ended => exact absurd ended closed
        | instr _ decoded checks rest =>
          obtain ⟨opcode, stands, -⟩ := Instr.instrAt_of_at? decoded
          have forwards := stands.lt_next
          have inside := stands.pos_lt
          simp only [validates, going, Bool.false_eq_true, if_false, decoded, checks]
          exact (ih (by omega)).mpr rest

instance (m : Module) (locals : Nat) (code : Bytes) (pos : Nat) (s : Static) :
    Decidable (ValidFrom m locals code pos s) :=
  decidable_of_iff _ (validates_iff (Nat.le_refl (code.size - pos)))

-- A second `drop` finds nothing in the body, but may stand where the code is dead.
example : ¬ ValidFrom ⟨#[], #[], #[], none⟩ 0 #[0x41, 0x00, 0x1A, 0x1A, 0x0B] 0 (.start 0) := by
  decide +kernel

example : ValidFrom ⟨#[], #[], #[], none⟩ 0 #[0x41, 0x00, 0x1A, 0x00, 0x1A, 0x0B] 0 (.start 0) := by
  decide +kernel

/-- A function of the given type is valid: it has at most one result, and its body checks. -/
structure Func.ValidAt (m : Module) (func : Func) (type : FuncType) : Prop where
  single : type.results.length ≤ 1
  body : ValidFrom m (type.params.length + func.body.localCount) func.body.code 0
    (.start type.results.length)

instance (m : Module) (func : Func) (type : FuncType) : Decidable (func.ValidAt m type) :=
  decidable_of_iff (type.results.length ≤ 1 ∧ _)
    ⟨fun ⟨single, body⟩ => ⟨single, body⟩, fun ⟨single, body⟩ => ⟨single, body⟩⟩

/-- Every function has a type of the module and is valid at it, and the table holds functions of the
module only. -/
structure Module.Valid (m : Module) : Prop where
  funcs : ∀ func ∈ m.funcs, ∃ type ∈ m.types[func.type]?, func.ValidAt m type
  slots : ∀ table ∈ m.table, ∀ slot ∈ table.slots, ∀ func ∈ slot, func < m.funcs.size

instance (m : Module) : Decidable m.Valid :=
  decidable_of_iff ((∀ func ∈ m.funcs, ∃ type ∈ m.types[func.type]?, func.ValidAt m type) ∧
      ∀ table ∈ m.table, ∀ slot ∈ table.slots, ∀ func ∈ slot, func < m.funcs.size)
    ⟨fun ⟨funcs, slots⟩ => ⟨funcs, slots⟩, fun ⟨funcs, slots⟩ => ⟨funcs, slots⟩⟩

end Wasm
