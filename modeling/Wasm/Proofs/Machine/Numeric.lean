import Wasm.Proofs.Integer.Standard
import Wasm.Proofs.Machine.Immediates

/-!
Integer instructions as steps of the machine.

An integer instruction takes its operands off the stack and puts one cell there. What that cell
holds is a function of the low bits of the operands, the one that the standard gives for the opcode;
whatever the operands' cells hold above these bits makes no difference.

* `Numeric.Meets.exec_unary`, `Numeric.Meets.exec_binary`: the stack;
* `State.advance_numeric`: the rest of the state;
* `numeric_step`: the instructions that do not divide.
-/

namespace Wasm

/-! ### The stack -/

section Stack

variable {frame : Frame} {op : Numeric} {N M : Nat} {below : Cells} {x y : Cell}

/-- A cell above the operands' floor can be taken off. -/
theorem Frame.pop_push (room : frame.operandBase ≤ below.height) :
    frame.pop (below.push x) = .ok (x, below) := by
  refine pop_eq_ok_iff.mpr ⟨?_, rfl⟩
  rw [Cells.height_push]
  exact Nat.lt_succ_of_le room

theorem Numeric.Meets.exec_unary {f : Nat → Nat} (meets : op.Meets (.unary N M f))
    (room : frame.operandBase ≤ below.height) :
    ∃ cell, op.exec frame (below.push x) = .ok (below.push cell) ∧
      Cell.Holds cell M (f (x.toNat % 2 ^ N)) := by
  cases meets with
  | @unary op _ _ _ result =>
    refine ⟨op.eval x, ?_, result x⟩
    rw [Numeric.exec, Frame.pop_push room]
    rfl

theorem Numeric.Meets.exec_binary {f : Nat → Nat → Nat} (meets : op.Meets (.binary N M f))
    (room : frame.operandBase ≤ below.height) :
    ∃ cell, op.exec frame ((below.push x).push y) = .ok (below.push cell) ∧
      Cell.Holds cell M (f (x.toNat % 2 ^ N) (y.toNat % 2 ^ N)) := by
  cases meets with
  | @binary op _ _ _ result =>
    obtain ⟨cell, done, holds⟩ := result x y
    have higher : frame.operandBase ≤ (below.push x).height := by
      rw [Cells.height_push]
      exact Nat.le_succ_of_le room
    refine ⟨cell, ?_, holds⟩
    rw [Numeric.exec, Frame.pop_push higher]
    simp only [bind, Except.bind, Frame.pop_push room, done]
    rfl

end Stack

/-! ### The state -/

section Steps

variable {m : Module} {s : State} {frame : Frame} {frames : List Frame}

/-- A step over an integer instruction changes the stack and goes on behind the opcode. -/
theorem State.advance_numeric {op : Numeric} {cells : Cells} (config : Config) (record : Record)
    (running : s.frames = frame :: frames)
    (stands : OpcodeAt (m.code frame.func) frame.ip (.numeric op))
    (executes : op.exec frame s.cells = .ok cells) :
    s.advance m config record =
      (.ok ⟨cells, { frame with ip := frame.ip + 1 } :: frames, s.labels⟩, record) := by
  have fetches : fetch m s.cells.height frame = .ok ⟨.plain (.numeric op), frame.ip + 1, 0⟩ :=
    fetch_of_opcodeAt stands rfl rfl nofun
  obtain ⟨stack, _, labels⟩ := s
  cases running
  rw [advance_of_fetch rfl fetches]
  simp only [advanceWith, Record.consult, Fetched.scanStart?, exec, execM, Id.run_pure, Plain.exec,
    executes]
  rfl

/-- A step over an integer instruction that does not divide, with enough operands above the floor of
the running function, whatever their cells hold. The operands are replaced by a cell that holds what
the standard says about their low bits, and nothing above the width of the result; nothing else
changes but the offset, and there is no trap. There is such a rule for every operator that does not
divide. -/
theorem numeric_step (config : Config) (record : Record) (running : s.frames = frame :: frames)
    {byte : UInt8} (found : (m.code frame.func)[frame.ip]? = some byte) :
    (∀ N M f, Standard.rule? byte = some (.unary N M f) →
      ∀ (below : Cells) (x : Cell), s.cells = below.push x → frame.operandBase ≤ below.height →
        ∃ cell, s.advance m config record =
          (.ok ⟨below.push cell, { frame with ip := frame.ip + 1 } :: frames, s.labels⟩,
            record) ∧
          cell.toNat = f (x.toNat % 2 ^ N) ∧ cell.toNat < 2 ^ M) ∧
    (∀ N M f, Standard.rule? byte = some (.binary N M f) →
      ∀ (below : Cells) (x y : Cell), s.cells = (below.push x).push y →
        frame.operandBase ≤ below.height →
        ∃ cell, s.advance m config record =
          (.ok ⟨below.push cell, { frame with ip := frame.ip + 1 } :: frames, s.labels⟩,
            record) ∧
          cell.toNat = f (x.toNat % 2 ^ N) (y.toNat % 2 ^ N) ∧ cell.toNat < 2 ^ M) ∧
    ∀ op : Numeric, Opcode.ofByte? byte = some (.numeric op) → op.divides = false →
      (Standard.rule? byte).isSome := by
  refine ⟨?_, ?_, fun _ => Standard.isSome_rule?⟩
  · intro N M f known below x top room
    obtain ⟨op, stands, meets⟩ := Standard.meets_of_byte known
    obtain ⟨cell, executes, value, small⟩ := meets.exec_unary (x := x) room
    rw [← top] at executes
    refine ⟨cell, State.advance_numeric config record running ⟨byte, found, stands⟩ executes, ?_⟩
    exact ⟨value, value ▸ small⟩
  · intro N M f known below x y top room
    obtain ⟨op, stands, meets⟩ := Standard.meets_of_byte known
    obtain ⟨cell, executes, value, small⟩ := meets.exec_binary (x := x) (y := y) room
    rw [← top] at executes
    refine ⟨cell, State.advance_numeric config record running ⟨byte, found, stands⟩ executes, ?_⟩
    exact ⟨value, value ▸ small⟩

end Steps

namespace Sample

/-- Integer instructions one after the other: `i32.lt_s`, `i32.lt_u`, `i32.rotl` and `i32.clz`. -/
def integers : Module :=
  { types := #[.new [] []]
    funcs := #[⟨0, 0, #[0x48, 0x49, 0x77, 0x67]⟩]
    exports := #[]
    table := none }

/-- The function of `integers` at an offset, with the given operands on the stack. -/
def computing (ip : Nat) (operands : List Cell) : State :=
  ⟨.ofList operands, [⟨0, ip, 0, 0, 0, 0⟩], []⟩

end Sample

open Sample in
/-- The theorem at operands with bits above their width: minus one is less than one, but not as an
unsigned number; a rotation by 33 is one by 1; and all 32 bits of the last operand are zeros. -/
theorem integers_computed :
    (computing 0 [0xFFFFFFFF, 0x100000001]).advance integers {} {} =
      (.ok (computing 1 [1]), {}) ∧
    (computing 1 [0xFFFFFFFF, 0x100000001]).advance integers {} {} =
      (.ok (computing 2 [0]), {}) ∧
    (computing 2 [0xDEADBEEF80000001, 0xFFFFFFFF00000021]).advance integers {} {} =
      (.ok (computing 3 [3]), {}) ∧
    (computing 3 [0xFFFFFFFF00000000]).advance integers {} {} = (.ok (computing 4 [32]), {}) := by
  have steps := fun ip operands =>
    @numeric_step integers (computing ip operands) ⟨0, ip, 0, 0, 0, 0⟩ [] {} {} rfl
  refine ⟨?_, ?_, ?_, ?_⟩
  · obtain ⟨cell, moves, value, -⟩ :=
      (steps 0 [0xFFFFFFFF, 0x100000001] rfl).2.1 _ _ _ rfl .empty _ _ rfl (by decide)
    obtain rfl : cell = 1 := UInt64.toNat_inj.mp value
    exact moves
  · obtain ⟨cell, moves, value, -⟩ :=
      (steps 1 [0xFFFFFFFF, 0x100000001] rfl).2.1 _ _ _ rfl .empty _ _ rfl (by decide)
    obtain rfl : cell = 0 := UInt64.toNat_inj.mp value
    exact moves
  · obtain ⟨cell, moves, value, -⟩ :=
      (steps 2 [0xDEADBEEF80000001, 0xFFFFFFFF00000021] rfl).2.1 _ _ _ rfl .empty _ _ rfl
        (by decide)
    obtain rfl : cell = 3 := UInt64.toNat_inj.mp value
    exact moves
  · obtain ⟨cell, moves, value, -⟩ :=
      (steps 3 [0xFFFFFFFF00000000] rfl).1 _ _ _ rfl .empty _ rfl (by decide)
    obtain rfl : cell = 32 := UInt64.toNat_inj.mp value
    exact moves

end Wasm
