import Wasm.Instr.Opcode

/-! # Where a block ends

Bodies are run from their bytes, so the `else` and `end` that belong to a block are found by walking
the instructions from the block's first one on, counting how many blocks are open.
-/

namespace Wasm

/-- The offsets of the `else`, if any, and the `end` of a block. -/
structure BlockTargets where
  elseAt : Option Nat
  endAt : Nat
  deriving DecidableEq, Repr

namespace BlockTargets

/-- Walks on from `pos`, with `depth` blocks open inside the one whose end is wanted and `elseAt`
its last `else` so far. Every instruction has a byte, so `fuel` need not exceed the bytes that are
left: when it runs out, so have they. -/
def scanFrom (code : Bytes) :
    (fuel depth : Nat) → (elseAt : Option Nat) → (pos : Nat) → Except DecodeError BlockTargets
  | 0, _, _, pos => .error (.unexpectedEnd pos)
  | fuel + 1, depth, elseAt, pos =>
    match Reader.byte code pos with
    | .error e => .error e
    | .ok (byte, next) =>
      match Opcode.ofByte? byte with
      | none => .error (.malformed pos .illegalOpcode)
      | some opcode =>
        match opcode.shape.skip code next with
        | .error e => .error e
        | .ok ((), after) =>
          match opcode, depth with
          | .block, depth | .loop, depth | .ifThen, depth =>
            scanFrom code fuel (depth + 1) elseAt after
          | .elseArm, 0 => scanFrom code fuel 0 (some pos) after
          | .endBlock, 0 => .ok { elseAt, endAt := pos }
          | .endBlock, depth + 1 => scanFrom code fuel depth elseAt after
          | _, depth => scanFrom code fuel depth elseAt after

/-- The targets of the block whose first instruction is at `start`. -/
def scan (code : Bytes) (start : Nat) : Except DecodeError BlockTargets :=
  scanFrom code (code.size - start) 0 none start

end BlockTargets

end Wasm
