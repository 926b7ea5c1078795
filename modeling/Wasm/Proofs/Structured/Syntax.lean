import Wasm.Proofs.Binary.Grammar
import Wasm.Proofs.Instr.Boundary

/-!
Structured programs and their binary forms.

`Stmt` is an instruction as a tree: a block holds the instructions inside it. `IsCode bytes stmts`
is the grammar of the binary format for a sequence of them. It fixes every opcode byte by itself,
without looking at the table that the decoder uses, and leaves open what the format leaves open: how
many groups an integer has, and whether an empty `else` is written. `Compiled m bodies` says that
the functions of a module have such forms for code.

* `Stmt.IsLeaf.decoded`: the form of an instruction without instructions inside is decoded as that
  instruction;
* `IsCode.scanAt_eq`: a scan for the end of a block passes over a complete sequence.
-/

namespace Wasm

/-! ### Instructions as trees -/

/-- An instruction, with the instructions inside it. Blocks take no operands, and an `if` without
`else` has no instructions in its second arm. -/
inductive Stmt
  | plain (op : Plain)
  | block (type : BlockType) (body : List Stmt)
  | loop (type : BlockType) (body : List Stmt)
  | ifElse (type : BlockType) (yes no : List Stmt)
  | br (depth : Nat)
  | brIf (depth : Nat)
  | brTable (depths : List Nat) (default : Nat)
  | ret
  | call (func : Nat)
  | callIndirect (type : Nat)

/-! ### Opcode bytes of the integer instructions -/

/-- The opcode of the first test of a width. -/
def Width.firstTest : Width → UInt8
  | w32 => 0x45
  | w64 => 0x50

/-- The opcode of the first arithmetic instruction of a width. -/
def Width.firstArith : Width → UInt8
  | w32 => 0x67
  | w64 => 0x79

/-- The place of a comparison among the tests of its width. -/
def Comparison.place : Comparison → UInt8
  | eq => 1
  | ne => 2
  | lt .signed => 3
  | lt .unsigned => 4
  | gt .signed => 5
  | gt .unsigned => 6
  | le .signed => 7
  | le .unsigned => 8
  | ge .signed => 9
  | ge .unsigned => 10

/-- The place of an operator among the arithmetic instructions of its width. -/
def Arith.place : Arith → UInt8
  | add => 3
  | sub => 4
  | mul => 5
  | div .signed => 6
  | div .unsigned => 7
  | rem .signed => 8
  | rem .unsigned => 9
  | and => 10
  | or => 11
  | xor => 12
  | shl => 13
  | shr .signed => 14
  | shr .unsigned => 15
  | rotl => 16
  | rotr => 17

/-- The opcode that extends the low `bits` bits of an integer to its width. -/
def Width.signExtend? : Width → (bits : Nat) → Option UInt8
  | w32, 8 => some 0xC0
  | w32, 16 => some 0xC1
  | w64, 8 => some 0xC2
  | w64, 16 => some 0xC3
  | w64, 32 => some 0xC4
  | _, _ => none

/-- The opcode of an integer instruction. -/
def Numeric.byte? : Numeric → Option UInt8
  | .unary (.eqz w) => some w.firstTest
  | .unary (.clz w) => some w.firstArith
  | .unary (.ctz w) => some (w.firstArith + 1)
  | .unary (.popcnt w) => some (w.firstArith + 2)
  | .unary .wrap => some 0xA7
  | .unary (.extend .signed) => some 0xAC
  | .unary (.extend .unsigned) => some 0xAD
  | .unary (.signExtend w bits) => w.signExtend? bits
  | .binary (.compare w op) => some (w.firstTest + op.place)
  | .binary (.arith w op) => some (w.firstArith + op.place)

/-- The decoder's table has every integer instruction at its opcode. -/
theorem Numeric.ofByte?_of_byte? {op : Numeric} {byte : UInt8} (known : op.byte? = some byte) :
    Opcode.ofByte? byte = some (.numeric op) := by
  cases op with
  | unary op =>
    cases op with
    | eqz w | clz w | ctz w | popcnt w =>
      cases known
      cases w <;> rfl
    | wrap =>
      cases known
      rfl
    | extend sign =>
      cases sign with
      | signed | unsigned =>
        cases known
        rfl
    | signExtend w bits =>
      change w.signExtend? bits = some byte at known
      unfold Width.signExtend? at known
      split at known
      all_goals cases known
      all_goals rfl
  | binary op =>
    cases op with
    | compare w op =>
      cases known
      cases op with
      | eq | ne => cases w <;> rfl
      | lt sign | gt sign | le sign | ge sign => cases w <;> cases sign <;> rfl
    | arith w op =>
      cases known
      cases op with
      | add | sub | mul | and | or | xor | shl | rotl | rotr => cases w <;> rfl
      | div sign | rem sign | shr sign => cases w <;> cases sign <;> rfl

/-! ### Binary forms -/

/-- The bytes are a form of an instruction that has no instructions inside. -/
inductive Stmt.IsLeaf : List UInt8 → Stmt → Prop where
  | unreachable : IsLeaf [0x00] (.plain .unreachable)
  | nop : IsLeaf [0x01] (.plain .nop)
  | br {xs depth} (label : Leb128.IsUnsigned 32 xs depth) : IsLeaf (0x0C :: xs) (.br depth)
  | brIf {xs depth} (label : Leb128.IsUnsigned 32 xs depth) : IsLeaf (0x0D :: xs) (.brIf depth)
  | brTable {xs ys depths default} (labels : IsVector (Leb128.IsUnsigned 32) xs depths)
      (last : Leb128.IsUnsigned 32 ys default) :
      IsLeaf (0x0E :: (xs ++ ys)) (.brTable depths default)
  | ret : IsLeaf [0x0F] .ret
  | call {xs func} (index : Leb128.IsUnsigned 32 xs func) : IsLeaf (0x10 :: xs) (.call func)
  | callIndirect {xs ys type} (index : Leb128.IsUnsigned 32 xs type)
      (table : Leb128.IsUnsigned 32 ys 0) : IsLeaf (0x11 :: (xs ++ ys)) (.callIndirect type)
  | drop : IsLeaf [0x1A] (.plain .drop)
  | select : IsLeaf [0x1B] (.plain .select)
  | selectTyped {xs types}
      (stated : IsVector (fun bytes type => bytes = [ValType.byte type]) xs types) :
      IsLeaf (0x1C :: xs) (.plain .select)
  | localGet {xs i} (index : Leb128.IsUnsigned 32 xs i) : IsLeaf (0x20 :: xs) (.plain (.localGet i))
  | localSet {xs i} (index : Leb128.IsUnsigned 32 xs i) : IsLeaf (0x21 :: xs) (.plain (.localSet i))
  | localTee {xs i} (index : Leb128.IsUnsigned 32 xs i) : IsLeaf (0x22 :: xs) (.plain (.localTee i))
  | const32 {xs value} (number : Leb128.IsSigned 32 xs value) :
      IsLeaf (0x41 :: xs) (.plain (.const (Cell.ofBits (BitVec.ofInt 32 value))))
  | const64 {xs value} (number : Leb128.IsSigned 64 xs value) :
      IsLeaf (0x42 :: xs) (.plain (.const (Cell.ofBits (BitVec.ofInt 64 value))))
  | numeric {op byte} (known : op.byte? = some byte) : IsLeaf [byte] (.plain (.numeric op))

/-- The bytes are a form of a sequence of instructions. -/
inductive IsCode : List UInt8 → List Stmt → Prop where
  | nil : IsCode [] []
  | leaf {s stmts xs ys} (first : s.IsLeaf xs) (rest : IsCode ys stmts) :
      IsCode (xs ++ ys) (s :: stmts)
  | block {type body stmts header xs ys} (typed : BlockType.IsForm header type)
      (inside : IsCode xs body) (rest : IsCode ys stmts) :
      IsCode ((0x02 :: header) ++ (xs ++ 0x0B :: ys)) (.block type body :: stmts)
  | loop {type body stmts header xs ys} (typed : BlockType.IsForm header type)
      (inside : IsCode xs body) (rest : IsCode ys stmts) :
      IsCode ((0x03 :: header) ++ (xs ++ 0x0B :: ys)) (.loop type body :: stmts)
  | ifThen {type yes stmts header xs ys} (typed : BlockType.IsForm header type)
      (inside : IsCode xs yes) (rest : IsCode ys stmts) :
      IsCode ((0x04 :: header) ++ (xs ++ 0x0B :: ys)) (.ifElse type yes [] :: stmts)
  | ifElse {type yes no stmts header xs ys zs} (typed : BlockType.IsForm header type)
      (inside : IsCode xs yes) (other : IsCode ys no) (rest : IsCode zs stmts) :
      IsCode ((0x04 :: header) ++ (xs ++ 0x05 :: (ys ++ 0x0B :: zs))) (.ifElse type yes no :: stmts)

/-- The code of every function is a form of its body and the `end` behind it. -/
def Compiled (m : Module) (bodies : Nat → List Stmt) : Prop :=
  ∀ index func, m.funcs[index]? = some func →
    ∃ bytes, IsCode bytes (bodies index) ∧ func.body.code.toList = bytes ++ [0x0B]

/-- The form of a sequence is the form of its first instruction and that of the others. -/
theorem IsCode.uncons {bytes : List UInt8} {s : Stmt} {stmts : List Stmt}
    (form : IsCode bytes (s :: stmts)) :
    ∃ xs ys, bytes = xs ++ ys ∧ IsCode xs [s] ∧ IsCode ys stmts := by
  cases form with
  | @leaf _ _ xs ys first rest => exact ⟨xs ++ [], ys, by simp, .leaf first .nil, rest⟩
  | block typed inside rest => exact ⟨_, _, by simp, .block typed inside .nil, rest⟩
  | loop typed inside rest => exact ⟨_, _, by simp, .loop typed inside .nil, rest⟩
  | ifThen typed inside rest => exact ⟨_, _, by simp, .ifThen typed inside .nil, rest⟩
  | ifElse typed inside other rest =>
    exact ⟨_, _, by simp, .ifElse typed inside other .nil, rest⟩

/-! ### Decoding them -/

/-- The bytes are an opcode, and immediates that are read as those of the instruction. -/
inductive Decoded : List UInt8 → Opcode → Instr → Prop where
  | intro {byte xs opcode read instr} (known : Opcode.ofByte? byte = some opcode)
      (supported : opcode.instr? = some read) (reads : read.Reads xs instr) :
      Decoded (byte :: xs) opcode instr

/-- The opcode begins or ends a block or one of its arms. -/
def Opcode.delimits : Opcode → Bool
  | block | loop | ifThen | elseArm | endBlock => true
  | _ => false

/-- The instruction that the decoder gives for one that has no instructions inside. -/
def Stmt.instr? : Stmt → Option Instr
  | plain op => some (.plain op)
  | block _ _ | loop _ _ | ifElse _ _ _ => none
  | br depth => some (.br depth)
  | brIf depth => some (.brIf depth)
  | brTable depths default => some (.brTable depths.toArray default)
  | ret => some .ret
  | call func => some (.call func)
  | callIndirect type => some (.callIndirect type 0)

/-- The instruction reads a table of depths, which the machine does only above an operand. -/
def Instr.isTable : Instr → Bool
  | brTable _ _ => true
  | _ => false

theorem Decoded.instrAt {code : Bytes} {pos : Nat} {bytes : List UInt8} {opcode : Opcode}
    {instr : Instr} (decoded : Decoded bytes opcode instr) (written : BytesAt code pos bytes) :
    InstrAt code pos opcode (pos + bytes.length) := by
  obtain @⟨byte, xs, _, read, _, known, supported, reads⟩ := decoded
  refine ⟨⟨byte, written.1, known⟩, ?_⟩
  rw [Opcode.skip_eq_read supported, Reader.bind_ok (reads code (pos + 1) written.2)]
  simp only [List.length_cons, Reader.pure_apply]
  congr 2
  omega

theorem Decoded.endBlock : Decoded [0x0B] .endBlock .endBlock :=
  ⟨rfl, rfl, .pure _⟩

theorem Decoded.elseArm : Decoded [0x05] .elseArm .elseArm :=
  ⟨rfl, rfl, .pure _⟩

/-- The instruction that opens a block of a kind. -/
def LabelKind.instr : LabelKind → BlockType → Instr
  | block => .block
  | loop => .loop
  | cond => .ifThen

/-- The opcode byte of that instruction. -/
def LabelKind.byte : LabelKind → UInt8
  | block => 0x02
  | loop => 0x03
  | cond => 0x04

theorem Decoded.opener (kind : LabelKind) {header : List UInt8} {type : BlockType}
    (typed : BlockType.IsForm header type) :
    Decoded (kind.byte :: header) kind.opcode (kind.instr type) := by
  cases kind with
  | block | loop | cond => exact ⟨rfl, rfl, typed.reads.map (.pure _)⟩

/-- Every form of an instruction without instructions inside is decoded as that instruction. -/
theorem Stmt.IsLeaf.decoded {bytes : List UInt8} {s : Stmt} (leaf : s.IsLeaf bytes) :
    ∃ opcode instr, Decoded bytes opcode instr ∧ s.instr? = some instr ∧
      opcode.delimits = false ∧ (opcode = .brTable → instr.isTable = true) := by
  have u32 : ∀ {xs : List UInt8} {value : Nat}, Leb128.IsUnsigned 32 xs value →
      Leb128.u32.Reads xs value := fun form => form.reads (by decide) (by decide)
  cases leaf with
  | unreachable | nop | ret | drop | select => exact ⟨_, _, ⟨rfl, rfl, .pure _⟩, rfl, rfl, nofun⟩
  | br index | brIf index | call index | localGet index | localSet index | localTee index =>
    exact ⟨_, _, ⟨rfl, rfl, (u32 index).map (.pure _)⟩, rfl, rfl, nofun⟩
  | brTable labels last =>
    have vector := labels.reads fun xs depth form => u32 form
    exact ⟨_, _, ⟨rfl, rfl, vector.bind ((u32 last).map (.pure _))⟩, rfl, rfl, fun _ => rfl⟩
  | callIndirect index table =>
    exact ⟨_, _, ⟨rfl, rfl, (u32 index).bind ((u32 table).map (.pure _))⟩, rfl, rfl, nofun⟩
  | selectTyped stated =>
    have reads : ∀ (xs : List UInt8) (type : ValType), xs = [type.byte] →
        ValType.read.Reads xs type := by
      rintro xs type rfl
      exact type.reads
    exact ⟨_, _, ⟨rfl, rfl, (stated.reads reads).map (.pure _)⟩, rfl, rfl, nofun⟩
  | const32 number =>
    have reads : (Leb128.signed Width.w32.bits).Reads _ _ := number.reads (by decide) (by decide)
    exact ⟨.const .w32, _, ⟨rfl, rfl, reads.map (.pure _)⟩, rfl, rfl, nofun⟩
  | const64 number =>
    have reads : (Leb128.signed Width.w64.bits).Reads _ _ := number.reads (by decide) (by decide)
    exact ⟨.const .w64, _, ⟨rfl, rfl, reads.map (.pure _)⟩, rfl, rfl, nofun⟩
  | numeric known =>
    exact ⟨_, _, ⟨Numeric.ofByte?_of_byte? known, rfl, .pure _⟩, rfl, rfl, nofun⟩

/-! ### Scanning them -/

namespace IsCode

open BlockTargets

variable {code : Bytes} {pos : Nat} {bytes xs ys zs : List UInt8} {stmts yes no : List Stmt}

theorem scanBehind_of_not_delimits {onward : Nat → Option Nat → Except DecodeError BlockTargets}
    {opcode : Opcode} (inner : opcode.delimits = false) (depth : Nat) (elseAt : Option Nat)
    (pos : Nat) : scanBehind onward depth elseAt pos opcode = onward depth elseAt := by
  cases opcode with
  | block | loop | ifThen | elseArm | endBlock => cases inner
  | _ => rfl

/-- A scan passes over an opcode that opens a block, and then is one block deeper. -/
theorem scanAt_opener {kind : LabelKind} {instr : Instr}
    (decoded : Decoded bytes kind.opcode instr) (written : BytesAt code pos bytes) (depth : Nat)
    (elseAt : Option Nat) :
    scanAt code depth elseAt pos = scanAt code (depth + 1) elseAt (pos + bytes.length) := by
  rw [scanAt_of_instrAt (decoded.instrAt written)]
  cases kind <;> rfl

/-- A scan that is inside a block passes over its `end`. -/
theorem scanAt_end (written : BytesAt code pos (0x0B :: ys)) (depth : Nat) (elseAt : Option Nat) :
    scanAt code (depth + 1) elseAt pos = scanAt code depth elseAt (pos + 1) := by
  have stands : BytesAt code pos [0x0B] := ⟨written.1, trivial⟩
  rw [scanAt_of_instrAt (Decoded.endBlock.instrAt stands)]
  simp [scanBehind]

/-- A scan passes over the `else` of a block inside the one whose end is wanted. -/
theorem scanAt_else (written : BytesAt code pos (0x05 :: ys)) (depth : Nat) (elseAt : Option Nat) :
    scanAt code (depth + 1) elseAt pos = scanAt code (depth + 1) elseAt (pos + 1) := by
  have stands : BytesAt code pos [0x05] := ⟨written.1, trivial⟩
  rw [scanAt_of_instrAt (Decoded.elseArm.instrAt stands)]
  simp [scanBehind]

/-- A scan passes over a block when it passes over what is inside and behind. -/
theorem scanAt_enclosed (kind : LabelKind) {instr : Instr} {elseAt : Option Nat}
    (opener : Decoded bytes kind.opcode instr)
    (written : BytesAt code pos (bytes ++ (xs ++ 0x0B :: ys)))
    (inside : ∀ {pos}, BytesAt code pos xs → ∀ depth,
      scanAt code depth elseAt pos = scanAt code depth elseAt (pos + xs.length))
    (rest : ∀ {pos}, BytesAt code pos ys → ∀ depth,
      scanAt code depth elseAt pos = scanAt code depth elseAt (pos + ys.length)) (depth : Nat) :
    scanAt code depth elseAt pos =
      scanAt code depth elseAt (pos + (bytes ++ (xs ++ 0x0B :: ys)).length) := by
  obtain ⟨here, behind⟩ := BytesAt.append_iff.mp written
  obtain ⟨middle, ending⟩ := BytesAt.append_iff.mp behind
  rw [scanAt_opener opener here, inside middle, scanAt_end ending, rest ending.2]
  congr 1
  simp only [List.length_append, List.length_cons]
  omega

/-- A scan passes over a complete sequence of instructions. -/
theorem scanAt_eq (form : IsCode bytes stmts) (written : BytesAt code pos bytes) (depth : Nat)
    (elseAt : Option Nat) :
    scanAt code depth elseAt pos = scanAt code depth elseAt (pos + bytes.length) := by
  induction form generalizing pos depth with
  | nil => rfl
  | @leaf s stmts xs ys first rest ih =>
    obtain ⟨here, behind⟩ := BytesAt.append_iff.mp written
    obtain ⟨opcode, instr, decoded, -, inner, -⟩ := first.decoded
    rw [scanAt_of_instrAt (decoded.instrAt here), scanBehind_of_not_delimits inner, ih behind,
      List.length_append, Nat.add_assoc]
  | block typed _ _ ihInside ihRest =>
    exact scanAt_enclosed .block (.opener .block typed) written ihInside ihRest depth
  | loop typed _ _ ihInside ihRest =>
    exact scanAt_enclosed .loop (.opener .loop typed) written ihInside ihRest depth
  | ifThen typed _ _ ihInside ihRest =>
    exact scanAt_enclosed .cond (.opener .cond typed) written ihInside ihRest depth
  | @ifElse type yes no stmts header xs ys zs typed inside other rest ihInside ihOther ihRest =>
    obtain ⟨here, behind⟩ := BytesAt.append_iff.mp written
    obtain ⟨middle, between⟩ := BytesAt.append_iff.mp behind
    obtain ⟨second, ending⟩ := BytesAt.append_iff.mp between.2
    have opener : Decoded (0x04 :: header) _ _ := .opener .cond typed
    rw [scanAt_opener opener here, ihInside middle, scanAt_else between, ihOther second,
      scanAt_end ending, ihRest ending.2]
    congr 1
    simp only [List.length_append, List.length_cons]
    omega

/-- The scan of a block without `else` ends at the `end` behind its instructions. -/
theorem scan_block (form : IsCode xs yes) (written : BytesAt code pos (xs ++ 0x0B :: ys)) :
    scan code pos = .ok { elseAt := none, endAt := pos + xs.length } := by
  obtain ⟨inside, ending⟩ := BytesAt.append_iff.mp written
  have stands : BytesAt code (pos + xs.length) [0x0B] := ⟨ending.1, trivial⟩
  change scanAt code 0 none pos = _
  rw [form.scanAt_eq inside, scanAt_of_instrAt (Decoded.endBlock.instrAt stands)]
  rfl

/-- The scan of an `if` with two arms finds the `else` between them. -/
theorem scan_ifElse (form : IsCode xs yes) (other : IsCode ys no)
    (written : BytesAt code pos (xs ++ 0x05 :: (ys ++ 0x0B :: zs))) :
    scan code pos =
      .ok { elseAt := some (pos + xs.length), endAt := pos + xs.length + 1 + ys.length } := by
  obtain ⟨inside, between⟩ := BytesAt.append_iff.mp written
  obtain ⟨second, ending⟩ := BytesAt.append_iff.mp between.2
  have atElse : BytesAt code (pos + xs.length) [0x05] := ⟨between.1, trivial⟩
  have atEnd : BytesAt code (pos + xs.length + 1 + ys.length) [0x0B] := ⟨ending.1, trivial⟩
  have armed : scanAt code 0 none (pos + xs.length) =
      scanAt code 0 (some (pos + xs.length)) (pos + xs.length + 1) := by
    rw [scanAt_of_instrAt (Decoded.elseArm.instrAt atElse)]
    rfl
  change scanAt code 0 none pos = _
  rw [form.scanAt_eq inside, armed, other.scanAt_eq second,
    scanAt_of_instrAt (Decoded.endBlock.instrAt atEnd)]
  rfl

end IsCode

end Wasm
