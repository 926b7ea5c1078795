import Wasm.Instr.Nesting
import Wasm.Machine.Step
import Wasm.Proofs.Binary.Locality

/-!
The instructions of a body and the blocks open between them.

A body is a sequence of bytes; its instructions are found by walking from offset zero, reading one
opcode and skipping its immediates. `Boundary code pos opens` says that the walk comes to `pos` with
exactly the blocks `opens` begun and not yet ended, innermost first. `Opener.ClosedAt` says which
`end` belongs to a block: the first one, walking on from the block's opcode, that is not taken by a
block inside it.

* `Boundary.le_size`: boundaries lie inside the code;
* `Boundary.unique`: an offset determines the blocks that are open there;
* `Boundary.opener`: an open block was opened at its offset, inside the blocks around it;
* `Boundary.behind_closed`: behind its `end`, exactly the blocks around it are open;
* `BlockTargets.scanAt_of_instrAt`: what a scan does at an instruction, without its fuel;
* `BlockTargets.scan_spec`: a scan from the first instruction of a block finds the `end` that
  belongs to it, and an `else` directly inside it;
* `BlockTargets.le_of_scan`: neither lies before that instruction;
* `Opcode.Decodes.reads`: which instructions an opcode can stand for;
* `fetch_spec`: the machine reads the instruction that the walk sees, and goes on where the walk
  goes on;
* `fetch_of_read`: it reads every instruction that can be read there.
-/

namespace Wasm

/-! ### Instructions in code -/

/-- An opcode stands at an offset. -/
def OpcodeAt (code : Bytes) (pos : Nat) (opcode : Opcode) : Prop :=
  ∃ byte, code[pos]? = some byte ∧ Opcode.ofByte? byte = some opcode

/-- An instruction stands at an offset, and the next one behind its immediates. -/
structure InstrAt (code : Bytes) (pos : Nat) (opcode : Opcode) (next : Nat) : Prop where
  stands : OpcodeAt code pos opcode
  skipped : opcode.shape.skip code (pos + 1) = .ok ((), next)

namespace InstrAt

variable {code : Bytes} {pos next : Nat} {opcode : Opcode}

theorem pos_lt (instr : InstrAt code pos opcode next) : pos < code.size := by
  obtain ⟨byte, found, -⟩ := instr.stands
  exact (Array.getElem?_eq_some_iff.mp found).1

theorem lt_next (instr : InstrAt code pos opcode next) : pos < next :=
  ((Shape.local_skip _).bounded _ _ _ _ instr.skipped instr.pos_lt).1

theorem next_le (instr : InstrAt code pos opcode next) : next ≤ code.size :=
  ((Shape.local_skip _).bounded _ _ _ _ instr.skipped instr.pos_lt).2

theorem unique {opcode' : Opcode} {next' : Nat} (instr : InstrAt code pos opcode next)
    (again : InstrAt code pos opcode' next') : opcode = opcode' ∧ next = next' := by
  obtain ⟨⟨byte, found, known⟩, skipped⟩ := instr
  obtain ⟨⟨byte', found', known'⟩, skipped'⟩ := again
  obtain rfl : byte = byte' := Option.some.inj (found.symm.trans found')
  obtain rfl : opcode = opcode' := Option.some.inj (known.symm.trans known')
  cases skipped.symm.trans skipped'
  exact ⟨rfl, rfl⟩

end InstrAt

/-! ### Open blocks -/

/-- A block that is open: its kind and the offset of its opcode. -/
structure Opener where
  kind : LabelKind
  offset : Nat
  deriving DecidableEq, Repr

/-- The opcode that opens a block of a kind. -/
def LabelKind.opcode : LabelKind → Opcode
  | .block => .block
  | .loop => .loop
  | .cond => .ifThen

/-- The blocks open behind an instruction at `pos`, given those open before it. -/
def Opcode.nest (opcode : Opcode) (pos : Nat) (opens : List Opener) : List Opener :=
  match opcode with
  | .block => ⟨.block, pos⟩ :: opens
  | .loop => ⟨.loop, pos⟩ :: opens
  | .ifThen => ⟨.cond, pos⟩ :: opens
  | .endBlock => opens.tail
  | _ => opens

/-- Walking the code from its start leads to `pos`, with the blocks `opens` open there. -/
inductive Boundary (code : Bytes) : Nat → List Opener → Prop where
  | start : Boundary code 0 []
  | next {pos opens opcode after} (before : Boundary code pos opens)
      (instr : InstrAt code pos opcode after) :
      Boundary code after (opcode.nest pos opens)

namespace Boundary

variable {code : Bytes} {pos : Nat} {opens : List Opener}

theorem le_size (boundary : Boundary code pos opens) : pos ≤ code.size := by
  cases boundary with
  | start => exact Nat.zero_le _
  | next _ instr => exact instr.next_le

/-- Where an open block was opened, the walk had come with the blocks around it. -/
theorem opener {inner outer : List Opener} {o : Opener} (boundary : Boundary code pos opens)
    (split : opens = inner ++ o :: outer) : Boundary code o.offset outer := by
  induction boundary generalizing inner with
  | start => simp at split
  | @next pos opens opcode after before instr ih =>
    have opened : ∀ kind, ⟨kind, pos⟩ :: opens = inner ++ o :: outer →
        Boundary code o.offset outer := by
      intro kind same
      cases inner with
      | nil =>
        obtain ⟨rfl, rfl⟩ := List.cons.inj same
        exact before
      | cons first inner => exact ih (List.cons.inj same).2
    cases opcode with
    | block => exact opened _ split
    | loop => exact opened _ split
    | ifThen => exact opened _ split
    | endBlock =>
      cases opens with
      | nil => simp [Opcode.nest] at split
      | cons closed opens =>
        have same : closed :: opens = (closed :: inner) ++ o :: outer := by
          rw [List.cons_append, ← split]
          rfl
        exact ih same
    | _ => exact ih split

/-- The walk does not come to an offset inside an instruction that it has read. -/
theorem not_inside {p q after : Nat} {outer inner : List Opener} {opcode : Opcode}
    (first : Boundary code p outer) (second : Boundary code q inner)
    (instr : InstrAt code p opcode after) : q ≤ p ∨ after ≤ q := by
  -- The instruction that leads to `q` starts earlier; when it starts before `p` the roles change.
  induction size : p + q using Nat.strongRecOn generalizing p q after outer inner opcode with
  | _ size ih =>
    subst size
    cases second with
    | start => exact .inl (Nat.zero_le p)
    | @next q' opens' opcode' _ before led =>
      have shorter := led.lt_next
      rcases ih (p + q') (by omega) first before instr rfl with upto | behind
      · rcases Nat.lt_or_eq_of_le upto with lower | rfl
        · rcases ih (q' + p) (by omega) before first led rfl with upto | behind
          · omega
          · exact .inl behind
        · exact .inr (Nat.le_of_eq (instr.unique led).2)
      · omega

/-- The walk comes to an offset once, so the blocks that are open there are determined. -/
theorem unique {opens' : List Opener} (boundary : Boundary code pos opens)
    (again : Boundary code pos opens') : opens = opens' := by
  induction boundary generalizing opens' with
  | start =>
    generalize zero : 0 = pos at again
    cases again with
    | start => rfl
    | next _ led =>
      have positive := led.lt_next
      omega
  | @next p opens opcode after before led ih =>
    have lower := led.lt_next
    cases again with
    | start => omega
    | @next p' opens' opcode' _ before' led' =>
      have lower' := led'.lt_next
      have forth := before.not_inside before' led
      have back := before'.not_inside before led'
      obtain rfl : p = p' := by omega
      rw [ih before', (led.unique led').1]

end Boundary

/-! ### The end that belongs to a block -/

/-- From `pos`, inside `depth` further blocks of the one in question, the walk comes to the `end` of
that one at `endAt`. -/
inductive Closes (code : Bytes) : (depth pos endAt : Nat) → Prop where
  | close {pos next} (instr : InstrAt code pos .endBlock next) : Closes code 0 pos pos
  | leave {depth pos next endAt} (instr : InstrAt code pos .endBlock next)
      (rest : Closes code depth next endAt) : Closes code (depth + 1) pos endAt
  | enter {kind depth pos next endAt} (instr : InstrAt code pos (LabelKind.opcode kind) next)
      (rest : Closes code (depth + 1) next endAt) : Closes code depth pos endAt
  | pass {opcode depth pos next endAt} (instr : InstrAt code pos opcode next)
      (flat : ∀ pos opens, opcode.nest pos opens = opens) (rest : Closes code depth next endAt) :
      Closes code depth pos endAt

/-- The `end` at `endAt` belongs to the block that is opened at `o`. -/
def Opener.ClosedAt (code : Bytes) (o : Opener) (endAt : Nat) : Prop :=
  ∃ start, InstrAt code o.offset o.kind.opcode start ∧ Closes code 0 start endAt

namespace Boundary

variable {code : Bytes} {pos : Nat} {opens : List Opener}

theorem behind_opener {kind : LabelKind} {next : Nat} (boundary : Boundary code pos opens)
    (instr : InstrAt code pos kind.opcode next) : Boundary code next (⟨kind, pos⟩ :: opens) := by
  cases kind with
  | block => exact boundary.next instr
  | loop => exact boundary.next instr
  | cond => exact boundary.next instr

/-- Behind its `end`, a block is no longer open. -/
theorem behind_end {o : Opener} (boundary : Boundary code pos (o :: opens))
    (stands : OpcodeAt code pos .endBlock) : Boundary code (pos + 1) opens := by
  have instr : InstrAt code pos .endBlock (pos + 1) := ⟨stands, rfl⟩
  exact boundary.next instr

/-- An `else` leaves the open blocks as they are. -/
theorem behind_else (boundary : Boundary code pos opens)
    (stands : OpcodeAt code pos .elseArm) : Boundary code (pos + 1) opens := by
  have instr : InstrAt code pos .elseArm (pos + 1) := ⟨stands, rfl⟩
  exact boundary.next instr

/-- The walk comes to the `end` of a block with that block innermost. -/
theorem at_end {depth endAt : Nat} {inner : List Opener} {o : Opener}
    (boundary : Boundary code pos (inner ++ o :: opens)) (closes : Closes code depth pos endAt)
    (deep : inner.length = depth) :
    Boundary code endAt (o :: opens) ∧ OpcodeAt code endAt .endBlock := by
  induction closes generalizing inner with
  | close instr =>
    obtain rfl := List.length_eq_zero_iff.mp deep
    exact ⟨boundary, instr.stands⟩
  | leave instr _ ih =>
    cases inner with
    | nil => cases deep
    | cons closed inner => exact ih (boundary.next instr) (Nat.succ.inj deep)
  | @enter kind depth pos next endAt instr _ ih =>
    have behind : Boundary code next ((⟨kind, pos⟩ :: inner) ++ o :: opens) :=
      boundary.behind_opener instr
    exact ih behind (congrArg (· + 1) deep)
  | pass instr flat _ ih =>
    have behind := boundary.next instr
    rw [flat] at behind
    exact ih behind deep

/-- The walk comes to the `end` that belongs to an open block with that block innermost. -/
theorem at_closed {inner outer : List Opener} {o : Opener} {endAt : Nat}
    (boundary : Boundary code pos (inner ++ o :: outer)) (closed : o.ClosedAt code endAt) :
    Boundary code endAt (o :: outer) ∧ OpcodeAt code endAt .endBlock := by
  obtain ⟨start, instr, closes⟩ := closed
  have inside : Boundary code start ([] ++ o :: outer) :=
    (boundary.opener rfl).behind_opener instr
  exact inside.at_end closes rfl

/-- Behind the `end` of an open block, exactly the blocks around it are open. -/
theorem behind_closed {inner outer : List Opener} {o : Opener} {endAt : Nat}
    (boundary : Boundary code pos (inner ++ o :: outer)) (closed : o.ClosedAt code endAt) :
    Boundary code (endAt + 1) outer := by
  obtain ⟨atEnd, stands⟩ := boundary.at_closed closed
  exact atEnd.behind_end stands

end Boundary

/-! ### Scanning for the end of a block -/

namespace BlockTargets

variable {code : Bytes}

/-- How a scan goes on behind the instruction at `pos`, where `onward` scans on from the next. -/
def scanBehind (onward : Nat → Option Nat → Except DecodeError BlockTargets) (depth : Nat)
    (elseAt : Option Nat) (pos : Nat) : Opcode → Except DecodeError BlockTargets
  | .block | .loop | .ifThen => onward (depth + 1) elseAt
  | .elseArm => onward depth (if depth = 0 then some pos else elseAt)
  | .endBlock => if depth = 0 then .ok { elseAt, endAt := pos } else onward (depth - 1) elseAt
  | _ => onward depth elseAt

theorem scanFrom_of_instrAt {pos next : Nat} {opcode : Opcode}
    (instr : InstrAt code pos opcode next) (fuel depth : Nat) (elseAt : Option Nat) :
    scanFrom code (fuel + 1) depth elseAt pos =
      scanBehind (fun depth elseAt => scanFrom code fuel depth elseAt next) depth elseAt pos
        opcode := by
  obtain ⟨⟨byte, found, known⟩, skipped⟩ := instr
  conv =>
    lhs
    unfold scanFrom
  simp only [Reader.byte_of_found found, known, skipped]
  cases opcode with
  | elseArm => cases depth <;> rfl
  | endBlock => cases depth <;> rfl
  | _ => rfl

/-- Where no instruction stands, every scan fails in the same way. -/
theorem scanFrom_of_no_instr {pos : Nat} (none : ¬ ∃ opcode next, InstrAt code pos opcode next) :
    ∃ e, ∀ fuel depth elseAt, scanFrom code (fuel + 1) depth elseAt pos = .error e := by
  cases read : Reader.byte code pos with
  | error e =>
    refine ⟨e, fun fuel depth elseAt => ?_⟩
    unfold scanFrom
    simp only [read]
  | ok result =>
    obtain ⟨byte, next⟩ := result
    obtain ⟨stands, rfl⟩ := Reader.byte_eq_ok_iff.mp read
    cases known : Opcode.ofByte? byte with
    | none =>
      refine ⟨.malformed pos .illegalOpcode, fun fuel depth elseAt => ?_⟩
      unfold scanFrom
      simp only [read, known]
    | some opcode =>
      cases skipped : opcode.shape.skip code (pos + 1) with
      | error e =>
        refine ⟨e, fun fuel depth elseAt => ?_⟩
        unfold scanFrom
        simp only [read, known, skipped]
      | ok result => exact absurd ⟨opcode, result.2, ⟨byte, stands, known⟩, skipped⟩ none

theorem instrAt_of_scanFrom {fuel depth pos : Nat} {elseAt : Option Nat} {found : BlockTargets}
    (scanned : scanFrom code fuel depth elseAt pos = .ok found) :
    ∃ opcode next, InstrAt code pos opcode next := by
  cases fuel with
  | zero => cases scanned
  | succ fuel =>
    by_cases some : ∃ opcode next, InstrAt code pos opcode next
    · exact some
    · obtain ⟨e, fails⟩ := scanFrom_of_no_instr some
      rw [fails] at scanned
      cases scanned

theorem scanFrom_of_size_le {pos : Nat} (outside : code.size ≤ pos) (fuel depth : Nat)
    (elseAt : Option Nat) : scanFrom code fuel depth elseAt pos = .error (.unexpectedEnd pos) := by
  cases fuel with
  | zero => rfl
  | succ fuel => simp [scanFrom, Reader.byte, Nat.not_lt.mpr outside]

/-- Fuel beyond the bytes that are left makes no difference. -/
theorem scanFrom_fuel {fuel fuel' depth pos : Nat} {elseAt : Option Nat}
    (enough : code.size - pos ≤ fuel) (enough' : code.size - pos ≤ fuel') :
    scanFrom code fuel depth elseAt pos = scanFrom code fuel' depth elseAt pos := by
  induction fuel generalizing fuel' depth elseAt pos with
  | zero => rw [scanFrom_of_size_le (by omega), scanFrom_of_size_le (by omega)]
  | succ fuel ih =>
    cases fuel' with
    | zero => rw [scanFrom_of_size_le (by omega), scanFrom_of_size_le (by omega)]
    | succ fuel' =>
      by_cases some : ∃ opcode next, InstrAt code pos opcode next
      · obtain ⟨opcode, next, instr⟩ := some
        have forwards := instr.lt_next
        have onward : ∀ depth elseAt, scanFrom code fuel depth elseAt next =
            scanFrom code fuel' depth elseAt next := by
          intro depth elseAt
          apply ih
          · omega
          · omega
        rw [scanFrom_of_instrAt instr, scanFrom_of_instrAt instr]
        simp only [onward]
      · obtain ⟨e, fails⟩ := scanFrom_of_no_instr some
        rw [fails, fails]

/-- A scan with fuel for all the bytes that are left. -/
def scanAt (code : Bytes) (depth : Nat) (elseAt : Option Nat) (pos : Nat) :
    Except DecodeError BlockTargets :=
  scanFrom code (code.size - pos) depth elseAt pos

theorem scanAt_of_instrAt {pos next : Nat} {opcode : Opcode} (instr : InstrAt code pos opcode next)
    (depth : Nat) (elseAt : Option Nat) :
    scanAt code depth elseAt pos =
      scanBehind (fun depth elseAt => scanAt code depth elseAt next) depth elseAt pos opcode := by
  have inside := instr.pos_lt
  have forwards := instr.lt_next
  obtain ⟨fuel, left⟩ : ∃ fuel, code.size - pos = fuel + 1 := ⟨code.size - pos - 1, by omega⟩
  have onward : ∀ depth elseAt, scanFrom code fuel depth elseAt next =
      scanAt code depth elseAt next := by
    intro depth elseAt
    exact scanFrom_fuel (by omega) (Nat.le_refl _)
  rw [scanAt, left, scanFrom_of_instrAt instr]
  simp only [onward]

/-- What a scan that succeeds has found, when it starts inside `inner` further blocks of the one
opened by `o`: the `end` of that one, and an `else` reached with it innermost. -/
theorem scanFrom_spec {fuel pos : Nat} {elseAt : Option Nat} {found : BlockTargets}
    {inner opens : List Opener} {o : Opener}
    (scanned : scanFrom code fuel inner.length elseAt pos = .ok found)
    (boundary : Boundary code pos (inner ++ o :: opens))
    (arm : ∀ e, elseAt = some e → Boundary code e (o :: opens) ∧ OpcodeAt code e .elseArm) :
    Closes code inner.length pos found.endAt ∧
      ∀ e, found.elseAt = some e → Boundary code e (o :: opens) ∧ OpcodeAt code e .elseArm := by
  induction fuel generalizing inner elseAt pos with
  | zero => cases scanned
  | succ fuel ih =>
    obtain ⟨opcode, next, instr⟩ := instrAt_of_scanFrom scanned
    have behind := boundary.next instr
    rw [scanFrom_of_instrAt instr] at scanned
    have deeper : ∀ kind, InstrAt code pos (LabelKind.opcode kind) next →
        scanFrom code fuel (inner.length + 1) elseAt next = .ok found →
        Closes code inner.length pos found.endAt ∧
          ∀ e, found.elseAt = some e →
            Boundary code e (o :: opens) ∧ OpcodeAt code e .elseArm := by
      intro kind instr scanned
      have inside : Boundary code next ((⟨kind, pos⟩ :: inner) ++ o :: opens) :=
        boundary.behind_opener instr
      have onward : scanFrom code fuel (⟨kind, pos⟩ :: inner).length elseAt next = .ok found :=
        scanned
      obtain ⟨closes, arms⟩ := ih onward inside arm
      exact ⟨Closes.enter instr closes, arms⟩
    -- Only the three openers, `else` and `end` change what the scan keeps.
    cases opcode with
    | block => exact deeper .block instr scanned
    | loop => exact deeper .loop instr scanned
    | ifThen => exact deeper .cond instr scanned
    | elseArm =>
      have last : ∀ e, (if inner.length = 0 then some pos else elseAt) = some e →
          Boundary code e (o :: opens) ∧ OpcodeAt code e .elseArm := by
        intro e same
        cases inner with
        | nil =>
          cases same
          exact ⟨boundary, instr.stands⟩
        | cons first inner => exact arm e same
      obtain ⟨closes, arms⟩ := ih scanned behind last
      exact ⟨.pass instr (fun _ _ => rfl) closes, arms⟩
    | endBlock =>
      cases inner with
      | nil =>
        cases scanned
        exact ⟨.close instr, arm⟩
      | cons closed inner =>
        obtain ⟨closes, arms⟩ := ih scanned behind arm
        exact ⟨.leave instr closes, arms⟩
    | _ =>
      obtain ⟨closes, arms⟩ := ih scanned behind arm
      exact ⟨.pass instr (fun _ _ => rfl) closes, arms⟩

/-- A scan from the first instruction of the block opened by `o` finds the `end` that belongs to it
and, if any, an `else` directly inside it. -/
theorem scan_spec {start : Nat} {found : BlockTargets} {opens : List Opener} {o : Opener}
    (scanned : scan code start = .ok found) (boundary : Boundary code start (o :: opens)) :
    Closes code 0 start found.endAt ∧
      ∀ e, found.elseAt = some e → Boundary code e (o :: opens) ∧ OpcodeAt code e .elseArm := by
  have outermost : scanFrom code (code.size - start) (List.length ([] : List Opener)) none start =
      .ok found := scanned
  exact scanFrom_spec outermost boundary (fun _ none => by cases none)

theorem le_of_scanFrom {fuel depth pos : Nat} {elseAt : Option Nat} {found : BlockTargets}
    (scanned : scanFrom code fuel depth elseAt pos = .ok found) :
    pos ≤ found.endAt ∧ ∀ e, found.elseAt = some e → elseAt = some e ∨ pos ≤ e := by
  induction fuel generalizing depth elseAt pos with
  | zero => cases scanned
  | succ fuel ih =>
    obtain ⟨opcode, next, instr⟩ := instrAt_of_scanFrom scanned
    have forwards := instr.lt_next
    rw [scanFrom_of_instrAt instr] at scanned
    have onward : ∀ depth, scanFrom code fuel depth elseAt next = .ok found →
        pos ≤ found.endAt ∧ ∀ e, found.elseAt = some e → elseAt = some e ∨ pos ≤ e := by
      intro depth scanned
      obtain ⟨ending, arms⟩ := ih scanned
      refine ⟨by omega, ?_⟩
      intro e arm
      rcases arms e arm with before | behind
      · exact .inl before
      · exact .inr (by omega)
    cases opcode with
    | elseArm =>
      obtain ⟨ending, arms⟩ := ih scanned
      refine ⟨by omega, ?_⟩
      intro e arm
      rcases arms e arm with before | behind
      · split at before
        · cases before
          exact .inr (Nat.le_refl _)
        · exact .inl before
      · exact .inr (by omega)
    | endBlock =>
      simp only [scanBehind] at scanned
      split at scanned
      · cases scanned
        exact ⟨Nat.le_refl _, fun e arm => .inl arm⟩
      · exact onward _ scanned
    | _ => exact onward _ scanned

/-- The targets of a block lie at or behind its first instruction. -/
theorem le_of_scan {start : Nat} {found : BlockTargets} (scanned : scan code start = .ok found) :
    start ≤ found.endAt ∧ ∀ e, found.elseAt = some e → start ≤ e := by
  obtain ⟨ending, arms⟩ := le_of_scanFrom scanned
  refine ⟨ending, ?_⟩
  intro e arm
  rcases arms e arm with none | behind
  · cases none
  · exact behind

end BlockTargets

/-! ### The instruction that the machine reads -/

/-- The blocks open behind a decoded instruction at `pos`, given those open before it. -/
def Instr.nest (instr : Instr) (pos : Nat) (opens : List Opener) : List Opener :=
  match instr with
  | .block _ => ⟨.block, pos⟩ :: opens
  | .loop _ => ⟨.loop, pos⟩ :: opens
  | .ifThen _ => ⟨.cond, pos⟩ :: opens
  | .endBlock => opens.tail
  | _ => opens

/-- Some bytes behind the opcode make it the given instruction. -/
def Opcode.Decodes (opcode : Opcode) (instr : Instr) : Prop :=
  ∃ read bytes pos next, opcode.instr? = some read ∧ read bytes pos = .ok (instr, next)

namespace Opcode

/-- Reading immediates and skipping them use the same bytes. -/
theorem skip_eq_read {opcode : Opcode} {read : Reader Instr} (known : opcode.instr? = some read) :
    opcode.shape.skip = (do let _ ← read) := by
  cases opcode with
  | other shape => cases known
  | const w =>
    cases known
    cases w with
    | w32 => simp [shape, Shape.skip, Leb128.i32, Width.bits]
    | w64 => simp [shape, Shape.skip, Leb128.i64, Width.bits]
  | _ =>
    cases known
    simp [shape, Shape.skip]

/-- The instructions that an opcode can stand for. -/
def Reads : Opcode → Instr → Prop
  | .block, instr => ∃ type, instr = .block type
  | .loop, instr => ∃ type, instr = .loop type
  | .ifThen, instr => ∃ type, instr = .ifThen type
  | .elseArm, instr => instr = .elseArm
  | .endBlock, instr => instr = .endBlock
  | .br, instr => ∃ depth, instr = .br depth
  | .brIf, instr => ∃ depth, instr = .brIf depth
  | .brTable, instr => ∃ depths default, instr = .brTable depths default
  | .ret, instr => instr = .ret
  | .call, instr => ∃ func, instr = .call func
  | .callIndirect, instr => ∃ type table, instr = .callIndirect type table
  | .other _, _ => False
  | _, instr => ∃ op, instr = .plain op

theorem Decodes.reads {opcode : Opcode} {instr : Instr} (decodes : opcode.Decodes instr) :
    opcode.Reads instr := by
  obtain ⟨read, bytes, pos, next, known, result⟩ := decodes
  cases opcode with
  | elseArm | endBlock | ret =>
    cases known
    cases result
    rfl
  | unreachable | nop | drop | select | numeric op =>
    cases known
    cases result
    exact ⟨_, rfl⟩
  | block | loop | ifThen | br | brIf | call | selectTyped | localGet | localSet | localTee
  | const w =>
    cases known
    obtain ⟨immediate, after, -, result⟩ := Reader.bind_eq_ok_iff.mp result
    cases result
    exact ⟨_, rfl⟩
  | brTable | callIndirect =>
    cases known
    obtain ⟨first, middle, -, result⟩ := Reader.bind_eq_ok_iff.mp result
    obtain ⟨second, after, -, result⟩ := Reader.bind_eq_ok_iff.mp result
    cases result
    exact ⟨_, _, rfl⟩
  | other shape => cases known

/-- A decoded instruction opens and closes the blocks that its opcode opens and closes. -/
theorem Decodes.nest_eq {opcode : Opcode} {instr : Instr} (decodes : opcode.Decodes instr) :
    opcode.nest = instr.nest := by
  have reads := decodes.reads
  cases opcode with
  | elseArm | endBlock | ret =>
    cases reads
    rfl
  | brTable | callIndirect =>
    obtain ⟨first, second, rfl⟩ := reads
    rfl
  | other shape => cases reads
  | _ =>
    obtain ⟨immediate, rfl⟩ := reads
    rfl

/-- Only the opcode of a kind of block opens one of that kind. -/
theorem Decodes.opcode_eq {opcode : Opcode} {instr : Instr} {kind : LabelKind}
    (decodes : opcode.Decodes instr) (opens : instr.nest 0 [] = [⟨kind, 0⟩]) :
    opcode = kind.opcode := by
  rw [← decodes.nest_eq] at opens
  cases opcode with
  | block | loop | ifThen =>
    cases opens
    rfl
  | _ => cases opens

end Opcode

theorem Module.code_of_known {m : Module} {index : Nat} {func : Func}
    (known : m.funcs[index]? = some func) : m.code index = func.body.code := by
  unfold code
  rw [known]

/-- The machine reads the instruction at its offset, and goes on behind it; behind the last
instruction it returns. -/
theorem fetch_spec {m : Module} {height : Nat} {frame : Frame} {fetched : Fetched}
    (fetches : fetch m height frame = .ok fetched) :
    (m.code frame.func)[frame.ip]? = none ∧ fetched.instr = .ret ∨
      ∃ opcode, InstrAt (m.code frame.func) frame.ip opcode fetched.next ∧
        opcode.Decodes fetched.instr := by
  unfold fetch at fetches
  cases known : m.funcs[frame.func]? with
  | none => simp [known] at fetches
  | some func =>
    simp only [known] at fetches
    rw [Module.code_of_known known]
    cases found : func.body.code[frame.ip]? with
    | none =>
      simp only [found] at fetches
      cases fetches
      exact .inl ⟨rfl, rfl⟩
    | some byte =>
      simp only [found] at fetches
      cases opcodeKnown : Opcode.ofByte? byte with
      | none => simp [opcodeKnown] at fetches
      | some opcode =>
        simp only [opcodeKnown] at fetches
        cases supported : opcode.instr? with
        | none => simp [supported] at fetches
        | some read =>
          simp only [supported] at fetches
          split at fetches
          · cases fetches
          cases result : read func.body.code (frame.ip + 1) with
          | error e => simp [result] at fetches
          | ok value =>
            obtain ⟨instr, next⟩ := value
            simp only [result] at fetches
            have same : fetched.instr = instr ∧ fetched.next = next := by
              split at fetches
              · obtain ⟨arity, -, rfl⟩ := except_map_eq_ok_iff.mp fetches
                exact ⟨rfl, rfl⟩
              · obtain ⟨arity, -, rfl⟩ := except_map_eq_ok_iff.mp fetches
                exact ⟨rfl, rfl⟩
              · obtain ⟨arity, -, rfl⟩ := except_map_eq_ok_iff.mp fetches
                exact ⟨rfl, rfl⟩
              · cases fetches
                exact ⟨rfl, rfl⟩
            obtain ⟨rfl, rfl⟩ := same
            refine .inr ⟨opcode, ⟨⟨byte, found, opcodeKnown⟩, ?_⟩, read, _, _, _, supported, result⟩
            rw [Opcode.skip_eq_read supported, Reader.bind_ok result]
            rfl

/-- What is fetched when an instruction has been read: with its arity, if it opens a block. -/
def Instr.fetched (m : Module) (instr : Instr) (next : Nat) : Except Error Fetched :=
  match instr with
  | .block type | .loop type | .ifThen type =>
    (m.blockArity type).map fun arity => { instr, next, arity }
  | _ => .ok { instr, next, arity := 0 }

/-- The machine reads what the bytes behind an opcode that can be run say. Only the index of a
`br_table` has to be there before. -/
theorem fetch_of_read {m : Module} {height next : Nat} {frame : Frame} {func : Func}
    {opcode : Opcode} {read : Reader Instr} {instr : Instr}
    (known : m.funcs[frame.func]? = some func) (stands : OpcodeAt func.body.code frame.ip opcode)
    (supported : opcode.instr? = some read)
    (result : read func.body.code (frame.ip + 1) = .ok (instr, next))
    (room : opcode = .brTable → frame.operandBase < height) :
    fetch m height frame = instr.fetched m next := by
  obtain ⟨byte, found, opcodeKnown⟩ := stands
  have high : ¬ (opcode = .brTable ∧ height ≤ frame.operandBase) := by
    rintro ⟨table, low⟩
    exact Nat.not_lt.mpr low (room table)
  simp only [fetch, known, found, opcodeKnown, supported, if_neg high, result]
  cases instr <;> rfl

end Wasm
