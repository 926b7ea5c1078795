import Wasm.Proofs.Structured.Syntax
import Wasm.Proofs.Validation.Discipline

/-!
What a scan finds in valid code.

The machine looks for the `else` and the `end` of a block by walking over its instructions, without
knowing about heights and also where the code is dead. In valid code it always finds the `end`, and
the code behind what it finds is valid with the heights that belong there.

* `Static.controls_of_flat`: an instruction that does not delimit a block leaves the open blocks as
  they are, up to whether the innermost is dead;
* `ValidFrom.scan`: behind the `end` there are the block's results and the blocks around it; behind
  an `else` the block starts again; and without one the block leaves nothing.
-/

namespace Wasm

/-! ### Open blocks behind an instruction -/

/-- The block without the mark that says whether it is dead. -/
def Control.unmarked (c : Control) : Control :=
  { c with dead := false }

/-- The opcode of an instruction that begins or ends a block or one of its arms. -/
def Instr.delimiter? : Instr → Option Opcode
  | .block _ => some .block
  | .loop _ => some .loop
  | .ifThen _ => some .ifThen
  | .elseArm => some .elseArm
  | .endBlock => some .endBlock
  | _ => none

namespace Static

variable {m : Module} {locals count : Nat} {s s' : Static} {instr : Instr}

theorem controls_of_pop (popped : s.pop count = some s') : s'.controls = s.controls := by
  obtain ⟨height, controls⟩ := s
  cases controls with
  | nil => cases popped
  | cons c outer =>
    simp only [pop] at popped
    split at popped
    · cases popped
      rfl
    split at popped
    · cases popped
      rfl
    · cases popped

/-- Killed blocks stay open. -/
theorem controls_of_kill {inner outer : List Control} {c : Control}
    (split : s.controls = inner ++ c :: outer) :
    ∃ inner' c', s.kill.controls = inner' ++ c' :: outer ∧ inner'.length = inner.length ∧
      c'.unmarked = c.unmarked := by
  obtain ⟨height, controls⟩ := s
  subst split
  cases inner with
  | nil => exact ⟨[], { c with dead := true }, rfl, rfl, rfl⟩
  | cons first inner => exact ⟨{ first with dead := true } :: inner, c, rfl, rfl, rfl⟩

/-- What an instruction that does not delimit a block makes of the open blocks. -/
theorem controls_of_flat (flat : instr.delimiter? = none)
    (checks : s.check m locals instr = some s') :
    s'.controls = s.controls ∨ ∃ t : Static, s' = t.kill ∧ t.controls = s.controls := by
  have moved : ∀ {t : Static} {pops pushes : Nat}, t.controls = s.controls →
      (t.pop pops).map (push pushes) = some s' → s'.controls = s.controls := by
    intro t pops pushes same result
    obtain ⟨rest, popped, rfl⟩ := Option.map_eq_some_iff.mp result
    exact (controls_of_pop popped).trans same
  have killed : ∀ {t : Static} {pops : Nat}, t.controls = s.controls →
      (t.pop pops).map kill = some s' → ∃ t : Static, s' = t.kill ∧ t.controls = s.controls := by
    intro t pops same result
    obtain ⟨rest, popped, rfl⟩ := Option.map_eq_some_iff.mp result
    exact ⟨rest, rfl, (controls_of_pop popped).trans same⟩
  cases instr with
  | block type | loop type | ifThen type | elseArm | endBlock => cases flat
  | plain op =>
    simp only [check] at checks
    split at checks
    · cases checks
      exact .inr ⟨s, rfl, rfl⟩
    split at checks
    · exact .inl (moved rfl checks)
    · cases checks
  | br depth =>
    obtain ⟨c, -, checks⟩ := Option.bind_eq_some_iff.mp checks
    exact .inr (killed rfl checks)
  | brIf depth =>
    obtain ⟨c, -, checks⟩ := Option.bind_eq_some_iff.mp checks
    obtain ⟨rest, popped, checks⟩ := Option.bind_eq_some_iff.mp checks
    exact .inl (moved (controls_of_pop popped) checks)
  | brTable depths default =>
    obtain ⟨c, -, checks⟩ := Option.bind_eq_some_iff.mp checks
    obtain ⟨-, checks⟩ := Option.ite_none_right_eq_some.mp checks
    obtain ⟨rest, popped, checks⟩ := Option.bind_eq_some_iff.mp checks
    exact .inr (killed (controls_of_pop popped) checks)
  | ret =>
    obtain ⟨body, -, checks⟩ := Option.bind_eq_some_iff.mp checks
    exact .inr (killed rfl checks)
  | call func =>
    obtain ⟨type, -, checks⟩ := Option.bind_eq_some_iff.mp checks
    exact .inl (moved rfl checks)
  | callIndirect type table =>
    obtain ⟨-, checks⟩ := Option.ite_none_right_eq_some.mp checks
    obtain ⟨type, -, checks⟩ := Option.bind_eq_some_iff.mp checks
    obtain ⟨rest, popped, checks⟩ := Option.bind_eq_some_iff.mp checks
    exact .inl (moved (controls_of_pop popped) checks)

theorem split_of_flat {inner outer : List Control} {c : Control} (flat : instr.delimiter? = none)
    (checks : s.check m locals instr = some s') (split : s.controls = inner ++ c :: outer) :
    ∃ inner' c', s'.controls = inner' ++ c' :: outer ∧ inner'.length = inner.length ∧
      c'.unmarked = c.unmarked := by
  rcases controls_of_flat flat checks with same | ⟨t, rfl, same⟩
  · exact ⟨inner, c, same.trans split, rfl, rfl⟩
  · exact controls_of_kill (same.trans split)

/-- An instruction that opens a block puts it inside those that are open. -/
theorem controls_of_opener {kind : LabelKind} (opens : instr.delimiter? = some kind.opcode)
    (checks : s.check m locals instr = some s') : ∃ c, s'.controls = c :: s.controls := by
  cases instr with
  | block type | loop type =>
    obtain ⟨arity, -, rfl⟩ := Option.map_eq_some_iff.mp checks
    exact ⟨_, rfl⟩
  | ifThen type =>
    obtain ⟨arity, -, checks⟩ := Option.bind_eq_some_iff.mp checks
    obtain ⟨rest, popped, rfl⟩ := Option.map_eq_some_iff.mp checks
    exact ⟨_, congrArg (_ :: ·) (controls_of_pop popped)⟩
  | elseArm | endBlock => cases kind <;> cases opens
  | _ => cases opens

/-- A block is finished when all that it has put on are its results. -/
theorem exists_pop_of_finish {c : Control} {outer : List Control}
    (finished : s.finish = some (c, outer)) :
    s.controls = c :: outer ∧ ∃ rest, s.pop c.arity = some rest ∧ rest.height = c.height := by
  obtain ⟨height, controls⟩ := s
  cases controls with
  | nil => cases finished
  | cons first others =>
    obtain ⟨rest, popped, finished⟩ := Option.bind_eq_some_iff.mp finished
    obtain ⟨level, same⟩ := Option.ite_none_right_eq_some.mp finished
    cases same
    exact ⟨rfl, rest, popped, level⟩

/-- An `else` is allowed in an `if` only, and starts its block again. -/
theorem exists_finish_of_elseArm (checks : s.check m locals .elseArm = some s') :
    ∃ c outer, s.finish = some (c, outer) ∧ c.kind = .cond ∧
      s' = ⟨c.height, c.otherArm :: outer⟩ := by
  obtain ⟨⟨c, outer⟩, finished, checks⟩ := Option.bind_eq_some_iff.mp checks
  obtain ⟨isCond, same⟩ := Option.ite_none_right_eq_some.mp checks
  exact ⟨c, outer, finished, isCond, (Option.some.inj same).symm⟩

/-- An `end` leaves the results of its block, of which an `if` without `else` has none. -/
theorem exists_finish_of_endBlock (checks : s.check m locals .endBlock = some s') :
    ∃ c outer, s.finish = some (c, outer) ∧ (c.kind = .cond → c.arity = 0) ∧
      s' = ⟨c.height + c.arity, outer⟩ := by
  obtain ⟨⟨c, outer⟩, finished, checks⟩ := Option.bind_eq_some_iff.mp checks
  obtain ⟨allowed, same⟩ := Option.ite_none_left_eq_some.mp checks
  refine ⟨c, outer, finished, fun isCond => ?_, (Option.some.inj same).symm⟩
  exact Decidable.not_not.mp fun some => allowed ⟨isCond, some⟩

end Static

/-! ### Scanning over checked instructions -/

/-- An opcode delimits a block exactly when the instruction does that it decodes to. -/
theorem Opcode.Decodes.delimiter {opcode : Opcode} {instr : Instr}
    (decodes : opcode.Decodes instr) :
    (∀ delimiter, instr.delimiter? = some delimiter → opcode = delimiter) ∧
      (instr.delimiter? = none → opcode.delimits = false) := by
  have reads := decodes.reads
  cases opcode with
  | elseArm | endBlock =>
    cases reads
    exact ⟨fun _ same => Option.some.inj same, nofun⟩
  | block | loop | ifThen =>
    obtain ⟨type, rfl⟩ := reads
    exact ⟨fun _ same => Option.some.inj same, nofun⟩
  | ret =>
    cases reads
    exact ⟨nofun, fun _ => rfl⟩
  | brTable | callIndirect =>
    obtain ⟨first, second, rfl⟩ := reads
    exact ⟨nofun, fun _ => rfl⟩
  | other shape => cases reads
  | _ =>
    obtain ⟨immediate, rfl⟩ := reads
    exact ⟨nofun, fun _ => rfl⟩

namespace BlockTargets

variable {code : Bytes} {pos next : Nat} {instr : Instr}

/-- At an instruction that delimits a block, a scan does what it does at its opcode. -/
theorem scanAt_of_delimiter {delimiter : Opcode} (decoded : Instr.at? code pos = some (instr, next))
    (delimits : instr.delimiter? = some delimiter) (depth : Nat) (elseAt : Option Nat) :
    InstrAt code pos delimiter next ∧ scanAt code depth elseAt pos =
      scanBehind (fun depth elseAt => scanAt code depth elseAt next) depth elseAt pos
        delimiter := by
  obtain ⟨opcode, stands, decodes⟩ := Instr.instrAt_of_at? decoded
  obtain rfl := decodes.delimiter.1 delimiter delimits
  exact ⟨stands, scanAt_of_instrAt stands depth elseAt⟩

/-- A scan passes over any other instruction. -/
theorem scanAt_of_flat (decoded : Instr.at? code pos = some (instr, next))
    (flat : instr.delimiter? = none) (depth : Nat) (elseAt : Option Nat) :
    scanAt code depth elseAt pos = scanAt code depth elseAt next := by
  obtain ⟨opcode, stands, decodes⟩ := Instr.instrAt_of_at? decoded
  rw [scanAt_of_instrAt stands, IsCode.scanBehind_of_not_delimits (decodes.delimiter.2 flat)]

end BlockTargets

/-! ### What a scan finds -/

/-- What is known of the targets of the block `c`, when `elseAt` was its last `else` so far. -/
structure Control.Targets (m : Module) (locals : Nat) (code : Bytes) (c : Control)
    (outer : List Control) (elseAt : Option Nat) (found : BlockTargets) : Prop where
  behind : ValidFrom m locals code (found.endAt + 1) ⟨c.height + c.arity, outer⟩
  arm : ∀ e, found.elseAt = some e → elseAt = some e ∨
    ValidFrom m locals code (e + 1) ⟨c.height, c.otherArm :: outer⟩
  bare : found.elseAt = none → elseAt = none ∧ (c.kind = .cond → c.arity = 0)

theorem Control.Targets.of_unmarked {m : Module} {locals : Nat} {code : Bytes} {c c' : Control}
    {outer : List Control} {elseAt : Option Nat} {found : BlockTargets}
    (leads : c'.Targets m locals code outer elseAt found) (same : c'.unmarked = c.unmarked) :
    c.Targets m locals code outer elseAt found := by
  obtain ⟨kind, arity, height, dead⟩ := c
  obtain ⟨kind', arity', height', dead'⟩ := c'
  cases same
  exact ⟨leads.behind, leads.arm, leads.bare⟩

/-- In valid code, a scan finds the `end` of every block that is open. -/
theorem ValidFrom.scanAt {m : Module} {locals : Nat} {code : Bytes} {pos : Nat} {s : Static}
    {inner outer : List Control} {c : Control} (valid : ValidFrom m locals code pos s)
    (split : s.controls = inner ++ c :: outer) (elseAt : Option Nat) :
    ∃ found, BlockTargets.scanAt code inner.length elseAt pos = .ok found ∧
      c.Targets m locals code outer elseAt found := by
  -- The judgement looks forwards and covers dead code too, so it can be followed as the scan goes.
  induction valid generalizing inner c elseAt with
  | ended closed => simp [closed] at split
  | @instr pos next s s' instr inside decoded checks rest ih =>
    have deeper : ∀ kind, instr.delimiter? = some (LabelKind.opcode kind) →
        ∃ found, BlockTargets.scanAt code inner.length elseAt pos = .ok found ∧
          c.Targets m locals code outer elseAt found := by
      intro kind opens
      obtain ⟨opened, grown⟩ := Static.controls_of_opener opens checks
      have split' : s'.controls = (opened :: inner) ++ c :: outer := by
        rw [grown, split]
        rfl
      obtain ⟨found, scanned, leads⟩ := ih split' elseAt
      refine ⟨found, ?_, leads⟩
      rw [(BlockTargets.scanAt_of_delimiter decoded opens inner.length elseAt).2]
      cases kind with
      | block | loop | cond => exact scanned
    have onward : instr.delimiter? = none →
        ∃ found, BlockTargets.scanAt code inner.length elseAt pos = .ok found ∧
          c.Targets m locals code outer elseAt found := by
      intro flat
      obtain ⟨inner', c', split', depth, same⟩ := Static.split_of_flat flat checks split
      obtain ⟨found, scanned, leads⟩ := ih split' elseAt
      refine ⟨found, ?_, leads.of_unmarked same⟩
      rw [BlockTargets.scanAt_of_flat decoded flat, ← depth]
      exact scanned
    cases instr with
    | block type => exact deeper .block rfl
    | loop type => exact deeper .loop rfl
    | ifThen type => exact deeper .cond rfl
    | elseArm =>
      obtain ⟨stands, scan⟩ :=
        BlockTargets.scanAt_of_delimiter decoded rfl inner.length elseAt
      obtain rfl : pos + 1 = next := (Prod.mk.inj (Except.ok.inj stands.skipped)).2
      obtain ⟨first, others, finished, isCond, rfl⟩ := Static.exists_finish_of_elseArm checks
      obtain ⟨top, -⟩ := Static.exists_pop_of_finish finished
      rw [split] at top
      rw [scan]
      cases inner with
      | nil =>
        obtain ⟨rfl, rfl⟩ := List.cons.inj top
        have split' : c.otherArm :: outer = [] ++ c.otherArm :: outer := rfl
        obtain ⟨found, scanned, leads⟩ := ih split' (some pos)
        refine ⟨found, scanned, leads.behind, ?_, ?_⟩
        · intro e same
          rcases leads.arm e same with here | later
          · cases here
            exact .inr rest
          · exact .inr later
        · intro none
          cases (leads.bare none).1
      | cons innermost inner =>
        obtain ⟨rfl, rfl⟩ := List.cons.inj top
        have split' : innermost.otherArm :: (inner ++ c :: outer) =
            (innermost.otherArm :: inner) ++ c :: outer := rfl
        exact ih split' elseAt
    | endBlock =>
      obtain ⟨stands, scan⟩ :=
        BlockTargets.scanAt_of_delimiter decoded rfl inner.length elseAt
      obtain rfl : pos + 1 = next := (Prod.mk.inj (Except.ok.inj stands.skipped)).2
      obtain ⟨first, others, finished, bare, rfl⟩ := Static.exists_finish_of_endBlock checks
      obtain ⟨top, -⟩ := Static.exists_pop_of_finish finished
      rw [split] at top
      rw [scan]
      cases inner with
      | nil =>
        obtain ⟨rfl, rfl⟩ := List.cons.inj top
        exact ⟨⟨elseAt, pos⟩, rfl, rest, fun e same => .inl same, fun none => ⟨none, bare⟩⟩
      | cons innermost inner =>
        obtain ⟨rfl, rfl⟩ := List.cons.inj top
        exact ih rfl elseAt
    | _ => exact onward rfl

/-- In valid code, the targets of a block that has just been opened are found. -/
theorem ValidFrom.scan {m : Module} {locals : Nat} {code : Bytes} {pos height : Nat}
    {outer : List Control} {c : Control}
    (valid : ValidFrom m locals code pos ⟨height, c :: outer⟩) :
    ∃ found, BlockTargets.scan code pos = .ok found ∧ c.Targets m locals code outer none found := by
  have split : c :: outer = [] ++ c :: outer := rfl
  exact valid.scanAt split none

end Wasm
