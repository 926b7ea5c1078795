import Mathlib.Order.Bounds.Basic
import Wasm.Proofs.Instr.Boundary

/-!
What a scan finds, and why it fails.

A scan counts how many blocks are open while it reads one instruction after the other. Here the same
is told without a counter. `Walk code start passed pos` says that reading on from `start` leads to
`pos` past the instructions `passed`. These are `Contained` when no `end` among them closes more
than they have opened, and `Balanced` when they close all of it.

* `Walk.scan_eq`: past contained instructions a scan has counted what they leave open, and has the
  last `else` outside all of their blocks;
* `Walk.exists_outcome`: reading on always comes to the `end` that closes more, or to an offset
  where no instruction can be read (`FailsAt`);
* `BlockTargets.scanAt_outwards`: a scan of fewer open blocks ends earlier;
* `BlockTargets.scan_finds_delimiters`: so a scan finds the `end` behind balanced instructions, or
  fails where reading on fails, and blocks inside the scanned one end before it does.
-/

namespace Wasm

/-! ### Instructions one after the other -/

/-- An instruction that has been read past. -/
structure Passed where
  offset : Nat
  opcode : Opcode
  deriving DecidableEq, Repr

/-- Reading on from `start`, one opcode with its immediates after the other, leads to an offset. -/
inductive Walk (code : Bytes) (start : Nat) : List Passed → Nat → Prop where
  | start : Walk code start [] start
  | next {passed pos opcode after} (before : Walk code start passed pos)
      (instr : InstrAt code pos opcode after) :
      Walk code start (passed ++ [⟨pos, opcode⟩]) after

/-- No instruction can be read at an offset: the code ends there, the byte is no opcode, or the
immediates do not decode. -/
inductive FailsAt (code : Bytes) (pos : Nat) : DecodeError → Prop where
  | ended (outside : code[pos]? = none) : FailsAt code pos (.unexpectedEnd pos)
  | unknown {byte} (found : code[pos]? = some byte) (none : Opcode.ofByte? byte = none) :
      FailsAt code pos (.malformed pos .illegalOpcode)
  | immediates {opcode e} (stands : OpcodeAt code pos opcode)
      (fails : opcode.shape.skip code (pos + 1) = .error e) : FailsAt code pos e

variable {code : Bytes} {start pos : Nat} {passed : List Passed}

theorem instrAt_or_failsAt (code : Bytes) (pos : Nat) :
    (∃ opcode next, InstrAt code pos opcode next) ∨ ∃ e, FailsAt code pos e := by
  cases found : code[pos]? with
  | none => exact .inr ⟨_, .ended found⟩
  | some byte =>
    cases known : Opcode.ofByte? byte with
    | none => exact .inr ⟨_, .unknown found known⟩
    | some opcode =>
      cases skipped : opcode.shape.skip code (pos + 1) with
      | error e => exact .inr ⟨e, .immediates ⟨byte, found, known⟩ skipped⟩
      | ok result => exact .inl ⟨opcode, result.2, ⟨byte, found, known⟩, skipped⟩

theorem Walk.offset_lt (walk : Walk code start passed pos) : ∀ p ∈ passed, p.offset < pos := by
  induction walk with
  | start => exact nofun
  | next _ instr ih =>
    have forwards := instr.lt_next
    intro p member
    rcases List.mem_append.mp member with earlier | last
    · have before := ih p earlier
      omega
    · rw [List.mem_singleton.mp last]
      exact forwards

/-! ### What instructions open and close -/

namespace Passed

/-- How many blocks the instructions open. -/
def opened (passed : List Passed) : Nat :=
  passed.countP fun p => p.opcode ∈ [.block, .loop, .ifThen]

/-- How many blocks the instructions close. -/
def ended (passed : List Passed) : Nat :=
  passed.countP fun p => p.opcode = .endBlock

/-- No `end` closes more than was opened. -/
def Contained (passed : List Passed) : Prop :=
  ∀ before, before <+: passed → ended before ≤ opened before

/-- No `end` closes more than was opened, and every block that is opened is closed. -/
structure Balanced (passed : List Passed) : Prop where
  contained : Contained passed
  settled : ended passed = opened passed

/-- An `else` stands at an offset, outside all blocks that the instructions open. -/
def ElseAt (passed : List Passed) (pos : Nat) : Prop :=
  ∃ before after, passed = before ++ ⟨pos, .elseArm⟩ :: after ∧ ended before = opened before

/-- The last `else` outside all blocks that the instructions open, if there is any. -/
def LastElse (passed : List Passed) : Option Nat → Prop
  | none => ∀ pos, ¬ ElseAt passed pos
  | some pos => IsGreatest {p | ElseAt passed p} pos

@[simp] theorem opened_concat (passed : List Passed) (pos : Nat) (opcode : Opcode) :
    opened (passed ++ [⟨pos, opcode⟩]) =
      opened passed + if opcode ∈ [.block, .loop, .ifThen] then 1 else 0 := by
  simp [opened, List.countP_append, List.countP_singleton]

@[simp] theorem ended_concat (passed : List Passed) (pos : Nat) (opcode : Opcode) :
    ended (passed ++ [⟨pos, opcode⟩]) = ended passed + if opcode = .endBlock then 1 else 0 := by
  simp [ended, List.countP_append, List.countP_singleton]

theorem Contained.nil : Contained [] := by
  intro before isPrefix
  rw [List.prefix_nil.mp isPrefix]
  exact Nat.le_refl 0

theorem contained_concat_iff {p : Passed} :
    Contained (passed ++ [p]) ↔
      Contained passed ∧ ended (passed ++ [p]) ≤ opened (passed ++ [p]) := by
  constructor
  · intro contained
    exact ⟨fun before inside => contained before (inside.trans (List.prefix_append _ _)),
      contained _ (List.prefix_refl _)⟩
  · rintro ⟨contained, last⟩ before isPrefix
    rcases List.prefix_concat_iff.mp isPrefix with rfl | earlier
    · exact last
    · exact contained before earlier

theorem elseAt_concat_iff {p : Passed} {q : Nat} :
    ElseAt (passed ++ [p]) q ↔
      ElseAt passed q ∨ (p = ⟨q, .elseArm⟩ ∧ ended passed = opened passed) := by
  constructor
  · rintro ⟨before, after, split, level⟩
    rcases List.eq_nil_or_concat after with rfl | ⟨between, last, rfl⟩
    · obtain ⟨rfl, same⟩ := List.append_inj' split rfl
      exact .inr ⟨List.singleton_inj.mp same, level⟩
    · rw [List.concat_eq_append, ← List.cons_append, ← List.append_assoc] at split
      obtain ⟨rfl, -⟩ := List.append_inj' split rfl
      exact .inl ⟨before, between, rfl, level⟩
  · rintro (⟨before, after, rfl, level⟩ | ⟨rfl, level⟩)
    · exact ⟨before, after ++ [p], by simp, level⟩
    · exact ⟨passed, [], rfl, level⟩

theorem LastElse.unique {a b : Option Nat} (first : LastElse passed a)
    (second : LastElse passed b) : a = b := by
  cases a with
  | none =>
    cases b with
    | none => rfl
    | some pos => exact absurd second.1 (first pos)
  | some pos =>
    cases b with
    | none => exact absurd first.1 (second pos)
    | some pos' => rw [IsGreatest.unique first second]

/-- A further instruction is the last `else` if it is one outside all blocks. -/
theorem LastElse.concat {last : Option Nat} {opcode : Opcode} (is : LastElse passed last)
    (behind : ∀ p ∈ passed, p.offset < pos) :
    LastElse (passed ++ [⟨pos, opcode⟩])
      (if opcode = .elseArm ∧ ended passed = opened passed then some pos else last) := by
  split
  · rename_i here
    obtain ⟨rfl, level⟩ := here
    refine ⟨elseAt_concat_iff.mpr (.inr ⟨rfl, level⟩), ?_⟩
    intro q arm
    rcases elseAt_concat_iff.mp arm with ⟨before, after, rfl, -⟩ | ⟨same, -⟩
    · exact Nat.le_of_lt (behind ⟨q, .elseArm⟩ (by simp))
    · cases same
      exact Nat.le_refl _
  · rename_i other
    have same : ∀ q, ElseAt (passed ++ [⟨pos, opcode⟩]) q ↔ ElseAt passed q := by
      intro q
      rw [elseAt_concat_iff]
      constructor
      · rintro (arm | ⟨here, level⟩)
        · exact arm
        · cases here
          exact absurd ⟨rfl, level⟩ other
      · exact .inl
    cases last with
    | none => exact fun q arm => is q ((same q).mp arm)
    | some q => exact ⟨(same q).mpr is.1, fun q' arm => is.2 ((same q').mp arm)⟩

end Passed

open Passed (opened ended Contained Balanced LastElse)

/-! ### Scanning past instructions -/

theorem FailsAt.scanAt_eq {e : DecodeError} (fails : FailsAt code pos e) (depth : Nat)
    (elseAt : Option Nat) : BlockTargets.scanAt code depth elseAt pos = .error e := by
  have fueled : ∀ byte, code[pos]? = some byte → ∃ fuel, code.size - pos = fuel + 1 := by
    intro byte found
    obtain ⟨inside, -⟩ := Array.getElem?_eq_some_iff.mp found
    exact ⟨code.size - pos - 1, by omega⟩
  unfold BlockTargets.scanAt
  cases fails with
  | ended outside =>
    exact BlockTargets.scanFrom_of_size_le (Array.getElem?_eq_none_iff.mp outside) _ _ _
  | unknown found none =>
    obtain ⟨fuel, left⟩ := fueled _ found
    rw [left]
    simp only [BlockTargets.scanFrom, Reader.byte_of_found found, none]
  | immediates stands fails =>
    obtain ⟨byte, found, known⟩ := stands
    obtain ⟨fuel, left⟩ := fueled _ found
    rw [left]
    simp only [BlockTargets.scanFrom, Reader.byte_of_found found, known, fails]

namespace Walk

/-- Past contained instructions a scan has as many blocks open as they leave open, and has seen the
last `else` outside of these. -/
theorem scan_eq (walk : Walk code start passed pos) (contained : Contained passed) :
    ∃ last, LastElse passed last ∧
      BlockTargets.scan code start =
        BlockTargets.scanAt code (opened passed - ended passed) last pos := by
  induction walk with
  | start => exact ⟨none, fun _ ⟨_, _, split, _⟩ => by simp at split, rfl⟩
  | @next passed pos opcode after before instr ih =>
    obtain ⟨contained, level⟩ := Passed.contained_concat_iff.mp contained
    obtain ⟨last, is, same⟩ := ih contained
    refine ⟨_, is.concat before.offset_lt, ?_⟩
    rw [same, BlockTargets.scanAt_of_instrAt instr]
    have open_le : ended passed ≤ opened passed := contained passed (List.prefix_refl _)
    -- Only the three openers, `else` and `end` change what the scan keeps.
    cases opcode with
    | block | loop | ifThen =>
      have deeper : opened passed + 1 - ended passed = opened passed - ended passed + 1 := by omega
      simp [BlockTargets.scanBehind, deeper]
    | elseArm =>
      have outermost : opened passed - ended passed = 0 ↔ ended passed = opened passed := by omega
      simp [BlockTargets.scanBehind, outermost]
    | endBlock =>
      simp only [Passed.ended_concat, Passed.opened_concat] at level
      have inside : ¬ opened passed - ended passed = 0 := by simp at level; omega
      simp [BlockTargets.scanBehind, inside, Nat.sub_sub]
    | _ => simp [BlockTargets.scanBehind]

/-- Reading on comes to the `end` that closes more than was opened, or to an offset where no
instruction can be read. -/
theorem exists_outcome (walk : Walk code start passed pos) (contained : Contained passed) :
    ∃ passed pos, Walk code start passed pos ∧ Contained passed ∧
      (ended passed = opened passed ∧ OpcodeAt code pos .endBlock ∨ ∃ e, FailsAt code pos e) := by
  induction left : code.size - pos using Nat.strongRecOn generalizing pos passed with
  | _ left ih =>
    subst left
    rcases instrAt_or_failsAt code pos with ⟨opcode, next, instr⟩ | fails
    · have inside := instr.pos_lt
      have forwards := instr.lt_next
      have open_le := contained passed (List.prefix_refl _)
      by_cases surplus : opcode = .endBlock ∧ ended passed = opened passed
      · obtain ⟨rfl, level⟩ := surplus
        exact ⟨passed, pos, walk, contained, .inl ⟨level, instr.stands⟩⟩
      · have still : Contained (passed ++ [⟨pos, opcode⟩]) := by
          refine Passed.contained_concat_iff.mpr ⟨contained, ?_⟩
          rw [Passed.ended_concat, Passed.opened_concat]
          split
          · rename_i isEnd
            have more : ended passed ≠ opened passed := fun level => surplus ⟨isEnd, level⟩
            omega
          · omega
        exact ih (code.size - next) (by omega) (walk.next instr) still rfl
    · exact ⟨passed, pos, walk, contained, .inr fails⟩

end Walk

namespace BlockTargets

/-- What a scan with more blocks open comes to lies behind what one with fewer comes to. -/
theorem scanAt_outwards {inner outer : Nat} {last : Option Nat} {found : BlockTargets}
    (scanned : scanAt code (inner + (outer + 1)) last pos = .ok found) (last' : Option Nat) :
    ∃ nearer, scanAt code inner last' pos = .ok nearer ∧ nearer.endAt < found.endAt := by
  induction left : code.size - pos using Nat.strongRecOn generalizing pos inner last last' with
  | _ left ih =>
    subst left
    obtain ⟨opcode, next, instr⟩ := instrAt_of_scanFrom scanned
    have inside := instr.pos_lt
    have forwards := instr.lt_next
    have onward : ∀ inner last last', scanAt code (inner + (outer + 1)) last next = .ok found →
        ∃ nearer, scanAt code inner last' next = .ok nearer ∧ nearer.endAt < found.endAt :=
      fun inner last last' scanned => ih (code.size - next) (by omega) scanned last' rfl
    rw [scanAt_of_instrAt instr] at scanned ⊢
    cases opcode with
    | block | loop | ifThen =>
      apply onward
      rwa [Nat.add_right_comm]
    | elseArm => exact onward _ _ _ scanned
    | endBlock =>
      cases inner with
      | zero =>
        have behind := (le_of_scanFrom scanned).1
        exact ⟨_, rfl, Nat.lt_of_lt_of_le forwards behind⟩
      | succ inner =>
        have depth : inner + 1 + (outer + 1) - 1 = inner + (outer + 1) := by omega
        rw [scanBehind, if_neg (by omega), depth] at scanned
        exact onward _ _ _ scanned
    | _ => exact onward _ _ _ scanned

theorem scan_eq_ok_iff {found : BlockTargets} :
    scan code start = .ok found ↔
      ∃ passed, Walk code start passed found.endAt ∧ OpcodeAt code found.endAt .endBlock ∧
        Balanced passed ∧ LastElse passed found.elseAt := by
  have closes : ∀ {passed pos last}, Walk code start passed pos → Balanced passed →
      OpcodeAt code pos .endBlock → LastElse passed last → scan code start = .ok ⟨last, pos⟩ := by
    intro passed pos last walk balanced stands is
    obtain ⟨last', is', same⟩ := walk.scan_eq balanced.contained
    have instr : InstrAt code pos .endBlock (pos + 1) := ⟨stands, rfl⟩
    rw [same, is'.unique is, scanAt_of_instrAt instr, scanBehind, balanced.settled, Nat.sub_self,
      if_pos rfl]
  constructor
  · intro scanned
    obtain ⟨passed, pos, walk, contained, ⟨level, stands⟩ | ⟨e, fails⟩⟩ :=
      (Walk.start : Walk code start [] start).exists_outcome .nil
    · obtain ⟨last, is, -⟩ := walk.scan_eq contained
      have again := closes walk ⟨contained, level⟩ stands is
      cases scanned.symm.trans again
      exact ⟨passed, walk, stands, ⟨contained, level⟩, is⟩
    · obtain ⟨last, -, same⟩ := walk.scan_eq contained
      rw [same, fails.scanAt_eq] at scanned
      cases scanned
  · rintro ⟨passed, walk, stands, balanced, is⟩
    exact closes walk balanced stands is

theorem scan_eq_error_iff {e : DecodeError} :
    scan code start = .error e ↔
      ∃ passed pos, Walk code start passed pos ∧ Contained passed ∧ FailsAt code pos e := by
  constructor
  · intro failed
    obtain ⟨passed, pos, walk, contained, ⟨level, stands⟩ | ⟨e', fails⟩⟩ :=
      (Walk.start : Walk code start [] start).exists_outcome .nil
    · obtain ⟨last, is, -⟩ := walk.scan_eq contained
      have found : scan code start = .ok ⟨last, pos⟩ :=
        scan_eq_ok_iff.mpr ⟨passed, walk, stands, ⟨contained, level⟩, is⟩
      cases failed.symm.trans found
    · obtain ⟨last, -, same⟩ := walk.scan_eq contained
      rw [fails.scanAt_eq] at same
      cases failed.symm.trans same
      exact ⟨passed, pos, walk, contained, fails⟩
  · rintro ⟨passed, pos, walk, contained, fails⟩
    obtain ⟨last, -, same⟩ := walk.scan_eq contained
    rw [same, fails.scanAt_eq]

/-- Up to the `end` that a scan finds, no other closes more than was opened. -/
theorem contained_of_scan {found : BlockTargets} (scanned : scan code start = .ok found)
    (walk : Walk code start passed pos) (before : pos ≤ found.endAt) : Contained passed := by
  induction walk with
  | start => exact .nil
  | @next passed pos opcode after walk instr ih =>
    have forwards := instr.lt_next
    have contained := ih (by omega)
    have open_le := contained passed (List.prefix_refl _)
    refine Passed.contained_concat_iff.mpr ⟨contained, ?_⟩
    rw [Passed.ended_concat, Passed.opened_concat]
    split
    · rename_i isEnd
      subst isEnd
      -- An `end` with no block open would be the one that the scan finds.
      have more : ended passed ≠ opened passed := by
        intro level
        obtain ⟨last, is, -⟩ := walk.scan_eq contained
        have here : scan code start = .ok ⟨last, pos⟩ :=
          scan_eq_ok_iff.mpr ⟨passed, walk, instr.stands, ⟨contained, level⟩, is⟩
        cases scanned.symm.trans here
        exact absurd (Nat.lt_of_lt_of_le forwards before) (Nat.lt_irrefl _)
      omega
    · omega

/-- A block that is opened inside a scanned one is scanned to an `end` before that of the other. -/
theorem scan_inside {found : BlockTargets} {kind : LabelKind} {next : Nat}
    (scanned : scan code start = .ok found) (walk : Walk code start passed pos)
    (before : pos < found.endAt) (instr : InstrAt code pos kind.opcode next) :
    ∃ inner, scan code next = .ok inner ∧ next ≤ inner.endAt ∧ inner.endAt < found.endAt := by
  have contained := contained_of_scan scanned walk (Nat.le_of_lt before)
  obtain ⟨last, -, same⟩ := walk.scan_eq contained
  rw [same, scanAt_of_instrAt instr] at scanned
  have deeper : scanAt code (0 + (opened passed - ended passed + 1)) last next = .ok found := by
    rw [Nat.zero_add]
    cases kind with
    | block => exact scanned
    | loop => exact scanned
    | cond => exact scanned
  obtain ⟨inner, found, earlier⟩ := scanAt_outwards deeper none
  exact ⟨inner, found, (le_of_scan found).1, earlier⟩

/-- A scan from an offset finds an `end`, and an `else` or none, exactly when reading on leads to
this `end` past balanced instructions, of which the `else` is the last outside of blocks. It fails
with an error exactly when reading on fails with it, before an `end` has closed more than was
opened. A block that is opened before the `end` is scanned to an earlier `end`. -/
theorem scan_finds_delimiters (code : Bytes) (start : Nat) :
    (∀ found, scan code start = .ok found ↔
      ∃ passed, Walk code start passed found.endAt ∧ OpcodeAt code found.endAt .endBlock ∧
        Passed.Balanced passed ∧ Passed.LastElse passed found.elseAt) ∧
    (∀ e, scan code start = .error e ↔
      ∃ passed pos, Walk code start passed pos ∧ Passed.Contained passed ∧ FailsAt code pos e) ∧
    ∀ found passed pos kind next, scan code start = .ok found → Walk code start passed pos →
      pos < found.endAt → InstrAt code pos (LabelKind.opcode kind) next →
      ∃ inner, scan code next = .ok inner ∧ next ≤ inner.endAt ∧ inner.endAt < found.endAt :=
  ⟨fun _ => scan_eq_ok_iff, fun _ => scan_eq_error_iff,
    fun _ _ _ _ _ scanned walk before instr => scan_inside scanned walk before instr⟩

/-- An `if` with an `else` of its own, between a constant and the `else` and `end` that a scan of
all of it finds. Each constant holds the bytes of such delimiters. -/
def disguised : Bytes :=
  #[0x41, 0x0B, 0x04, 0x40, 0x41, 0x05, 0x1A, 0x05, 0x0B, 0x05, 0x43, 0x0B, 0x05, 0x0B, 0x05, 0x0B]

/-- The theorem at code in which the bytes of delimiters also stand in constants. -/
theorem delimiters_among_constants :
    scan disguised 0 = .ok ⟨some 9, 15⟩ ∧
      ∃ inner, scan disguised 4 = .ok inner ∧ 4 ≤ inner.endAt ∧ inner.endAt < 15 := by
  have scanned : scan disguised 0 = .ok ⟨some 9, 15⟩ := by decide
  refine ⟨scanned, ?_⟩
  exact (scan_finds_delimiters disguised 0).2.2 _ _ 2 .cond 4 scanned
    (.next .start ⟨⟨0x41, rfl, rfl⟩, rfl⟩) (by decide) ⟨⟨0x04, rfl, rfl⟩, rfl⟩

end BlockTargets

end Wasm
