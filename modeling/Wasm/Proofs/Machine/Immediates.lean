import Wasm.Proofs.Instr.Boundary
import Wasm.Proofs.Machine.Effect
import Wasm.Proofs.Machine.Runs

/-!
Running an instruction and skipping it use the same bytes.

Two decoders go over a body: a scan for the end of a block skips the immediates of every instruction
that it passes, a step reads the immediates of the one that it runs. Branch targets come from the
first and are used by the second, so they have to agree on where each instruction ends. Nothing is
assumed here of the state, nor of the targets that are remembered.

* `fetch_of_opcodeAt`, `fetch_of_skip_error`: what can be read is fetched, and what cannot be
  skipped cannot be fetched, for the same reason;
* `State.exec_opening`: a `block` or an `if` depends on the scan of the body behind it alone;
* `State.exec_resumes`: an instruction that does not divert control goes on behind its immediates;
* `State.advance_follows_skip`: so a step goes on where the walk goes on, and fails where it fails.
-/

namespace Wasm

/-! ### Where control goes -/

namespace Opcode

/-- The instruction takes control elsewhere than behind itself: it branches, it returns, or it is an
`if` whose condition is false. -/
def Diverts (opcode : Opcode) (s : State) (frame : Frame) : Prop :=
  match opcode with
  | .elseArm | .br | .brTable | .ret => True
  | .brIf =>
    ∃ condition, s.cells.peekAbove? frame.operandBase = some condition ∧
      Cell.isTrue condition = true
  | .ifThen =>
    ∃ condition, s.cells.peekAbove? frame.operandBase = some condition ∧
      Cell.isTrue condition = false
  | .endBlock => s.openCount frame = 0
  | _ => False

/-- The frame goes on at `next`, or will go on there when the function that it calls returns. -/
def Resumes (opcode : Opcode) (frame : Frame) (frames : List Frame) (next : Nat) (t : State) :
    Prop :=
  match opcode with
  | .call | .callIndirect => ∃ callee, t.frames = callee :: { frame with ip := next } :: frames
  | _ => t.frames = { frame with ip := next } :: frames

/-- A body that starts at `start` and has the targets `found` is entered, to be left at its `end`;
or it is passed by, up to its `else` or else its `end`. -/
structure Enters (opcode : Opcode) (s : State) (frame : Frame) (frames : List Frame) (start : Nat)
    (found : BlockTargets) (t : State) : Prop where
  into : ¬ opcode.Diverts s frame → t.frames = { frame with ip := start } :: frames ∧
    ∃ label, t.labels = label :: s.labels ∧ label.target = found.endAt
  past : opcode.Diverts s frame →
    t.frames = { frame with ip := found.elseAt.getD found.endAt + 1 } :: frames

end Opcode

/-! ### Fetching -/

/-- An opcode at an offset of a function's code is one of a known function. -/
theorem Module.known_of_opcodeAt {m : Module} {index pos : Nat} {opcode : Opcode}
    (stands : OpcodeAt (m.code index) pos opcode) : ∃ func, m.funcs[index]? = some func := by
  obtain ⟨byte, found, -⟩ := stands
  cases known : m.funcs[index]? with
  | some func => exact ⟨func, rfl⟩
  | none => simp [code, known] at found

section Fetch

variable {m : Module} {height : Nat} {frame : Frame} {opcode : Opcode}

/-- Immediates that can be read are what is fetched, where the opcode can be run. -/
theorem fetch_of_opcodeAt {read : Reader Instr} {instr : Instr} {next : Nat}
    (stands : OpcodeAt (m.code frame.func) frame.ip opcode) (supported : opcode.instr? = some read)
    (result : read (m.code frame.func) (frame.ip + 1) = .ok (instr, next))
    (room : opcode = .brTable → frame.operandBase < height) :
    fetch m height frame = instr.fetched m next := by
  obtain ⟨func, known⟩ := Module.known_of_opcodeAt stands
  rw [Module.code_of_known known] at stands result
  exact fetch_of_read known stands supported result room

/-- Immediates that cannot be skipped cannot be read either, and the reason is the same. Only the
index of a `br_table` is missed before that. -/
theorem fetch_of_skip_error {e : DecodeError}
    (stands : OpcodeAt (m.code frame.func) frame.ip opcode) (supported : opcode.instr? ≠ none)
    (fails : opcode.shape.skip (m.code frame.func) (frame.ip + 1) = .error e) :
    fetch m height frame =
      .error (if opcode = .brTable ∧ height ≤ frame.operandBase then .stackUnderflow frame.func
        else .malformedOperand frame.func e) := by
  obtain ⟨func, known⟩ := Module.known_of_opcodeAt stands
  obtain ⟨byte, found, named⟩ := stands
  obtain ⟨read, reads⟩ := Option.ne_none_iff_exists'.mp supported
  rw [Module.code_of_known known] at found fails
  rw [Opcode.skip_eq_read reads] at fails
  have failed : read func.body.code (frame.ip + 1) = .error e := by
    cases result : read func.body.code (frame.ip + 1) with
    | error e' =>
      rw [Reader.bind_error result] at fails
      cases fails
      rfl
    | ok value =>
      rw [Reader.bind_ok result] at fails
      cases fails
  simp only [fetch, known, found, named, reads, failed]
  split <;> rfl

/-- What is fetched where the immediates can be skipped is read from the opcode there, and ends
where the skipping ends. -/
theorem decodes_of_fetch {fetched : Fetched} {next : Nat}
    (stands : OpcodeAt (m.code frame.func) frame.ip opcode)
    (skipped : opcode.shape.skip (m.code frame.func) (frame.ip + 1) = .ok ((), next))
    (fetches : fetch m height frame = .ok fetched) :
    fetched.next = next ∧ opcode.Decodes fetched.instr := by
  rcases fetch_spec fetches with ⟨outside, -⟩ | ⟨opcode', instr, decodes⟩
  · obtain ⟨byte, found, -⟩ := stands
    rw [found] at outside
    cases outside
  · obtain ⟨rfl, rfl⟩ := instr.unique ⟨stands, skipped⟩
    exact ⟨rfl, decodes⟩

end Fetch

/-! ### Executing -/

theorem Frame.peek_of_pop {frame : Frame} {cells rest : Cells} {cell : Cell}
    (popped : frame.pop cells = .ok (cell, rest)) :
    cells.peekAbove? frame.operandBase = some cell := by
  obtain ⟨above, rfl⟩ := Frame.pop_eq_ok_iff.mp popped
  exact Cells.peekAbove?_eq_some_iff.mpr ⟨above, by simp⟩

namespace State

variable {m : Module} {config : Config} {targets : Nat → Except DecodeError BlockTargets}
  {cells : Cells} {frame : Frame} {frames : List Frame} {labels : List Label} {fetched : Fetched}
  {opcode : Opcode} {t : State} {event : Option Event}

theorem exec_block {type : BlockType} (instr : fetched.instr = .block type)
    (run : (⟨cells, frame :: frames, labels⟩ : State).exec m config targets frame fetched =
      .ok (t, event)) :
    event = none ∧ ∃ found, targets fetched.next = .ok found ∧
      Opcode.block.Enters ⟨cells, frame :: frames, labels⟩ frame frames fetched.next found t := by
  simp only [exec, execM, instr, pure_bind, Id.run_pure] at run
  cases scanned : targets fetched.next with
  | error e => simp [scanned] at run
  | ok found =>
    simp only [scanned] at run
    cases run
    exact ⟨rfl, found, rfl, fun _ => ⟨rfl, _, rfl, rfl⟩, False.elim⟩

theorem exec_ifThen {type : BlockType} (instr : fetched.instr = .ifThen type)
    (run : (⟨cells, frame :: frames, labels⟩ : State).exec m config targets frame fetched =
      .ok (t, event)) :
    event = none ∧ ∃ found, targets fetched.next = .ok found ∧
      Opcode.ifThen.Enters ⟨cells, frame :: frames, labels⟩ frame frames fetched.next found t := by
  simp only [exec, execM, instr, pure_bind, Id.run_pure] at run
  cases scanned : targets fetched.next with
  | error e => simp [scanned] at run
  | ok found =>
    simp only [scanned] at run
    split at run
    · cases run
    rename_i condition after took
    obtain ⟨rest, popped, rfl⟩ := pop_eq_ok_iff.mp took
    -- The condition that comes off is the one that `Diverts` looks at.
    have peeked := Frame.peek_of_pop popped
    cases holds : Cell.isTrue condition with
    | true =>
      simp only [holds, if_true] at run
      cases run
      refine ⟨rfl, found, rfl, fun _ => ⟨rfl, _, rfl, rfl⟩, ?_⟩
      rintro ⟨again, peeked', fails⟩
      cases peeked.symm.trans peeked'
      rw [holds] at fails
      cases fails
    | false =>
      have diverts : Opcode.ifThen.Diverts ⟨cells, frame :: frames, labels⟩ frame :=
        ⟨condition, peeked, holds⟩
      simp only [holds, Bool.false_eq_true, if_false] at run
      cases arm : found.elseAt with
      | some elseAt | none =>
        simp only [arm] at run
        cases run
        refine ⟨rfl, found, rfl, fun straight => absurd diverts straight, fun _ => ?_⟩
        rw [arm]
        rfl

/-- A `block` or an `if` that succeeds has found the targets of the body that starts behind it, and
depends on no others. -/
theorem exec_opening (opens : opcode = .block ∨ opcode = .ifThen)
    (decodes : opcode.Decodes fetched.instr)
    (run : (⟨cells, frame :: frames, labels⟩ : State).exec m config targets frame fetched =
      .ok (t, event)) :
    event = none ∧ ∃ found, targets fetched.next = .ok found ∧
      opcode.Enters ⟨cells, frame :: frames, labels⟩ frame frames fetched.next found t := by
  rcases opens with rfl | rfl
  · obtain ⟨type, instr⟩ := decodes.reads
    exact exec_block instr run
  · obtain ⟨type, instr⟩ := decodes.reads
    exact exec_ifThen instr run

theorem frames_of_plain {op : Plain} (instr : fetched.instr = .plain op)
    (run : (⟨cells, frame :: frames, labels⟩ : State).exec m config targets frame fetched =
      .ok (t, event)) :
    t.frames = { frame with ip := fetched.next } :: frames := by
  simp only [exec, execM, instr, Id.run_pure] at run
  split at run
  · cases run
  · cases run
    rfl

theorem frames_of_closeLabel {next : Nat}
    (inside : (⟨cells, frame :: frames, labels⟩ : State).openCount frame ≠ 0)
    (closed : (⟨cells, frame :: frames, labels⟩ : State).closeLabel frame next = .ok (t, event)) :
    t.frames = { frame with ip := next } :: frames := by
  simp only [closeLabel, if_neg inside] at closed
  cases labels with
  | nil => exact absurd (Nat.zero_sub _) inside
  | cons label outer =>
    dsimp only at closed
    split at closed
    · cases closed
    · cases closed
      rfl

theorem frames_of_brIf {depth : Nat} (instr : fetched.instr = .brIf depth)
    (straight : ¬ Opcode.brIf.Diverts ⟨cells, frame :: frames, labels⟩ frame)
    (run : (⟨cells, frame :: frames, labels⟩ : State).exec m config targets frame fetched =
      .ok (t, event)) :
    t.frames = { frame with ip := fetched.next } :: frames := by
  simp only [exec, execM, instr, Id.run_pure] at run
  split at run
  · cases run
  rename_i condition after took
  obtain ⟨rest, popped, rfl⟩ := pop_eq_ok_iff.mp took
  split at run
  · rename_i taken
    exact absurd ⟨condition, Frame.peek_of_pop popped, taken⟩ straight
  · cases run
    rfl

theorem frames_of_enter {func : Nat}
    (entered : (⟨cells, frames, labels⟩ : State).enter m config func = .ok (t, event)) :
    ∃ callee, t.frames = callee :: frames := by
  obtain ⟨_, _, -, -, -, -, -, -, rfl, -⟩ := enter_eq_ok_iff.mp entered
  exact ⟨_, rfl⟩

theorem frames_of_callIndirect {type table : Nat} (instr : fetched.instr = .callIndirect type table)
    (run : (⟨cells, frame :: frames, labels⟩ : State).exec m config targets frame fetched =
      .ok (t, event)) :
    ∃ callee, t.frames = callee :: { frame with ip := fetched.next } :: frames := by
  simp only [exec, execM, instr, Id.run_pure] at run
  split at run
  · cases run
  split at run
  · cases run
  split at run
  · cases run
  rename_i index after took
  obtain ⟨rest, popped, rfl⟩ := pop_eq_ok_iff.mp took
  split at run
  · cases run
  · exact frames_of_enter run

/-- An instruction that succeeds and does not divert control leaves its frame behind its
immediates. -/
theorem exec_resumes (decodes : opcode.Decodes fetched.instr)
    (straight : ¬ opcode.Diverts ⟨cells, frame :: frames, labels⟩ frame)
    (run : (⟨cells, frame :: frames, labels⟩ : State).exec m config targets frame fetched =
      .ok (t, event)) :
    opcode.Resumes frame frames fetched.next t := by
  have reads := decodes.reads
  cases opcode with
  | elseArm | br | brTable | ret => exact absurd trivial straight
  | block =>
    obtain ⟨-, found, -, enters⟩ := exec_opening (.inl rfl) decodes run
    exact (enters.into straight).1
  | ifThen =>
    obtain ⟨-, found, -, enters⟩ := exec_opening (.inr rfl) decodes run
    exact (enters.into straight).1
  | loop =>
    obtain ⟨type, instr⟩ := reads
    simp only [exec, execM, instr, Id.run_pure] at run
    cases run
    rfl
  | endBlock =>
    have instr : fetched.instr = .endBlock := reads
    simp only [exec, execM, instr, Id.run_pure] at run
    exact frames_of_closeLabel straight run
  | brIf =>
    obtain ⟨depth, instr⟩ := reads
    exact frames_of_brIf instr straight run
  | call =>
    obtain ⟨func, instr⟩ := reads
    simp only [exec, execM, instr, Id.run_pure] at run
    exact frames_of_enter run
  | callIndirect =>
    obtain ⟨type, table, instr⟩ := reads
    exact frames_of_callIndirect instr run
  | other shape => cases reads
  | _ =>
    obtain ⟨op, instr⟩ := reads
    exact frames_of_plain instr run

end State

/-! ### Stepping -/

theorem Fetched.scanStart?_of_opening {fetched : Fetched} {opcode : Opcode}
    (opens : opcode = .block ∨ opcode = .ifThen) (decodes : opcode.Decodes fetched.instr) :
    fetched.scanStart? = some fetched.next := by
  rcases opens with rfl | rfl
  · obtain ⟨type, instr⟩ := decodes.reads
    simp only [scanStart?, instr]
  · obtain ⟨type, instr⟩ := decodes.reads
    simp only [scanStart?, instr]

namespace Record

variable {m : Module} {func start : Nat} {record : Record} {fetched : Fetched}

/-- What a record becomes when it is asked for the body at `start`: it stays as it is, or it has one
scan more, of that body. -/
def Consulted (m : Module) (func start : Nat) (record after : Record) : Prop :=
  after = record ∨ ∃ found, m.scan func start = .ok found ∧
    after = ⟨record.cache.insert func start found,
      record.events.push (.scanned func start found)⟩

theorem consulted_consult (opens : fetched.scanStart? = some start) :
    Consulted m func start record (record.consult m func fetched) := by
  simp only [consult, opens]
  rcases record.blockTargets_cases m func start with
    ⟨found, -, same⟩ | ⟨e, -, -, same⟩ | ⟨found, -, scanned, same⟩
  · exact .inl (by rw [same])
  · exact .inl (by rw [same])
  · exact .inr ⟨found, scanned, by rw [same]⟩

/-- The targets that an instruction is given were remembered, or are from now on. -/
theorem find?_consult {found : BlockTargets} (opens : fetched.scanStart? = some start)
    (given : (record.blockTargets m func start).1 = .ok found) :
    (record.consult m func fetched).cache.find? func start = some found := by
  simp only [consult, opens]
  rcases record.blockTargets_cases m func start with
    ⟨known, remembered, same⟩ | ⟨e, -, -, same⟩ | ⟨known, -, -, same⟩
  · rw [same] at given ⊢
    cases given
    exact remembered
  · rw [same] at given
    cases given
  · rw [same] at given ⊢
    cases given
    simp only [TargetCache.find?_insert, and_self, if_true]

end Record

namespace State

variable {m : Module} {config : Config} {record after : Record} {s t : State} {frame : Frame}
  {frames : List Frame} {opcode : Opcode} {next : Nat}

theorem exec_of_advance (running : s.frames = frame :: frames)
    (advanced : s.advance m config record = (.ok t, after)) :
    ∃ fetched event, fetch m s.cells.height frame = .ok fetched ∧
      s.exec m config (fun start => (record.blockTargets m frame.func start).1) frame fetched =
        .ok (t, event) ∧
      after = (record.consult m frame.func fetched).report event := by
  cases fetches : fetch m s.cells.height frame with
  | error e =>
    rw [advance_of_fetch_error running fetches] at advanced
    cases advanced
  | ok fetched =>
    rw [advance_of_fetch running fetches] at advanced
    unfold advanceWith at advanced
    split at advanced
    · cases advanced
    rename_i transition event run
    cases advanced
    exact ⟨fetched, event, rfl, run, rfl⟩

/-- Where the immediates can be skipped, a step that succeeds and does not divert control leaves its
frame behind them. -/
theorem advance_resumes (running : s.frames = frame :: frames)
    (stands : OpcodeAt (m.code frame.func) frame.ip opcode)
    (skipped : opcode.shape.skip (m.code frame.func) (frame.ip + 1) = .ok ((), next))
    (advanced : s.advance m config record = (.ok t, after))
    (straight : ¬ opcode.Diverts s frame) : opcode.Resumes frame frames next t := by
  obtain ⟨fetched, event, fetches, run, -⟩ := exec_of_advance running advanced
  obtain ⟨rfl, decodes⟩ := decodes_of_fetch stands skipped fetches
  obtain ⟨cells, _, labels⟩ := s
  cases running
  exact exec_resumes decodes straight run

/-- Whether it succeeds or not, a step at a `block` or an `if` scans at most the body behind it. -/
theorem consulted_advance (opens : opcode = .block ∨ opcode = .ifThen)
    (running : s.frames = frame :: frames)
    (stands : OpcodeAt (m.code frame.func) frame.ip opcode)
    (skipped : opcode.shape.skip (m.code frame.func) (frame.ip + 1) = .ok ((), next)) :
    Record.Consulted m frame.func next record (s.advance m config record).2 := by
  cases fetches : fetch m s.cells.height frame with
  | error e =>
    -- What cannot be fetched is not scanned for.
    rw [advance_of_fetch_error running fetches]
    exact .inl rfl
  | ok fetched =>
    obtain ⟨rfl, decodes⟩ := decodes_of_fetch stands skipped fetches
    have consulted : Record.Consulted m frame.func fetched.next record
        (record.consult m frame.func fetched) :=
      Record.consulted_consult (Fetched.scanStart?_of_opening opens decodes)
    rw [advance_of_fetch running fetches]
    obtain ⟨cells, _, labels⟩ := s
    cases running
    unfold advanceWith
    split
    · exact consulted
    · rename_i t event run
      obtain ⟨rfl, -⟩ := exec_opening opens decodes run
      exact consulted

/-- A step at a `block` or an `if` that succeeds goes by the targets of the body behind it. -/
theorem enters_of_advance (opens : opcode = .block ∨ opcode = .ifThen)
    (running : s.frames = frame :: frames)
    (stands : OpcodeAt (m.code frame.func) frame.ip opcode)
    (skipped : opcode.shape.skip (m.code frame.func) (frame.ip + 1) = .ok ((), next))
    (advanced : s.advance m config record = (.ok t, after)) :
    ∃ found, (record.blockTargets m frame.func next).1 = .ok found ∧
      after.cache.find? frame.func next = some found ∧
      opcode.Enters s frame frames next found t := by
  obtain ⟨fetched, event, fetches, run, rfl⟩ := exec_of_advance running advanced
  obtain ⟨rfl, decodes⟩ := decodes_of_fetch stands skipped fetches
  obtain ⟨cells, _, labels⟩ := s
  cases running
  obtain ⟨-, found, given, enters⟩ := exec_opening opens decodes run
  refine ⟨found, given, ?_, enters⟩
  rw [Record.cache_report]
  exact Record.find?_consult (Fetched.scanStart?_of_opening opens decodes) given

/-- Running and skipping agree on where an instruction ends. When its immediates can be skipped, a
step that does not divert control goes on behind them, and the body of a `block` or an `if` starts
there. When they cannot, the step fails for that reason, except that a `br_table` may miss its index
first. -/
theorem advance_follows_skip (config : Config) (record : Record)
    (running : s.frames = frame :: frames)
    (stands : OpcodeAt (m.code frame.func) frame.ip opcode) (supported : opcode.instr? ≠ none) :
    (∀ next, opcode.shape.skip (m.code frame.func) (frame.ip + 1) = .ok ((), next) →
      (∀ t after, s.advance m config record = (.ok t, after) → ¬ opcode.Diverts s frame →
        opcode.Resumes frame frames next t) ∧
      (opcode = .block ∨ opcode = .ifThen →
        Record.Consulted m frame.func next record (s.advance m config record).2 ∧
        ∀ t after, s.advance m config record = (.ok t, after) →
          ∃ found, (record.blockTargets m frame.func next).1 = .ok found ∧
            after.cache.find? frame.func next = some found ∧
            opcode.Enters s frame frames next found t)) ∧
    ∀ e, opcode.shape.skip (m.code frame.func) (frame.ip + 1) = .error e →
      s.advance m config record =
        (.error (if opcode = .brTable ∧ s.cells.height ≤ frame.operandBase then
          .stackUnderflow frame.func else .malformedOperand frame.func e), record) := by
  constructor
  · intro next skipped
    refine ⟨fun t after => advance_resumes running stands skipped, fun opens => ⟨?_, ?_⟩⟩
    · exact consulted_advance opens running stands skipped
    · exact fun t after => enters_of_advance opens running stands skipped
  · intro e fails
    exact advance_of_fetch_error running (fetch_of_skip_error stands supported fails)

end State

namespace Sample

/-- An `if` that gives its type in three bytes, and has an `else`, before a `br_table` whose labels
are cut off. -/
def wide : Module :=
  { types := #[.new [] []]
    funcs := #[⟨0, 0, #[0x04, 0x80, 0x80, 0x00, 0x01, 0x05, 0x0B, 0x0E, 0x02, 0x00]⟩]
    exports := #[]
    table := none }

/-- The only function of `wide` at an offset, with one operand. -/
def wideAt (ip : Nat) : State :=
  ⟨.ofList [1], [⟨0, ip, 0, 0, 0, 0⟩], []⟩

end Sample

/-- The theorem at an `if` whose condition is true, and at immediates that do not decode. -/
theorem wide_if_entered_and_cut_table_blamed :
    (∃ t after, (Sample.wideAt 0).advance Sample.wide {} {} = (.ok t, after) ∧
      t.frames = [⟨0, 4, 0, 0, 0, 0⟩] ∧ after.cache.find? 0 4 = some ⟨some 5, 6⟩) ∧
    (Sample.wideAt 7).advance Sample.wide {} {} =
      (.error (.malformedOperand 0 (.unexpectedEnd 10)), {}) := by
  constructor
  · have stands : OpcodeAt (Sample.wide.code 0) 0 .ifThen := ⟨0x04, rfl, rfl⟩
    have agrees := State.advance_follows_skip (s := Sample.wideAt 0) {} {} rfl stands (by decide)
    have skipped : Opcode.ifThen.shape.skip (Sample.wide.code 0) 1 = .ok ((), 4) := rfl
    obtain ⟨resumes, opens⟩ := agrees.1 4 skipped
    have straight : ¬ Opcode.ifThen.Diverts (Sample.wideAt 0) ⟨0, 0, 0, 0, 0, 0⟩ := by
      rintro ⟨condition, top, fails⟩
      cases top
      cases fails
    refine ⟨_, _, rfl, resumes _ _ rfl straight, ?_⟩
    obtain ⟨found, looked, kept, -⟩ := (opens (.inr rfl)).2 _ _ rfl
    have scanned : (Record.blockTargets {} Sample.wide 0 4).1 = .ok ⟨some 5, 6⟩ := rfl
    cases looked.symm.trans scanned
    exact kept
  · have stands : OpcodeAt (Sample.wide.code 0) 7 .brTable := ⟨0x0E, rfl, rfl⟩
    have agrees := State.advance_follows_skip (s := Sample.wideAt 7) {} {} rfl stands (by decide)
    exact agrees.2 _ rfl

end Wasm
