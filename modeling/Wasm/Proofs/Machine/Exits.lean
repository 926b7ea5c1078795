import Wasm.Proofs.Machine.Control
import Wasm.Proofs.Machine.Immediates

/-!
The ways out of a block, and the way back to the start of a loop.

A block is left by a branch, by the `else` behind its first arm, or by its `end`. The machine has a
separate path for each, but all of them are one operation on the state (`State.exitTo`): cut the
stack down to the label's height and the cells that are carried, drop labels, go on elsewhere. What
is left to compare is the numbers that they give it.

* `State.branch_eq_exitTo`, `State.closeLabel_eq_exitTo`: a branch to an open label and an `end` of
  the innermost one are exits;
* `State.advanceWith_eq_end`: out of a block that is no loop, `br 0` and `else` do what the `end` at
  the label's target does;
* `Reenters.of_visits`: where an open loop was begun, the instruction that began it is still read;
* `State.Exited.reenters`: so a branch to it and one step more open the same label again;
* `exits_agree`: these together, for every state between two steps of an invocation.

That the target of a label is its `end` is `Placed`, from the relation of labels and open blocks.
-/

namespace Wasm

/-! ### Exits -/

theorem Label.drop_eq_cons {labels : List Label} {label : Label} {depth : Nat}
    (target : labels[depth]? = some label) :
    labels.drop depth = label :: labels.drop (depth + 1) := by
  rw [List.drop_eq_getElem?_toList_append, target]
  rfl

theorem fetch_endBlock {m : Module} {height : Nat} {frame : Frame}
    (stands : OpcodeAt (m.code frame.func) frame.ip .endBlock) :
    fetch m height frame = .ok ⟨.endBlock, frame.ip + 1, 0⟩ :=
  fetch_of_opcodeAt stands rfl rfl nofun

namespace State

variable {m : Module} {config : Config} {record after : Record} {s t : State} {frame : Frame}
  {frames : List Frame} {fetched : Fetched} {label : Label} {event : Option Event}
  {height keep count ip depth next : Nat}

@[simp] theorem cells_jump (s : State) (ip : Nat) : (s.jump ip).cells = s.cells := by
  obtain ⟨cells, frames, labels⟩ := s
  cases frames <;> rfl

@[simp] theorem labels_jump (s : State) (ip : Nat) : (s.jump ip).labels = s.labels := by
  obtain ⟨cells, frames, labels⟩ := s
  cases frames <;> rfl

theorem frames_jump (running : s.frames = frame :: frames) (ip : Nat) :
    (s.jump ip).frames = { frame with ip } :: frames := by
  obtain ⟨cells, _, labels⟩ := s
  cases running
  rfl

/-- Leaves the innermost `count` blocks with the lowest `height` and the top `keep` cells, and goes
on at `ip`. -/
def exitTo (frame : Frame) (height keep count ip : Nat) (s : State) : Except Error Transition :=
  match s.cells.unwind? height keep with
  | none => .error (.stackUnderflow frame.func)
  | some cells => .ok (jump ⟨cells, s.frames, s.labels.drop count⟩ ip, none)

/-- The state behind an exit. Of the frames only the offset of the running one is another. -/
structure Exited (s : State) (height keep count ip : Nat) (t : State) : Prop where
  enough : height + keep ≤ s.cells.height
  cells : t.cells.toList =
    s.cells.toList.take height ++ s.cells.toList.drop (s.cells.height - keep)
  labels : t.labels = s.labels.drop count
  frames : ∀ frame frames, s.frames = frame :: frames → t.frames = { frame with ip } :: frames

theorem exited_of_exitTo (run : s.exitTo frame height keep count ip = .ok (t, event)) :
    event = none ∧ Exited s height keep count ip t := by
  unfold exitTo at run
  cases unwound : s.cells.unwind? height keep with
  | none => simp [unwound] at run
  | some cells =>
    simp only [unwound] at run
    cases run
    obtain ⟨enough, kept⟩ := Cells.unwind?_eq_some_iff.mp unwound
    refine ⟨rfl, enough, ?_, labels_jump _ _, ?_⟩
    · rw [cells_jump]
      exact kept
    · exact fun frame frames running => frames_jump (s := ⟨cells, s.frames, _⟩) running ip

theorem Exited.height_eq (exited : Exited s height keep count ip t) :
    t.cells.height = height + keep := by
  have lengths := congrArg List.length exited.cells
  have enough := exited.enough
  simp only [List.length_append, List.length_take, List.length_drop, Cells.length_toList] at lengths
  omega

/-- A branch to a label that the running activation has opened is an exit. -/
theorem branch_eq_exitTo (inside : depth < s.openCount frame)
    (target : s.labels[depth]? = some label) :
    s.branch frame depth =
      s.exitTo frame label.height label.arity (depth + 1) label.continuation := by
  have dropped := Label.drop_eq_cons target
  obtain ⟨cells, frames, labels⟩ := s
  simp only [branch, if_neg (Nat.ne_of_lt inside), if_neg (Nat.lt_asymm inside), dropped]
  rfl

/-- So is the `end` of the innermost one. -/
theorem closeLabel_eq_exitTo (inside : 0 < s.openCount frame)
    (innermost : s.labels[0]? = some label) :
    s.closeLabel frame next = s.exitTo frame label.height label.resultCount 1 next := by
  obtain ⟨cells, frames, labels⟩ := s
  cases labels with
  | nil => cases innermost
  | cons first outer =>
    cases innermost
    simp only [closeLabel, if_neg (Nat.ne_of_gt inside)]
    rfl

variable {targets : Nat → Except DecodeError BlockTargets}

/-- A branch that is taken to such a label is an exit on the cells without its operand. -/
theorem exec_eq_exitTo {popped : Cells} (running : s.frames = frame :: frames)
    (taken : Branches frame s.cells fetched.instr depth popped)
    (inside : depth < s.openCount frame) (target : s.labels[depth]? = some label) :
    s.exec m config targets frame fetched =
      (⟨popped, s.frames, s.labels⟩ : State).exitTo frame label.height label.arity (depth + 1)
        label.continuation := by
  obtain ⟨cells, _, labels⟩ := s
  cases running
  rw [exec_of_branches taken]
  exact branch_eq_exitTo inside target

theorem exec_end_eq_exitTo (instr : fetched.instr = .endBlock) (inside : 0 < s.openCount frame)
    (innermost : s.labels[0]? = some label) :
    s.exec m config targets frame fetched =
      s.exitTo frame label.height label.resultCount 1 fetched.next := by
  simp only [exec, execM, instr, Id.run_pure]
  exact closeLabel_eq_exitTo inside innermost

/-- A step that executes an exit and succeeds has taken it. -/
theorem exited_of_advance {u : State} (running : s.frames = frame :: frames)
    (fetches : fetch m s.cells.height frame = .ok fetched)
    (exits : ∀ targets,
      s.exec m config targets frame fetched = u.exitTo frame height keep count ip)
    (advanced : s.advance m config record = (.ok t, after)) : Exited u height keep count ip t := by
  obtain ⟨fetched', event, again, run, -⟩ := exec_of_advance running advanced
  cases fetches.symm.trans again
  rw [exits] at run
  exact (exited_of_exitTo run).2

/-! ### The `end` of a block -/

/-- What a step does that executes an exit: it leaves the record as it is. -/
theorem advanceWith_of_exits {u : State} (flat : fetched.scanStart? = none)
    (exits : ∀ targets,
      s.exec m config targets frame fetched = u.exitTo frame height keep count ip) :
    s.advanceWith m config record frame fetched =
      ((u.exitTo frame height keep count ip).map Prod.fst, record) := by
  simp only [advanceWith, exits, Record.consult, flat]
  cases run : u.exitTo frame height keep count ip with
  | error e => rfl
  | ok transition =>
    obtain ⟨t, event⟩ := transition
    obtain ⟨rfl, -⟩ := exited_of_exitTo run
    rfl

/-- An exit does not depend on the offset that it leaves from. -/
theorem exitTo_jump (running : s.frames = frame :: frames) (pos : Nat) :
    (s.jump pos).exitTo { frame with ip := pos } height keep count ip =
      s.exitTo frame height keep count ip := by
  obtain ⟨cells, _, labels⟩ := s
  cases running
  rfl

/-- Out of a block that is no loop, `br 0` and `else` lead where the `end` at the label's target
leads. -/
theorem advanceWith_eq_end (running : s.frames = frame :: frames)
    (inside : 0 < s.openCount frame) (innermost : s.labels[0]? = some label)
    (block : label.kind ≠ .loop) (stands : OpcodeAt (m.code frame.func) label.target .endBlock)
    (leaves : fetched.instr = .br 0 ∨ fetched.instr = .elseArm) :
    s.advanceWith m config record frame fetched =
      (s.jump label.target).advance m config record := by
  have taken : Branches frame s.cells fetched.instr 0 s.cells := by
    rcases leaves with instr | instr
    · exact instr ▸ .br
    · exact instr ▸ .elseArm
  have flat : fetched.scanStart? = none := by
    rcases leaves with instr | instr
    · simp only [Fetched.scanStart?, instr]
    · simp only [Fetched.scanStart?, instr]
  obtain ⟨arity, onward⟩ := Label.exit_of_block block
  have inside' : 0 < (s.jump label.target).openCount { frame with ip := label.target } := by
    rwa [openCount, labels_jump]
  have innermost' : (s.jump label.target).labels[0]? = some label := by rwa [labels_jump]
  have fetches : fetch m (s.jump label.target).cells.height { frame with ip := label.target } =
      .ok ⟨.endBlock, label.target + 1, 0⟩ := fetch_endBlock stands
  rw [advanceWith_of_exits flat fun _ => exec_eq_exitTo running taken inside innermost,
    advance_of_fetch (frames_jump running _) fetches,
    advanceWith_of_exits rfl fun _ => exec_end_eq_exitTo rfl inside' innermost',
    exitTo_jump running, arity, onward]

/-! ### The start of a loop -/

/-- After a branch to a loop, one step more opens the label again that the loop had. -/
theorem Exited.reenters {type : BlockType}
    (exited : Exited s label.height label.arity (depth + 1) label.continuation t)
    (loop : label.kind = .loop) (running : s.frames = frame :: frames)
    (target : s.labels[depth]? = some label)
    (reads : fetch m label.height { frame with ip := label.target } =
      .ok ⟨.loop type, next, label.resultCount⟩) :
    t.cells.height = label.height ∧
      t.advance m config record =
        (.ok ⟨t.cells, { frame with ip := next } :: frames, s.labels.drop depth⟩, record) := by
  -- The branch carries nothing, so that it arrives at the height at which the loop was begun.
  obtain ⟨arity, back⟩ := Label.exit_of_loop loop
  rw [arity, back] at exited
  have level : t.cells.height = label.height := exited.height_eq
  have arrived := exited.frames _ _ running
  have same : (⟨.loop, label.resultCount, t.cells.height, label.target⟩ : Label) = label := by
    rw [level, ← loop]
  refine ⟨level, ?_⟩
  rw [← level] at reads
  rw [advance_of_fetch arrived reads, Label.drop_eq_cons target, ← exited.labels]
  obtain ⟨cells, _, labels⟩ := t
  cases arrived
  simp only [advanceWith, Record.consult, Fetched.scanStart?, exec, execM, Id.run_pure, openLabel,
    jump, same, Record.report]

end State

/-- A label that the running activation has opened is among those that `P` holds of. -/
theorem Stacked.target {P : Frame → List Label → Prop} {s : State} {frame : Frame}
    {frames : List Frame} {depth : Nat} {label : Label} (stacked : Stacked P s.frames s.labels)
    (running : s.frames = frame :: frames) (inside : depth < s.openCount frame)
    (target : s.labels[depth]? = some label) :
    ∃ own outer, P frame own ∧ own.drop depth = label :: outer := by
  obtain ⟨cells, _, labels⟩ := s
  cases running
  cases stacked with
  | @cons _ _ own rest base holds below =>
    change depth < (⟨cells, frame :: frames, own ++ rest⟩ : State).openCount frame at inside
    change (own ++ rest)[depth]? = some label at target
    rw [State.openCount_eq base] at inside
    rw [List.getElem?_append_left inside] at target
    exact ⟨own, own.drop (depth + 1), holds, Label.drop_eq_cons target⟩

/-- Every loop that an activation has open can be begun again: where it was begun, and with the
stack as high as it was then, the instruction that began it is read. -/
def Reenters (m : Module) (frame : Frame) (own : List Label) : Prop :=
  ∀ label ∈ own, label.kind = .loop → ∃ type next,
    fetch m label.height { frame with ip := label.target } =
      .ok ⟨.loop type, next, label.resultCount⟩

namespace Reenters

variable {m : Module} {frame : Frame} {own : List Label}

theorem of_inner {targets : Nat → Except DecodeError BlockTargets} {fetched : Fetched}
    {cells cells' : Cells} {own' : List Label} {ip : Nat} (reenters : Reenters m frame own)
    (fetches : fetch m cells.height frame = .ok fetched)
    (inner : Inner targets frame fetched cells own cells' own' ip) :
    Reenters m { frame with ip } own' := by
  cases inner with
  | plain | pass | noArm => exact reenters
  | block | thenArm | elseArm => exact List.forall_mem_cons.mpr ⟨nofun, reenters⟩
  | @loop own type instr =>
    refine List.forall_mem_cons.mpr ⟨fun _ => ⟨type, fetched.next, ?_⟩, reenters⟩
    rw [← instr]
    exact fetches
  | endBlock => exact (List.forall_mem_cons.mp reenters).2
  | branch taken target unwound =>
    intro label member
    have inside : label ∈ own.drop _ := target ▸ List.mem_cons_of_mem _ member
    exact reenters label (List.mem_of_mem_drop inside)

theorem of_visits {config : Config} {inst : Instance} {func : Nat} {args : List Cell} {s : State}
    {record : Record} (history : Instance.History m config inst)
    (visits : inst.Visits func args s record) : Stacked (Reenters m) s.frames s.labels := by
  refine visits.induct (fun s => Stacked (Reenters m) s.frames s.labels) history ?_ ?_
  · exact fun s event type begun => .of_start (fun _ _ _ _ _ _ _ => nofun) begun
  · intro s t event stacked step
    exact stacked.of_step of_inner (fun reenters _ _ => reenters)
      (fun _ _ _ _ _ _ _ _ => nofun) step

end Reenters

/-- The target of every label that is open and no loop is an `end`. -/
theorem Placed.endBlock_at_target {m : Module} {s : State} {frame : Frame} {frames : List Frame}
    {depth : Nat} {label : Label} (stacked : Stacked (Placed m) s.frames s.labels)
    (running : s.frames = frame :: frames) (inside : depth < s.openCount frame)
    (target : s.labels[depth]? = some label) (block : label.kind ≠ .loop) :
    OpcodeAt (m.code frame.func) label.target .endBlock := by
  obtain ⟨own, outer, ⟨opens, boundary, tracks⟩, dropped⟩ := stacked.target running inside target
  obtain ⟨inner, o, rest, rfl, marks, -⟩ := tracks.drop dropped
  rw [marks.kind_eq] at block
  exact (boundary.at_closed (marks.ending block)).2

/-- In every state between two steps of an invocation the ways out of a block agree.

A taken branch to an open label, and an `end` of the innermost one, leave the lowest cells up to the
label's height and the top cells that they carry, the labels around the one that is left, and all
frames but the offset of the running one. After a branch to a loop, the next step opens the same
label again at the same height. Out of a block that is no loop, a branch or an `else` leads to the
state or the failure that the `end` at the label's target leads to. -/
theorem exits_agree {m : Module} {config : Config} {inst : Instance} {func : Nat}
    {args : List Cell} {s : State} {record : Record} {frame : Frame} {frames : List Frame}
    (history : Instance.History m config inst) (visits : inst.Visits func args s record)
    (running : s.frames = frame :: frames) :
    (∀ fetched depth popped label t after, fetch m s.cells.height frame = .ok fetched →
      Branches frame s.cells fetched.instr depth popped → depth < s.openCount frame →
      s.labels[depth]? = some label → s.advance m config record = (.ok t, after) →
      State.Exited ⟨popped, s.frames, s.labels⟩ label.height label.arity (depth + 1)
        label.continuation t ∧
      (label.kind = .loop → t.cells.height = label.height ∧
        ∃ next, InstrAt (m.code frame.func) label.target .loop next ∧
          t.advance m config after =
            (.ok ⟨t.cells, { frame with ip := next } :: frames, s.labels.drop depth⟩, after))) ∧
    ∀ label, 0 < s.openCount frame → s.labels[0]? = some label →
      (∀ fetched t after, fetch m s.cells.height frame = .ok fetched →
        fetched.instr = .endBlock → s.advance m config record = (.ok t, after) →
        State.Exited s label.height label.resultCount 1 fetched.next t) ∧
      (label.kind ≠ .loop → OpcodeAt (m.code frame.func) label.target .endBlock ∧
        ∀ fetched, fetched.instr = .br 0 ∨ fetched.instr = .elseArm →
          s.advanceWith m config record frame fetched =
            (s.jump label.target).advance m config record ∧
          (fetch m s.cells.height frame = .ok fetched →
            s.advance m config record = (s.jump label.target).advance m config record)) := by
  constructor
  · intro fetched depth popped label t after fetches taken inside target advanced
    have exited := State.exited_of_advance running fetches
      (fun _ => State.exec_eq_exitTo running taken inside target) advanced
    refine ⟨exited, fun loop => ?_⟩
    obtain ⟨own, outer, reenters, dropped⟩ :=
      (Reenters.of_visits history visits).target running inside target
    have member : label ∈ own := List.mem_of_mem_drop (dropped ▸ List.mem_cons_self ..)
    obtain ⟨type, next, reads⟩ := reenters label member loop
    obtain ⟨level, again⟩ := exited.reenters loop running target reads
    exact ⟨level, next, Placed.opener_at reads rfl, again⟩
  · intro label inside innermost
    refine ⟨fun fetched t after fetches instr advanced => ?_, fun block => ?_⟩
    · exact State.exited_of_advance running fetches
        (fun _ => State.exec_end_eq_exitTo instr inside innermost) advanced
    · have stands := Placed.endBlock_at_target (Placed.of_visits history visits) running inside
        innermost block
      refine ⟨stands, fun fetched leaves => ?_⟩
      have same : s.advanceWith m config record frame fetched =
          (s.jump label.target).advance m config record :=
        State.advanceWith_eq_end running inside innermost block stands leaves
      refine ⟨same, fun fetches => ?_⟩
      rw [State.advance_of_fetch running fetches, same]

namespace Sample

/-- A loop in a block that goes on while the parameter is not zero, and a branch out of the block.
Both leave a constant behind that is not theirs to keep. -/
def leaving : Module :=
  { types := #[.new [.i32] [.i32]]
    funcs := #[⟨0, 0, #[0x02, 0x7F, 0x03, 0x40, 0x41, 0x09, 0x20, 0x00, 0x0D, 0x00, 0x0B,
      0x41, 0x07, 0x41, 0x08, 0x0C, 0x00, 0x0B, 0x0B]⟩]
    exports := #[]
    table := none }

/-- The state before the branch back to the loop, when the parameter is five. -/
def goingBack : State :=
  ⟨⟨#[5, 9, 5]⟩, [⟨0, 8, 0, 1, 0, 1⟩], [⟨.loop, 0, 1, 2⟩, ⟨.block, 1, 1, 17⟩]⟩

/-- The state before the `end` of the loop, when the parameter is zero. -/
def goingOn : State :=
  ⟨⟨#[0, 9]⟩, [⟨0, 10, 0, 1, 0, 1⟩], [⟨.loop, 0, 1, 2⟩, ⟨.block, 1, 1, 17⟩]⟩

/-- The state before the branch out of the block that follows. -/
def goingOut : State :=
  ⟨⟨#[0, 7, 8]⟩, [⟨0, 15, 0, 1, 0, 1⟩], [⟨.block, 1, 1, 17⟩]⟩

theorem visits_leaving (arg : Cell) {n : Nat} {s : State}
    (begun : (Instance.start leaving {} .empty 0 [arg]).toOption =
      some ((⟨⟨#[arg]⟩, [⟨0, 0, 0, 1, 0, 1⟩], []⟩, some (.entered 0 1)), some .i32))
    (reached : State.stepsWhile leaving {} State.Running n
      ⟨⟨#[arg]⟩, [⟨0, 0, 0, 1, 0, 1⟩], []⟩ = some s) :
    ∃ record, (Instance.new leaving {}).Visits 0 [arg] s record :=
  Instance.Visits.of_stepsWhile .new (ok_of_toOption begun) reached

end Sample

open Sample in
/-- The theorem at a branch back to a loop, at the `end` of the loop and at a branch out of a block,
each with a cell on the stack that does not survive it. -/
theorem leaving_exits_agree :
    (∃ record t after, (Instance.new leaving {}).Visits 0 [5] goingBack record ∧
      goingBack.advance leaving {} record = (.ok t, after) ∧ t.cells.toList = [5] ∧
      t.labels = [⟨.block, 1, 1, 17⟩] ∧
      t.advance leaving {} after =
        (.ok ⟨t.cells, [⟨0, 4, 0, 1, 0, 1⟩], goingBack.labels⟩, after)) ∧
    (∃ record t after, (Instance.new leaving {}).Visits 0 [0] goingOn record ∧
      goingOn.advance leaving {} record = (.ok t, after) ∧ t.cells.toList = [0] ∧
      t.labels = [⟨.block, 1, 1, 17⟩]) ∧
    ∃ record, (Instance.new leaving {}).Visits 0 [0] goingOut record ∧
      goingOut.advance leaving {} record = (goingOut.jump 17).advance leaving {} record := by
  refine ⟨?_, ?_, ?_⟩
  · obtain ⟨record, visits⟩ := visits_leaving 5 (by decide +kernel)
      (show State.stepsWhile leaving {} State.Running 4 _ = some goingBack by decide +kernel)
    have step : goingBack.step leaving {} =
        .ok (⟨⟨#[5]⟩, [⟨0, 2, 0, 1, 0, 1⟩], [⟨.block, 1, 1, 17⟩]⟩, none) :=
      ok_of_toOption (by decide +kernel)
    obtain ⟨after, advanced, -⟩ := State.advance_of_step (visits.sound .new) step
    have fetches : fetch leaving goingBack.cells.height ⟨0, 8, 0, 1, 0, 1⟩ =
        .ok ⟨.brIf 0, 10, 0⟩ := ok_of_toOption (by decide +kernel)
    have taken : Branches ⟨0, 8, 0, 1, 0, 1⟩ goingBack.cells (.brIf 0) 0 ⟨#[5, 9]⟩ :=
      .brIf rfl (by decide)
    obtain ⟨exited, again⟩ := (exits_agree .new visits rfl).1 _ _ _ _ _ _ fetches taken
      (by decide) rfl advanced
    obtain ⟨-, next, loop, reopened⟩ := again rfl
    have stands : InstrAt (leaving.code 0) 2 .loop 4 := ⟨⟨0x03, rfl, rfl⟩, rfl⟩
    obtain ⟨-, rfl⟩ := loop.unique stands
    exact ⟨record, _, after, visits, advanced, exited.cells, exited.labels, reopened⟩
  · obtain ⟨record, visits⟩ := visits_leaving 0 (by decide +kernel)
      (show State.stepsWhile leaving {} State.Running 5 _ = some goingOn by decide +kernel)
    have step : goingOn.step leaving {} =
        .ok (⟨⟨#[0]⟩, [⟨0, 11, 0, 1, 0, 1⟩], [⟨.block, 1, 1, 17⟩]⟩, none) :=
      ok_of_toOption (by decide +kernel)
    obtain ⟨after, advanced, -⟩ := State.advance_of_step (visits.sound .new) step
    have fetches : fetch leaving goingOn.cells.height ⟨0, 10, 0, 1, 0, 1⟩ =
        .ok ⟨.endBlock, 11, 0⟩ := ok_of_toOption (by decide +kernel)
    have exited := ((exits_agree .new visits rfl).2 _ (by decide) rfl).1 _ _ _ fetches rfl advanced
    exact ⟨record, _, after, visits, advanced, exited.cells, exited.labels⟩
  · obtain ⟨record, visits⟩ := visits_leaving 0 (by decide +kernel)
      (show State.stepsWhile leaving {} State.Running 8 _ = some goingOut by decide +kernel)
    have fetches : fetch leaving goingOut.cells.height ⟨0, 15, 0, 1, 0, 1⟩ =
        .ok ⟨.br 0, 17, 0⟩ := ok_of_toOption (by decide +kernel)
    obtain ⟨-, leads⟩ := ((exits_agree .new visits rfl).2 _ (by decide) rfl).2 nofun
    exact ⟨record, visits, (leads _ (.inl rfl)).2 fetches⟩

end Wasm
