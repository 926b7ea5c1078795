import Wasm.Proofs.Instr.Boundary
import Wasm.Proofs.Machine.Layout

/-!
What a call cannot touch.

A callee works on the stacks that its callers use. `Within` says what stays as it was while the
callee, or anything that it calls in turn, is running; `Left` says what is there at the moment the
callee has ended. Both are relative to the state in which the callee was entered.

* `Within.of_step`: a step inside the call stays inside it or ends it;
* `State.calls_of_step`: a `call` or `call_indirect` that succeeds enters a function;
* `caller_kept_by_call`: a call that ends leaves the caller's cells, labels and activation, and
  those of every caller below it, as they were.
-/

namespace Wasm

/-- The callee `callee`, entered in the state `entry`, is still active in the state `s`: above the
callers' frames there is its own, and nothing of the callers has changed. -/
structure Within (callee : Frame) (entry : State) (callers : List Frame) (s : State) : Prop where
  frames : ∃ above root, s.frames = above ++ root :: callers ∧ root.base = callee.base ∧
    root.resultCount = callee.resultCount ∧ root.labelBase = entry.labels.length
  cells : Cells.Agree callee.base entry.cells s.cells
  labels : entry.labels <:+ s.labels

/-- The callee `callee`, entered in the state `entry`, has ended with its results on the stack. -/
structure Left (callee : Frame) (entry : State) (callers : List Frame) (s : State) : Prop where
  frames : s.frames = callers
  cells : Cells.Agree callee.base entry.cells s.cells
  height : s.cells.height = callee.base + callee.resultCount
  labels : s.labels = entry.labels

theorem Regions.operandBase_le {frames : List Frame} {height : Nat}
    (regions : Regions height frames) : ∀ frame ∈ frames, frame.operandBase ≤ height := by
  induction frames generalizing height with
  | nil =>
    intro frame member
    cases member
  | cons first frames ih =>
    intro frame member
    rcases List.mem_cons.mp member with rfl | member
    · exact regions.1
    · have below := ih regions.2 frame member
      have inside := regions.1
      unfold Frame.operandBase at inside below ⊢
      omega

namespace Within

variable {m : Module} {config : Config} {callee : Frame} {entry s t : State}
  {callers : List Frame} {event : Option Event}

theorem length_lt (within : Within callee entry callers s) : callers.length < s.frames.length := by
  obtain ⟨above, root, same, -⟩ := within.frames
  rw [same, List.length_append, List.length_cons]
  omega

/-- The running activation lies above what the call may not touch. -/
theorem floor_le {frame : Frame} {frames above : List Frame} {root : Frame}
    {own rest : List Label} {P : Frame → List Label → Prop}
    (same : frame :: frames = above ++ root :: callers) (rootBase : root.base = callee.base)
    (rootLabels : root.labelBase = entry.labels.length)
    (regions : Regions frame.base frames) (base : frame.labelBase = rest.length)
    (below : Stacked P frames rest) (labels : entry.labels <:+ own ++ rest) :
    callee.base ≤ frame.base ∧ entry.labels <:+ rest := by
  have low : callee.base ≤ frame.base ∧ entry.labels.length ≤ rest.length := by
    cases above with
    | nil =>
      obtain ⟨rfl, rfl⟩ := List.cons.inj same
      constructor
      · omega
      · omega
    | cons first above =>
      obtain ⟨rfl, rfl⟩ := List.cons.inj same
      have member : root ∈ above ++ root :: callers := by simp
      have region := regions.operandBase_le root member
      have label := below.labelBase_le root member
      unfold Frame.operandBase at region
      constructor
      · omega
      · omega
  exact ⟨low.1, List.suffix_of_suffix_length_le labels (List.suffix_append own rest) low.2⟩

/-- A step inside a call stays inside it or ends it. -/
theorem of_step (arranged : Arranged m s) (within : Within callee entry callers s)
    (step : s.step m config = .ok (t, event)) :
    Within callee entry callers t ∨ Left callee entry callers t := by
  obtain ⟨⟨above, root, same, rootBase, rootResults, rootLabels⟩, agree, labels⟩ := within
  obtain ⟨cells, frames, _⟩ := s
  cases frames with
  | nil => simp at same
  | cons frame frames =>
    obtain ⟨own, rest, fetched, rfl, base, ⟨floored, -⟩, below, -, effect⟩ :=
      arranged.stacked.effect step
    obtain ⟨floor, lower⟩ := arranged.regions
    obtain ⟨low, kept⟩ := floor_le same rootBase rootLabels lower base below labels
    -- Whatever the running activation becomes, the callee's frame is still there.
    have onward : ∀ ip, ∃ above root, { frame with ip } :: frames = above ++ root :: callers ∧
        root.base = callee.base ∧ root.resultCount = callee.resultCount ∧
        root.labelBase = entry.labels.length := by
      intro ip
      cases above with
      | nil =>
        obtain ⟨rfl, rfl⟩ := List.cons.inj same
        exact ⟨[], { frame with ip }, rfl, rootBase, rootResults, rootLabels⟩
      | cons first above =>
        obtain ⟨rfl, rfl⟩ := List.cons.inj same
        exact ⟨{ frame with ip } :: above, root, rfl, rootBase, rootResults, rootLabels⟩
    rcases effect with ⟨cells', own', ip, stays, rfl, rfl⟩ | ⟨cells', ends, left⟩ |
      ⟨func, cells', calls, entered⟩
    · have below := (stays.keeps floor floored).1.below
      exact .inl ⟨onward ip, agree.trans (below.mono low), kept.trans (List.suffix_append _ _)⟩
    · obtain ⟨-, final, unwound, rfl, rfl⟩ := (State.leave_eq_ok_iff base).mp left
      have height := Cells.height_of_unwind? unwound
      have same' := (ends.keeps floor).below.trans (.of_unwind? (Nat.le_refl _) unwound)
      have agree' := agree.trans (same'.mono low)
      cases above with
      | nil =>
        obtain ⟨rfl, rfl⟩ := List.cons.inj same
        refine .inr ⟨rfl, agree', ?_, ?_⟩
        · change final.height = _
          omega
        · exact (kept.eq_of_length (by omega)).symm
      | cons first above =>
        obtain ⟨rfl, rfl⟩ := List.cons.inj same
        exact .inl ⟨⟨above, root, rfl, rootBase, rootResults, rootLabels⟩, agree', kept⟩
    · obtain ⟨function, type, -, -, -, -, -, -, rfl, rfl⟩ := State.enter_eq_ok_iff.mp entered
      have keeps := calls.keeps floor
      have room : callee.base ≤ cells'.height := by
        have reach := keeps.floor
        unfold Frame.operandBase at reach
        omega
      have grown :=
        Cells.Agree.of_append room (Cells.toList_pushZeros cells' function.body.localCount)
      obtain ⟨above', root', same', marks⟩ := onward fetched.next
      refine .inl ⟨⟨_ :: above', root', congrArg (_ :: ·) same', marks⟩, ?_, labels⟩
      exact (agree.trans (keeps.below.mono low)).trans grown

end Within

/-! ### The call itself -/

/-- The instruction calls a function, directly or through the table. -/
def Instr.isCall : Instr → Bool
  | .call _ | .callIndirect _ _ => true
  | _ => false

section NotCall

variable {frame : Frame} {cells cells' : Cells} {instr : Instr} {own own' : List Label}

theorem Branches.not_isCall {depth : Nat} (taken : Branches frame cells instr depth cells') :
    instr.isCall = false := by
  cases taken with
  | elseArm => rfl
  | br => rfl
  | brIf popped holds => rfl
  | brTable popped => rfl

theorem Ends.not_isCall (ends : Ends frame cells instr own cells') : instr.isCall = false := by
  cases ends with
  | ret => rfl
  | endBlock => rfl
  | branch taken => exact taken.not_isCall

theorem Inner.not_isCall {targets : Nat → Except DecodeError BlockTargets} {fetched : Fetched}
    {ip : Nat} (inner : Inner targets frame fetched cells own cells' own' ip) :
    fetched.instr.isCall = false := by
  cases inner with
  | branch taken target unwound => exact taken.not_isCall
  | plain instr | block instr | loop instr | thenArm instr | elseArm instr | noArm instr
  | endBlock instr | pass instr =>
    rw [instr]
    rfl

end NotCall

/-- A `call` or `call_indirect` that succeeds enters a function, and the caller is left to go on
behind the instruction. -/
theorem State.calls_of_step {m : Module} {config : Config} {s t : State} {event : Option Event}
    {caller : Frame} {frames : List Frame} {opcode : Opcode} (arranged : Arranged m s)
    (running : s.frames = caller :: frames)
    (stands : OpcodeAt (m.code caller.func) caller.ip opcode)
    (calling : opcode = .call ∨ opcode = .callIndirect)
    (step : s.step m config = .ok (t, event)) :
    ∃ callee after, InstrAt (m.code caller.func) caller.ip opcode after ∧
      t.frames = callee :: { caller with ip := after } :: frames ∧
      callee.labelBase = t.labels.length ∧ t.labels = s.labels := by
  obtain ⟨cells, _, _⟩ := s
  subst running
  obtain ⟨own, rest, fetched, rfl, base, -, -, fetches, effect⟩ := arranged.stacked.effect step
  obtain ⟨byte, found, known⟩ := stands
  rcases fetch_spec fetches with ⟨ended, -⟩ | ⟨other, instr, decodes⟩
  · rw [ended] at found
    cases found
  obtain ⟨byte', found', known'⟩ := instr.stands
  obtain rfl : byte = byte' := Option.some.inj (found.symm.trans found')
  obtain rfl : opcode = other := Option.some.inj (known.symm.trans known')
  have call : fetched.instr.isCall = true := by
    rcases calling with rfl | rfl
    · obtain ⟨func, same⟩ := decodes.reads
      rw [same]
      rfl
    · obtain ⟨type, table, same⟩ := decodes.reads
      rw [same]
      rfl
  rcases effect with ⟨cells', own', ip, stays, -, -⟩ | ⟨cells', ends, -⟩ |
    ⟨func, cells', -, entered⟩
  · rw [stays.not_isCall] at call
    cases call
  · rw [ends.not_isCall] at call
    cases call
  · obtain ⟨callee, type, -, -, -, -, -, -, rfl, rfl⟩ := State.enter_eq_ok_iff.mp entered
    exact ⟨_, fetched.next, instr, rfl, rfl, rfl⟩

/-- A call that ends, however long it takes and whatever it calls in turn, leaves exactly its
results above what was there when it was entered; the cells below, the labels and the activations of
its callers are the same, and the caller goes on behind the call. -/
theorem caller_kept_by_call {m : Module} {config : Config} {inst : Instance} {func : Nat}
    {args : List Cell} {s entry t : State} {record begun final : Record} {caller : Frame}
    {frames : List Frame} {opcode : Opcode} (history : Instance.History m config inst)
    (visits : inst.Visits func args s record) (running : s.frames = caller :: frames)
    (stands : OpcodeAt (m.code caller.func) caller.ip opcode)
    (calling : opcode = .call ∨ opcode = .callIndirect)
    (advanced : s.advance m config record = (.ok entry, begun))
    (runs : State.RunsWhile m config (fun u => s.frames.length < u.frames.length)
      entry begun t final)
    (ended : t.frames.length = s.frames.length) :
    ∃ callee after, InstrAt (m.code caller.func) caller.ip opcode after ∧
      entry.frames = callee :: { caller with ip := after } :: frames ∧
      t.cells.height = callee.base + callee.resultCount ∧
      t.cells.toList.take callee.base = entry.cells.toList.take callee.base ∧
      t.labels = entry.labels ∧
      t.frames = { caller with ip := after } :: frames := by
  have arranged := Arranged.of_visits history visits
  obtain ⟨⟨event, step⟩, sound⟩ := State.step_of_advance (visits.sound history) advanced
  obtain ⟨callee, after, instr, entered, labelBase, labels⟩ :=
    State.calls_of_step arranged running stands calling step
  obtain ⟨callers, waiting⟩ : ∃ callers, callers = { caller with ip := after } :: frames :=
    ⟨_, rfl⟩
  have depth : callers.length = s.frames.length := by
    rw [waiting, running]
    rfl
  rw [← waiting] at entered
  have inside : Within callee entry callers entry :=
    ⟨⟨[], callee, entered, rfl, rfl, labelBase⟩, .refl _ _, List.suffix_rfl⟩
  have keeps : ∀ u v event, s.frames.length < u.frames.length →
      Arranged m u ∧ (Within callee entry callers u ∨ Left callee entry callers u) →
      u.step m config = .ok (v, event) →
      Arranged m v ∧ (Within callee entry callers v ∨ Left callee entry callers v) := by
    rintro u v event deeper ⟨arranged, within | left⟩ step
    · exact ⟨arranged.of_step step, within.of_step arranged step⟩
    · have back := congrArg List.length left.frames
      omega
  rcases (runs.preserves keeps sound ⟨arranged.of_step step, .inl inside⟩).2 with within | left
  · have deeper := within.length_lt
    omega
  · rw [waiting] at entered left
    exact ⟨callee, after, instr, entered, left.height, left.cells.symm, left.labels, left.frames⟩

namespace Sample

/-- The first function is about to call the second. -/
def beforeCall : State :=
  { cells := ⟨#[5, 5]⟩
    frames := [⟨0, 6, 0, 1, 0, 1⟩]
    labels := [⟨.loop, 0, 1, 2⟩, ⟨.block, 1, 1, 11⟩] }

/-- The second function has been entered, with its argument and a zero local. -/
def inCall : State :=
  { beforeCall with
    cells := ⟨#[5, 5, 0]⟩
    frames := [⟨1, 0, 1, 2, 2, 1⟩, ⟨0, 8, 0, 1, 0, 1⟩] }

/-- The second function has returned. -/
def afterCall : State :=
  { beforeCall with frames := [⟨0, 8, 0, 1, 0, 1⟩] }

end Sample

/-- The theorem at a call from inside a `loop` in a `block`: the callee starts on its argument, at
height one, and leaves one cell there. -/
theorem caller_kept_by_nested_call :
    ∃ (entry t : State) (callee : Frame) (after : Nat),
      InstrAt (Sample.program.code 0) 6 .call after ∧
      entry.frames = [callee, ⟨0, after, 0, 1, 0, 1⟩] ∧
      t.cells.height = callee.base + callee.resultCount ∧
      t.cells.toList.take callee.base = entry.cells.toList.take callee.base ∧
      t.labels = entry.labels ∧ t.frames = [⟨0, after, 0, 1, 0, 1⟩] := by
  obtain ⟨record, visits⟩ := Sample.visits_of_stepsWhile
    (show State.stepsWhile Sample.program {} State.Running 3 _ = some Sample.beforeCall by
      decide +kernel)
  have step : (Sample.beforeCall.step Sample.program {}) =
      .ok (Sample.inCall, some (.entered 1 2)) := Sample.ok_of_toOption (by decide +kernel)
  obtain ⟨begun, advanced, sound⟩ := State.advance_of_step (visits.sound Sample.history) step
  obtain ⟨final, runs⟩ := State.RunsWhile.of_stepsWhile sound
    (show State.stepsWhile Sample.program {} (fun u => 1 < u.frames.length) 6 Sample.inCall =
      some Sample.afterCall by decide +kernel)
  have stands : OpcodeAt (Sample.program.code 0) 6 .call := ⟨0x10, by decide, by decide⟩
  obtain ⟨callee, after, kept⟩ :=
    caller_kept_by_call Sample.history visits rfl stands (.inl rfl) advanced runs rfl
  exact ⟨Sample.inCall, Sample.afterCall, callee, after, kept⟩

end Wasm
