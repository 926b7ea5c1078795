import Wasm.Proofs.Machine.Control
import Wasm.Proofs.Machine.Heights

/-!
How much of the stacks a run can use.

The limits are checked when a function is entered and nowhere else, and code is run as it is, so
nothing seems to stop a loop from pushing cells for as long as it runs. What stops it is its offset:
every instruction has a byte for each cell that it adds, and every way back in the code goes to a
label that was opened there, at the height that the stack had then. So the operands of an activation
never outnumber the bytes before its offset.

* `Contained.of_inner`: an instruction that stays in its activation keeps this, for the operands and
  for the heights of the labels;
* `WithinLimits.of_step`: so does every step, for all activations;
* `limits_between_steps`: depth, bases and height in every state of an invocation.
-/

namespace Wasm

/-! ### Offsets that grow -/

section Fetched

variable {m : Module} {height : Nat} {frame : Frame} {fetched : Fetched}

theorem Module.blockArity_le {type : BlockType} {arity : Nat}
    (typed : m.blockArity type = .ok arity) : arity ≤ 1 := by
  unfold blockArity at typed
  split at typed
  · cases typed
    exact Nat.zero_le 1
  · cases typed
    exact Nat.le_refl 1
  · split at typed
    · cases typed
    split at typed
    · cases typed
    · rename_i supported
      cases typed
      exact Nat.not_lt.mp fun many => supported (.inr many)

/-- The instructions that are read have at most one result, if they open a block. -/
theorem arity_of_fetch (fetches : fetch m height frame = .ok fetched) : fetched.arity ≤ 1 := by
  unfold fetch at fetches
  split at fetches
  · cases fetches
  split at fetches
  · cases fetches
    exact Nat.zero_le 1
  split at fetches
  · cases fetches
  split at fetches
  · cases fetches
  split at fetches
  · cases fetches
  split at fetches
  · cases fetches
  split at fetches
  · obtain ⟨arity, typed, rfl⟩ := except_map_eq_ok_iff.mp fetches
    exact m.blockArity_le typed
  · obtain ⟨arity, typed, rfl⟩ := except_map_eq_ok_iff.mp fetches
    exact m.blockArity_le typed
  · obtain ⟨arity, typed, rfl⟩ := except_map_eq_ok_iff.mp fetches
    exact m.blockArity_le typed
  · cases fetches
    exact Nat.zero_le 1

/-- What is read, other than a return behind the code, has bytes. -/
theorem lt_next_of_fetch (fetches : fetch m height frame = .ok fetched)
    (live : fetched.instr ≠ .ret) : frame.ip < fetched.next := by
  rcases fetch_spec fetches with ⟨-, ret⟩ | ⟨opcode, instr, -⟩
  · exact absurd ret live
  · exact instr.lt_next

end Fetched

/-! ### One activation -/

/-- The labels of an activation are at heights that its offsets allow: each below the offset that
the activation has come to, and below the offsets that the labels inside it lead to. -/
structure Contained (frame : Frame) (own : List Label) : Prop where
  single : ∀ label ∈ own, label.resultCount ≤ 1
  opened : ∀ label ∈ own, label.height < frame.operandBase + frame.ip
  onward : ∀ label ∈ own, label.height + label.arity ≤ frame.operandBase + label.continuation
  outward : own.Pairwise fun inner outer =>
    outer.height < frame.operandBase + inner.continuation

namespace Contained

variable {frame : Frame} {own : List Label}

theorem nil : Contained frame [] :=
  ⟨nofun, nofun, nofun, .nil⟩

theorem advance {ip : Nat} (contained : Contained frame own) (forwards : frame.ip ≤ ip) :
    Contained { frame with ip } own := by
  refine ⟨contained.single, ?_, contained.onward, contained.outward⟩
  intro label member
  exact Nat.lt_of_lt_of_le (contained.opened label member) (Nat.add_le_add_left forwards _)

/-- A block that is opened at the offset `frame.ip`, with the activation going on behind it. -/
theorem push {label : Label} {ip : Nat} (contained : Contained frame own)
    (low : label.height ≤ frame.operandBase + frame.ip) (forwards : frame.ip < ip)
    (single : label.resultCount ≤ 1)
    (onward : label.height + label.arity ≤ frame.operandBase + label.continuation)
    (behind : frame.ip ≤ label.continuation) : Contained { frame with ip } (label :: own) := by
  have older := contained.advance (Nat.le_of_lt forwards)
  refine ⟨?_, ?_, ?_, ?_⟩
  · exact List.forall_mem_cons.mpr ⟨single, older.single⟩
  · refine List.forall_mem_cons.mpr ⟨?_, older.opened⟩
    exact Nat.lt_of_le_of_lt low (Nat.add_lt_add_left forwards _)
  · exact List.forall_mem_cons.mpr ⟨onward, older.onward⟩
  · refine List.pairwise_cons.mpr ⟨?_, older.outward⟩
    intro outer member
    exact Nat.lt_of_lt_of_le (contained.opened outer member) (Nat.add_le_add_left behind _)

/-- The same for a block that a branch to it leaves behind its `end`. -/
theorem push_block {kind : LabelKind} {arity height target ip : Nat}
    (contained : Contained frame own) (branches : kind ≠ .loop)
    (low : height ≤ frame.operandBase + frame.ip) (forwards : frame.ip < ip) (single : arity ≤ 1)
    (behind : frame.ip ≤ target) :
    Contained { frame with ip } (⟨kind, arity, height, target⟩ :: own) := by
  have shape : Label.arity ⟨kind, arity, height, target⟩ = arity ∧
      Label.continuation ⟨kind, arity, height, target⟩ = target + 1 := Label.exit_of_block branches
  refine contained.push low forwards single ?_ ?_
  · rw [shape.1, shape.2]
    change height + arity ≤ _
    omega
  · rw [shape.2]
    omega

/-- Where a branch to a label goes on, the labels around it are below the offset. -/
theorem out {depth : Nat} {label : Label} {outer : List Label} (contained : Contained frame own)
    (target : own.drop depth = label :: outer) :
    Contained { frame with ip := label.continuation } outer ∧
      label.height + label.arity ≤ frame.operandBase + label.continuation := by
  have inside : ∀ other ∈ label :: outer, other ∈ own := by
    intro other member
    rw [← target] at member
    exact List.mem_of_mem_drop member
  have ordered : (own.drop depth).Pairwise _ := contained.outward.drop
  rw [target, List.pairwise_cons] at ordered
  refine ⟨⟨?_, ordered.1, ?_, ordered.2⟩, contained.onward label (inside label (.head _))⟩
  · intro other member
    exact contained.single other (inside other (.tail _ member))
  · intro other member
    exact contained.onward other (inside other (.tail _ member))

variable {m : Module} {height ip : Nat} {fetched : Fetched} {cells cells' : Cells}
  {own' : List Label}

/-- An instruction that stays in its activation leaves no more operands than bytes before the
offset that it goes to. -/
theorem of_inner (contained : Contained frame own)
    (low : cells.height ≤ frame.operandBase + frame.ip)
    (fetches : fetch m height frame = .ok fetched)
    (inner : Inner (m.scan frame.func) frame fetched cells own cells' own' ip) :
    Contained { frame with ip } own' ∧ cells'.height ≤ frame.operandBase + ip := by
  have single := arity_of_fetch fetches
  have forwards : fetched.instr ≠ .ret → frame.ip < fetched.next := lt_next_of_fetch fetches
  cases inner with
  | @plain _ op _ instr run =>
    have next := forwards (by simp [instr])
    have effect := Plain.height_of_exec run
    have one := op.pushes_le
    exact ⟨contained.advance (Nat.le_of_lt next), by omega⟩
  | block instr scanned =>
    have next := forwards (by simp [instr])
    have ending := (BlockTargets.le_of_scan scanned).1
    exact ⟨contained.push_block nofun low next single (by omega), by omega⟩
  | loop instr =>
    have next := forwards (by simp [instr])
    exact ⟨contained.push low next single low (Nat.le_refl _), by omega⟩
  | thenArm instr scanned popped holds =>
    have next := forwards (by simp [instr])
    have ending := (BlockTargets.le_of_scan scanned).1
    have one := (Frame.height_of_pop popped).2
    exact ⟨contained.push_block nofun (by omega) next single (by omega), by omega⟩
  | elseArm instr scanned popped fails arm =>
    have next := forwards (by simp [instr])
    obtain ⟨ending, arms⟩ := BlockTargets.le_of_scan scanned
    have behind := arms _ arm
    have one := (Frame.height_of_pop popped).2
    exact ⟨contained.push_block nofun (by omega) (by omega) single (by omega), by omega⟩
  | noArm instr scanned popped fails arm =>
    have next := forwards (by simp [instr])
    have ending := (BlockTargets.le_of_scan scanned).1
    have one := (Frame.height_of_pop popped).2
    exact ⟨contained.advance (by omega), by omega⟩
  | @endBlock label _ _ instr unwound =>
    have next := forwards (by simp [instr])
    have height := Cells.height_of_unwind? unwound
    have opened := contained.opened label (.head _)
    have results := contained.single label (.head _)
    have around : Contained frame own' :=
      ⟨fun other member => contained.single other (.tail _ member),
        fun other member => contained.opened other (.tail _ member),
        fun other member => contained.onward other (.tail _ member),
        (List.pairwise_cons.mp contained.outward).2⟩
    exact ⟨around.advance (Nat.le_of_lt next), by omega⟩
  | branch taken target unwound =>
    obtain ⟨around, onward⟩ := contained.out target
    have height := Cells.height_of_unwind? unwound
    exact ⟨around, by omega⟩
  | pass instr popped fails =>
    have next := forwards (by simp [instr])
    have one := (Frame.height_of_pop popped).2
    exact ⟨contained.advance (Nat.le_of_lt next), by omega⟩

end Contained

section Calls

variable {m : Module} {frame : Frame} {cells cells' : Cells} {instr : Instr} {func : Nat}

theorem Calls.ne_ret (calls : Calls m frame cells instr func cells') : instr ≠ .ret := by
  cases calls with
  | direct => exact nofun
  | indirect => exact nofun

theorem Calls.height_le (calls : Calls m frame cells instr func cells') :
    cells'.height ≤ cells.height := by
  cases calls with
  | direct => exact Nat.le_refl _
  | indirect _ popped _ =>
    have one := (Frame.height_of_pop popped).2
    omega

end Calls

/-! ### All activations -/

/-- The stack is no higher than the running activation's offset allows, and what each activation is
to leave is no higher than its caller's offset allows. -/
def Ceilings : Nat → List Frame → Prop
  | _, [] => True
  | height, frame :: frames =>
    height ≤ frame.operandBase + frame.ip ∧ Ceilings (frame.base + frame.resultCount) frames

/-- What the limits allow, and what makes it stay so. -/
structure WithinLimits (config : Config) (s : State) : Prop where
  depth : s.frames.length ≤ config.maxCallDepth
  bases : ∀ frame ∈ s.frames, frame.operandBase ≤ config.maxStackHeight
  ceilings : Ceilings s.cells.height s.frames
  stacked : Stacked Contained s.frames s.labels

namespace WithinLimits

variable {m : Module} {config : Config} {s t : State} {event : Option Event} {cells : Cells}
  {frames : List Frame} {labels : List Label}

/-- A function is entered at its own floor, and only within the limits. -/
theorem of_enter {func : Nat}
    (bases : ∀ frame ∈ frames, frame.operandBase ≤ config.maxStackHeight)
    (ceilings : ∀ result, result ≤ cells.height + 1 → Ceilings result frames)
    (stacked : Stacked Contained frames labels)
    (entered : (⟨cells, frames, labels⟩ : State).enter m config func = .ok (t, event)) :
    WithinLimits config t := by
  obtain ⟨callee, type, -, -, single, shallow, arguments, low, rfl, rfl⟩ :=
    State.enter_eq_ok_iff.mp entered
  refine ⟨shallow, List.forall_mem_cons.mpr ⟨low, bases⟩, ⟨?_, ceilings _ ?_⟩,
    .push rfl .nil stacked⟩
  · simp only [State.entered, Frame.operandBase, Cells.height_pushZeros]
    omega
  · simp only [State.entered]
    omega

theorem of_start {func : Nat} {args : List Cell} {type : Option ValType}
    (begun : Instance.start m config .empty func args = .ok ((s, event), type)) :
    WithinLimits config s := by
  obtain ⟨_, -, -, -, -, entered⟩ := Instance.start_eq_ok_iff.mp begun
  refine of_enter ?_ ?_ .nil entered
  · exact nofun
  · exact fun _ _ => trivial

/-- No step leaves the limits. -/
theorem of_step (within : WithinLimits config s) (step : s.step m config = .ok (t, event)) :
    WithinLimits config t := by
  obtain ⟨cells, frames, labels⟩ := s
  cases frames with
  | nil =>
    cases step
    exact within
  | cons frame frames =>
    obtain ⟨own, rest, fetched, rfl, base, contained, below, fetches, effect⟩ :=
      within.stacked.effect step
    obtain ⟨low, ceilings⟩ := within.ceilings
    change cells.height ≤ _ at low
    obtain ⟨floor, bases⟩ := List.forall_mem_cons.mp within.bases
    rcases effect with ⟨cells', own', ip, stays, rfl, rfl⟩ | ⟨cells', ends, left⟩ |
      ⟨func, cells', calls, entered⟩
    · obtain ⟨kept, height⟩ := contained.of_inner low fetches stays
      exact ⟨within.depth, List.forall_mem_cons.mpr ⟨floor, bases⟩, ⟨height, ceilings⟩,
        .cons base kept below⟩
    · obtain ⟨-, kept, unwound, rfl, rfl⟩ := (State.leave_eq_ok_iff base).mp left
      have height := Cells.height_of_unwind? unwound
      refine ⟨Nat.le_of_succ_le within.depth, bases, ?_, below⟩
      rw [height]
      exact ceilings
    · have next := lt_next_of_fetch fetches calls.ne_ret
      have popped := calls.height_le
      have waiting : Stacked Contained ({ frame with ip := fetched.next } :: frames)
          (own ++ rest) := .cons base (contained.advance (Nat.le_of_lt next)) below
      refine of_enter ?_ ?_ waiting entered
      · exact List.forall_mem_cons.mpr ⟨floor, bases⟩
      · intro result high
        refine ⟨?_, ceilings⟩
        change result ≤ frame.operandBase + fetched.next
        omega

theorem of_visits {inst : Instance} {func : Nat} {args : List Cell} {record : Record}
    (history : Instance.History m config inst) (visits : inst.Visits func args s record) :
    WithinLimits config s :=
  visits.induct (WithinLimits config) history (fun _ _ _ begun => of_start begun)
    (fun _ _ _ within => within.of_step)

end WithinLimits

/-- In every state of an invocation, however long it has run and whatever the code, there are at
most as many activations as the limit says, the operands of each start at or below the limit for
the stack, and the running one has no more operands than bytes before its offset. -/
theorem limits_between_steps {m : Module} {config : Config} {inst : Instance} {func : Nat}
    {args : List Cell} {s : State} {record : Record} (history : Instance.History m config inst)
    (visits : inst.Visits func args s record) :
    s.frames.length ≤ config.maxCallDepth ∧
      (∀ frame ∈ s.frames, frame.operandBase ≤ config.maxStackHeight) ∧
      ∀ frame, s.frames.head? = some frame →
        s.cells.height ≤ frame.operandBase + frame.ip ∧
          s.cells.height ≤ config.maxStackHeight + (m.code frame.func).size := by
  have within := WithinLimits.of_visits history visits
  refine ⟨within.depth, within.bases, ?_⟩
  intro frame first
  obtain ⟨frames, running⟩ := List.head?_eq_some_iff.mp first
  have ceilings := within.ceilings
  rw [running] at ceilings
  have member : frame ∈ s.frames := by simp [running]
  obtain ⟨own, opens, boundary, -⟩ := (Placed.of_visits history visits).exists_own frame member
  have inside := boundary.le_size
  have low := within.bases frame member
  have high := ceilings.1
  exact ⟨high, by omega⟩

/-- The theorem at a state two calls deep, on an instance that has been used before. -/
theorem limits_in_nested_call :
    Sample.inNestedCall.frames.length ≤ 1024 ∧
      (∀ frame ∈ Sample.inNestedCall.frames, frame.operandBase ≤ 0x100000) ∧
      Sample.inNestedCall.cells.height ≤ 3 + 4 ∧
      Sample.inNestedCall.cells.height ≤ 0x100000 + (Sample.program.code 1).size := by
  obtain ⟨record, visits⟩ := Sample.visits_inNestedCall
  obtain ⟨depth, bases, running⟩ := limits_between_steps Sample.history visits
  exact ⟨depth, bases, running ⟨1, 4, 1, 2, 2, 1⟩ rfl⟩

end Wasm
