import Wasm.Proofs.Instr.Boundary
import Wasm.Proofs.Machine.Activations

/-!
The open labels of a run are the open blocks of the code.

The machine keeps no structured program: it moves an offset through bytes and pushes and drops
labels as it goes. `Placed` says that an activation is nevertheless where the structure of its code
says it is. Its offset is one that the walk through the code comes to, and its labels are, one by
one, the blocks that are open there (`Tracks`), each with the target that a branch to it needs
(`Label.Marks`).

* `Placed.of_inner`: no instruction that stays in its activation disturbs this, whichever way it
  moves the offset;
* `control_between_steps`: it holds of every activation between any two steps of an invocation.
-/

namespace Wasm

/-- A label belongs to an open block: it is of the same kind, and its target is the offset of the
`loop`, or of the `end` that belongs to the block. -/
structure Label.Marks (code : Bytes) (label : Label) (o : Opener) : Prop where
  kind_eq : label.kind = o.kind
  loop : o.kind = .loop → label.target = o.offset
  ending : o.kind ≠ .loop → o.ClosedAt code label.target

/-- A branch to a loop carries nothing, and goes back to the `loop`. -/
theorem Label.exit_of_loop {label : Label} (loop : label.kind = .loop) :
    label.arity = 0 ∧ label.continuation = label.target := by
  simp only [arity, continuation, loop, and_self]

/-- A branch to any other block carries its results, and goes on behind the `end`. -/
theorem Label.exit_of_block {label : Label} (block : label.kind ≠ .loop) :
    label.arity = label.resultCount ∧ label.continuation = label.target + 1 := by
  unfold arity continuation
  cases kind : label.kind with
  | loop => exact absurd kind block
  | block | cond => exact ⟨rfl, rfl⟩

/-- Labels and open blocks belong together one by one, in the same order. -/
inductive Tracks (code : Bytes) : List Label → List Opener → Prop where
  | nil : Tracks code [] []
  | cons {label labels o opens} (marks : label.Marks code o) (rest : Tracks code labels opens) :
      Tracks code (label :: labels) (o :: opens)

namespace Tracks

variable {code : Bytes} {labels outer : List Label} {opens : List Opener} {label : Label}

/-- What lies behind the first `depth` labels belongs to what lies behind as many open blocks. -/
theorem drop {depth : Nat} (tracks : Tracks code labels opens)
    (target : labels.drop depth = label :: outer) :
    ∃ inner o rest, opens = inner ++ o :: rest ∧ label.Marks code o ∧ Tracks code outer rest := by
  induction tracks generalizing depth with
  | nil => simp at target
  | @cons first labels o opens marks rest ih =>
    cases depth with
    | zero =>
      cases target
      exact ⟨[], o, opens, rfl, marks, rest⟩
    | succ depth =>
      obtain ⟨inner, o', rest', rfl, marks', tracks'⟩ := ih target
      exact ⟨o :: inner, o', rest', rfl, marks', tracks'⟩

end Tracks

/-- The offset of an activation is one that the walk through its code comes to, and the labels that
it has opened are the blocks that are open there. -/
def Placed (m : Module) (frame : Frame) (own : List Label) : Prop :=
  ∃ opens, Boundary (m.code frame.func) frame.ip opens ∧ Tracks (m.code frame.func) own opens

namespace Placed

variable {m : Module} {frame : Frame} {own : List Label}

/-- Where a branch to a label goes on, the walk has exactly the blocks around it open. -/
theorem continuation {code : Bytes} {pos : Nat} {inner rest : List Opener} {o : Opener}
    {label : Label} (boundary : Boundary code pos (inner ++ o :: rest))
    (marks : label.Marks code o) : Boundary code label.continuation rest := by
  have same := marks.kind_eq
  by_cases loop : o.kind = .loop
  · rw [(Label.exit_of_loop (same.trans loop)).2, marks.loop loop]
    exact boundary.opener rfl
  · rw [(Label.exit_of_block (same ▸ loop)).2]
    exact boundary.behind_closed (marks.ending loop)

variable {opens : List Opener} {height : Nat} {fetched : Fetched}

/-- Behind the instruction that the machine has read, the walk has the blocks open that the
instruction leaves open. -/
theorem behind (boundary : Boundary (m.code frame.func) frame.ip opens)
    (fetches : fetch m height frame = .ok fetched) (live : fetched.instr ≠ .ret) :
    Boundary (m.code frame.func) fetched.next (fetched.instr.nest frame.ip opens) := by
  rcases fetch_spec fetches with ⟨-, ret⟩ | ⟨opcode, instr, decodes⟩
  · exact absurd ret live
  · rw [← decodes.nest_eq]
    exact boundary.next instr

/-- The machine reads an instruction that opens a block at the opcode of that block. -/
theorem opener_at {kind : LabelKind} (fetches : fetch m height frame = .ok fetched)
    (opens : fetched.instr.nest 0 [] = [⟨kind, 0⟩]) :
    InstrAt (m.code frame.func) frame.ip kind.opcode fetched.next := by
  rcases fetch_spec fetches with ⟨-, ret⟩ | ⟨opcode, instr, decodes⟩
  · rw [ret] at opens
    cases opens
  · rw [← decodes.opcode_eq opens]
    exact instr

/-- What a scan behind the opcode of a block finds: the `end` that belongs to the block, and an
`else` reached with the block innermost. -/
theorem targets_at {kind : LabelKind} {found : BlockTargets}
    (boundary : Boundary (m.code frame.func) frame.ip opens)
    (instr : InstrAt (m.code frame.func) frame.ip kind.opcode fetched.next)
    (scanned : m.scan frame.func fetched.next = .ok found) :
    Opener.ClosedAt (m.code frame.func) ⟨kind, frame.ip⟩ found.endAt ∧
      ∀ e, found.elseAt = some e →
        Boundary (m.code frame.func) (e + 1) (⟨kind, frame.ip⟩ :: opens) := by
  obtain ⟨closes, arms⟩ := BlockTargets.scan_spec scanned (boundary.behind_opener instr)
  refine ⟨⟨fetched.next, instr, closes⟩, ?_⟩
  intro e arm
  obtain ⟨atElse, stands⟩ := arms e arm
  exact atElse.behind_else stands

/-- No instruction that stays in its activation takes it away from its place. -/
theorem of_inner {cells cells' : Cells} {own' : List Label} {ip : Nat}
    (placed : Placed m frame own) (fetches : fetch m height frame = .ok fetched)
    (inner : Inner (m.scan frame.func) frame fetched cells own cells' own' ip) :
    Placed m { frame with ip } own' := by
  obtain ⟨opens, boundary, tracks⟩ := placed
  -- An instruction that opens no block and closes none goes on behind itself.
  have onward : fetched.instr ≠ .ret → fetched.instr.nest frame.ip opens = opens →
      Placed m { frame with ip := fetched.next } own := by
    intro live flat
    have next := behind boundary fetches live
    rw [flat] at next
    exact ⟨opens, next, tracks⟩
  cases inner with
  | plain instr run =>
    apply onward
    · simp [instr]
    · simp [instr, Instr.nest]
  | pass instr popped fails =>
    apply onward
    · simp [instr]
    · simp [instr, Instr.nest]
  | block instr scanned =>
    have stands : InstrAt (m.code frame.func) frame.ip (LabelKind.opcode .block) fetched.next :=
      opener_at fetches (by simp [instr, Instr.nest])
    obtain ⟨closed, -⟩ := targets_at boundary stands scanned
    exact ⟨_, boundary.behind_opener stands, .cons ⟨rfl, nofun, fun _ => closed⟩ tracks⟩
  | loop instr =>
    have stands : InstrAt (m.code frame.func) frame.ip (LabelKind.opcode .loop) fetched.next :=
      opener_at fetches (by simp [instr, Instr.nest])
    have marks : Label.Marks (m.code frame.func) ⟨.loop, fetched.arity, cells.height, frame.ip⟩
        ⟨.loop, frame.ip⟩ := ⟨rfl, fun _ => rfl, fun ending => absurd rfl ending⟩
    exact ⟨_, boundary.behind_opener stands, .cons marks tracks⟩
  | thenArm instr scanned popped holds =>
    have stands : InstrAt (m.code frame.func) frame.ip (LabelKind.opcode .cond) fetched.next :=
      opener_at fetches (by simp [instr, Instr.nest])
    obtain ⟨closed, -⟩ := targets_at boundary stands scanned
    exact ⟨_, boundary.behind_opener stands, .cons ⟨rfl, nofun, fun _ => closed⟩ tracks⟩
  | elseArm instr scanned popped fails arm =>
    have stands : InstrAt (m.code frame.func) frame.ip (LabelKind.opcode .cond) fetched.next :=
      opener_at fetches (by simp [instr, Instr.nest])
    obtain ⟨closed, arms⟩ := targets_at boundary stands scanned
    exact ⟨_, arms _ arm, .cons ⟨rfl, nofun, fun _ => closed⟩ tracks⟩
  | noArm instr scanned popped fails arm =>
    have stands : InstrAt (m.code frame.func) frame.ip (LabelKind.opcode .cond) fetched.next :=
      opener_at fetches (by simp [instr, Instr.nest])
    obtain ⟨closed, -⟩ := targets_at boundary stands scanned
    have inside : Boundary (m.code frame.func) fetched.next ([] ++ ⟨.cond, frame.ip⟩ :: opens) :=
      boundary.behind_opener stands
    exact ⟨opens, inside.behind_closed closed, tracks⟩
  | endBlock instr unwound =>
    have next := behind boundary fetches (by simp [instr])
    rw [instr] at next
    cases tracks with
    | cons marks rest => exact ⟨_, next, rest⟩
  | branch taken target unwound =>
    obtain ⟨inner, o, rest, rfl, marks, outer⟩ := tracks.drop target
    exact ⟨rest, continuation boundary marks, outer⟩

/-- A call leaves its activation behind the instruction, with the same blocks open. -/
theorem of_calls {func : Nat} {cells cells' : Cells} (placed : Placed m frame own)
    (fetches : fetch m height frame = .ok fetched)
    (calls : Calls m frame cells fetched.instr func cells') :
    Placed m { frame with ip := fetched.next } own := by
  obtain ⟨opens, boundary, tracks⟩ := placed
  have flat : fetched.instr ≠ .ret ∧ fetched.instr.nest frame.ip opens = opens := by
    generalize fetched.instr = instr at calls
    cases calls with
    | direct => exact ⟨nofun, rfl⟩
    | indirect => exact ⟨nofun, rfl⟩
  have next := behind boundary fetches flat.1
  rw [flat.2] at next
  exact ⟨opens, next, tracks⟩

/-- An activation begins at the first offset, with no block open. -/
theorem entered (m : Module) (func : Nat) (callee : Func) (type : FuncType) (cells : Cells)
    (labels : List Label) : Placed m (State.entered func callee type cells labels) [] :=
  ⟨[], .start, .nil⟩

theorem of_start {config : Config} {func : Nat} {args : List Cell} {s : State}
    {event : Option Event} {type : Option ValType}
    (begun : Instance.start m config .empty func args = .ok ((s, event), type)) :
    Stacked (Placed m) s.frames s.labels :=
  .of_start (fun callee type cells labels _ _ _ => entered m func callee type cells labels) begun

/-- A step leaves every activation in its place. -/
theorem of_step {config : Config} {s t : State} {event : Option Event}
    (stacked : Stacked (Placed m) s.frames s.labels) (step : s.step m config = .ok (t, event)) :
    Stacked (Placed m) t.frames t.labels :=
  stacked.of_step of_inner of_calls
    (fun func callee type cells labels _ _ _ => entered m func callee type cells labels) step

/-- Every activation of a state between two steps of an invocation is in its place. -/
theorem of_visits {config : Config} {inst : Instance} {func : Nat} {args : List Cell} {s : State}
    {record : Record} (history : Instance.History m config inst)
    (visits : inst.Visits func args s record) : Stacked (Placed m) s.frames s.labels :=
  visits.induct (fun s => Stacked (Placed m) s.frames s.labels) history
    (fun _ _ _ begun => of_start begun) (fun _ _ _ stacked => of_step stacked)

end Placed

/-- Between any two steps of an invocation, whatever was invoked before and whatever the code, the
offset of every activation is one that the walk through its code comes to, and its labels are
exactly the blocks that are open there. -/
theorem control_between_steps {m : Module} {config : Config} {inst : Instance} {func : Nat}
    {args : List Cell} {s : State} {record : Record} (history : Instance.History m config inst)
    (visits : inst.Visits func args s record) :
    ∀ activation ∈ s.activations,
      activation.1.ip ≤ (m.code activation.1.func).size ∧
      ∃ opens, Boundary (m.code activation.1.func) activation.1.ip opens ∧
        Tracks (m.code activation.1.func) activation.2 opens := by
  intro activation member
  obtain ⟨opens, boundary, tracks⟩ :=
    (Placed.of_visits history visits).forall_activations activation member
  exact ⟨boundary.le_size, opens, boundary, tracks⟩

/-- The theorem at a state two calls deep: the function that waits has a `block` and a `loop` open.
-/
theorem control_in_nested_call :
    ∃ opens, Boundary (Sample.program.code 0) 8 opens ∧
      Tracks (Sample.program.code 0) [⟨.loop, 0, 1, 2⟩, ⟨.block, 1, 1, 11⟩] opens := by
  obtain ⟨record, visits⟩ := Sample.visits_inNestedCall
  have waiting : ((⟨0, 8, 0, 1, 0, 1⟩, [⟨.loop, 0, 1, 2⟩, ⟨.block, 1, 1, 11⟩]) :
      Frame × List Label) ∈ Sample.inNestedCall.activations := by
    decide
  exact (control_between_steps Sample.history visits _ waiting).2

end Wasm
