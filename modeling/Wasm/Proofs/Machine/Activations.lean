import Wasm.Proofs.Machine.Runs

/-!
Activations with the labels that they have opened.

`State.activations` cuts the one label stack into the parts that belong to each activation: a part
reaches from the activation's `labelBase` up to that of the next one, or to the top. `Stacked P`
says that the cuts fit and that `P` holds of every activation with its part; it is the form in which
invariants about labels are proved.

* `Stacked.effect`: a step from such a state is one of the cases of `State.Effect`;
* `Stacked.of_effect`, `Stacked.of_step`: to keep `P` on all activations it is enough to look at the
  running one and at the one that a call begins.
-/

namespace Wasm

/-- Every activation with the part of the label stack above its `labelBase`, the first one up to the
top and each other one up to the `labelBase` of the one before. -/
def activationsOf : List Frame → List Label → List (Frame × List Label)
  | [], _ => []
  | frame :: frames, labels =>
    let own := labels.length - frame.labelBase
    (frame, labels.take own) :: activationsOf frames (labels.drop own)

/-- The activations of a state, the running one first, each with the labels that it has opened. -/
def State.activations (s : State) : List (Frame × List Label) :=
  activationsOf s.frames s.labels

/-- The part of the running activation is what lies on top of the other labels. -/
theorem activationsOf_cons {frame : Frame} {frames : List Frame} {own rest : List Label}
    (base : frame.labelBase = rest.length) :
    activationsOf (frame :: frames) (own ++ rest) = (frame, own) :: activationsOf frames rest := by
  have count : (own ++ rest).length - frame.labelBase = own.length := by
    simp [base]
  simp only [activationsOf, count, List.take_left, List.drop_left]

/-- The label stack consists of the activations' parts, and `P` holds of each with its part. -/
inductive Stacked (P : Frame → List Label → Prop) : List Frame → List Label → Prop where
  | nil : Stacked P [] []
  | cons {frame frames own rest} (base : frame.labelBase = rest.length) (holds : P frame own)
      (below : Stacked P frames rest) : Stacked P (frame :: frames) (own ++ rest)

namespace Stacked

variable {P Q : Frame → List Label → Prop} {frames : List Frame} {labels : List Label}

theorem forall_activations (stacked : Stacked P frames labels) :
    ∀ activation ∈ activationsOf frames labels, P activation.1 activation.2 := by
  induction stacked with
  | nil =>
    intro activation member
    cases member
  | @cons frame frames own rest base holds below ih =>
    intro activation member
    rw [activationsOf_cons base] at member
    rcases List.mem_cons.mp member with rfl | member
    · exact holds
    · exact ih activation member

theorem exists_own (stacked : Stacked P frames labels) :
    ∀ frame ∈ frames, ∃ own, P frame own := by
  induction stacked with
  | nil =>
    intro frame member
    cases member
  | cons base holds below ih =>
    intro frame member
    rcases List.mem_cons.mp member with rfl | member
    · exact ⟨_, holds⟩
    · exact ih frame member

/-- A new activation has no labels yet. -/
theorem push {frame : Frame} (base : frame.labelBase = labels.length) (holds : P frame [])
    (below : Stacked P frames labels) : Stacked P (frame :: frames) labels :=
  cons base holds below

theorem labelBase_le (stacked : Stacked P frames labels) :
    ∀ frame ∈ frames, frame.labelBase ≤ labels.length := by
  induction stacked with
  | nil =>
    intro frame member
    cases member
  | cons base holds below ih =>
    intro frame member
    rw [List.length_append]
    rcases List.mem_cons.mp member with rfl | member
    · omega
    · have lower := ih frame member
      omega

/-- The parts of the activations start one above the other. -/
theorem labelBase_mono (stacked : Stacked P frames labels) {i : Nat} {upper lower : Frame}
    (first : frames[i]? = some upper) (second : frames[i + 1]? = some lower) :
    lower.labelBase ≤ upper.labelBase := by
  induction stacked generalizing i with
  | nil => cases first
  | cons base holds below ih =>
    cases i with
    | zero =>
      cases first
      rw [base]
      exact below.labelBase_le lower (List.mem_of_getElem? second)
    | succ i => exact ih first second

variable {m : Module} {config : Config} {frame : Frame} {cells : Cells} {t : State}
  {event : Option Event}

/-- A step from a state with activations is a step of the running one. -/
theorem effect (stacked : Stacked P (frame :: frames) labels)
    (step : (⟨cells, frame :: frames, labels⟩ : State).step m config = .ok (t, event)) :
    ∃ own rest fetched, labels = own ++ rest ∧ frame.labelBase = rest.length ∧ P frame own ∧
      Stacked P frames rest ∧ fetch m cells.height frame = .ok fetched ∧
      State.Effect m config (m.scan frame.func) frame fetched cells frames own rest t event := by
  cases stacked with
  | @cons _ _ own rest base holds below =>
    unfold State.step at step
    cases fetched : fetch m cells.height frame with
    | error e => simp [fetched] at step
    | ok instr =>
      simp only [fetched] at step
      exact ⟨own, rest, instr, rfl, base, holds, below, rfl, State.effect_of_exec base step⟩

variable {own rest : List Label} {fetched : Fetched}
  {targets : Nat → Except DecodeError BlockTargets}

/-- A step keeps `P` on all activations when it keeps it on the running one, also when that one is
left waiting for a call, and when a new activation starts with it. -/
theorem of_effect (base : frame.labelBase = rest.length) (below : Stacked P frames rest)
    (inner : ∀ cells' own' ip, Inner targets frame fetched cells own cells' own' ip →
      P { frame with ip } own')
    (waits : ∀ func cells', Calls m frame cells fetched.instr func cells' →
      P { frame with ip := fetched.next } own)
    (enters : ∀ func callee type cells' labels', m.funcs[func]? = some callee →
      m.types[callee.type]? = some type → type.results.length ≤ 1 →
      P (State.entered func callee type cells' labels') [])
    (effect : State.Effect m config targets frame fetched cells frames own rest t event) :
    Stacked P t.frames t.labels := by
  rcases effect with ⟨cells', own', ip, stays, rfl, rfl⟩ | ⟨cells', ends, left⟩ |
    ⟨func, cells', calls, entered⟩
  · exact .cons base (inner _ _ _ stays) below
  · obtain ⟨-, kept, -, rfl, rfl⟩ := (State.leave_eq_ok_iff base).mp left
    exact below
  · obtain ⟨callee, type, known, typed, single, -, -, -, rfl, rfl⟩ :=
      State.enter_eq_ok_iff.mp entered
    have waiting : Stacked P ({ frame with ip := fetched.next } :: frames) (own ++ rest) :=
      .cons base (waits _ _ calls) below
    exact .push rfl (enters _ _ _ _ _ known typed single) waiting

/-- The same for a step from any state, when `P` is kept whatever instruction is fetched. -/
theorem of_step {s : State}
    (inner : ∀ {frame own fetched cells cells' own' ip}, P frame own →
      fetch m cells.height frame = .ok fetched →
      Inner (m.scan frame.func) frame fetched cells own cells' own' ip → P { frame with ip } own')
    (waits : ∀ {frame own fetched cells func cells'}, P frame own →
      fetch m cells.height frame = .ok fetched → Calls m frame cells fetched.instr func cells' →
      P { frame with ip := fetched.next } own)
    (enters : ∀ func callee type cells' labels', m.funcs[func]? = some callee →
      m.types[callee.type]? = some type → type.results.length ≤ 1 →
      P (State.entered func callee type cells' labels') [])
    (stacked : Stacked P s.frames s.labels) (step : s.step m config = .ok (t, event)) :
    Stacked P t.frames t.labels := by
  obtain ⟨cells, frames, labels⟩ := s
  cases frames with
  | nil =>
    cases step
    exact stacked
  | cons frame frames =>
    obtain ⟨own, rest, fetched, rfl, base, holds, below, fetches, effect⟩ := stacked.effect step
    apply of_effect base below _ _ enters effect
    · intro cells' own' ip stays
      exact inner holds fetches stays
    · intro func cells' calls
      exact waits holds fetches calls

/-- An invocation starts with one activation, which has opened nothing. -/
theorem of_start {func : Nat} {args : List Cell} {type : Option ValType}
    (enters : ∀ callee type cells' labels', m.funcs[func]? = some callee →
      m.types[callee.type]? = some type → type.results.length ≤ 1 →
      P (State.entered func callee type cells' labels') [])
    (begun : Instance.start m config .empty func args = .ok ((t, event), type)) :
    Stacked P t.frames t.labels := by
  obtain ⟨_, -, -, -, -, entered⟩ := Instance.start_eq_ok_iff.mp begun
  obtain ⟨callee, type, known, typed, single, -, -, -, rfl, rfl⟩ :=
    State.enter_eq_ok_iff.mp entered
  exact .push rfl (enters _ _ _ _ known typed single) .nil

end Stacked

end Wasm
