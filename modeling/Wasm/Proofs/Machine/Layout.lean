import Wasm.Proofs.Machine.Activations
import Wasm.Proofs.Module.WellTyped

/-!
The layout of the shared stacks.

All activations share one value stack and one label stack, addressed by plain heights. `Layout`
says how their regions lie in them: each activation's locals and operands above those of the one
that called it, each one's labels above the other's, and no label of an activation below its
operands' floor. `layout_between_steps` shows it for every state between two steps, whatever the
code.

`Guarded` lists what the layout makes impossible for the running activation: the lookups of its own
function, of a callee's type, of a local in range, of the results behind a length check and of an
open label all succeed.
-/

namespace Wasm

/-! ### Regions of the value stack -/

/-- The activations' regions lie one above the other, the first of them at or below `height`. -/
def Regions : Nat → List Frame → Prop
  | _, [] => True
  | height, frame :: frames => frame.operandBase ≤ height ∧ Regions frame.base frames

namespace Regions

variable {frames : List Frame} {low high : Nat}

theorem mono (le : low ≤ high) (regions : Regions low frames) : Regions high frames := by
  cases frames with
  | nil => trivial
  | cons frame frames => exact ⟨Nat.le_trans regions.1 le, regions.2⟩

/-- The activations lie below what is above their floor. -/
theorem of_floor_le (regions : Regions low frames) (le : State.floor frames ≤ high) :
    Regions high frames := by
  cases frames with
  | nil => trivial
  | cons frame frames => exact ⟨le, regions.2⟩

theorem operandBase_le_base (regions : Regions low frames) {i : Nat} {upper lower : Frame}
    (first : frames[i]? = some upper) (second : frames[i + 1]? = some lower) :
    lower.operandBase ≤ upper.base := by
  induction frames generalizing low i with
  | nil => cases first
  | cons frame frames ih =>
    cases i with
    | zero =>
      cases first
      cases frames with
      | nil => cases second
      | cons next frames =>
        cases second
        exact regions.2.1
    | succ i => exact ih regions.2 first second

end Regions

/-! ### What one instruction keeps -/

/-- No label lies below the floor of the activation that opened it. -/
def Floored (frame : Frame) (own : List Label) : Prop :=
  ∀ label ∈ own, frame.operandBase ≤ label.height

section Steps

variable {m : Module} {targets : Nat → Except DecodeError BlockTargets} {frame : Frame}
  {fetched : Fetched} {cells cells' : Cells} {own own' : List Label} {ip : Nat}

theorem Branches.keeps {instr : Instr} {depth : Nat} (floor : frame.operandBase ≤ cells.height)
    (taken : Branches frame cells instr depth cells') : frame.Keeps cells cells' := by
  cases taken with
  | elseArm => exact .refl floor
  | br => exact .refl floor
  | brIf popped _ => exact .of_pop popped
  | brTable popped => exact .of_pop popped

theorem Ends.keeps {instr : Instr} (floor : frame.operandBase ≤ cells.height)
    (ends : Ends frame cells instr own cells') : frame.Keeps cells cells' := by
  cases ends with
  | ret => exact .refl floor
  | endBlock => exact .refl floor
  | branch taken => exact taken.keeps floor

theorem Calls.keeps {instr : Instr} {func : Nat} (floor : frame.operandBase ≤ cells.height)
    (calls : Calls m frame cells instr func cells') : frame.Keeps cells cells' := by
  cases calls with
  | direct => exact .refl floor
  | indirect _ popped _ => exact .of_pop popped

theorem Floored.mem_of_drop {depth : Nat} {label : Label} {outer : List Label}
    (floored : Floored frame own) (target : own.drop depth = label :: outer) :
    frame.operandBase ≤ label.height ∧ Floored frame outer := by
  have inside : ∀ other ∈ label :: outer, other ∈ own := by
    intro other member
    rw [← target] at member
    exact List.mem_of_mem_drop member
  refine ⟨floored label (inside label (by simp)), ?_⟩
  intro other member
  exact floored other (inside other (List.mem_cons_of_mem _ member))

theorem Floored.nil : Floored frame [] := by
  intro label member
  cases member

theorem Floored.cons {label : Label} (low : frame.operandBase ≤ label.height)
    (floored : Floored frame own) : Floored frame (label :: own) := by
  intro other member
  rcases List.mem_cons.mp member with rfl | member
  · exact low
  · exact floored other member

/-- An instruction that stays in its activation touches no cell below its locals, and a label that
it opens is at the current height. -/
theorem Inner.keeps (floor : frame.operandBase ≤ cells.height) (floored : Floored frame own)
    (inner : Inner targets frame fetched cells own cells' own' ip) :
    frame.Keeps cells cells' ∧ Floored frame own' := by
  cases inner with
  | plain _ run => exact ⟨Plain.keeps_of_exec floor run, floored⟩
  | block _ _ => exact ⟨.refl floor, floored.cons floor⟩
  | loop _ => exact ⟨.refl floor, floored.cons floor⟩
  | thenArm _ _ popped _ =>
    have kept := Frame.Keeps.of_pop popped
    exact ⟨kept, floored.cons kept.floor⟩
  | elseArm _ _ popped _ _ =>
    have kept := Frame.Keeps.of_pop popped
    exact ⟨kept, floored.cons kept.floor⟩
  | noArm _ _ popped _ _ => exact ⟨.of_pop popped, floored⟩
  | endBlock _ unwound =>
    have low := floored _ (List.mem_cons_self ..)
    exact ⟨.of_unwind? low unwound, fun label member => floored label (.tail _ member)⟩
  | branch taken target unwound =>
    obtain ⟨low, rest⟩ := floored.mem_of_drop target
    exact ⟨(taken.keeps floor).trans (.of_unwind? low unwound), rest⟩
  | pass _ popped _ => exact ⟨.of_pop popped, floored⟩

end Steps

/-! ### The invariant -/

/-- The frame's function exists, and the frame has its result count, which is zero or one. -/
def Frame.Typed (m : Module) (frame : Frame) : Prop :=
  ∃ type, m.funcType? frame.func = some type ∧ frame.resultCount = type.results.length ∧
    type.results.length ≤ 1

theorem Frame.Typed.entered {m : Module} {func : Nat} {callee : Func} {type : FuncType}
    {cells : Cells} {labels : List Label} (known : m.funcs[func]? = some callee)
    (typed : m.types[callee.type]? = some type) (single : type.results.length ≤ 1) :
    (State.entered func callee type cells labels).Typed m := by
  refine ⟨type, ?_, rfl, single⟩
  change m.funcs[func]?.bind _ = _
  rw [known]
  exact typed

/-- The running activation's region ends at or below the top of the stack, the others' lie below it
in order, and every activation is typed and has its labels above its floor. -/
structure Arranged (m : Module) (s : State) : Prop where
  regions : Regions s.cells.height s.frames
  stacked : Stacked (fun frame own => Floored frame own ∧ frame.Typed m) s.frames s.labels

namespace Regions

variable {m : Module} {config : Config} {targets : Nat → Except DecodeError BlockTargets}
  {frame : Frame} {fetched : Fetched} {cells : Cells} {frames : List Frame} {own rest : List Label}
  {t : State} {event : Option Event}

/-- The regions of a state that a function was entered in lie below the new one. -/
theorem of_enter {func : Nat} {labels : List Label} (regions : Regions cells.height frames)
    (entered : (⟨cells, frames, labels⟩ : State).enter m config func = .ok (t, event)) :
    Regions t.cells.height t.frames := by
  obtain ⟨callee, type, -, -, -, -, arguments, -, rfl, rfl⟩ := State.enter_eq_ok_iff.mp entered
  constructor
  · simp only [State.entered, Frame.operandBase, Cells.height_pushZeros]
    omega
  · apply regions.of_floor_le
    simp only [State.entered]
    omega

theorem of_effect (base : frame.labelBase = rest.length)
    (floor : frame.operandBase ≤ cells.height) (floored : Floored frame own)
    (below : Regions frame.base frames)
    (effect : State.Effect m config targets frame fetched cells frames own rest t event) :
    Regions t.cells.height t.frames := by
  rcases effect with ⟨cells', own', ip, stays, rfl, rfl⟩ | ⟨cells', ends, left⟩ |
    ⟨func, cells', calls, entered⟩
  · obtain ⟨kept, -⟩ := stays.keeps floor floored
    exact ⟨kept.floor, below⟩
  · obtain ⟨-, kept, unwound, rfl, rfl⟩ := (State.leave_eq_ok_iff base).mp left
    apply below.mono
    have height := Cells.height_of_unwind? unwound
    change frame.base ≤ kept.height
    omega
  · have regions : Regions cells'.height ({ frame with ip := fetched.next } :: frames) :=
      ⟨(calls.keeps floor).floor, below⟩
    exact regions.of_enter entered

end Regions

namespace Arranged

variable {m : Module} {config : Config} {s t : State} {event : Option Event}

theorem of_start {func : Nat} {args : List Cell} {type : Option ValType}
    (begun : Instance.start m config .empty func args = .ok ((s, event), type)) : Arranged m s := by
  constructor
  · obtain ⟨_, -, -, -, -, entered⟩ := Instance.start_eq_ok_iff.mp begun
    have regions : ∀ height, Regions height [] := fun _ => trivial
    exact (regions _).of_enter entered
  · refine Stacked.of_start ?_ begun
    intro callee type cells labels known typed single
    exact ⟨.nil, .entered known typed single⟩

theorem of_step (arranged : Arranged m s) (step : s.step m config = .ok (t, event)) :
    Arranged m t := by
  obtain ⟨cells, frames, labels⟩ := s
  cases frames with
  | nil =>
    cases step
    exact arranged
  | cons frame frames =>
    obtain ⟨own, rest, fetched, rfl, base, ⟨floored, typed⟩, below, -, effect⟩ :=
      arranged.stacked.effect step
    obtain ⟨floor, lower⟩ := arranged.regions
    constructor
    · exact Regions.of_effect base floor floored lower effect
    · refine Stacked.of_effect base below ?_ ?_ ?_ effect
      · intro cells' own' ip stays
        exact ⟨(stays.keeps floor floored).2, typed⟩
      · intro func cells' _
        exact ⟨floored, typed⟩
      · intro func callee type cells' labels' known typed single
        exact ⟨.nil, .entered known typed single⟩

theorem of_visits {inst : Instance} {func : Nat} {args : List Cell} {record : Record}
    (history : Instance.History m config inst) (visits : inst.Visits func args s record) :
    Arranged m s :=
  visits.induct (Arranged m) history (fun _ _ _ begun => of_start begun)
    (fun _ _ _ arranged => arranged.of_step)

end Arranged

/-! ### The outermost activation -/

/-- The outermost activation starts at the bottom and is to leave `count` results, which are all
that is there when it has ended. -/
structure Rooted (count : Nat) (s : State) : Prop where
  ended : s.frames = [] → s.cells.height = count
  root : ∀ root, s.frames.getLast? = some root → root.base = 0 ∧ root.resultCount = count

namespace Rooted

variable {m : Module} {config : Config} {s t : State} {event : Option Event} {count : Nat}

theorem of_start {func : Nat} {args : List Cell} {result : Option ValType} {type : FuncType}
    (declared : m.funcType? func = some type)
    (begun : Instance.start m config .empty func args = .ok ((s, event), result)) :
    Rooted type.results.length s := by
  obtain ⟨_, same, argCount, -, -, entered⟩ := Instance.start_eq_ok_iff.mp begun
  cases declared.symm.trans same
  obtain ⟨callee, known, found, typed, -, -, -, -, rfl, rfl⟩ := State.enter_eq_ok_iff.mp entered
  have sameType : known = type := by
    have looked : m.funcType? func = some known := by
      change m.funcs[func]?.bind _ = _
      rw [found]
      exact typed
    exact Option.some.inj (looked.symm.trans declared)
  subst sameType
  have height : (Cells.ofList (List.zipWith ValType.canonical known.params args)).height =
      known.params.length := by
    rw [← Cells.length_toList, Cells.toList_ofList, List.length_zipWith, argCount, Nat.min_self]
  refine ⟨nofun, ?_⟩
  intro root last
  obtain rfl := Option.some.inj last
  refine ⟨?_, rfl⟩
  simp only [List.getLast_singleton, State.entered, height, Nat.sub_self]

/-- A change of the running activation that keeps its base and its result count. -/
theorem of_top {frame frame' : Frame} {frames : List Frame} {cells cells' : Cells}
    {labels labels' : List Label} (rooted : Rooted count ⟨cells, frame :: frames, labels⟩)
    (base : frame'.base = frame.base) (results : frame'.resultCount = frame.resultCount) :
    Rooted count ⟨cells', frame' :: frames, labels'⟩ := by
  refine ⟨nofun, ?_⟩
  cases frames with
  | nil =>
    intro root last
    obtain rfl : frame' = root := Option.some.inj last
    rw [base, results]
    exact rooted.root frame rfl
  | cons caller frames => exact rooted.root

theorem of_step (arranged : Arranged m s) (rooted : Rooted count s)
    (step : s.step m config = .ok (t, event)) : Rooted count t := by
  obtain ⟨cells, frames, labels⟩ := s
  cases frames with
  | nil =>
    cases step
    exact rooted
  | cons frame frames =>
    obtain ⟨own, rest, fetched, rfl, base, -, -, -, effect⟩ := arranged.stacked.effect step
    rcases effect with ⟨cells', own', ip, -, rfl, rfl⟩ | ⟨cells', -, left⟩ |
      ⟨func, cells', -, entered⟩
    · exact rooted.of_top rfl rfl
    · obtain ⟨-, kept, unwound, rfl, rfl⟩ := (State.leave_eq_ok_iff base).mp left
      have height := Cells.height_of_unwind? unwound
      cases frames with
      | nil =>
        obtain ⟨bottom, results⟩ := rooted.root frame rfl
        refine ⟨fun _ => ?_, nofun⟩
        change kept.height = count
        omega
      | cons caller frames => exact ⟨nofun, rooted.root⟩
    · obtain ⟨callee, type, -, -, -, -, -, -, rfl, rfl⟩ := State.enter_eq_ok_iff.mp entered
      have waiting :
          Rooted count ⟨cells', { frame with ip := fetched.next } :: frames, own ++ rest⟩ :=
        rooted.of_top rfl rfl
      exact ⟨nofun, waiting.root⟩

theorem of_visits {inst : Instance} {func : Nat} {args : List Cell} {record : Record}
    {type : FuncType} (history : Instance.History m config inst)
    (visits : inst.Visits func args s record) (declared : m.funcType? func = some type) :
    Rooted type.results.length s := by
  have both : Arranged m s ∧ Rooted type.results.length s := by
    refine visits.induct (fun s => Arranged m s ∧ Rooted type.results.length s) history ?_ ?_
    · intro s event result begun
      exact ⟨.of_start begun, .of_start declared begun⟩
    · rintro s t event ⟨arranged, rooted⟩ step
      exact ⟨arranged.of_step step, rooted.of_step arranged step⟩
  exact both.2

end Rooted

/-- An invocation that has ended has left its result and nothing else. -/
theorem Instance.Visits.exists_result {m : Module} {config : Config} {inst : Instance} {func : Nat}
    {args : List Cell} {s : State} {record : Record} {type : FuncType}
    (history : History m config inst) (visits : inst.Visits func args s record)
    (ended : s.frames = []) (declared : m.funcType? func = some type) :
    ∃ cell, result func type.results.head? s = .ok (cell, .empty) := by
  have rooted := Rooted.of_visits history visits declared
  obtain ⟨-, stacked⟩ := Arranged.of_visits history visits
  obtain ⟨first, event, _, begun, -⟩ := visits
  rw [history.program_eq] at begun
  obtain ⟨_, same, -, single, -⟩ := start_eq_ok_iff.mp begun
  cases declared.symm.trans same
  obtain ⟨cells, _, labels⟩ := s
  subst ended
  cases stacked with
  | nil => exact Instance.exists_result func single (rooted.ended rfl)

/-! ### The layout and what it rules out -/

/-- How the activations' regions lie in the shared stacks. Frames are counted from the running one
downwards, so that frame `i + 1` is the caller of frame `i`. -/
structure Layout (m : Module) (s : State) : Prop where
  top : ∀ frame, s.frames[0]? = some frame → frame.operandBase ≤ s.cells.height
  regions : ∀ i callee caller, s.frames[i]? = some callee → s.frames[i + 1]? = some caller →
    caller.base + caller.localCount ≤ callee.base
  labelBases : ∀ i callee caller, s.frames[i]? = some callee → s.frames[i + 1]? = some caller →
    caller.labelBase ≤ callee.labelBase
  labelBase_le : ∀ frame ∈ s.frames, frame.labelBase ≤ s.labels.length
  heights : ∀ activation ∈ s.activations, ∀ label ∈ activation.2,
    activation.1.operandBase ≤ label.height
  typed : ∀ frame ∈ s.frames, frame.func < m.funcs.size ∧ ∃ type,
    m.funcType? frame.func = some type ∧ frame.resultCount = type.results.length ∧
      frame.resultCount ≤ 1

/-- Checks that cannot fail for the running activation `frame` of a state. A branch that is taken
may have popped its operand first, so those on leaving and branching are about any cells. -/
structure Guarded (m : Module) (s : State) (frame : Frame) : Prop where
  /-- The running function exists. -/
  function : ∀ func, fetch m s.cells.height frame ≠ .error (.unknownFunc func)
  /-- A function that is entered has a type. -/
  calleeType : ∀ (t : State) config func type, t.enter m config func ≠ .error (.unknownType type)
  localGet : ∀ index, index < frame.localCount →
    ∃ cell, Plain.exec frame (.localGet index) s.cells = .ok (s.cells.push cell)
  localSet : ∀ index cell rest, index < frame.localCount →
    frame.pop s.cells = .ok (cell, rest) →
    ∃ cells, Plain.exec frame (.localSet index) s.cells = .ok cells
  localTee : ∀ index cell, index < frame.localCount →
    s.cells.peekAbove? frame.operandBase = some cell →
    ∃ cells, Plain.exec frame (.localTee index) s.cells = .ok cells
  /-- Once the results are there, the frame can be left. -/
  leave : ∀ cells : Cells, frame.operandBase + frame.resultCount ≤ cells.height →
    ∃ left, (⟨cells, s.frames, s.labels⟩ : State).leave = .ok left
  /-- The number of open labels is a true difference. -/
  openCount : frame.labelBase + s.openCount frame = s.labels.length
  /-- A depth below that number has a label, so that only a larger one is unknown. -/
  label : ∀ depth, depth < s.openCount frame → ∃ label, s.labels[depth]? = some label
  branch : ∀ cells depth func unknown, depth ≤ s.openCount frame →
    (⟨cells, s.frames, s.labels⟩ : State).branch frame depth ≠ .error (.unknownLabel func unknown)

theorem Layout.of_arranged {m : Module} {s : State} (arranged : Arranged m s) : Layout m s where
  top := by
    intro frame first
    obtain ⟨cells, frames, labels⟩ := s
    cases frames with
    | nil => cases first
    | cons running frames =>
      cases first
      exact arranged.regions.1
  regions _ _ _ first second := arranged.regions.operandBase_le_base first second
  labelBases _ _ _ first second := arranged.stacked.labelBase_mono first second
  labelBase_le := arranged.stacked.labelBase_le
  heights := by
    intro activation member
    exact (arranged.stacked.forall_activations activation member).1
  typed := by
    intro frame member
    obtain ⟨own, -, type, declared, results, single⟩ := arranged.stacked.exists_own frame member
    refine ⟨?_, type, declared, results, by omega⟩
    cases known : m.funcs[frame.func]? with
    | none => simp [Module.funcType?, known] at declared
    | some func => exact (Array.getElem?_eq_some_iff.mp known).1

namespace Guarded

variable {m : Module} {s : State} {frame : Frame}

theorem blockArity_ne_unknownFunc (type : BlockType) (index : Nat) :
    m.blockArity type ≠ .error (.unknownFunc index) := by
  intro failed
  unfold Module.blockArity at failed
  split at failed
  · cases failed
  · cases failed
  · split at failed
    · cases failed
    · split at failed
      · cases failed
      · cases failed

theorem fetch_ne_unknownFunc {func : Func} (known : m.funcs[frame.func]? = some func)
    (height index : Nat) : fetch m height frame ≠ .error (.unknownFunc index) := by
  intro failed
  simp only [fetch, known] at failed
  split at failed
  · cases failed
  split at failed
  · cases failed
  split at failed
  · cases failed
  split at failed
  · cases failed
  split at failed
  · cases failed
  split at failed
  · exact blockArity_ne_unknownFunc _ _ (except_map_eq_error_iff.mp failed)
  · exact blockArity_ne_unknownFunc _ _ (except_map_eq_error_iff.mp failed)
  · exact blockArity_ne_unknownFunc _ _ (except_map_eq_error_iff.mp failed)
  · cases failed

theorem enter_ne_unknownType (wellTyped : m.WellTyped) (t : State) (config : Config)
    (func type : Nat) : t.enter m config func ≠ .error (.unknownType type) := by
  intro failed
  obtain ⟨cells, frames, labels⟩ := t
  cases known : m.funcs[func]? with
  | none => simp [State.enter, known] at failed
  | some callee =>
    obtain ⟨calleeType, typed⟩ := wellTyped func callee known
    rw [State.enter_known known typed] at failed
    split at failed
    · cases failed
    split at failed
    · cases failed
    split at failed
    · cases failed
    split at failed
    · cases failed
    · cases failed

theorem leave_of_le {cells : Cells} {frames : List Frame} {labels : List Label}
    (enough : frame.operandBase + frame.resultCount ≤ cells.height) :
    ∃ left, (⟨cells, frame :: frames, labels⟩ : State).leave = .ok left := by
  have room : frame.base + frame.resultCount ≤ cells.height := by
    unfold Frame.operandBase at enough
    omega
  obtain ⟨kept, unwound⟩ := Cells.unwind?_of_le room
  simp only [State.leave, if_neg (Nat.not_lt.mpr enough), unwound]
  exact ⟨_, rfl⟩

theorem branch_ne_unknownLabel {cells : Cells} {frames : List Frame} {labels : List Label}
    {depth : Nat} (func unknown : Nat)
    (inside : depth ≤ (⟨cells, frame :: frames, labels⟩ : State).openCount frame) :
    (⟨cells, frame :: frames, labels⟩ : State).branch frame depth ≠
      .error (.unknownLabel func unknown) := by
  intro failed
  unfold State.branch at failed
  split at failed
  · simp only [State.leave] at failed
    split at failed
    · cases failed
    split at failed
    · cases failed
    · cases failed
  rename_i inner
  rw [if_neg (by omega)] at failed
  dsimp only at failed
  split at failed
  · rename_i none
    have few := List.drop_eq_nil_iff.mp none
    simp only [State.openCount] at inside inner
    omega
  split at failed
  · cases failed
  · cases failed

theorem of_arranged {frames : List Frame} (wellTyped : m.WellTyped) (arranged : Arranged m s)
    (running : s.frames = frame :: frames) : Guarded m s frame := by
  obtain ⟨cells, _, labels⟩ := s
  subst running
  have floor : frame.operandBase ≤ cells.height := arranged.regions.1
  have base : frame.labelBase ≤ labels.length :=
    arranged.stacked.labelBase_le frame (List.mem_cons_self ..)
  obtain ⟨own, -, type, declared, -, -⟩ :=
    arranged.stacked.exists_own frame (List.mem_cons_self ..)
  constructor
  case function =>
    intro func
    cases known : m.funcs[frame.func]? with
    | none => simp [Module.funcType?, known] at declared
    | some body => exact fetch_ne_unknownFunc known _ _
  case calleeType => exact enter_ne_unknownType wellTyped
  case localGet =>
    intro index inside
    obtain ⟨cell, -, run⟩ := Plain.exec_localGet floor inside
    exact ⟨cell, run⟩
  case localSet =>
    intro index cell rest inside popped
    obtain ⟨written, -, run⟩ := Plain.exec_localSet inside popped
    exact ⟨written, run⟩
  case localTee =>
    intro index cell inside top
    obtain ⟨written, -, run⟩ := Plain.exec_localTee inside top
    exact ⟨written, run⟩
  case leave =>
    intro cells' enough
    exact leave_of_le enough
  case openCount =>
    change frame.labelBase + (labels.length - frame.labelBase) = labels.length
    omega
  case label =>
    intro depth inside
    have bound : depth < labels.length := Nat.lt_of_lt_of_le inside (Nat.sub_le _ _)
    exact ⟨labels[depth], List.getElem?_eq_getElem bound⟩
  case branch =>
    intro cells' depth func unknown inside
    exact branch_ne_unknownLabel func unknown inside

end Guarded

/-- Between any two steps of an invocation, whatever was invoked before and whatever the code, the
activations lie in order in the shared stacks, the running one passes the checks that guard this
order, and an invocation that has ended has left its result and nothing else. -/
theorem layout_between_steps {bytes : Bytes} {m : Module} {config : Config} {inst : Instance}
    {func : Nat} {args : List Cell} {s : State} {record : Record}
    (decoded : Module.decode bytes = .ok m) (history : Instance.History m config inst)
    (visits : inst.Visits func args s record) :
    Layout m s ∧ (∀ frame, s.frames[0]? = some frame → Guarded m s frame) ∧
      (s.frames = [] → ∀ type, m.funcType? func = some type →
        ∃ cell, Instance.result func type.results.head? s = .ok (cell, .empty)) := by
  have arranged := Arranged.of_visits history visits
  refine ⟨.of_arranged arranged, ?_, ?_⟩
  · intro frame first
    cases frames : s.frames with
    | nil => simp [frames] at first
    | cons running rest =>
      obtain rfl : running = frame := by simpa [frames] using first
      exact .of_arranged (.of_decode decoded) arranged frames
  · exact fun ended type declared => visits.exists_result history ended declared

/-- The theorem at a state two calls deep, on an instance that has been used before. -/
theorem layout_in_nested_call :
    Layout Sample.program Sample.inNestedCall ∧
      Guarded Sample.program Sample.inNestedCall ⟨1, 4, 1, 2, 2, 1⟩ := by
  obtain ⟨record, visits⟩ := Sample.visits_inNestedCall
  obtain ⟨layout, guarded, -⟩ :=
    layout_between_steps Sample.decode_bytes Sample.history visits
  exact ⟨layout, guarded _ rfl⟩

end Wasm
