import Wasm.Proofs.Machine.Leads
import Wasm.Proofs.Structured.Site

/-!
Where the machine has to come for an ending.

`Site.Lands` says it for code at a site: behind the code, at the continuation of a label, out of the
function, or at a trap. The site inside a block is `Site.enter`, and the one that a branch leaves
for is `Site.outTo`.

* `Site.Lands.of_close`: an ending that a block passes on lands where it lands without the block;
* `Site.leads_of_inner`, `Site.leads_of_ends`, `Site.leads_of_branch`: what a single instruction
  leads to, by the kind of its effect;
* `Site.Lands.label`, `Site.Lands.loop`, `Site.leads_of_end`, `Site.leads_of_else`: the ways out of
  a block.
-/

namespace Wasm

open State (Leads)

namespace Site

/-- The site of a branch's target: the label's own block is left, and its operands are those that
were there when it was entered. -/
def outTo (site : Site) (label : Label) (outer : List Label) : Site :=
  { site with outer := site.outer.take (label.height - site.frame.operandBase), own := outer }

/-- The label of a block that is entered when the sequence around it has the given operands. -/
def label (site : Site) (kind : LabelKind) (arity target : Nat) (operands : List Cell) : Label :=
  { kind
    resultCount := arity
    height := site.frame.operandBase + site.outer.length + operands.length
    target }

/-- The site inside that block. -/
def enter (site : Site) (kind : LabelKind) (arity target : Nat) (operands : List Cell) : Site :=
  { site with
    outer := site.outer ++ operands.reverse
    own := site.label kind arity target operands :: site.own }

/-- Where the machine has to come for an ending of code that goes on at `next`. -/
inductive Lands (site : Site) (next : Nat) : Ending → Except Trap State → Prop where
  | done {locals operands} : Lands site next (.done locals operands)
      (.ok (site.state next locals operands))
  | branch {depth locals operands label outer} (target : site.own.drop depth = label :: outer)
      (enough : label.arity ≤ operands.length) :
      Lands site next (.branch depth locals operands)
        (.ok ((site.outTo label outer).state label.continuation locals
          (operands.take label.arity)))
  | leave {depth locals operands} (outermost : depth = site.own.length)
      (enough : site.frame.resultCount ≤ operands.length) :
      Lands site next (.branch depth locals operands)
        (.ok (site.left (operands.take site.frame.resultCount)))
  | ret {operands} (enough : site.frame.resultCount ≤ operands.length) :
      Lands site next (.ret operands) (.ok (site.left (operands.take site.frame.resultCount)))
  | trap {t} : Lands site next (.trap t) (.error t)

variable {m : Module} {config : Config} {site : Site} {pos next : Nat}
  {locals operands : List Cell} {ending : Ending} {goal : Except Trap State}

theorem Fits.enter (fits : site.Fits m) (kind : LabelKind) (arity target : Nat)
    (operands : List Cell) : (site.enter kind arity target operands).Fits m where
  known := fits.known
  base := fits.base
  labelBase := fits.labelBase
  heights := by
    intro label member
    have wide : (site.enter kind arity target operands).outer.length =
        site.outer.length + operands.length := by
      simp [Site.enter]
    rw [wide]
    rcases List.mem_cons.mp member with rfl | member
    · change site.frame.operandBase ≤ _ ∧ _
      simp only [Site.label]
      change _ ∧ _ ≤ site.frame.operandBase + _
      omega
    · have within := fits.heights label member
      change site.frame.operandBase ≤ _ ∧ _ ≤ site.frame.operandBase + _
      omega

/-- The state in which a block has been entered. -/
theorem state_enter {kind : LabelKind} {arity target : Nat} :
    (site.enter kind arity target operands).state pos locals [] =
      ⟨site.cells locals operands, site.frameAt pos :: site.frames,
        (site.label kind arity target operands :: site.own) ++ site.rest⟩ := by
  simp [state, enter, cells, frameAt]

/-- Leaving a block with `results` puts them on top of the operands around it. -/
theorem state_outTo_label {kind : LabelKind} {arity target : Nat} {results : List Cell} :
    ((site.enter kind arity target operands).outTo (site.label kind arity target operands)
      site.own).state pos locals results = site.state pos locals (results ++ operands) := by
  have whole : (site.outer ++ operands.reverse).take (site.frame.operandBase + site.outer.length +
      operands.length - site.frame.operandBase) = site.outer ++ operands.reverse := by
    apply List.take_of_length_le
    simp only [List.length_append, List.length_reverse]
    omega
  simp only [state, outTo, enter, label, cells, frameAt, whole, List.reverse_append,
    List.append_assoc]

/-- A branch past a block goes where it goes from the sequence around the block. -/
theorem outTo_enter {kind : LabelKind} {arity target : Nat} {label : Label} {outer : List Label}
    (fits : site.Fits m) (member : label ∈ site.own) :
    (site.enter kind arity target operands).outTo label outer = site.outTo label outer := by
  have within := (fits.heights label member).2
  have inside : label.height - site.frame.operandBase ≤ site.outer.length := by omega
  simp only [outTo, enter, List.take_append_of_le_length inside]

theorem mem_of_drop {labels outer : List Label} {label : Label} {depth : Nat}
    (reached : labels.drop depth = label :: outer) : label ∈ labels := by
  apply List.mem_of_mem_drop
  rw [reached]
  exact List.mem_cons_self ..

/-- Where code goes on matters only for an ending that comes to its end. -/
theorem Lands.of_not_done {next' : Nat} (lands : site.Lands next ending goal)
    (leaves : ∀ locals operands, ending ≠ .done locals operands) :
    site.Lands next' ending goal := by
  cases lands with
  | done => exact absurd rfl (leaves _ _)
  | branch target enough => exact .branch target enough
  | leave outermost enough => exact .leave outermost enough
  | ret enough => exact .ret enough
  | trap => exact .trap

/-- An ending that a block passes on lands where it lands without the block. -/
theorem Lands.of_close {kind : LabelKind} {arity target next' : Nat} {inner : Ending}
    (fits : site.Fits m) (passes : ∀ locals operands, inner ≠ .done locals operands ∧
      inner ≠ .branch 0 locals operands)
    (closes : inner.close arity operands = some ending) (lands : site.Lands next ending goal) :
    (site.enter kind arity target operands).Lands next' inner goal := by
  cases inner with
  | done locals results => exact absurd rfl (passes locals results).1
  | branch depth locals results =>
    cases depth with
    | zero => exact absurd rfl (passes locals results).2
    | succ depth =>
      cases closes
      cases lands with
      | @branch _ _ _ label outer reached enough =>
        have inside : (site.enter kind arity target operands).Lands next'
            (.branch (depth + 1) locals results) _ := .branch reached enough
        rwa [outTo_enter fits (mem_of_drop reached)] at inside
      | leave outermost enough => exact .leave (congrArg (· + 1) outermost) enough
  | ret results =>
    cases closes
    cases lands with
    | ret enough => exact .ret enough
  | trap t =>
    cases closes
    cases lands with
    | trap => exact .trap

/-! ### Single steps -/

variable {fetched : Fetched}

theorem fetch_at {bytes : List UInt8} {opcode : Opcode} {instr : Instr} {height : Nat}
    (fits : site.Fits m) (decoded : Decoded bytes opcode instr)
    (written : BytesAt (m.code site.frame.func) pos bytes)
    (room : opcode = .brTable → site.frame.operandBase < height) :
    fetch m height (site.frameAt pos) = instr.fetched m (pos + bytes.length) := by
  have known : ∃ func, m.funcs[(site.frameAt pos).func]? = some func := fits.known
  exact fetch_of_decoded known decoded written room

theorem step_state (config : Config)
    (fetches : fetch m (site.cells locals operands).height (site.frameAt pos) = .ok fetched) :
    (site.state pos locals operands).step m config =
      (site.state pos locals operands).exec m config (m.scan site.frame.func) (site.frameAt pos)
        fetched := by
  change State.step m config ⟨_, _ :: _, _⟩ = _
  simp only [State.step, fetches]
  rfl

theorem leads_of_inner {cells' : Cells} {own' : List Label} {ip : Nat} (fits : site.Fits m)
    (fetches : fetch m (site.cells locals operands).height (site.frameAt pos) = .ok fetched)
    (inner : Inner (m.scan site.frame.func) (site.frameAt pos) fetched (site.cells locals operands)
      site.own cells' own' ip)
    (rest : Leads m config ⟨cells', site.frameAt ip :: site.frames, own' ++ site.rest⟩ goal) :
    Leads m config (site.state pos locals operands) goal := by
  have base : (site.frameAt pos).labelBase = site.rest.length := fits.labelBase
  have first := step_state config fetches
  rw [state, State.exec_of_inner base inner] at first
  exact .step first rest

/-- An instruction that ends the function leaves its results. -/
theorem leads_of_ends {operands' : List Cell} (fits : site.Fits m)
    (count : locals.length = site.frame.localCount)
    (fetches : fetch m (site.cells locals operands).height (site.frameAt pos) = .ok fetched)
    (ends : Ends (site.frameAt pos) (site.cells locals operands) fetched.instr site.own
      (site.cells locals operands'))
    (enough : site.frame.resultCount ≤ operands'.length) :
    Leads m config (site.state pos locals operands)
      (.ok (site.left (operands'.take site.frame.resultCount))) := by
  have tall : (site.cells locals operands').height = _ := height_cells fits count
  have results : (site.frameAt pos).operandBase + (site.frameAt pos).resultCount ≤
      (site.cells locals operands').height := by
    change site.frame.operandBase + site.frame.resultCount ≤ _
    omega
  have base : (site.frameAt pos).labelBase = site.rest.length := fits.labelBase
  have first := step_state config fetches
  rw [state, State.exec_of_ends base ends, (State.leave_eq_ok_iff base).mpr
    ⟨results, _, unwind?_base fits enough, rfl, rfl⟩] at first
  exact .step first (.here _)

/-- A branch that is taken goes where its ending lands. -/
theorem leads_of_branch {operands' : List Cell} {depth : Nat} (fits : site.Fits m)
    (count : locals.length = site.frame.localCount)
    (fetches : fetch m (site.cells locals operands).height (site.frameAt pos) = .ok fetched)
    (taken : Branches (site.frameAt pos) (site.cells locals operands) fetched.instr depth
      (site.cells locals operands'))
    (lands : site.Lands next (.branch depth locals operands') goal) :
    Leads m config (site.state pos locals operands) goal := by
  cases lands with
  | @branch _ _ _ label outer reached enough =>
    obtain ⟨low, high⟩ := fits.heights label (mem_of_drop reached)
    exact leads_of_inner fits fetches
      (.branch taken reached (unwind?_cells fits count low high enough)) (.here _)
  | leave outermost enough =>
    subst outermost
    exact leads_of_ends fits count fetches (.branch taken) enough

/-! ### Leaving a block -/

variable {arity target : Nat} {results : List Cell} {ys : List UInt8}

/-- A branch to a block or an `if` goes on behind it with the results. -/
theorem Lands.label (next : Nat) {kind : LabelKind} (branches : kind ≠ .loop)
    (enough : arity ≤ results.length) :
    (site.enter kind arity target operands).Lands next (.branch 0 locals results)
      (.ok (site.state (target + 1) locals (results.take arity ++ operands))) := by
  have shape : (site.label kind arity target operands).arity = arity ∧
      (site.label kind arity target operands).continuation = target + 1 := by
    cases kind with
    | loop => exact absurd rfl branches
    | block | cond => exact ⟨rfl, rfl⟩
  have lands : (site.enter kind arity target operands).Lands next (.branch 0 locals results) _ :=
    .branch rfl (by rw [shape.1]; exact enough)
  rwa [shape.1, shape.2, state_outTo_label] at lands

/-- A branch to a loop goes to its start, with no operands inside it. -/
theorem Lands.loop :
    (site.enter .loop arity pos operands).Lands next (.branch 0 locals results)
      (.ok (site.state pos locals operands)) := by
  have lands : (site.enter .loop arity pos operands).Lands next (.branch 0 locals results) _ :=
    .branch rfl (Nat.zero_le _)
  rwa [state_outTo_label] at lands

/-- At its `end`, a block hands on its results. -/
theorem leads_of_end {kind : LabelKind} (fits : site.Fits m)
    (count : locals.length = site.frame.localCount)
    (written : BytesAt (m.code site.frame.func) pos (0x0B :: ys))
    (enough : arity ≤ results.length) :
    Leads m config ((site.enter kind arity target operands).state pos locals results)
      (.ok (site.state (pos + 1) locals (results.take arity ++ operands))) := by
  have inside := fits.enter kind arity target operands
  have stands : BytesAt (m.code site.frame.func) pos [0x0B] := ⟨written.1, trivial⟩
  have fetches : ∀ height, fetch m height ((site.enter kind arity target operands).frameAt pos) =
      .ok ⟨.endBlock, pos + 1, 0⟩ := fun _ => fetch_at inside .endBlock stands nofun
  obtain ⟨low, high⟩ :=
    inside.heights (site.label kind arity target operands) (List.mem_cons_self ..)
  refine leads_of_inner inside (fetches _)
    (.endBlock rfl (unwind?_cells inside count low high enough)) ?_
  rw [← state_outTo_label]
  exact .here _

/-- At its `else`, the first arm of an `if` hands on its results and the second one is passed. -/
theorem leads_of_else (fits : site.Fits m) (count : locals.length = site.frame.localCount)
    (written : BytesAt (m.code site.frame.func) pos (0x05 :: ys))
    (enough : arity ≤ results.length) :
    Leads m config ((site.enter .cond arity target operands).state pos locals results)
      (.ok (site.state (target + 1) locals (results.take arity ++ operands))) := by
  have inside := fits.enter .cond arity target operands
  have stands : BytesAt (m.code site.frame.func) pos [0x05] := ⟨written.1, trivial⟩
  have fetches : ∀ height, fetch m height ((site.enter .cond arity target operands).frameAt pos) =
      .ok ⟨.elseArm, pos + 1, 0⟩ := fun _ => fetch_at inside .elseArm stands nofun
  exact leads_of_branch inside count (fetches _) .elseArm (.label pos nofun enough)

end Site

end Wasm
