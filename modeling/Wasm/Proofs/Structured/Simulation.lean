import Wasm.Proofs.Structured.Landing

/-!
The machine runs the bytes of a structured program as the program's meaning says.

`Simulates` says that from every site the machine comes to where the ending of a sequence lands. It
is proved for each instruction from the sequences inside it, and for `evalCode` by induction on the
fuel.

* `Simulates.inside`, `Simulates.loop`: a block, from what its body does;
* `Simulates.enter`: a function, from what its body does;
* `Simulates.stmt`: any one instruction;
* `simulates_evalCode`: every sequence of instructions.
-/

namespace Wasm

open State (Leads)

/-- The machine comes where the endings that `run` gives have to land, from every site. -/
structure Simulates (m : Module) (config : Config)
    (run : List Stmt → List Cell → List Cell → Option Ending) : Prop where
  empty : ∀ {locals operands ending}, run [] locals operands = some ending →
    ending = .done locals operands
  keeps : ∀ {stmts locals operands ending}, run stmts locals operands = some ending →
    ending.Keeps locals.length
  leads : ∀ {site : Site} {pos bytes stmts locals operands ending goal},
    IsCode bytes stmts → site.Fits m → locals.length = site.frame.localCount →
    BytesAt (m.code site.frame.func) pos bytes → run stmts locals operands = some ending →
    site.Lands (pos + bytes.length) ending goal →
    Leads m config (site.state pos locals operands) goal

namespace Simulates

variable {m : Module} {config : Config}
  {run : List Stmt → List Cell → List Cell → Option Ending} {site : Site}
  {pos next arity target : Nat} {locals operands : List Cell} {inner ending : Ending}
  {goal : Except Trap State} {stmts : List Stmt} {xs : List UInt8}

/-! ### Blocks -/

/-- The body of a block, unless it branches to the block, when the machine gets from the end of the
body to the end of the block. -/
theorem through {kind : LabelKind} (simulates : Simulates m config run)
    (straight : ∀ locals results, inner ≠ .branch 0 locals results)
    (form : IsCode xs stmts) (fits : site.Fits m) (count : locals.length = site.frame.localCount)
    (written : BytesAt (m.code site.frame.func) pos xs)
    (evaluates : run stmts locals [] = some inner)
    (closes : inner.close arity operands = some ending) (lands : site.Lands next ending goal)
    (ends : ∀ locals results, locals.length = site.frame.localCount → arity ≤ results.length →
      Leads m config
        ((site.enter kind arity target operands).state (pos + xs.length) locals results)
        (.ok (site.state next locals (results.take arity ++ operands)))) :
    Leads m config ((site.enter kind arity target operands).state pos locals []) goal := by
  have within := fits.enter kind arity target operands
  have kept := simulates.keeps evaluates
  have leads : ∀ goal, (site.enter kind arity target operands).Lands (pos + xs.length) inner goal →
      Leads m config ((site.enter kind arity target operands).state pos locals []) goal :=
    fun _ => simulates.leads form within count written evaluates
  by_cases comes : ∃ locals results, inner = .done locals results
  · obtain ⟨locals', results, rfl⟩ := comes
    obtain ⟨enough, same⟩ := Option.ite_none_right_eq_some.mp closes
    cases same
    cases lands with
    | done => exact (leads _ .done).trans (ends locals' results (kept.trans count) enough)
  · apply leads
    refine lands.of_close fits ?_ closes
    intro locals' results
    exact ⟨fun same => comes ⟨locals', results, same⟩, straight locals' results⟩

/-- The body of a block or an arm of an `if`. -/
theorem inside {kind : LabelKind} (simulates : Simulates m config run) (branches : kind ≠ .loop)
    (form : IsCode xs stmts) (fits : site.Fits m) (count : locals.length = site.frame.localCount)
    (written : BytesAt (m.code site.frame.func) pos xs)
    (evaluates : run stmts locals [] = some inner)
    (closes : inner.close arity operands = some ending)
    (lands : site.Lands (target + 1) ending goal)
    (ends : ∀ locals results, locals.length = site.frame.localCount → arity ≤ results.length →
      Leads m config
        ((site.enter kind arity target operands).state (pos + xs.length) locals results)
        (.ok (site.state (target + 1) locals (results.take arity ++ operands)))) :
    Leads m config ((site.enter kind arity target operands).state pos locals []) goal := by
  by_cases back : ∃ locals results, inner = .branch 0 locals results
  · obtain ⟨locals', results, rfl⟩ := back
    obtain ⟨enough, same⟩ := Option.ite_none_right_eq_some.mp closes
    cases same
    cases lands with
    | done =>
      exact simulates.leads form (fits.enter ..) count written evaluates (.label _ branches enough)
  · refine simulates.through ?_ form fits count written evaluates closes lands ends
    intro locals' results same
    exact back ⟨locals', results, same⟩

/-- The label that the machine opens is the one of the site inside. -/
theorem label_eq (fits : site.Fits m) (count : locals.length = site.frame.localCount)
    (kind : LabelKind) (arity target : Nat) :
    (⟨kind, arity, (site.cells locals operands).height, target⟩ : Label) =
      site.label kind arity target operands := by
  rw [Site.height_cells fits count]
  rfl

variable {type : BlockType} {header bytes : List UInt8}

/-- What is fetched at an instruction that opens a block. -/
theorem fetch_opener {kind : LabelKind} (fits : site.Fits m)
    (decoded : Decoded bytes kind.opcode (kind.instr type))
    (written : BytesAt (m.code site.frame.func) pos bytes)
    (typed : m.blockResults? type = some arity) (height : Nat) :
    fetch m height (site.frameAt pos) = .ok ⟨kind.instr type, pos + bytes.length, arity⟩ := by
  have small : kind.opcode = .brTable → site.frame.operandBase < height := by
    cases kind with
    | block | loop | cond => exact nofun
  rw [Site.fetch_at fits decoded written small]
  cases kind with
  | block | loop | cond =>
    simp only [LabelKind.instr, Instr.fetched, Module.blockArity_of_blockResults? typed]
    rfl

variable {bodies : Nat → List Stmt} {yes no : List Stmt} {ys : List UInt8}

/-- Where a block ends that has `xs` inside. -/
theorem behind_block (pos : Nat) (opener xs : List UInt8) :
    pos + (opener ++ (xs ++ [0x0B])).length = pos + opener.length + xs.length + 1 := by
  simp only [List.length_append, List.length_singleton]
  omega

/-- A block does what its body does. -/
theorem block (simulates : Simulates m config run) (typed : BlockType.IsForm header type)
    (form : IsCode xs stmts) (fits : site.Fits m) (count : locals.length = site.frame.localCount)
    (written : BytesAt (m.code site.frame.func) pos ((0x02 :: header) ++ (xs ++ [0x0B])))
    (evaluates : (Stmt.block type stmts).eval m bodies run locals operands = some ending)
    (lands : site.Lands (pos + ((0x02 :: header) ++ (xs ++ [0x0B])).length) ending goal) :
    Leads m config (site.state pos locals operands) goal := by
  obtain ⟨here, behind⟩ := BytesAt.append_iff.mp written
  obtain ⟨middle, atEnd⟩ := BytesAt.append_iff.mp behind
  obtain ⟨arity, results, evaluates⟩ := Option.bind_eq_some_iff.mp evaluates
  obtain ⟨inner, ran, closes⟩ := Option.bind_eq_some_iff.mp evaluates
  have fetches := fetch_opener fits (.opener .block typed) here results
  rw [behind_block] at lands
  refine Site.leads_of_inner fits (fetches _) (.block rfl (form.scan_block behind)) ?_
  rw [label_eq fits count, ← Site.state_enter]
  refine simulates.inside nofun form fits count middle ran closes lands ?_
  intro locals results count enough
  exact Site.leads_of_end fits count atEnd enough

/-- A loop does what its body does, again and again. -/
theorem loop (simulates : Simulates m config run) (typed : BlockType.IsForm header type)
    (form : IsCode xs stmts) (fits : site.Fits m) (count : locals.length = site.frame.localCount)
    (written : BytesAt (m.code site.frame.func) pos ((0x03 :: header) ++ (xs ++ [0x0B])))
    (evaluates : (Stmt.loop type stmts).eval m bodies run locals operands = some ending)
    (lands : site.Lands (pos + ((0x03 :: header) ++ (xs ++ [0x0B])).length) ending goal) :
    Leads m config (site.state pos locals operands) goal := by
  obtain ⟨here, behind⟩ := BytesAt.append_iff.mp written
  obtain ⟨middle, atEnd⟩ := BytesAt.append_iff.mp behind
  obtain ⟨arity, results, evaluates⟩ := Option.bind_eq_some_iff.mp evaluates
  obtain ⟨inner, ran, evaluates⟩ := Option.bind_eq_some_iff.mp evaluates
  have fetches := fetch_opener fits (.opener .loop typed) here results
  refine Site.leads_of_inner fits (fetches _) (.loop rfl) ?_
  change Leads m config ⟨_, _, (⟨.loop, arity, _, pos⟩ :: site.own) ++ site.rest⟩ goal
  rw [label_eq fits count, ← Site.state_enter]
  by_cases back : ∃ locals results, inner = .branch 0 locals results
  · -- The branch leads back to the loop, which is run again from there.
    obtain ⟨locals', results, rfl⟩ := back
    have kept := simulates.keeps ran
    have again : IsCode ((0x03 :: header) ++ (xs ++ [0x0B])) [.loop type stmts] :=
      .loop typed form .nil
    have first : Leads m config ((site.enter .loop arity pos operands).state _ locals []) _ :=
      simulates.leads form (fits.enter ..) count middle ran .loop
    exact first.trans (simulates.leads again fits (kept.trans count) written evaluates lands)
  · have closes : inner.close arity operands = some ending := by
      split at evaluates
      · exact absurd ⟨_, _, rfl⟩ back
      · exact evaluates
    refine simulates.through ?_ form fits count middle ran closes lands ?_
    · intro locals' results same
      exact back ⟨locals', results, same⟩
    · intro locals results count enough
      rw [behind_block]
      exact Site.leads_of_end fits count atEnd enough

/-- An `if` without `else` does what its arm does, or nothing. -/
theorem ifThen (simulates : Simulates m config run) (typed : BlockType.IsForm header type)
    (form : IsCode xs yes) (fits : site.Fits m) (count : locals.length = site.frame.localCount)
    (written : BytesAt (m.code site.frame.func) pos ((0x04 :: header) ++ (xs ++ [0x0B])))
    (evaluates : (Stmt.ifElse type yes []).eval m bodies run locals operands = some ending)
    (lands : site.Lands (pos + ((0x04 :: header) ++ (xs ++ [0x0B])).length) ending goal) :
    Leads m config (site.state pos locals operands) goal := by
  rw [behind_block] at lands
  obtain ⟨here, behind⟩ := BytesAt.append_iff.mp written
  obtain ⟨middle, atEnd⟩ := BytesAt.append_iff.mp behind
  cases operands with
  | nil => cases evaluates
  | cons condition operands =>
    obtain ⟨arity, results, evaluates⟩ := Option.bind_eq_some_iff.mp evaluates
    obtain ⟨inner, ran, closes⟩ := Option.bind_eq_some_iff.mp evaluates
    have fetches := fetch_opener fits (.opener .cond typed) here results
    have popped : (site.frameAt pos).pop (site.cells locals (condition :: operands)) = _ :=
      Site.pop_cells fits count
    cases holds : Cell.isTrue condition with
    | true =>
      rw [holds, if_pos rfl] at ran
      refine Site.leads_of_inner fits (fetches _)
        (.thenArm rfl (form.scan_block behind) popped holds) ?_
      rw [label_eq fits count, ← Site.state_enter]
      refine simulates.inside nofun form fits count middle ran closes lands ?_
      intro locals results count enough
      exact Site.leads_of_end fits count atEnd enough
    | false =>
      rw [holds, if_neg Bool.false_ne_true] at ran
      cases simulates.empty ran
      obtain ⟨none, same⟩ := Option.ite_none_right_eq_some.mp closes
      obtain rfl : arity = 0 := Nat.le_zero.mp none
      cases same
      cases lands with
      | done =>
        exact Site.leads_of_inner fits (fetches _)
          (.noArm rfl (form.scan_block behind) popped holds rfl) (.here _)

/-- An `if` with two arms does what the chosen one does. -/
theorem ifElse (simulates : Simulates m config run) (typed : BlockType.IsForm header type)
    (form : IsCode xs yes) (other : IsCode ys no) (fits : site.Fits m)
    (count : locals.length = site.frame.localCount)
    (written : BytesAt (m.code site.frame.func) pos
      ((0x04 :: header) ++ (xs ++ 0x05 :: (ys ++ [0x0B]))))
    (evaluates : (Stmt.ifElse type yes no).eval m bodies run locals operands = some ending)
    (lands : site.Lands
      (pos + ((0x04 :: header) ++ (xs ++ 0x05 :: (ys ++ [0x0B]))).length) ending goal) :
    Leads m config (site.state pos locals operands) goal := by
  have next : pos + ((0x04 :: header) ++ (xs ++ 0x05 :: (ys ++ [0x0B]))).length =
      pos + (0x04 :: header).length + xs.length + 1 + ys.length + 1 := by
    simp only [List.length_append, List.length_cons, List.length_nil]
    omega
  rw [next] at lands
  obtain ⟨here, behind⟩ := BytesAt.append_iff.mp written
  obtain ⟨middle, atElse⟩ := BytesAt.append_iff.mp behind
  obtain ⟨second, atEnd⟩ := BytesAt.append_iff.mp atElse.2
  cases operands with
  | nil => cases evaluates
  | cons condition operands =>
    obtain ⟨arity, results, evaluates⟩ := Option.bind_eq_some_iff.mp evaluates
    obtain ⟨inner, ran, closes⟩ := Option.bind_eq_some_iff.mp evaluates
    have fetches := fetch_opener fits (.opener .cond typed) here results
    have popped : (site.frameAt pos).pop (site.cells locals (condition :: operands)) = _ :=
      Site.pop_cells fits count
    have scanned := form.scan_ifElse other behind
    cases holds : Cell.isTrue condition with
    | true =>
      rw [holds, if_pos rfl] at ran
      refine Site.leads_of_inner fits (fetches _) (.thenArm rfl scanned popped holds) ?_
      rw [label_eq fits count, ← Site.state_enter]
      refine simulates.inside nofun form fits count middle ran closes lands ?_
      intro locals results count enough
      exact Site.leads_of_else fits count atElse enough
    | false =>
      rw [holds, if_neg Bool.false_ne_true] at ran
      refine Site.leads_of_inner fits (fetches _) (.elseArm rfl scanned popped holds rfl) ?_
      rw [label_eq fits count, ← Site.state_enter]
      refine simulates.inside nofun other fits count second ran closes lands ?_
      intro locals results count enough
      exact Site.leads_of_end fits count atEnd enough

/-! ### Calls -/

/-- The body of a function, in an activation that has just begun. -/
theorem body {code : List Stmt} {result : Except Trap (List Cell)}
    (simulates : Simulates m config run) (fits : site.Fits m)
    (count : locals.length = site.frame.localCount) (fresh : site.own = [])
    (form : IsCode xs code) (written : BytesAt (m.code site.frame.func) 0 (xs ++ [0x0B]))
    (evaluates : run code locals [] = some ending)
    (returns : ending.results site.frame.resultCount = some result) :
    Leads m config (site.state 0 locals []) (result.map site.left) := by
  obtain ⟨here, atEnd⟩ := BytesAt.append_iff.mp written
  have kept := simulates.keeps evaluates
  have leads : ∀ goal, site.Lands (0 + xs.length) ending goal →
      Leads m config (site.state 0 locals []) goal :=
    fun _ => simulates.leads form fits count here evaluates
  match ending, kept, returns, leads with
  | .done locals' operands, kept, returns, leads =>
    obtain ⟨enough, same⟩ := Option.ite_none_right_eq_some.mp returns
    cases same
    have fetches : ∀ height, fetch m height (site.frameAt (0 + xs.length)) =
        .ok ⟨.endBlock, 0 + xs.length + 1, 0⟩ :=
      fun _ => Site.fetch_at fits .endBlock atEnd nofun
    have ends : Ends (site.frameAt (0 + xs.length)) (site.cells locals' operands) .endBlock site.own
        (site.cells locals' operands) := by
      rw [fresh]
      exact .endBlock
    exact (leads _ .done).trans (Site.leads_of_ends fits (kept.trans count) (fetches _) ends enough)
  | .branch 0 locals' operands, kept, returns, leads =>
    obtain ⟨enough, same⟩ := Option.ite_none_right_eq_some.mp returns
    cases same
    exact leads _ (.leave (by rw [fresh]; rfl) enough)
  | .ret operands, kept, returns, leads =>
    obtain ⟨enough, same⟩ := Option.ite_none_right_eq_some.mp returns
    cases same
    exact leads _ (.ret enough)
  | .trap t, kept, returns, leads =>
    cases returns
    exact leads _ .trap

/-- A function that is entered returns its results on top of what lies below its arguments. -/
theorem enter {func : Nat} {args below : List Cell} {frames : List Frame}
    {result : Except Trap (List Cell)} (simulates : Simulates m config run) (labels : List Label)
    (compiled : Compiled m bodies) (evaluates : callFunc m bodies run func args = some result)
    (floor : State.floor frames ≤ below.length) :
    (⟨.ofList (below ++ args), frames, labels⟩ : State).enter m config func =
        .error (.trap .callStackExhausted) ∨
      ∃ t event, (⟨.ofList (below ++ args), frames, labels⟩ : State).enter m config func =
          .ok (t, event) ∧
        Leads m config t (result.map fun results =>
          ⟨.ofList (below ++ results.reverse), frames, labels⟩) := by
  obtain ⟨callee, known, evaluates⟩ := Option.bind_eq_some_iff.mp evaluates
  obtain ⟨type, typed, evaluates⟩ := Option.bind_eq_some_iff.mp evaluates
  obtain ⟨⟨arguments, single⟩, evaluates⟩ := Option.ite_none_right_eq_some.mp evaluates
  obtain ⟨ending, ran, returns⟩ := Option.bind_eq_some_iff.mp evaluates
  have height : (Cells.ofList (below ++ args)).height = below.length + args.length := by
    rw [← Cells.length_toList, Cells.toList_ofList, List.length_append]
  rw [State.enter_known known typed, if_neg (by omega)]
  by_cases deep : config.maxCallDepth ≤ frames.length
  · exact .inl (if_pos deep)
  rw [if_neg deep, if_neg (by omega)]
  by_cases high : config.maxStackHeight <
      (State.entered func callee type (.ofList (below ++ args)) labels).operandBase
  · exact .inl (if_pos high)
  rw [if_neg high]
  refine .inr ⟨_, _, rfl, ?_⟩
  have count : (args ++ List.replicate callee.body.localCount 0).length =
      (Site.begun func callee type below args frames labels).frame.localCount := by
    rw [List.length_append, List.length_replicate, arguments]
    rfl
  obtain ⟨bytes, form, same⟩ := compiled func callee known
  have written : BytesAt (m.code func) 0 (bytes ++ [0x0B]) := by
    rw [Module.code_of_known known, ← same]
    exact .toList _
  rw [← Site.state_begun]
  exact simulates.body (.begun known arguments) count rfl form written ran returns

/-- A call of a function, direct or through the table. -/
theorem call {operands' : List Cell} {fetched : Fetched} {func : Nat}
    (simulates : Simulates m config run) (compiled : Compiled m bodies) (fits : site.Fits m)
    (count : locals.length = site.frame.localCount)
    (fetches : fetch m (site.cells locals operands).height (site.frameAt pos) = .ok fetched)
    (calls : Calls m (site.frameAt pos) (site.cells locals operands) fetched.instr func
      (site.cells locals operands'))
    (evaluates : evalCall m bodies run func locals operands' = some ending)
    (lands : site.Lands fetched.next ending goal) :
    Leads m config (site.state pos locals operands) goal := by
  obtain ⟨type, -, evaluates⟩ := Option.bind_eq_some_iff.mp evaluates
  obtain ⟨result, called, evaluates⟩ := Option.bind_eq_some_iff.mp evaluates
  obtain ⟨kept, taken⟩ : ∃ kept, operands'.drop type.params.length = kept := ⟨_, rfl⟩
  rw [taken] at evaluates
  have cells : site.cells locals operands' =
      .ofList ((site.below ++ locals ++ site.outer ++ kept.reverse) ++
        (operands'.take type.params.length).reverse) := by
    unfold Site.cells
    rw [Site.reverse_split operands' type.params.length, taken, List.append_assoc]
    simp only [List.append_assoc]
  have floor : State.floor (site.frameAt fetched.next :: site.frames) ≤
      (site.below ++ locals ++ site.outer ++ kept.reverse).length := by
    change site.frame.base + site.frame.localCount ≤ _
    have base := fits.base
    simp only [List.length_append]
    omega
  have first := Site.step_state config fetches
  rw [Site.state, State.exec_of_calls calls, cells] at first
  rcases simulates.enter (site.own ++ site.rest) compiled called floor with
    exhausted | ⟨t, event, entered, leads⟩
  · exact .exhausted (first.trans exhausted)
  · refine .step (first.trans entered) ?_
    cases result with
    | ok results =>
      cases evaluates
      cases lands with
      | done =>
        have back : site.state fetched.next locals (results ++ kept) =
            ⟨.ofList ((site.below ++ locals ++ site.outer ++ kept.reverse) ++ results.reverse),
              site.frameAt fetched.next :: site.frames, site.own ++ site.rest⟩ := by
          simp [Site.state, Site.cells]
        rw [back]
        exact leads
    | error t =>
      cases evaluates
      cases lands with
      | trap => exact leads

/-! ### Instructions and sequences -/

/-- An instruction without instructions inside. -/
theorem leaf {s : Stmt} (simulates : Simulates m config run) (compiled : Compiled m bodies)
    (form : s.IsLeaf xs) (fits : site.Fits m) (count : locals.length = site.frame.localCount)
    (written : BytesAt (m.code site.frame.func) pos xs)
    (evaluates : s.eval m bodies run locals operands = some ending)
    (lands : site.Lands (pos + xs.length) ending goal) :
    Leads m config (site.state pos locals operands) goal := by
  obtain ⟨opcode, instr, decoded, same, -, table⟩ := form.decoded
  have pop : ∀ {cell operands}, (site.frameAt pos).pop (site.cells locals (cell :: operands)) =
      .ok (cell, site.cells locals operands) := Site.pop_cells fits count
  -- Only a `br_table` asks for an operand before it is read.
  have fetches : instr.isTable = false → ∀ height,
      fetch m height (site.frameAt pos) = instr.fetched m (pos + xs.length) := by
    intro other height
    refine Site.fetch_at fits decoded written ?_
    intro isTable
    rw [table isTable] at other
    cases other
  cases s with
  | block | loop | ifElse => cases same
  | plain op =>
    cases same
    have fetched := fetches rfl
    rcases Site.exec_of_eval pos fits count evaluates with
      ⟨locals', operands', rfl, run⟩ | ⟨t, rfl, run⟩
    · cases lands with
      | done => exact Site.leads_of_inner fits (fetched _) (.plain rfl run) (.here _)
    · cases lands with
      | trap =>
        refine .trap ?_
        rw [Site.step_state config (fetched _)]
        simp only [State.exec, State.execM, Id.run_pure, Site.state, run]
  | br depth =>
    cases same
    cases evaluates
    exact Site.leads_of_branch fits count (fetches rfl _) .br lands
  | brIf depth =>
    cases same
    cases operands with
    | nil => cases evaluates
    | cons condition operands =>
      have fetched := fetches rfl
      simp only [Stmt.eval, Option.some.injEq] at evaluates
      subst evaluates
      cases holds : Cell.isTrue condition with
      | true =>
        rw [holds, if_pos rfl] at lands
        exact Site.leads_of_branch fits count (fetched _) (.brIf pop holds) lands
      | false =>
        rw [holds, if_neg Bool.false_ne_true] at lands
        cases lands with
        | done => exact Site.leads_of_inner fits (fetched _) (.pass rfl pop holds) (.here _)
  | brTable depths default =>
    cases same
    cases operands with
    | nil => cases evaluates
    | cons index operands =>
      cases evaluates
      have room : site.frame.operandBase < (site.cells locals (index :: operands)).height := by
        rw [Site.height_cells fits count, List.length_cons]
        omega
      have fetched := Site.fetch_at fits decoded written (fun _ => room)
      rw [← List.getElem?_toArray] at lands
      exact Site.leads_of_branch fits count fetched (.brTable pop) lands
  | ret =>
    cases same
    cases evaluates
    cases lands with
    | ret enough => exact Site.leads_of_ends fits count (fetches rfl _) .ret enough
  | call func =>
    cases same
    exact simulates.call compiled fits count (fetches rfl _) .direct evaluates lands
  | callIndirect type =>
    cases same
    cases operands with
    | nil => cases evaluates
    | cons index operands =>
      have fetched := fetches rfl
      obtain ⟨target, found, evaluates⟩ := Option.bind_eq_some_iff.mp evaluates
      obtain ⟨expected, known, slot⟩ := Module.tableFunc_of_tableTarget? found
      cases target with
      | ok func =>
        exact simulates.call compiled fits count (fetched _) (.indirect known pop slot)
          evaluates lands
      | error t =>
        cases evaluates
        cases lands with
        | trap =>
          refine .trap ?_
          rw [Site.step_state config (fetched _)]
          simp only [State.exec, State.execM, Id.run_pure, Site.state, State.pop, ne_eq, not_true,
            if_false, known, pop, slot]
          rfl

/-- One instruction, from the sequences inside it. -/
theorem stmt {s : Stmt} (simulates : Simulates m config run) (compiled : Compiled m bodies)
    (form : IsCode bytes [s]) (fits : site.Fits m) (count : locals.length = site.frame.localCount)
    (written : BytesAt (m.code site.frame.func) pos bytes)
    (evaluates : s.eval m bodies run locals operands = some ending)
    (lands : site.Lands (pos + bytes.length) ending goal) :
    Leads m config (site.state pos locals operands) goal := by
  cases form with
  | leaf first rest =>
    cases rest
    rw [List.append_nil] at written lands
    exact simulates.leaf compiled first fits count written evaluates lands
  | block typed inside rest =>
    cases rest
    exact simulates.block typed inside fits count written evaluates lands
  | loop typed inside rest =>
    cases rest
    exact simulates.loop typed inside fits count written evaluates lands
  | ifThen typed inside rest =>
    cases rest
    exact simulates.ifThen typed inside fits count written evaluates lands
  | ifElse typed inside other rest =>
    cases rest
    exact simulates.ifElse typed inside other fits count written evaluates lands

end Simulates

section Programs

variable {m : Module} {config : Config} {bodies : Nat → List Stmt}

/-- The machine runs every sequence of instructions as its meaning says. -/
theorem simulates_evalCode (config : Config) (compiled : Compiled m bodies) (fuel : Nat) :
    Simulates m config (evalCode m bodies fuel) := by
  induction fuel with
  | zero => exact ⟨nofun, nofun, nofun⟩
  | succ fuel ih =>
    refine ⟨?_, evalCode_keeps, ?_⟩
    · intro locals operands ending evaluates
      cases evaluates
      rfl
    · intro site pos bytes stmts locals operands ending goal form fits count written evaluates lands
      cases stmts with
      | nil =>
        cases form
        cases evaluates
        cases lands with
        | done => exact .here _
      | cons s stmts =>
        obtain ⟨xs, ys, rfl, first, rest⟩ := form.uncons
        obtain ⟨here, behind⟩ := BytesAt.append_iff.mp written
        obtain ⟨inner, ran, evaluates⟩ := Option.bind_eq_some_iff.mp evaluates
        have kept := Stmt.eval_keeps (fun _ _ _ _ => ih.keeps) ran
        rw [List.length_append, ← Nat.add_assoc] at lands
        by_cases comes : ∃ locals operands, inner = .done locals operands
        · obtain ⟨locals', operands', rfl⟩ := comes
          have reached : Leads m config (site.state pos locals operands) _ :=
            ih.stmt compiled first fits count here ran .done
          exact reached.trans (ih.leads rest fits (kept.trans count) behind evaluates lands)
        · have leaves : ∀ locals operands, inner ≠ .done locals operands := by
            intro locals' operands' same
            exact comes ⟨locals', operands', same⟩
          have same : inner = ending := by
            split at evaluates
            · exact absurd rfl (leaves _ _)
            · exact Option.some.inj evaluates
          subst same
          exact ih.stmt compiled first fits count here ran (lands.of_not_done leaves)

end Programs

end Wasm
