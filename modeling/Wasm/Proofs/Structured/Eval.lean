import Wasm.Instance
import Wasm.Proofs.Structured.Syntax

/-!
The meaning of structured programs, by recursion on their trees.

A sequence of instructions works on the locals of its function and on operands of its own, the top
one first; `Ending` says how it ends. A block starts with no operands and hands its results to the
sequence around it; a branch passes one block for each unit of its depth; a function is a block
whose operands are its results. Nothing here knows of bytes, offsets or a stack that is shared.

`Stmt.eval` gives the ending of one instruction from the endings of the sequences inside it, and
`evalCode` ties the knot. A program may run forever, so `evalCode` is given fuel; it gives nothing
when the fuel is used up, and nothing when an instruction finds no operand or index that it needs.
Only when it gives an ending has the program one.

* `Ending.Keeps`, `evalCode_keeps`: no instruction changes how many locals there are;
* `evalCode_mono`, `evalInvoke_unique`: more fuel changes no ending, so an invocation means one
  outcome at most.
-/

namespace Wasm

/-- How a sequence of instructions ends. -/
inductive Ending
  /-- It comes to its end. -/
  | done (locals operands : List Cell)
  /-- It branches out of `depth` blocks to the one around them. -/
  | branch (depth : Nat) (locals operands : List Cell)
  /-- It returns from the function. -/
  | ret (operands : List Cell)
  | trap (trap : Trap)
  deriving DecidableEq, Repr

namespace Ending

/-- What the ending of a block's body means for the sequence around the block, which has `outer`
operands: the block's results are put on top of these. -/
def close (arity : Nat) (outer : List Cell) : Ending → Option Ending
  | done locals operands | branch 0 locals operands =>
    if arity ≤ operands.length then some (.done locals (operands.take arity ++ outer)) else none
  | branch (depth + 1) locals operands => some (.branch depth locals operands)
  | ret operands => some (.ret operands)
  | trap t => some (.trap t)

/-- What the ending of a function's body means for its caller. -/
def results (arity : Nat) : Ending → Option (Except Trap (List Cell))
  | done _ operands | branch 0 _ operands | ret operands =>
    if arity ≤ operands.length then some (.ok (operands.take arity)) else none
  | branch (_ + 1) _ _ => none
  | trap t => some (.error t)

end Ending

/-- The effect of a plain instruction on locals and operands. -/
def Plain.eval : Plain → (locals operands : List Cell) → Option Ending
  | unreachable, _, _ => some (.trap .unreachable)
  | nop, locals, operands => some (.done locals operands)
  | drop, locals, _ :: operands => some (.done locals operands)
  | select, locals, condition :: second :: first :: operands =>
    some (.done locals ((if Cell.isTrue condition then first else second) :: operands))
  | localGet index, locals, operands => do
    let cell ← locals[index]?
    some (.done locals (cell :: operands))
  | localSet index, locals, cell :: operands =>
    if index < locals.length then some (.done (locals.set index cell) operands) else none
  | localTee index, locals, cell :: operands =>
    if index < locals.length then some (.done (locals.set index cell) (cell :: operands)) else none
  | const value, locals, operands => some (.done locals (value :: operands))
  | numeric (.unary op), locals, x :: operands => some (.done locals (op.eval x :: operands))
  | numeric (.binary op), locals, y :: x :: operands =>
    match op.eval x y with
    | .ok result => some (.done locals (result :: operands))
    | .error t => some (.trap t)
  | _, _, _ => none

namespace Module

/-- How many results a block of the type has, if blocks of the type can be run: those that take no
operands and have at most one result. -/
def blockResults? (m : Module) : BlockType → Option Nat
  | .empty => some 0
  | .value _ => some 1
  | .index index => do
    let type ← m.types[index]?
    if type.params = [] ∧ type.results.length ≤ 1 then some type.results.length else none

/-- The function in a slot of the table, or why a call through it traps. -/
def tableTarget? (m : Module) (type index : Nat) : Option (Except Trap Nat) := do
  let expected ← m.types[type]?
  match m.table.bind (·.slots[index]?) with
  | none => some (.error .undefinedElement)
  | some none => some (.error .uninitializedElement)
  | some (some func) =>
    let actual ← m.funcType? func
    some (if actual = expected then .ok func else .error .signatureMismatch)

end Module

section Evaluation

variable (m : Module) (bodies : Nat → List Stmt)

/-- The results of a function for the given arguments, when `run` evaluates sequences. Functions
with more than one result are not evaluated. -/
def callFunc (run : List Stmt → List Cell → List Cell → Option Ending) (func : Nat)
    (args : List Cell) : Option (Except Trap (List Cell)) := do
  let callee ← m.funcs[func]?
  let type ← m.types[callee.type]?
  if args.length = type.params.length ∧ type.results.length ≤ 1 then
    let ending ← run (bodies func) (args ++ List.replicate callee.body.localCount 0) []
    ending.results type.results.length
  else
    none

/-- A call takes its arguments off the operands and puts the results there. -/
def evalCall (run : List Stmt → List Cell → List Cell → Option Ending) (func : Nat)
    (locals operands : List Cell) : Option Ending := do
  let type ← m.funcType? func
  let count := type.params.length
  match ← callFunc m bodies run func (operands.take count).reverse with
  | .ok results => some (.done locals (results ++ operands.drop count))
  | .error t => some (.trap t)

/-- The ending of one instruction, when `run` evaluates the sequences inside it. -/
def Stmt.eval (run : List Stmt → List Cell → List Cell → Option Ending) :
    Stmt → (locals operands : List Cell) → Option Ending
  | plain op, locals, operands => op.eval locals operands
  | block type body, locals, operands => do
    let arity ← m.blockResults? type
    let ending ← run body locals []
    ending.close arity operands
  | loop type body, locals, operands => do
    let arity ← m.blockResults? type
    match ← run body locals [] with
    | .branch 0 locals _ => run [loop type body] locals operands
    | ending => ending.close arity operands
  | ifElse type yes no, locals, condition :: operands => do
    let arity ← m.blockResults? type
    let ending ← run (if Cell.isTrue condition then yes else no) locals []
    ending.close arity operands
  | br depth, locals, operands => some (.branch depth locals operands)
  | brIf depth, locals, condition :: operands =>
    some (if Cell.isTrue condition then .branch depth locals operands else .done locals operands)
  | brTable depths default, locals, index :: operands =>
    some (.branch (depths[Cell.index index]?.getD default) locals operands)
  | ret, _, operands => some (.ret operands)
  | call func, locals, operands => evalCall m bodies run func locals operands
  | callIndirect type, locals, index :: operands => do
    match ← m.tableTarget? type (Cell.index index) with
    | .ok func => evalCall m bodies run func locals operands
    | .error t => some (.trap t)
  | _, _, _ => none

/-- The ending of a sequence of instructions, if the fuel is enough for it. -/
def evalCode : (fuel : Nat) → List Stmt → (locals operands : List Cell) → Option Ending
  | 0, _, _, _ => none
  | _ + 1, [], locals, operands => some (.done locals operands)
  | fuel + 1, s :: stmts, locals, operands => do
    match ← s.eval m bodies (evalCode fuel) locals operands with
    | .done locals operands => evalCode fuel stmts locals operands
    | ending => some ending

/-- The results of a function for the given arguments, if the fuel is enough. -/
def evalFunc (fuel func : Nat) (args : List Cell) : Option (Except Trap (List Cell)) :=
  callFunc m bodies (evalCode m bodies fuel) func args

/-- The value that an invocation gives for the results of its function. -/
def FuncType.value (type : FuncType) (results : List Cell) : Cell :=
  match type.results, results with
  | result :: _, cell :: _ => result.canonical cell
  | _, _ => 0

/-- The outcome of an invocation, if the fuel is enough: the arguments and the result are cut to
their types. -/
def evalInvoke (fuel func : Nat) (args : List Cell) : Option Outcome := do
  let type ← m.funcType? func
  if args.length = type.params.length then
    match ← evalFunc m bodies fuel func (List.zipWith ValType.canonical type.params args) with
    | .ok results => some (.value (type.value results))
    | .error t => some (.failed (.trap t))
  else
    none

end Evaluation

/-! ### The number of results -/

theorem Ending.length_of_results {arity : Nat} {ending : Ending} {results : List Cell}
    (returns : ending.results arity = some (.ok results)) : results.length = arity := by
  unfold Ending.results at returns
  split at returns
  case h_1 | h_2 | h_3 =>
    obtain ⟨enough, same⟩ := Option.ite_none_right_eq_some.mp returns
    cases same
    rw [List.length_take, Nat.min_eq_left enough]
  all_goals cases returns

/-- A call that is evaluated is one with at most one result, and gives as many as the type has. -/
theorem length_of_callFunc {m : Module} {bodies : Nat → List Stmt}
    {run : List Stmt → List Cell → List Cell → Option Ending} {func : Nat} {args : List Cell}
    {type : FuncType} {result : Except Trap (List Cell)} (declared : m.funcType? func = some type)
    (called : callFunc m bodies run func args = some result) :
    type.results.length ≤ 1 ∧
      ∀ results, result = .ok results → results.length = type.results.length := by
  obtain ⟨callee, known, called⟩ := Option.bind_eq_some_iff.mp called
  obtain ⟨type', typed, called⟩ := Option.bind_eq_some_iff.mp called
  obtain ⟨⟨-, single⟩, called⟩ := Option.ite_none_right_eq_some.mp called
  obtain ⟨ending, -, returns⟩ := Option.bind_eq_some_iff.mp called
  obtain ⟨callee', known', declared⟩ := Option.bind_eq_some_iff.mp declared
  cases known.symm.trans known'
  cases typed.symm.trans declared
  refine ⟨single, ?_⟩
  rintro results rfl
  exact Ending.length_of_results returns

/-! ### The number of locals -/

/-- An ending from which the function goes on has `count` locals. -/
def Ending.Keeps (count : Nat) : Ending → Prop
  | done locals _ | branch _ locals _ => locals.length = count
  | ret _ | trap _ => True

theorem Ending.Keeps.close {count arity : Nat} {outer : List Cell} {ending closed : Ending}
    (keeps : ending.Keeps count) (closes : ending.close arity outer = some closed) :
    closed.Keeps count := by
  cases ending with
  | done locals operands =>
    simp only [Ending.close, Option.ite_none_right_eq_some, Option.some.injEq] at closes
    obtain ⟨-, rfl⟩ := closes
    exact keeps
  | branch depth locals operands =>
    cases depth with
    | zero =>
      simp only [Ending.close, Option.ite_none_right_eq_some, Option.some.injEq] at closes
      obtain ⟨-, rfl⟩ := closes
      exact keeps
    | succ depth =>
      cases closes
      exact keeps
  | ret operands =>
    cases closes
    trivial
  | trap t =>
    cases closes
    trivial

/-- A binary instruction puts its result in the place of its operands, unless it traps. -/
theorem Plain.eval_binary {op : BinaryOp} {locals operands : List Cell} {x y : Cell} :
    (Plain.numeric (.binary op)).eval locals (y :: x :: operands) =
      match op.eval x y with
      | .ok result => some (.done locals (result :: operands))
      | .error t => some (.trap t) :=
  rfl

theorem Plain.eval_keeps {op : Plain} {locals operands : List Cell} {ending : Ending}
    (evaluates : op.eval locals operands = some ending) : ending.Keeps locals.length := by
  cases op with
  | unreachable =>
    cases evaluates
    trivial
  | nop | const value =>
    cases evaluates
    rfl
  | drop =>
    cases operands with
    | nil => cases evaluates
    | cons cell operands =>
      cases evaluates
      rfl
  | select =>
    match operands, evaluates with
    | condition :: second :: first :: operands, evaluates =>
      cases evaluates
      rfl
  | localGet index =>
    obtain ⟨cell, -, same⟩ := Option.bind_eq_some_iff.mp evaluates
    cases same
    rfl
  | localSet index | localTee index =>
    cases operands with
    | nil => cases evaluates
    | cons cell operands =>
      obtain ⟨-, same⟩ := Option.ite_none_right_eq_some.mp evaluates
      cases same
      exact List.length_set
  | numeric op =>
    cases op with
    | unary op =>
      cases operands with
      | nil => cases evaluates
      | cons x operands =>
        cases evaluates
        rfl
    | binary op =>
      match operands, evaluates with
      | y :: x :: operands, evaluates =>
        rw [eval_binary] at evaluates
        split at evaluates
        · cases evaluates
          rfl
        · cases evaluates
          trivial

section Keeps

variable {m : Module} {bodies : Nat → List Stmt}
  {run : List Stmt → List Cell → List Cell → Option Ending} {locals operands : List Cell}
  {ending : Ending}

theorem evalCall_keeps {func : Nat}
    (evaluates : evalCall m bodies run func locals operands = some ending) :
    ending.Keeps locals.length := by
  obtain ⟨type, -, evaluates⟩ := Option.bind_eq_some_iff.mp evaluates
  obtain ⟨result, -, evaluates⟩ := Option.bind_eq_some_iff.mp evaluates
  cases result with
  | ok results =>
    cases evaluates
    rfl
  | error t =>
    cases evaluates
    trivial

/-- An instruction keeps the number of locals when the sequences inside it do. -/
theorem Stmt.eval_keeps {s : Stmt}
    (inside : ∀ stmts locals operands ending, run stmts locals operands = some ending →
      ending.Keeps locals.length)
    (evaluates : s.eval m bodies run locals operands = some ending) :
    ending.Keeps locals.length := by
  cases s with
  | plain op => exact Plain.eval_keeps evaluates
  | block type body =>
    obtain ⟨arity, -, evaluates⟩ := Option.bind_eq_some_iff.mp evaluates
    obtain ⟨inner, ran, closes⟩ := Option.bind_eq_some_iff.mp evaluates
    exact (inside _ _ _ _ ran).close closes
  | loop type body =>
    obtain ⟨arity, -, evaluates⟩ := Option.bind_eq_some_iff.mp evaluates
    obtain ⟨inner, ran, evaluates⟩ := Option.bind_eq_some_iff.mp evaluates
    have kept := inside _ _ _ _ ran
    split at evaluates
    · have again := inside _ _ _ _ evaluates
      rwa [show _ = locals.length from kept] at again
    · exact kept.close evaluates
  | ifElse type yes no =>
    cases operands with
    | nil => cases evaluates
    | cons condition operands =>
      obtain ⟨arity, -, evaluates⟩ := Option.bind_eq_some_iff.mp evaluates
      obtain ⟨inner, ran, closes⟩ := Option.bind_eq_some_iff.mp evaluates
      exact (inside _ _ _ _ ran).close closes
  | br depth =>
    cases evaluates
    rfl
  | brIf depth =>
    cases operands with
    | nil => cases evaluates
    | cons condition operands =>
      simp only [eval, Option.some.injEq] at evaluates
      subst evaluates
      split
      · rfl
      · rfl
  | brTable depths default =>
    cases operands with
    | nil => cases evaluates
    | cons index operands =>
      cases evaluates
      rfl
  | ret =>
    cases evaluates
    trivial
  | call func => exact evalCall_keeps evaluates
  | callIndirect type =>
    cases operands with
    | nil => cases evaluates
    | cons index operands =>
      obtain ⟨target, -, evaluates⟩ := Option.bind_eq_some_iff.mp evaluates
      cases target with
      | ok func => exact evalCall_keeps evaluates
      | error t =>
        cases evaluates
        trivial

/-- No sequence of instructions changes how many locals there are. -/
theorem evalCode_keeps {fuel : Nat} {stmts : List Stmt}
    (evaluates : evalCode m bodies fuel stmts locals operands = some ending) :
    ending.Keeps locals.length := by
  induction fuel generalizing stmts locals operands ending with
  | zero => cases evaluates
  | succ fuel ih =>
    cases stmts with
    | nil =>
      cases evaluates
      rfl
    | cons s stmts =>
      obtain ⟨first, ran, evaluates⟩ := Option.bind_eq_some_iff.mp evaluates
      have kept := Stmt.eval_keeps (fun _ _ _ _ => ih) ran
      split at evaluates
      · have rest := ih evaluates
        rwa [show _ = locals.length from kept] at rest
      · cases evaluates
        exact kept

end Keeps

/-! ### Fuel -/

section Fuel

variable {m : Module} {bodies : Nat → List Stmt}
  {run run' : List Stmt → List Cell → List Cell → Option Ending} {locals operands : List Cell}
  {ending : Ending} {func : Nat} {args : List Cell}

/-- Every ending that `run` gives is given by `run'`. -/
def Agrees (run run' : List Stmt → List Cell → List Cell → Option Ending) : Prop :=
  ∀ {stmts locals operands ending}, run stmts locals operands = some ending →
    run' stmts locals operands = some ending

theorem callFunc_mono {result : Except Trap (List Cell)} (agree : Agrees run run')
    (evaluates : callFunc m bodies run func args = some result) :
    callFunc m bodies run' func args = some result := by
  obtain ⟨callee, known, evaluates⟩ := Option.bind_eq_some_iff.mp evaluates
  obtain ⟨type, typed, evaluates⟩ := Option.bind_eq_some_iff.mp evaluates
  obtain ⟨fits, evaluates⟩ := Option.ite_none_right_eq_some.mp evaluates
  obtain ⟨ending, ran, returns⟩ := Option.bind_eq_some_iff.mp evaluates
  refine Option.bind_eq_some_iff.mpr ⟨callee, known, ?_⟩
  refine Option.bind_eq_some_iff.mpr ⟨type, typed, ?_⟩
  refine Option.ite_none_right_eq_some.mpr ⟨fits, ?_⟩
  exact Option.bind_eq_some_iff.mpr ⟨ending, agree ran, returns⟩

theorem evalCall_mono (agree : Agrees run run')
    (evaluates : evalCall m bodies run func locals operands = some ending) :
    evalCall m bodies run' func locals operands = some ending := by
  obtain ⟨type, typed, evaluates⟩ := Option.bind_eq_some_iff.mp evaluates
  obtain ⟨result, called, evaluates⟩ := Option.bind_eq_some_iff.mp evaluates
  refine Option.bind_eq_some_iff.mpr ⟨type, typed, ?_⟩
  exact Option.bind_eq_some_iff.mpr ⟨result, callFunc_mono agree called, evaluates⟩

/-- An instruction has the same ending when the sequences inside it have. -/
theorem Stmt.eval_mono {s : Stmt} (agree : Agrees run run')
    (evaluates : s.eval m bodies run locals operands = some ending) :
    s.eval m bodies run' locals operands = some ending := by
  cases s with
  | plain op => exact evaluates
  | block type body =>
    obtain ⟨arity, typed, evaluates⟩ := Option.bind_eq_some_iff.mp evaluates
    obtain ⟨inner, ran, closes⟩ := Option.bind_eq_some_iff.mp evaluates
    refine Option.bind_eq_some_iff.mpr ⟨arity, typed, ?_⟩
    exact Option.bind_eq_some_iff.mpr ⟨inner, agree ran, closes⟩
  | loop type body =>
    obtain ⟨arity, typed, evaluates⟩ := Option.bind_eq_some_iff.mp evaluates
    obtain ⟨inner, ran, evaluates⟩ := Option.bind_eq_some_iff.mp evaluates
    refine Option.bind_eq_some_iff.mpr ⟨arity, typed, ?_⟩
    refine Option.bind_eq_some_iff.mpr ⟨inner, agree ran, ?_⟩
    split at evaluates
    · exact agree evaluates
    · exact evaluates
  | ifElse type yes no =>
    cases operands with
    | nil => cases evaluates
    | cons condition operands =>
      obtain ⟨arity, typed, evaluates⟩ := Option.bind_eq_some_iff.mp evaluates
      obtain ⟨inner, ran, closes⟩ := Option.bind_eq_some_iff.mp evaluates
      refine Option.bind_eq_some_iff.mpr ⟨arity, typed, ?_⟩
      exact Option.bind_eq_some_iff.mpr ⟨inner, agree ran, closes⟩
  | br depth | ret => exact evaluates
  | brIf depth | brTable depths default =>
    cases operands with
    | nil => cases evaluates
    | cons cell operands => exact evaluates
  | call func => exact evalCall_mono agree evaluates
  | callIndirect type =>
    cases operands with
    | nil => cases evaluates
    | cons index operands =>
      obtain ⟨target, found, evaluates⟩ := Option.bind_eq_some_iff.mp evaluates
      refine Option.bind_eq_some_iff.mpr ⟨target, found, ?_⟩
      cases target with
      | ok func => exact evalCall_mono agree evaluates
      | error t => exact evaluates

/-- More fuel changes no ending. -/
theorem evalCode_mono {fuel fuel' : Nat} (more : fuel ≤ fuel') :
    Agrees (evalCode m bodies fuel) (evalCode m bodies fuel') := by
  induction fuel generalizing fuel' with
  | zero => exact nofun
  | succ fuel ih =>
    intro stmts locals operands ending evaluates
    cases fuel' with
    | zero => omega
    | succ fuel' =>
      have agree : Agrees (evalCode m bodies fuel) (evalCode m bodies fuel') := ih (by omega)
      cases stmts with
      | nil => exact evaluates
      | cons s stmts =>
        obtain ⟨first, ran, evaluates⟩ := Option.bind_eq_some_iff.mp evaluates
        refine Option.bind_eq_some_iff.mpr ⟨first, Stmt.eval_mono agree ran, ?_⟩
        split at evaluates
        · exact agree evaluates
        · exact evaluates

theorem evalInvoke_mono {fuel fuel' : Nat} {outcome : Outcome} (more : fuel ≤ fuel')
    (evaluates : evalInvoke m bodies fuel func args = some outcome) :
    evalInvoke m bodies fuel' func args = some outcome := by
  obtain ⟨type, declared, evaluates⟩ := Option.bind_eq_some_iff.mp evaluates
  obtain ⟨count, evaluates⟩ := Option.ite_none_right_eq_some.mp evaluates
  obtain ⟨result, called, evaluates⟩ := Option.bind_eq_some_iff.mp evaluates
  refine Option.bind_eq_some_iff.mpr ⟨type, declared, ?_⟩
  refine Option.ite_none_right_eq_some.mpr ⟨count, ?_⟩
  exact Option.bind_eq_some_iff.mpr ⟨result, callFunc_mono (evalCode_mono more) called, evaluates⟩

/-- An invocation means one outcome at most. -/
theorem evalInvoke_unique {fuel fuel' : Nat} {outcome outcome' : Outcome}
    (one : evalInvoke m bodies fuel func args = some outcome)
    (other : evalInvoke m bodies fuel' func args = some outcome') : outcome = outcome' := by
  have first := evalInvoke_mono (Nat.le_max_left fuel fuel') one
  have second := evalInvoke_mono (Nat.le_max_right fuel fuel') other
  exact Option.some.inj (first.symm.trans second)

end Fuel

end Wasm
