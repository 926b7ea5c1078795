import Wasm.Proofs.Structured.Simulation

/-!
Invocations give what structured programs mean.

`evalInvoke` is the meaning of an invocation, by recursion on the trees of the functions; an
instance runs their bytes. The two agree on every program, whatever has been invoked before:

* `invoke_refines_evalInvoke`: an invocation gives the value or the trap that the meaning of its
  function gives, unless it exhausts the call stack.
-/

namespace Wasm

section Invocations

variable {m : Module} {config : Config} {bodies : Nat → List Stmt} {inst : Instance}
  {fuel func : Nat} {args : List Cell} {type : FuncType} {outcome : Outcome}

/-- An invocation with the right number of arguments starts by entering its function. -/
theorem Instance.start_of_declared (config : Config) (declared : m.funcType? func = some type)
    (count : args.length = type.params.length) (single : type.results.length ≤ 1) :
    start m config .empty func args =
      ((⟨.ofList (List.zipWith ValType.canonical type.params args), [], []⟩ : State).enter
        m config func).map fun transition => (transition, type.results.head?) := by
  simp only [start, declared, count, ne_eq, not_true, if_false, Nat.not_lt.mpr single, State.empty,
    Cells.pushAll_empty]

/-- The outcome for the results that a function leaves on the stack. -/
theorem outcomeOf_results {results : List Cell} (count : results.length = type.results.length)
    (single : type.results.length ≤ 1) :
    Instance.outcomeOf func type.results.head? (.ok ⟨.ofList results.reverse, [], []⟩) =
      .value (type.value results) := by
  unfold FuncType.value
  match type.results, results, count, single with
  | [], [], _, _ => rfl
  | [result], [cell], _, _ => rfl

/-- An invocation gives the value or the trap that the meaning of its function gives, unless it
exhausts the call stack. -/
theorem invoke_refines_evalInvoke (compiled : Compiled m bodies)
    (history : Instance.History m config inst)
    (evaluates : evalInvoke m bodies fuel func args = some outcome) :
    inst.Returns func args outcome ∨
      inst.Returns func args (.failed (.trap .callStackExhausted)) := by
  obtain ⟨type, declared, evaluates⟩ := Option.bind_eq_some_iff.mp evaluates
  obtain ⟨count, evaluates⟩ := Option.ite_none_right_eq_some.mp evaluates
  obtain ⟨result, called, evaluates⟩ := Option.bind_eq_some_iff.mp evaluates
  obtain ⟨single, given⟩ := length_of_callFunc declared called
  have start := Instance.start_of_declared config declared count single
  have simulates := simulates_evalCode config compiled fuel
  have empty : State.floor [] ≤ ([] : List Cell).length := Nat.zero_le _
  rcases simulates.enter [] compiled called empty with exhausted | ⟨first, event, entered, leads⟩
  · rw [List.nil_append] at exhausted
    rw [exhausted] at start
    exact .inr (Instance.returns_of_start_error history start)
  · rw [List.nil_append] at entered
    rw [entered] at start
    have ended : ∀ t, (result.map fun results : List Cell =>
        (⟨.ofList ([] ++ results.reverse), [], []⟩ : State)) = .ok t → t.frames = [] := by
      intro t same
      obtain ⟨results, -, rfl⟩ := except_map_eq_ok_iff.mp same
      rfl
    rcases leads.settles ended with settles | settles
    · left
      have returns := Instance.returns_of_settles history start settles
      cases result with
      | ok results =>
        cases evaluates
        rwa [← outcomeOf_results (given results rfl) single]
      | error t =>
        cases evaluates
        exact returns
    · exact .inr (Instance.returns_of_settles history start settles)

end Invocations

/-! ### A program to look at -/

namespace Countdown

/-- The bodies of two functions from `i32` to `i32`. The first calls the second for its argument and
for each smaller number down to one, in a `loop`, and adds up the results; the second gives an odd
number back and zero for an even one. -/
def bodies : Nat → List Stmt
  | 0 => [
      .loop .empty [
        .plain (.localGet 1), .plain (.localGet 0), .call 1,
        .plain (.numeric (.binary (.arith .w32 .add))), .plain (.localSet 1),
        .plain (.localGet 0), .plain (.const 1),
        .plain (.numeric (.binary (.arith .w32 .sub))), .plain (.localTee 0), .brIf 0],
      .plain (.localGet 1)]
  | 1 => [
      .plain (.localGet 0), .plain (.const 1), .plain (.numeric (.binary (.arith .w32 .and))),
      .ifElse (.value .i32) [.plain (.localGet 0), .ret] [.plain (.const 0)]]
  | _ => []

/-- A module whose functions have these bodies. -/
def program : Module :=
  { types := #[.new [.i32] [.i32]]
    funcs := #[
      ⟨0, 1, #[0x03, 0x40, 0x20, 0x01, 0x20, 0x00, 0x10, 0x01, 0x6A, 0x21, 0x01, 0x20, 0x00, 0x41,
        0x01, 0x6B, 0x22, 0x00, 0x0D, 0x00, 0x0B, 0x20, 0x01, 0x0B]⟩,
      ⟨0, 0, #[0x20, 0x00, 0x41, 0x01, 0x71, 0x04, 0x7F, 0x20, 0x00, 0x0F, 0x05, 0x41, 0x00, 0x0B,
        0x0B]⟩]
    exports := #[]
    table := none }

/-- The bytes of each function are a form of its body. -/
theorem compiled : Compiled program bodies := by
  have zero : Leb128.IsUnsigned 32 [0x00] 0 := .last (by decide) (by decide)
  have one : Leb128.IsUnsigned 32 [0x01] 1 := .last (by decide) (by decide)
  have const0 : Stmt.IsLeaf [0x41, 0x00] (.plain (.const 0)) :=
    .const32 (.positive (by decide) (by decide))
  have const1 : Stmt.IsLeaf [0x41, 0x01] (.plain (.const 1)) :=
    .const32 (.positive (by decide) (by decide))
  have add : Stmt.IsLeaf [0x6A] (.plain (.numeric (.binary (.arith .w32 .add)))) := .numeric rfl
  have sub : Stmt.IsLeaf [0x6B] (.plain (.numeric (.binary (.arith .w32 .sub)))) := .numeric rfl
  have and : Stmt.IsLeaf [0x71] (.plain (.numeric (.binary (.arith .w32 .and)))) := .numeric rfl
  intro index func known
  match index with
  | 0 =>
    cases known
    have body := IsCode.leaf (.localGet one) <| .leaf (.localGet zero) <| .leaf (.call one) <|
      .leaf add <| .leaf (.localSet one) <| .leaf (.localGet zero) <| .leaf const1 <| .leaf sub <|
      .leaf (.localTee zero) <| .leaf (.brIf zero) .nil
    exact ⟨_, .loop .empty body (.leaf (.localGet one) .nil), rfl⟩
  | 1 =>
    cases known
    have yes := IsCode.leaf (.localGet zero) (.leaf .ret .nil)
    have no := IsCode.leaf const0 .nil
    have whole := IsCode.leaf (.localGet zero) <| .leaf const1 <| .leaf and <|
      .ifElse (.value .i32) yes no .nil
    exact ⟨_, whole, rfl⟩
  | index + 2 => cases known

/-- An instance of the program that has been used before. -/
def inst : Instance :=
  ((Instance.new program {}).invoke 1000 0 [4]).inst

/-- The program means nine for five, so an instance that has been used before gives nine: under the
default limits it does not exhaust the call stack. -/
theorem invoke_five : evalInvoke program bodies 40 0 [5] = some (.value 9) ∧
    inst.Returns 0 [5] (.value 9) := by
  have evaluates : evalInvoke program bodies 40 0 [5] = some (.value 9) := by decide +kernel
  refine ⟨evaluates, ?_⟩
  have history : Instance.History program {} inst := .invoke .new 1000 0 [4]
  rcases invoke_refines_evalInvoke compiled history evaluates with returns | exhausted
  · exact returns
  · -- A thousand steps are enough to see that the other end is not the one.
    have ends : (inst.invoke 1000 0 [5]).outcome ≠ .failed (.trap .callStackExhausted) ∧
        (inst.invoke 1000 0 [5]).outcome ≠ .outOfFuel := by decide +kernel
    exact absurd ((Instance.returns_of_invoke inst 1000 0 [5] ends.2).unique exhausted) ends.1

end Countdown

end Wasm
