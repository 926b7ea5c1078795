import Wasm.Module.Section

/-!
Decoding checks that the type of every function exists, so in a decoded module the lookups of a
function and of its type succeed together (`Module.WellTyped.of_decode`).
-/

namespace Wasm

/-- Every function has a type that exists. -/
def Module.WellTyped (m : Module) : Prop :=
  ∀ (func : Nat) (callee : Func), m.funcs[func]? = some callee →
    ∃ type, m.types[callee.type]? = some type

namespace Sections

theorem types_of_assembleFuncs {s : Sections} {funcs : Array Func} {func : Nat} {callee : Func}
    (assembled : s.assembleFuncs = .ok funcs) (known : funcs[func]? = some callee) :
    callee.type < s.types.size := by
  unfold assembleFuncs at assembled
  split at assembled
  · cases assembled
  split at assembled
  · cases assembled
  rename_i inRange
  cases assembled
  rw [Array.getElem?_zipWith] at known
  split at known
  · rename_i type body typed _
    cases known
    have within : ¬ s.types.size ≤ type := by
      intro large
      apply inRange
      rw [Array.any_eq_true']
      exact ⟨type, Array.mem_of_getElem? typed, by simpa using large⟩
    exact Nat.not_le.mp within
  · cases known

end Sections

namespace Module

theorem WellTyped.of_decode {bytes : Bytes} {m : Module} (decoded : decode bytes = .ok m) :
    m.WellTyped := by
  intro func callee known
  obtain ⟨⟨_, pos⟩, -, decoded⟩ := except_bind_eq_ok_iff.mp decoded
  obtain ⟨sections, -, decoded⟩ := except_bind_eq_ok_iff.mp decoded
  obtain ⟨funcs, assembled, decoded⟩ := except_bind_eq_ok_iff.mp decoded
  obtain ⟨table, -, decoded⟩ := except_bind_eq_ok_iff.mp decoded
  cases decoded
  have inRange := Sections.types_of_assembleFuncs assembled known
  exact ⟨sections.types[callee.type], Array.getElem?_eq_getElem inRange⟩

end Module

end Wasm
