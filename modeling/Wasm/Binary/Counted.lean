import Wasm.Binary.Leb128

/-! # Data that states its own size

Vectors, names and regions start with a 32-bit count of what follows. The count is not trusted: a
read stops at the first element that is not there, so it never does more work than there are bytes.
-/

namespace Wasm.Reader

variable {α σ : Type}

/-- A count and that many steps from `init`. -/
def counted (init : σ) (step : σ → Reader σ) : Reader σ := do
  let count ← Leb128.u32
  fun bytes pos => iterate step bytes count init pos

/-- A count and that many elements, put behind those of `init`. -/
def vectorFrom (init : Array α) (element : Reader α) : Reader (Array α) :=
  counted init fun acc => do
    let a ← element
    pure (acc.push a)

/-- A count and that many elements. -/
def vector (element : Reader α) : Reader (Array α) :=
  vectorFrom #[] element

/-- A size and that many bytes. -/
def region : Reader Bytes := do
  let size ← Leb128.u32
  take size

/-- A size and that many bytes of UTF-8. A name that is not UTF-8 is blamed on its first byte. -/
def name : Reader String := do
  let start ← position
  let text ← region
  match String.fromUTF8? ⟨text⟩ with
  | some name => pure name
  | none => fail (.invalidUtf8 start)

end Wasm.Reader
