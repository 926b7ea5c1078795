import Mathlib.Algebra.GroupWithZero.Nat
import Wasm.Proofs.Binary.Locality

/-!
What is read has been paid for with bytes.

A count is not trusted, so nothing that a reader gives can be larger than the input. To say this of
readers that add to what was read before, results are given weights: `Reader.Paid weight given r`
says that what `r` gives weighs no more than what was `given` and the bytes that were used. Along a
sequence of reads the weight of what one of them gives is what is given to the next.

* `Paid.bind`, `Paid.iterate`: composing reads, and repeating one;
* `Paid.enclosed`: inside a region a read has the bytes of the region;
* `Paid.u32`, `Paid.region`, `Paid.name`: what the readers of the format use;
* `Paid.vectorFrom`: a vector weighs as much as its elements, whatever its count says.
-/

namespace Wasm.Reader

variable {α β σ : Type} {r : Reader α} {weight lighter : α → Nat} {given more : Nat}

/-- A read from inside the bytes ends inside them, and what it gives weighs no more than what was
given and the bytes that were used. -/
def Paid (weight : α → Nat) (given : Nat) (r : Reader α) : Prop :=
  ∀ bytes pos a q, r bytes pos = .ok (a, q) → pos ≤ bytes.size →
    q ≤ bytes.size ∧ weight a + pos ≤ given + q

namespace Paid

theorem mono (paid : Paid weight given r) (less : ∀ a, lighter a ≤ weight a)
    (enough : given ≤ more) : Paid lighter more r := by
  intro bytes pos a q read inside
  obtain ⟨within, bound⟩ := paid bytes pos a q read inside
  have := less a
  exact ⟨within, by omega⟩

/-- What else was given is still there afterwards. -/
theorem frame (paid : Paid weight given r) (rest : Nat) :
    Paid (fun a => rest + weight a) (rest + given) r := by
  intro bytes pos a q read inside
  obtain ⟨within, bound⟩ := paid bytes pos a q read inside
  refine ⟨within, ?_⟩
  dsimp only
  omega

/-- A local read pays for as many bytes as it uses at least, whatever it gives. -/
theorem of_local {least : Nat} (isLocal : Local least fun _ : Unit => r) :
    Paid (fun _ => given + least) given r := by
  intro bytes pos a q read inside
  obtain ⟨forwards, within, -⟩ := isLocal.elsewhere inside read
  refine ⟨within, ?_⟩
  dsimp only
  omega

theorem pure {a : α} (enough : weight a ≤ given) : Paid weight given (Pure.pure a) := by
  intro bytes pos b q read inside
  cases read
  exact ⟨inside, by omega⟩

theorem bind {first : Reader α} {next : α → Reader β} {weight' : β → Nat}
    (paid : Paid weight given first) (rest : ∀ a, Paid weight' (weight a) (next a)) :
    Paid weight' given (first >>= next) := by
  intro bytes pos b q read inside
  obtain ⟨a, p, readFirst, readNext⟩ := bind_eq_ok_iff.mp read
  obtain ⟨within, before⟩ := paid bytes pos a p readFirst inside
  obtain ⟨within, after⟩ := rest a bytes p b q readNext within
  exact ⟨within, by omega⟩

/-- Reading something that is not used, and then something else. -/
theorem skip {least : Nat} {first : Reader α} {next : α → Reader β} {weight' : β → Nat}
    (isLocal : Local least fun _ : Unit => first) (rest : ∀ a, Paid weight' given (next a)) :
    Paid weight' given (first >>= next) :=
  (of_local isLocal.weaken).bind rest

theorem fail (e : DecodeError) : Paid weight given (Reader.fail e) := by
  intro bytes pos a q read
  cases read

theorem malformed (rule : Malformation) : Paid weight given (Reader.malformed rule) := by
  intro bytes pos a q read
  cases read

theorem ite {p : Prop} [Decidable p] {first second : Reader α} (left : Paid weight given first)
    (right : Paid weight given second) : Paid weight given (if p then first else second) := by
  split
  · exact left
  · exact right

theorem position : Paid (fun _ => given) given Reader.position := by
  intro bytes pos a q read inside
  cases read
  exact ⟨inside, Nat.le_refl _⟩

theorem atEnd : Paid (fun _ => given) given Reader.atEnd := by
  intro bytes pos a q read inside
  cases read
  exact ⟨inside, Nat.le_refl _⟩

theorem byte : Paid (fun _ => given + 1) given Reader.byte :=
  of_local .byte

theorem take (count : Nat) :
    Paid (fun content => given + content.size) given (Reader.take count) := by
  intro bytes pos a q read _
  obtain ⟨within, rfl, rfl⟩ := take_eq_ok_iff.mp read
  refine ⟨within, ?_⟩
  dsimp only
  rw [Array.size_extract]
  omega

theorem rest : Paid (fun content => given + content.size) given Reader.rest := by
  intro bytes pos a q read inside
  cases read
  dsimp only
  rw [Array.size_extract]
  omega

/-- Inside a region, a read has the bytes of the region to use. -/
theorem enclosed {inner : Reader α} (paid : Paid weight given inner) (content : Bytes) :
    Paid weight (given + content.size) (Reader.enclosed content inner) := by
  intro bytes pos a q read inside
  obtain ⟨rfl, after, result⟩ := enclosed_eq_ok_iff.mp read
  obtain ⟨within, bound⟩ := paid content 0 a after result (Nat.zero_le _)
  exact ⟨inside, by omega⟩

/-- A loop is paid for when each of its steps is. -/
theorem iterate {step : σ → Reader σ} {weight : σ → Nat}
    (paid : ∀ acc, Paid weight (weight acc) (step acc)) (count : Nat) (acc : σ) :
    Paid weight (weight acc) (fun bytes pos => Reader.iterate step bytes count acc pos) := by
  induction count generalizing acc with
  | zero => exact pure (Nat.le_refl _)
  | succ count ih =>
    have unfolded : (fun bytes pos => Reader.iterate step bytes (count + 1) acc pos) =
        (step acc >>= fun acc => fun bytes pos => Reader.iterate step bytes count acc pos) := by
      funext bytes pos
      rfl
    rw [unfolded]
    exact (paid acc).bind ih

/-! ### Integers and what states its own size -/

/-- Every integer takes at least one byte. -/
theorem u32 : Paid (fun _ => given + 1) given Leb128.u32 :=
  of_local Leb128.local_u32

theorem counted {step : σ → Reader σ} {weight : σ → Nat}
    (paid : ∀ acc, Paid weight (weight acc) (step acc)) (init : σ) :
    Paid weight (weight init) (Reader.counted init step) :=
  skip Leb128.local_u32 fun count => iterate paid count init

/-- A vector weighs as much as its elements, whatever its count says. -/
theorem vectorFrom (given : Nat) {element : Reader α} (paid : Paid weight 0 element)
    (init : Array α) :
    Paid (fun xs => given + (xs.map weight).sum) (given + (init.map weight).sum)
      (Reader.vectorFrom init element) := by
  refine counted (fun acc => ?_) init
  refine (paid.frame (given + (acc.map weight).sum)).bind fun a => pure ?_
  rw [Array.map_push, Array.sum_push]
  omega

theorem vector {element : Reader α} (paid : Paid (fun _ => 1) 0 element) :
    Paid (fun xs => given + xs.size) given (Reader.vector element) := by
  have step : ∀ acc : Array α, Paid (fun xs => given + xs.size) (given + acc.size)
      (do
        let a ← element
        Pure.pure (acc.push a)) := by
    intro acc
    refine (paid.frame (given + acc.size)).bind fun a => pure ?_
    rw [Array.size_push]
    omega
  exact counted step #[]

theorem region : Paid (fun content => given + 1 + content.size) given Reader.region :=
  u32.bind fun size => take size

/-- A name weighs as many bytes as it has in UTF-8, and one more for its size. -/
theorem name : Paid (fun text => given + 1 + text.utf8ByteSize) given Reader.name := by
  refine position.bind fun start => region.bind fun text => ?_
  cases decoded : String.fromUTF8? ⟨text⟩ with
  | none => exact fail _
  | some name =>
    have size : name.utf8ByteSize = text.size := by
      unfold String.fromUTF8? at decoded
      split at decoded
      · cases decoded
        rfl
      · cases decoded
    exact pure (Nat.le_of_eq (by rw [size]))

end Paid

end Wasm.Reader
