import Wasm.Binary.Counted

/-!
What becomes of a read when its input is cut short.

`Reader.Cut` compares a read that succeeds with the same read on a beginning of its bytes. Either
the cut falls behind all that was used, and the read gives the same; or it falls into that, and the
read fails at the end of the input, for no other reason and at no other offset. The property is kept
by composing reads, because reads go forwards: what the first of them misses, the second does not
look for.

* `Reader.Cut.bind`: composing reads;
* `Reader.Cut.u32`, `Reader.Cut.region`: sizes, and what they announce;
* `Reader.Cut.enclosed`: inside a region that is there, nothing of the cut is seen.
-/

namespace Wasm.Reader

variable {α β : Type} {r : Reader α}

/-- A read that succeeds goes forwards. On a beginning of the bytes it gives the same when all that
it used is there, and is stopped by the end of the input otherwise. -/
def Cut (r : Reader α) : Prop :=
  ∀ head tail pos a q, r (head ++ tail) pos = .ok (a, q) → pos ≤ q ∧
    (pos ≤ head.size →
      r head pos = if q ≤ head.size then .ok (a, q) else .error (.unexpectedEnd head.size))

namespace Cut

theorem pure (a : α) : Cut (Pure.pure a : Reader α) := by
  intro head tail pos b q read
  cases read
  refine ⟨Nat.le_refl _, fun inside => ?_⟩
  rw [if_pos inside, pure_apply]

theorem fail (e : DecodeError) : Cut (Reader.fail e : Reader α) := by
  intro head tail pos a q read
  cases read

theorem malformed (rule : Malformation) : Cut (Reader.malformed rule : Reader α) := by
  intro head tail pos a q read
  cases read

theorem position : Cut Reader.position := by
  intro head tail pos a q read
  cases read
  refine ⟨Nat.le_refl _, fun inside => ?_⟩
  rw [if_pos inside]
  rfl

theorem byte : Cut Reader.byte := by
  intro head tail pos b q read
  obtain ⟨found, rfl⟩ := byte_eq_ok_iff.mp read
  refine ⟨Nat.le_succ pos, fun inside => ?_⟩
  by_cases here : pos < head.size
  · rw [Array.getElem?_append_left here] at found
    rw [if_pos (Nat.succ_le_of_lt here), byte_of_found found]
  · obtain rfl : pos = head.size := by omega
    rw [if_neg (Nat.not_succ_le_self _), byte_of_missing (Array.getElem?_size)]

theorem take (count : Nat) : Cut (Reader.take count) := by
  intro head tail pos bytes q read
  obtain ⟨-, rfl, rfl⟩ := take_eq_ok_iff.mp read
  refine ⟨Nat.le_add_right pos count, fun _ => ?_⟩
  by_cases here : pos + count ≤ head.size
  · have nothing : pos + count - head.size = 0 := Nat.sub_eq_zero_of_le here
    rw [if_pos here, Reader.take, if_pos here, Array.extract_append, nothing]
    simp
  · rw [if_neg here, Reader.take, if_neg here]

/-- Two reads in a row: a cut that falls into the first is noticed there. -/
theorem bind {next : α → Reader β} (first : Cut r) (rest : ∀ a, Cut (next a)) :
    Cut (r >>= next) := by
  intro head tail pos b q read
  obtain ⟨a, p, readFirst, readNext⟩ := bind_eq_ok_iff.mp read
  obtain ⟨forwards, short⟩ := first head tail pos a p readFirst
  obtain ⟨onwards, shortNext⟩ := rest a head tail p b q readNext
  refine ⟨Nat.le_trans forwards onwards, fun inside => ?_⟩
  have begun := short inside
  by_cases here : p ≤ head.size
  · rw [if_pos here] at begun
    rw [bind_ok begun]
    exact shortNext here
  · rw [if_neg here] at begun
    rw [bind_error begun, if_neg fun there => here (Nat.le_trans onwards there)]

theorem ite {p : Prop} [Decidable p] {r' : Reader α} (left : Cut r) (right : Cut r') :
    Cut (if p then r else r') := by
  split
  · exact left
  · exact right

/-- A region is read as it was, wherever the input around it ends. -/
theorem enclosed (content : Bytes) (inner : Reader α) : Cut (Reader.enclosed content inner) := by
  intro head tail pos a q read
  obtain ⟨rfl, after, inside⟩ := enclosed_eq_ok_iff.mp read
  refine ⟨Nat.le_refl _, fun here => ?_⟩
  rw [if_pos here]
  exact enclosed_eq_ok_iff.mpr ⟨rfl, after, inside⟩

theorem collect (hasSign : Bool) (tooLong : DecodeError) (groups : Nat) (word : Leb128.Word)
    (shift : Nat) : Cut (Leb128.collect hasSign tooLong groups word shift) := by
  induction groups generalizing word shift with
  | zero => exact fail tooLong
  | succ groups ih => exact byte.bind fun b => ((pure _).ite (pure _)).ite (ih _ _)

theorem u32 : Cut Leb128.u32 := by
  refine position.bind fun start => (collect _ _ _ _ _).bind fun value => ?_
  exact (fail _).ite (pure _)

theorem region : Cut Reader.region :=
  u32.bind take

end Cut

end Wasm.Reader
