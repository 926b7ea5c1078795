import Wasm.Binary.Error

/-! # Readers of a byte sequence

A reader looks at some bytes from an offset on and either gives a value and the offset after what it
used, or says why it failed. The readers here are the only ones that index into bytes; every other
reader of the library is put together from them.

`Reader.enclosed` runs a reader inside a region of its own, so that it cannot see past the region's
end and its offsets count from the region's start. `Reader.iterate` is the only loop.
-/

namespace Wasm

/-- Two computations in a row succeed exactly when the first does and the second does after it. -/
theorem except_bind_eq_ok_iff {ε α β : Type} {x : Except ε α} {f : α → Except ε β} {b : β} :
    (x >>= f) = .ok b ↔ ∃ a, x = .ok a ∧ f a = .ok b := by
  cases x with
  | error e => simp [bind, Except.bind]
  | ok a => simp [bind, Except.bind]

theorem except_map_eq_ok_iff {ε α β : Type} {x : Except ε α} {f : α → β} {b : β} :
    x.map f = .ok b ↔ ∃ a, x = .ok a ∧ f a = b := by
  cases x with
  | error e => simp [Except.map]
  | ok a => simp [Except.map]

theorem except_map_eq_error_iff {ε α β : Type} {x : Except ε α} {f : α → β} {e : ε} :
    x.map f = .error e ↔ x = .error e := by
  cases x with
  | error e' => simp [Except.map]
  | ok a => simp [Except.map]

theorem toOption_eq_some_iff {ε α : Type} {x : Except ε α} {a : α} :
    x.toOption = some a ↔ x = .ok a := by
  cases x with
  | error e => simp [Except.toOption]
  | ok b => simp [Except.toOption]

@[simp] theorem throw_eq_error {ε α : Type} (e : ε) : (throw e : Except ε α) = .error e := rfl

/-- A byte sequence, indexed from zero. -/
abbrev Bytes := Array UInt8

/-- A read of an `α` from the given bytes at the given offset. -/
def Reader (α : Type) : Type :=
  Bytes → Nat → Except DecodeError (α × Nat)

namespace Reader

variable {α β σ : Type}

/-- Reads nothing. -/
@[inline] protected def pure (a : α) : Reader α :=
  fun _ pos => .ok (a, pos)

/-- Reads one thing after the other; the first failure ends both. -/
@[inline] protected def bind (first : Reader α) (next : α → Reader β) : Reader β :=
  fun bytes pos =>
    match first bytes pos with
    | .error e => .error e
    | .ok (a, after) => next a bytes after

instance : Monad Reader where
  pure := Reader.pure
  bind := Reader.bind

/-- Fails with the given cause. -/
@[inline] def fail (e : DecodeError) : Reader α :=
  fun _ _ => .error e

/-- Fails because a rule is broken at the current offset. -/
@[inline] def malformed (rule : Malformation) : Reader α :=
  fun _ pos => .error (.malformed pos rule)

/-- The current offset. -/
@[inline] def position : Reader Nat :=
  fun _ pos => .ok (pos, pos)

/-- Whether there is nothing left to read. -/
@[inline] def atEnd : Reader Bool :=
  fun bytes pos => .ok (decide (bytes.size ≤ pos), pos)

/-- The next byte, left in place. -/
def peek : Reader UInt8 :=
  fun bytes pos =>
    if h : pos < bytes.size then .ok (bytes[pos], pos) else .error (.unexpectedEnd pos)

/-- The next byte. -/
def byte : Reader UInt8 :=
  fun bytes pos =>
    if h : pos < bytes.size then .ok (bytes[pos], pos + 1) else .error (.unexpectedEnd pos)

/-- The next `count` bytes. When they are not all there, the end of the input is to blame. -/
def take (count : Nat) : Reader Bytes :=
  fun bytes pos =>
    if pos + count ≤ bytes.size then .ok (bytes.extract pos (pos + count), pos + count)
    else .error (.unexpectedEnd bytes.size)

/-- Everything that is left. -/
def rest : Reader Bytes :=
  fun bytes pos => .ok (bytes.extract pos bytes.size, bytes.size)

/-- Runs a reader inside `region`, as if the region were all there is. The outer offset stays. -/
@[inline] def enclosed (region : Bytes) (inner : Reader α) : Reader α :=
  fun _ pos =>
    match inner region 0 with
    | .error e => .error e
    | .ok (a, _) => .ok (a, pos)

/-- Takes `count` steps, each from the value that the one before it read. -/
def iterate (step : σ → Reader σ) (bytes : Bytes) :
    (count : Nat) → σ → (pos : Nat) → Except DecodeError (σ × Nat)
  | 0, acc, pos => .ok (acc, pos)
  | count + 1, acc, pos =>
    match step acc bytes pos with
    | .error e => .error e
    | .ok (acc, after) => iterate step bytes count acc after

/-! ### What a composed read does -/

@[simp] theorem pure_apply (a : α) (bytes : Bytes) (pos : Nat) :
    (pure a : Reader α) bytes pos = .ok (a, pos) :=
  rfl

theorem bind_apply (first : Reader α) (next : α → Reader β) (bytes : Bytes) (pos : Nat) :
    (first >>= next) bytes pos =
      match first bytes pos with
      | .error e => .error e
      | .ok (a, after) => next a bytes after :=
  rfl

/-- A successful first read hands over to the second. -/
theorem bind_ok {first : Reader α} {next : α → Reader β} {bytes : Bytes} {pos after : Nat} {a : α}
    (h : first bytes pos = .ok (a, after)) : (first >>= next) bytes pos = next a bytes after := by
  rw [bind_apply, h]

/-- A failed first read is the failure of both. -/
theorem bind_error {first : Reader α} {next : α → Reader β} {bytes : Bytes} {pos : Nat}
    {e : DecodeError} (h : first bytes pos = .error e) : (first >>= next) bytes pos = .error e := by
  rw [bind_apply, h]

/-- Two reads succeed together exactly when the first succeeds and the second does after it. -/
theorem bind_eq_ok_iff {first : Reader α} {next : α → Reader β} {bytes : Bytes} {pos q : Nat}
    {b : β} :
    (first >>= next) bytes pos = .ok (b, q) ↔
      ∃ a p, first bytes pos = .ok (a, p) ∧ next a bytes p = .ok (b, q) := by
  rw [bind_apply]
  cases h : first bytes pos with
  | error e => simp
  | ok r =>
    obtain ⟨a, p⟩ := r
    constructor
    · intro hnext
      exact ⟨a, p, rfl, hnext⟩
    · rintro ⟨_, _, heq, hnext⟩
      cases heq
      exact hnext

theorem byte_of_found {bytes : Bytes} {pos : Nat} {b : UInt8} (found : bytes[pos]? = some b) :
    byte bytes pos = .ok (b, pos + 1) := by
  obtain ⟨inside, rfl⟩ := Array.getElem?_eq_some_iff.mp found
  rw [byte, dif_pos inside]

theorem byte_of_missing {bytes : Bytes} {pos : Nat} (missing : bytes[pos]? = none) :
    byte bytes pos = .error (.unexpectedEnd pos) := by
  rw [byte, dif_neg (Nat.not_lt.mpr (Array.getElem?_eq_none_iff.mp missing))]

theorem byte_eq_ok_iff {bytes : Bytes} {pos q : Nat} {b : UInt8} :
    byte bytes pos = .ok (b, q) ↔ bytes[pos]? = some b ∧ q = pos + 1 := by
  constructor
  · intro read
    unfold byte at read
    split at read
    · cases read
      exact ⟨Array.getElem?_eq_getElem _, rfl⟩
    · cases read
  · rintro ⟨found, rfl⟩
    exact byte_of_found found

theorem peek_of_found {bytes : Bytes} {pos : Nat} {b : UInt8} (found : bytes[pos]? = some b) :
    peek bytes pos = .ok (b, pos) := by
  obtain ⟨inside, rfl⟩ := Array.getElem?_eq_some_iff.mp found
  rw [peek, dif_pos inside]

theorem peek_of_missing {bytes : Bytes} {pos : Nat} (missing : bytes[pos]? = none) :
    peek bytes pos = .error (.unexpectedEnd pos) := by
  rw [peek, dif_neg (Nat.not_lt.mpr (Array.getElem?_eq_none_iff.mp missing))]

theorem peek_eq_ok_iff {bytes : Bytes} {pos q : Nat} {b : UInt8} :
    peek bytes pos = .ok (b, q) ↔ bytes[pos]? = some b ∧ q = pos := by
  constructor
  · intro read
    unfold peek at read
    split at read
    · cases read
      exact ⟨Array.getElem?_eq_getElem _, rfl⟩
    · cases read
  · rintro ⟨found, rfl⟩
    exact peek_of_found found

theorem take_eq_ok_iff {bytes taken : Bytes} {count pos q : Nat} :
    take count bytes pos = .ok (taken, q) ↔
      pos + count ≤ bytes.size ∧ taken = bytes.extract pos (pos + count) ∧ q = pos + count := by
  constructor
  · intro read
    unfold take at read
    split at read
    · rename_i inside
      cases read
      exact ⟨inside, rfl, rfl⟩
    · cases read
  · rintro ⟨inside, rfl, rfl⟩
    rw [take, if_pos inside]

theorem enclosed_eq_ok_iff {inner : Reader α} {content bytes : Bytes} {pos q : Nat} {a : α} :
    enclosed content inner bytes pos = .ok (a, q) ↔
      q = pos ∧ ∃ after, inner content 0 = .ok (a, after) := by
  unfold enclosed
  cases inner content 0 with
  | error e => simp
  | ok out =>
    obtain ⟨b, after⟩ := out
    simp only [Except.ok.injEq, Prod.mk.injEq, exists_and_left, exists_eq', and_true]
    constructor
    · rintro ⟨rfl, rfl⟩
      exact ⟨rfl, rfl⟩
    · rintro ⟨rfl, rfl⟩
      exact ⟨rfl, rfl⟩

/-- What every step of a loop keeps, the loop keeps. -/
theorem iterate_keeps {step : σ → Reader σ} {P : σ → Prop} {bytes : Bytes} {count pos q : Nat}
    {acc last : σ}
    (keeps : ∀ acc pos next after, P acc → step acc bytes pos = .ok (next, after) → P next)
    (start : P acc) (read : iterate step bytes count acc pos = .ok (last, q)) : P last := by
  induction count generalizing acc pos with
  | zero =>
    cases read
    exact start
  | succ count ih =>
    rw [iterate] at read
    cases result : step acc bytes pos with
    | error e =>
      rw [result] at read
      cases read
    | ok out =>
      rw [result] at read
      exact ih (keeps acc pos out.1 out.2 start result) read

instance : LawfulMonad Reader :=
  LawfulMonad.mk' Reader
    (fun x => by
      funext bytes pos
      show Reader.bind x Reader.pure bytes pos = x bytes pos
      unfold Reader.bind Reader.pure
      split <;> simp_all)
    (fun _ _ => rfl)
    (fun x f g => by
      funext bytes pos
      show Reader.bind (Reader.bind x f) g bytes pos =
        Reader.bind x (fun a => Reader.bind (f a) g) bytes pos
      unfold Reader.bind
      cases x bytes pos with
      | error e => rfl
      | ok r => rfl)

end Reader

end Wasm
