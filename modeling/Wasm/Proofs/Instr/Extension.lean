import Wasm.Proofs.Instr.Boundary

/-!
Code that goes on behind whole instructions.

A body is `Whole` when the walk over its instructions comes exactly to its end and every block that
is opened on the way has been ended there. Whatever is put behind such a body, the instructions in
it stay what they are, and a scan that starts in one of its blocks does not get out of it.

* `InstrAt.append`: an instruction stays what it is;
* `Boundary.exists_instr`: where the walk goes on, an instruction stands;
* `Whole.exists_scanAt`: a scan in a block of a whole body succeeds;
* `Whole.scan_append`: and finds the same in any code that starts with the body.
-/

namespace Wasm

variable {code : Bytes} {pos : Nat} {opens : List Opener}

theorem OpcodeAt.append {opcode : Opcode} (stands : OpcodeAt code pos opcode) (rest : Bytes) :
    OpcodeAt (code ++ rest) pos opcode := by
  obtain ⟨byte, found, known⟩ := stands
  obtain ⟨inside, -⟩ := Array.getElem?_eq_some_iff.mp found
  exact ⟨byte, by rw [Array.getElem?_append_left inside, found], known⟩

/-- An instruction does not change when bytes are put behind the code. -/
theorem InstrAt.append {opcode : Opcode} {next : Nat} (instr : InstrAt code pos opcode next)
    (rest : Bytes) : InstrAt (code ++ rest) pos opcode next :=
  ⟨instr.stands.append rest, (Shape.local_skip _).append (i := ()) instr.skipped rest⟩

/-- Between two offsets that the walk comes to, an instruction stands at the first. -/
theorem Boundary.exists_instr {q : Nat} {opens' : List Opener} (boundary : Boundary code pos opens)
    (later : Boundary code q opens') (before : pos < q) :
    ∃ opcode next, InstrAt code pos opcode next := by
  induction later with
  | start => cases before
  | @next p _ opcode after led instr ih =>
    rcases Nat.lt_trichotomy pos p with lower | rfl | higher
    · exact ih lower
    · exact ⟨opcode, after, instr⟩
    · -- The walk does not come to an offset inside an instruction.
      have outside := led.not_inside boundary instr
      omega

/-- The walk comes to the end of the code, and no block is open there. -/
def Whole (code : Bytes) : Prop :=
  Boundary code code.size []

namespace Whole

/-- Inside a block, the end of a whole body has not been reached, so an instruction stands there. -/
theorem exists_instr {o : Opener} (whole : Whole code) (boundary : Boundary code pos (o :: opens)) :
    ∃ opcode next, InstrAt code pos opcode next := by
  have inside : pos ≠ code.size := by
    rintro rfl
    cases boundary.unique whole
  exact boundary.exists_instr whole (Nat.lt_of_le_of_ne boundary.le_size inside)

/-- A scan in a block of a whole body succeeds, wherever in the block it starts. -/
theorem exists_scanAt {inner : List Opener} {o : Opener} (whole : Whole code)
    (boundary : Boundary code pos (inner ++ o :: opens)) (elseAt : Option Nat) :
    ∃ found, BlockTargets.scanAt code inner.length elseAt pos = .ok found := by
  induction left : code.size - pos using Nat.strongRecOn generalizing pos inner elseAt with
  | _ left ih =>
    subst left
    obtain ⟨opcode, next, instr⟩ : ∃ opcode next, InstrAt code pos opcode next := by
      cases inner with
      | nil => exact whole.exists_instr boundary
      | cons first inner => exact whole.exists_instr boundary
    have forwards := instr.lt_next
    have inside := instr.next_le
    have onward : ∀ inner elseAt, Boundary code next (inner ++ o :: opens) →
        ∃ found, BlockTargets.scanAt code inner.length elseAt next = .ok found :=
      fun inner elseAt behind => ih (code.size - next) (by omega) behind elseAt rfl
    have behind := boundary.next instr
    rw [BlockTargets.scanAt_of_instrAt instr]
    cases opcode with
    | block => exact onward (_ :: inner) elseAt behind
    | loop => exact onward (_ :: inner) elseAt behind
    | ifThen => exact onward (_ :: inner) elseAt behind
    | endBlock =>
      cases inner with
      | nil => exact ⟨_, rfl⟩
      | cons first inner => exact onward inner elseAt behind
    | elseArm => exact onward inner _ behind
    | _ => exact onward inner elseAt behind

end Whole

namespace BlockTargets

/-- A scan that succeeds does not change when bytes are put behind the code. -/
theorem scanFrom_append {fuel fuel' depth : Nat} {elseAt : Option Nat} {found : BlockTargets}
    (scanned : scanFrom code fuel depth elseAt pos = .ok found) (rest : Bytes)
    (enough : fuel ≤ fuel') : scanFrom (code ++ rest) fuel' depth elseAt pos = .ok found := by
  induction fuel generalizing fuel' depth elseAt pos with
  | zero => cases scanned
  | succ fuel ih =>
    obtain ⟨fuel', rfl⟩ : ∃ n, fuel' = n + 1 := ⟨fuel' - 1, by omega⟩
    obtain ⟨opcode, next, instr⟩ := instrAt_of_scanFrom scanned
    rw [scanFrom_of_instrAt instr] at scanned
    rw [scanFrom_of_instrAt (instr.append rest)]
    have onward : ∀ {depth elseAt}, scanFrom code fuel depth elseAt next = .ok found →
        scanFrom (code ++ rest) fuel' depth elseAt next = .ok found :=
      fun scanned => ih scanned (by omega)
    cases opcode with
    | endBlock =>
      cases depth with
      | zero => exact scanned
      | succ depth => exact onward scanned
    | _ => exact onward scanned

end BlockTargets

/-- What a scan finds in a block of a whole body, it finds there whatever stands behind the body. -/
theorem Whole.scan_append {o : Opener} (whole : Whole code)
    (boundary : Boundary code pos (o :: opens)) (rest : Bytes) :
    BlockTargets.scan (code ++ rest) pos = BlockTargets.scan code pos := by
  have inside : Boundary code pos ([] ++ o :: opens) := boundary
  obtain ⟨found, scanned⟩ := whole.exists_scanAt inside none
  have same : BlockTargets.scan code pos = .ok found := scanned
  have fuel : code.size - pos ≤ (code ++ rest).size - pos := by
    rw [Array.size_append]
    omega
  rw [same]
  exact BlockTargets.scanFrom_append same rest fuel

end Wasm
