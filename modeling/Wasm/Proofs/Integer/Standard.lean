import Mathlib.Data.Nat.Bitwise
import Wasm.Instr.Opcode

/-!
The integer operators as the standard defines them.

The standard speaks of natural numbers below `2 ^ N`, of their signed readings and of their bits.
`Standard.rule?` says for each opcode how wide the operands and the result are, and what the result
is. The machine computes on bit vectors in cells; operator by operator, it comes to the same
numbers.

* `Standard.toNat_ctz`, `Standard.toNat_clz`, `Standard.toNat_cpop`: bits that are counted;
* `Standard.toNat_rotateLeft`, `Standard.toNat_rotateRight`: bits that go round;
* `Numeric.meets_of_rule?`: the operators on cells;
* `Standard.meets_of_byte`, `Standard.isSome_rule?`: the opcodes.
-/

namespace Wasm

namespace Standard

/-! ### Numbers -/

/-- The signed reading of a number of `N` bits. -/
def signed (N i : Nat) : Int :=
  if i < 2 ^ (N - 1) then i else i - 2 ^ N

/-- The number of `N` bits that has a signed reading. -/
def ofSigned (N : Nat) (z : Int) : Nat :=
  (z % 2 ^ N).toNat

/-- The bits of a number, lowest first. -/
def bits (N i : Nat) : List Bool :=
  (List.range N).map i.testBit

/-- The number of a truth value. -/
def truth (p : Prop) [Decidable p] : Nat :=
  if p then 1 else 0

/-! ### Operators -/

def eqz (i : Nat) : Nat :=
  truth (i = 0)

/-- How many zeros there are from the highest bit down to the first one. -/
def clz (N i : Nat) : Nat :=
  (bits N i).reverse.findIdx id

/-- How many zeros there are from the lowest bit up to the first one. -/
def ctz (N i : Nat) : Nat :=
  (bits N i).findIdx id

def popcnt (N i : Nat) : Nat :=
  (bits N i).count true

def wrap (M i : Nat) : Nat :=
  i % 2 ^ M

/-- The low `M` bits of a number, read as signed, in `N` bits. -/
def extend (M N i : Nat) : Nat :=
  ofSigned N (signed M (i % 2 ^ M))

def eq (i j : Nat) : Nat :=
  truth (i = j)

def ne (i j : Nat) : Nat :=
  truth (i ≠ j)

def ltS (N i j : Nat) : Nat :=
  truth (signed N i < signed N j)

def ltU (i j : Nat) : Nat :=
  truth (i < j)

def gtS (N i j : Nat) : Nat :=
  truth (signed N i > signed N j)

def gtU (i j : Nat) : Nat :=
  truth (i > j)

def leS (N i j : Nat) : Nat :=
  truth (signed N i ≤ signed N j)

def leU (i j : Nat) : Nat :=
  truth (i ≤ j)

def geS (N i j : Nat) : Nat :=
  truth (signed N i ≥ signed N j)

def geU (i j : Nat) : Nat :=
  truth (i ≥ j)

def add (N i j : Nat) : Nat :=
  (i + j) % 2 ^ N

def sub (N i j : Nat) : Nat :=
  (i + 2 ^ N - j) % 2 ^ N

def mul (N i j : Nat) : Nat :=
  (i * j) % 2 ^ N

def shl (N i j : Nat) : Nat :=
  (i * 2 ^ (j % N)) % 2 ^ N

def shrS (N i j : Nat) : Nat :=
  ofSigned N (signed N i / 2 ^ (j % N))

def shrU (N i j : Nat) : Nat :=
  i / 2 ^ (j % N)

/-- The bits that leave at the high end come in at the low end. -/
def rotl (N i j : Nat) : Nat :=
  (i * 2 ^ (j % N)) % 2 ^ N + i / 2 ^ (N - j % N)

def rotr (N i j : Nat) : Nat :=
  (i * 2 ^ (N - j % N)) % 2 ^ N + i / 2 ^ (j % N)

/-- What there is to say about an instruction: the width of its operands, the width of its result,
and the result. -/
inductive Rule
  | unary (width result : Nat) (meaning : Nat → Nat)
  | binary (width result : Nat) (meaning : Nat → Nat → Nat)

/-- The integer instructions that do not divide, by their opcodes. -/
def rule? (byte : UInt8) : Option Rule :=
  match byte.toNat with
  -- Tests and comparisons of 32 bits, and then of 64 bits.
  | 0x45 => some (.unary 32 32 eqz)
  | 0x46 => some (.binary 32 32 eq)
  | 0x47 => some (.binary 32 32 ne)
  | 0x48 => some (.binary 32 32 (ltS 32))
  | 0x49 => some (.binary 32 32 ltU)
  | 0x4A => some (.binary 32 32 (gtS 32))
  | 0x4B => some (.binary 32 32 gtU)
  | 0x4C => some (.binary 32 32 (leS 32))
  | 0x4D => some (.binary 32 32 leU)
  | 0x4E => some (.binary 32 32 (geS 32))
  | 0x4F => some (.binary 32 32 geU)
  | 0x50 => some (.unary 64 32 eqz)
  | 0x51 => some (.binary 64 32 eq)
  | 0x52 => some (.binary 64 32 ne)
  | 0x53 => some (.binary 64 32 (ltS 64))
  | 0x54 => some (.binary 64 32 ltU)
  | 0x55 => some (.binary 64 32 (gtS 64))
  | 0x56 => some (.binary 64 32 gtU)
  | 0x57 => some (.binary 64 32 (leS 64))
  | 0x58 => some (.binary 64 32 leU)
  | 0x59 => some (.binary 64 32 (geS 64))
  | 0x5A => some (.binary 64 32 geU)
  -- Bit counts and arithmetic of 32 bits. The four opcodes left out divide.
  | 0x67 => some (.unary 32 32 (clz 32))
  | 0x68 => some (.unary 32 32 (ctz 32))
  | 0x69 => some (.unary 32 32 (popcnt 32))
  | 0x6A => some (.binary 32 32 (add 32))
  | 0x6B => some (.binary 32 32 (sub 32))
  | 0x6C => some (.binary 32 32 (mul 32))
  | 0x71 => some (.binary 32 32 Nat.land)
  | 0x72 => some (.binary 32 32 Nat.lor)
  | 0x73 => some (.binary 32 32 Nat.xor)
  | 0x74 => some (.binary 32 32 (shl 32))
  | 0x75 => some (.binary 32 32 (shrS 32))
  | 0x76 => some (.binary 32 32 (shrU 32))
  | 0x77 => some (.binary 32 32 (rotl 32))
  | 0x78 => some (.binary 32 32 (rotr 32))
  -- Bit counts and arithmetic of 64 bits, with the same gap.
  | 0x79 => some (.unary 64 64 (clz 64))
  | 0x7A => some (.unary 64 64 (ctz 64))
  | 0x7B => some (.unary 64 64 (popcnt 64))
  | 0x7C => some (.binary 64 64 (add 64))
  | 0x7D => some (.binary 64 64 (sub 64))
  | 0x7E => some (.binary 64 64 (mul 64))
  | 0x83 => some (.binary 64 64 Nat.land)
  | 0x84 => some (.binary 64 64 Nat.lor)
  | 0x85 => some (.binary 64 64 Nat.xor)
  | 0x86 => some (.binary 64 64 (shl 64))
  | 0x87 => some (.binary 64 64 (shrS 64))
  | 0x88 => some (.binary 64 64 (shrU 64))
  | 0x89 => some (.binary 64 64 (rotl 64))
  | 0x8A => some (.binary 64 64 (rotr 64))
  -- Conversions between the widths, and sign extension inside a width.
  | 0xA7 => some (.unary 64 32 (wrap 32))
  | 0xAC => some (.unary 32 64 (extend 32 64))
  | 0xAD => some (.unary 32 64 id)
  | 0xC0 => some (.unary 32 32 (extend 8 32))
  | 0xC1 => some (.unary 32 32 (extend 16 32))
  | 0xC2 => some (.unary 64 64 (extend 8 64))
  | 0xC3 => some (.unary 64 64 (extend 16 64))
  | 0xC4 => some (.unary 64 64 (extend 32 64))
  | _ => none

/-! ### Truth values -/

theorem toNat_eq_truth {b : Bool} {p : Prop} [Decidable p] (same : b = true ↔ p) :
    b.toNat = truth p := by
  cases b with
  | false => exact (if_neg fun holds => nomatch same.mpr holds).symm
  | true => exact (if_pos (same.mp rfl)).symm

/-! ### Bit vectors -/

@[simp] theorem length_bits (N i : Nat) : (bits N i).length = N := by
  simp [bits]

theorem bits_succ (N i : Nat) : bits (N + 1) i = bits N i ++ [i.testBit N] := by
  simp [bits, List.range_succ]

/-- What is shifted out to the left and what is left of the right shift have no bit in common. -/
theorem shifted_or {N k i : Nat} (few : k ≤ N) (small : i < 2 ^ N) :
    i <<< k % 2 ^ N ||| i >>> (N - k) = i * 2 ^ k % 2 ^ N + i / 2 ^ (N - k) := by
  have split : 2 ^ N = 2 ^ k * 2 ^ (N - k) := by
    rw [← Nat.pow_add, Nat.add_sub_cancel' few]
  have high : i * 2 ^ k % 2 ^ N = 2 ^ k * (i % 2 ^ (N - k)) := by
    rw [split, Nat.mul_comm i, Nat.mul_mod_mul_left]
  have low : i / 2 ^ (N - k) < 2 ^ k := by
    rw [Nat.div_lt_iff_lt_mul (Nat.two_pow_pos _), ← split]
    exact small
  rw [Nat.shiftLeft_eq, Nat.shiftRight_eq_div_pow, high, Nat.two_pow_add_eq_or_of_lt low]

section BitVectors

variable {N : Nat} (x : BitVec N)

theorem signed_toNat : signed N x.toNat = x.toInt := by
  unfold signed
  rw [BitVec.toInt_eq_toNat_cond]
  cases N with
  | zero => simp [BitVec.of_length_zero]
  | succ n =>
    have pow : 2 ^ (n + 1) = 2 * 2 ^ n := Nat.pow_succ'
    rw [Nat.add_sub_cancel, pow]
    by_cases low : x.toNat < 2 ^ n
    · rw [if_pos low, if_pos (by omega)]
    · rw [if_neg low, if_neg (by omega), ← pow]
      push_cast
      rfl

theorem toNat_ofInt (z : Int) : (BitVec.ofInt N z).toNat = ofSigned N z := by
  rw [BitVec.toNat_ofInt, ofSigned]
  push_cast
  rfl

theorem getElem_bits {i : Nat} (inside : i < (bits N x.toNat).length) :
    (bits N x.toNat)[i] = x.getLsbD i := by
  simp [bits, BitVec.testBit_toNat]

/-- The bits in the other order are those of the reversed vector. -/
theorem bits_reverse : bits N x.reverse.toNat = (bits N x.toNat).reverse := by
  apply List.ext_getElem
  · simp
  intro i inside _
  rw [getElem_bits, List.getElem_reverse, getElem_bits, length_bits, BitVec.getLsbD_reverse,
    BitVec.getMsbD_eq_getLsbD]
  rw [length_bits] at inside
  simp [inside]

theorem toNat_ctz : x.ctz.toNat = ctz N x.toNat := by
  unfold ctz
  by_cases zero : x = 0#N
  · have all : (bits N x.toNat).findIdx id = (bits N x.toNat).length := by
      apply List.findIdx_eq_length_of_false
      simp [bits, zero]
    have count : x.ctz = BitVec.ofNat N N := by
      rw [zero, BitVec.ctz_eq_reverse_clz]
      exact BitVec.clz_eq_iff_eq_zero.mpr (by simp)
    rw [all, length_bits, count, BitVec.toNat_ofNat, Nat.mod_eq_of_lt Nat.lt_two_pow_self]
  · have inside : x.ctz.toNat < N := by
      have below := BitVec.lt_def.mp (BitVec.ctz_lt_iff_ne_zero.mpr zero)
      simpa [Nat.mod_eq_of_lt Nat.lt_two_pow_self] using below
    refine ((List.findIdx_eq (by simpa using inside)).mpr ⟨?_, ?_⟩).symm
    · rw [id, getElem_bits]
      exact BitVec.getLsbD_true_ctz_of_ne_zero zero
    · intro i before
      rw [id, getElem_bits]
      exact BitVec.getLsbD_false_of_lt_ctz before

theorem toNat_clz : x.clz.toNat = clz N x.toNat := by
  rw [BitVec.clz_eq_reverse_ctz, toNat_ctz, ctz, bits_reverse, clz]

theorem toNat_cpop : x.cpop.toNat = popcnt N x.toNat := by
  have counted : ∀ k, x.cpopNatRec k 0 = (bits k x.toNat).count true := by
    intro k
    induction k with
    | zero => rfl
    | succ k ih =>
      rw [BitVec.cpopNatRec_succ, BitVec.cpopNatRec_add, ih, bits_succ, List.count_append,
        BitVec.testBit_toNat]
      cases x.getLsbD k <;> simp
  rw [BitVec.toNat_cpop, counted, popcnt]

theorem toNat_rotateLeft (wide : 0 < N) (j : Nat) :
    (x.rotateLeft (j % N)).toNat = rotl N x.toNat j := by
  have few : j % N ≤ N := Nat.le_of_lt (Nat.mod_lt _ wide)
  rw [BitVec.toNat_rotateLeft, Nat.mod_mod, shifted_or few x.isLt, rotl]

theorem toNat_rotateRight (wide : 0 < N) (j : Nat) :
    (x.rotateRight (j % N)).toNat = rotr N x.toNat j := by
  have few : j % N ≤ N := Nat.le_of_lt (Nat.mod_lt _ wide)
  have turned := shifted_or (Nat.sub_le N (j % N)) x.isLt
  rw [Nat.sub_sub_self few] at turned
  rw [BitVec.toNat_rotateRight, Nat.mod_mod, Nat.or_comm, turned, rotr]

theorem toNat_sshiftRight (k : Nat) :
    (x.sshiftRight k).toNat = ofSigned N (signed N x.toNat / 2 ^ k) := by
  rw [BitVec.sshiftRight, toNat_ofInt, Int.shiftRight_eq_div_pow, signed_toNat]
  push_cast
  rfl

theorem toNat_signExtend (M : Nat) :
    (x.signExtend M).toNat = ofSigned M (signed N x.toNat) := by
  rw [BitVec.signExtend, toNat_ofInt, signed_toNat]

end BitVectors

end Standard

/-! ### Operators on cells -/

namespace Cell

/-- The cell holds a number, which has no more than `M` bits. -/
def Holds (cell : Cell) (M v : Nat) : Prop :=
  cell.toNat = v ∧ v < 2 ^ M

@[simp] theorem toNat_bits (n : Nat) (cell : Cell) : (bits n cell).toNat = cell.toNat % 2 ^ n := by
  rw [bits, BitVec.toNat_setWidth, UInt64.toNat_toBitVec]

theorem holds_ofBits {M v : Nat} {z : BitVec M} (few : M ≤ 64) (same : z.toNat = v) :
    Holds (ofBits z) M v := by
  have small : z.toNat < 2 ^ 64 := Nat.lt_of_lt_of_le z.isLt (Nat.pow_le_pow_right (by decide) few)
  constructor
  · rw [← same, ofBits, ← UInt64.toNat_toBitVec, BitVec.toNat_setWidth, Nat.mod_eq_of_lt small]
  · rw [← same]
    exact z.isLt

theorem Holds.mono {cell : Cell} {M M' v : Nat} (holds : cell.Holds M v) (le : M ≤ M') :
    cell.Holds M' v :=
  ⟨holds.1, Nat.lt_of_lt_of_le holds.2 (Nat.pow_le_pow_right (by decide) le)⟩

theorem holds_ofBool {b : Bool} {v : Nat} (same : b.toNat = v) : Holds (ofBool b) 32 v := by
  subst same
  cases b with
  | false => exact ⟨rfl, by decide⟩
  | true => exact ⟨rfl, by decide⟩

end Cell

theorem Width.bits_pos (w : Width) : 0 < w.bits := by
  cases w with
  | w32 => decide
  | w64 => decide

theorem Width.bits_le (w : Width) : w.bits ≤ 64 := by
  cases w with
  | w32 => decide
  | w64 => decide

open Standard (Rule)

/-- What an operator with one operand computes. The bits that are widened are bits of the operand.
-/
def UnaryOp.rule? : UnaryOp → Option Rule
  | eqz w => some (.unary w.bits 32 Standard.eqz)
  | clz w => some (.unary w.bits w.bits (Standard.clz w.bits))
  | ctz w => some (.unary w.bits w.bits (Standard.ctz w.bits))
  | popcnt w => some (.unary w.bits w.bits (Standard.popcnt w.bits))
  | wrap => some (.unary 64 32 (Standard.wrap 32))
  | extend .signed => some (.unary 32 64 (Standard.extend 32 64))
  | extend .unsigned => some (.unary 32 64 id)
  | signExtend w n =>
    if n ≤ w.bits then some (.unary w.bits w.bits (Standard.extend n w.bits)) else none

/-- What an arithmetic operator computes, if it is not one that divides. -/
def Arith.meaning? (N : Nat) : Arith → Option (Nat → Nat → Nat)
  | add => some (Standard.add N)
  | sub => some (Standard.sub N)
  | mul => some (Standard.mul N)
  | div _ | rem _ => none
  | and => some Nat.land
  | or => some Nat.lor
  | xor => some Nat.xor
  | shl => some (Standard.shl N)
  | shr .signed => some (Standard.shrS N)
  | shr .unsigned => some (Standard.shrU N)
  | rotl => some (Standard.rotl N)
  | rotr => some (Standard.rotr N)

/-- What a comparison computes. -/
def Comparison.meaning (N : Nat) : Comparison → Nat → Nat → Nat
  | eq => Standard.eq
  | ne => Standard.ne
  | lt .signed => Standard.ltS N
  | lt .unsigned => Standard.ltU
  | gt .signed => Standard.gtS N
  | gt .unsigned => Standard.gtU
  | le .signed => Standard.leS N
  | le .unsigned => Standard.leU
  | ge .signed => Standard.geS N
  | ge .unsigned => Standard.geU

def Numeric.rule? : Numeric → Option Rule
  | .unary op => op.rule?
  | .binary (.arith w op) => (op.meaning? w.bits).map (.binary w.bits w.bits)
  | .binary (.compare w op) => some (.binary w.bits 32 (op.meaning w.bits))

/-- Whether the operator is a division or a remainder. -/
def Numeric.divides : Numeric → Bool
  | .binary (.arith _ (.div _)) | .binary (.arith _ (.rem _)) => true
  | _ => false

/-- The operator computes what the rule says, from the low bits of its operands. -/
inductive Numeric.Meets : Numeric → Rule → Prop
  | unary {op N M f} (result : ∀ x : Cell, Cell.Holds (op.eval x) M (f (x.toNat % 2 ^ N))) :
      Meets (.unary op) (.unary N M f)
  | binary {op N M f} (result : ∀ x y : Cell, ∃ z, op.eval x y = .ok z ∧
        Cell.Holds z M (f (x.toNat % 2 ^ N) (y.toNat % 2 ^ N))) :
      Meets (.binary op) (.binary N M f)

theorem UnaryOp.meets {op : UnaryOp} {rule : Rule} (known : op.rule? = some rule) :
    Numeric.Meets (.unary op) rule := by
  cases op with
  | eqz w =>
    cases known
    refine .unary fun x => Cell.holds_ofBool (Standard.toNat_eq_truth ?_)
    rw [beq_iff_eq, ← BitVec.toNat_inj, Cell.toNat_bits, BitVec.ofNat_eq_ofNat, BitVec.toNat_zero]
  | clz w =>
    cases known
    refine .unary fun x => Cell.holds_ofBits w.bits_le ?_
    rw [Standard.toNat_clz, Cell.toNat_bits]
  | ctz w =>
    cases known
    refine .unary fun x => Cell.holds_ofBits w.bits_le ?_
    rw [Standard.toNat_ctz, Cell.toNat_bits]
  | popcnt w =>
    cases known
    refine .unary fun x => Cell.holds_ofBits w.bits_le ?_
    rw [Standard.toNat_cpop, Cell.toNat_bits]
  | wrap =>
    cases known
    refine .unary fun x => Cell.holds_ofBits (by decide) ?_
    rw [Cell.toNat_bits, Standard.wrap, Nat.mod_mod_of_dvd _ (by decide)]
  | extend sign =>
    cases sign with
    | signed =>
      cases known
      refine .unary fun x => Cell.holds_ofBits (by decide) ?_
      rw [Standard.toNat_signExtend, Cell.toNat_bits, Standard.extend, Nat.mod_mod]
    | unsigned =>
      cases known
      refine .unary fun x => (Cell.holds_ofBits (by decide) ?_).mono (by decide)
      exact Cell.toNat_bits 32 x
  | signExtend w n =>
    rw [rule?] at known
    split at known
    · rename_i few
      cases known
      refine .unary fun x => Cell.holds_ofBits w.bits_le ?_
      rw [Standard.toNat_signExtend, Cell.toNat_bits, Standard.extend,
        Nat.mod_mod_of_dvd _ (Nat.pow_dvd_pow 2 few)]
    · cases known

theorem Arith.exists_eval {N : Nat} {op : Arith} {f : Nat → Nat → Nat} (wide : 0 < N)
    (known : op.meaning? N = some f) (x y : BitVec N) :
    ∃ z, op.eval x y = .ok z ∧ z.toNat = f x.toNat y.toNat := by
  cases op with
  | add =>
    cases known
    exact ⟨x + y, rfl, BitVec.toNat_add x y⟩
  | sub =>
    cases known
    refine ⟨x - y, rfl, ?_⟩
    have small : y.toNat < 2 ^ N := y.isLt
    have moved : x.toNat + 2 ^ N - y.toNat = 2 ^ N - y.toNat + x.toNat := by omega
    rw [BitVec.toNat_sub, Standard.sub, moved]
  | mul =>
    cases known
    exact ⟨x * y, rfl, BitVec.toNat_mul x y⟩
  | div sign => cases known
  | rem sign => cases known
  | and =>
    cases known
    exact ⟨x &&& y, rfl, BitVec.toNat_and x y⟩
  | or =>
    cases known
    exact ⟨x ||| y, rfl, BitVec.toNat_or x y⟩
  | xor =>
    cases known
    exact ⟨x ^^^ y, rfl, BitVec.toNat_xor x y⟩
  | shl =>
    cases known
    refine ⟨x <<< (y.toNat % N), rfl, ?_⟩
    rw [BitVec.toNat_shiftLeft, Nat.shiftLeft_eq, Standard.shl]
  | shr sign =>
    cases sign with
    | signed =>
      cases known
      exact ⟨x.sshiftRight (y.toNat % N), rfl, Standard.toNat_sshiftRight x _⟩
    | unsigned =>
      cases known
      refine ⟨x >>> (y.toNat % N), rfl, ?_⟩
      rw [BitVec.toNat_ushiftRight, Nat.shiftRight_eq_div_pow, Standard.shrU]
  | rotl =>
    cases known
    exact ⟨x.rotateLeft (y.toNat % N), rfl, Standard.toNat_rotateLeft x wide _⟩
  | rotr =>
    cases known
    exact ⟨x.rotateRight (y.toNat % N), rfl, Standard.toNat_rotateRight x wide _⟩

theorem less_signed_iff {N : Nat} {x y : BitVec N} :
    less .signed x y = true ↔ Standard.signed N x.toNat < Standard.signed N y.toNat := by
  rw [Standard.signed_toNat, Standard.signed_toNat]
  exact BitVec.slt_iff_toInt_lt

theorem less_unsigned_iff {N : Nat} {x y : BitVec N} :
    less .unsigned x y = true ↔ x.toNat < y.toNat :=
  BitVec.ult_iff_lt

theorem not_less_signed_iff {N : Nat} {x y : BitVec N} :
    (!less .signed y x) = true ↔ Standard.signed N x.toNat ≤ Standard.signed N y.toNat := by
  rw [Bool.not_eq_true', ← Bool.not_eq_true, less_signed_iff, Int.not_lt]

theorem not_less_unsigned_iff {N : Nat} {x y : BitVec N} :
    (!less .unsigned y x) = true ↔ x.toNat ≤ y.toNat := by
  rw [Bool.not_eq_true', ← Bool.not_eq_true, less_unsigned_iff, Nat.not_lt]

theorem Comparison.toNat_eval {N : Nat} (op : Comparison) (x y : BitVec N) :
    (op.eval x y).toNat = op.meaning N x.toNat y.toNat := by
  cases op with
  | eq => exact Standard.toNat_eq_truth (beq_iff_eq.trans BitVec.toNat_inj.symm)
  | ne => exact Standard.toNat_eq_truth (bne_iff_ne.trans (not_congr BitVec.toNat_inj.symm))
  | lt sign =>
    cases sign with
    | signed => exact Standard.toNat_eq_truth less_signed_iff
    | unsigned => exact Standard.toNat_eq_truth less_unsigned_iff
  | gt sign =>
    cases sign with
    | signed => exact Standard.toNat_eq_truth less_signed_iff
    | unsigned => exact Standard.toNat_eq_truth less_unsigned_iff
  | le sign =>
    cases sign with
    | signed => exact Standard.toNat_eq_truth not_less_signed_iff
    | unsigned => exact Standard.toNat_eq_truth not_less_unsigned_iff
  | ge sign =>
    cases sign with
    | signed => exact Standard.toNat_eq_truth not_less_signed_iff
    | unsigned => exact Standard.toNat_eq_truth not_less_unsigned_iff

/-- Every operator computes what its rule says. -/
theorem Numeric.meets_of_rule? {op : Numeric} {rule : Rule} (known : op.rule? = some rule) :
    op.Meets rule := by
  cases op with
  | unary op => exact op.meets known
  | binary op =>
    cases op with
    | arith w op =>
      obtain ⟨f, meaning, rfl⟩ := Option.map_eq_some_iff.mp known
      refine .binary fun x y => ?_
      obtain ⟨z, done, value⟩ :=
        Arith.exists_eval w.bits_pos meaning (Cell.bits w.bits x) (Cell.bits w.bits y)
      rw [Cell.toNat_bits, Cell.toNat_bits] at value
      refine ⟨Cell.ofBits z, ?_, Cell.holds_ofBits w.bits_le value⟩
      rw [BinaryOp.eval, done]
      rfl
    | compare w op =>
      cases known
      refine .binary fun x y => ⟨_, rfl, Cell.holds_ofBool ?_⟩
      rw [Comparison.toNat_eval, Cell.toNat_bits, Cell.toNat_bits]

/-! ### Opcodes -/

namespace Standard

/-- Every rule of the standard is that of the operator which the opcode stands for. -/
theorem exists_numeric {byte : UInt8} {rule : Rule} (known : rule? byte = some rule) :
    ∃ op : Numeric, Opcode.ofByte? byte = some (.numeric op) ∧ op.rule? = some rule := by
  unfold rule? at known
  split at known
  all_goals cases known
  all_goals
    rename_i code
    have named : byte = UInt8.ofNat byte.toNat := UInt8.ofNat_toNat.symm
    rw [code] at named
    subst named
    exact ⟨_, rfl, rfl⟩

theorem meets_of_byte {byte : UInt8} {rule : Rule} (known : rule? byte = some rule) :
    ∃ op : Numeric, Opcode.ofByte? byte = some (.numeric op) ∧ op.Meets rule := by
  obtain ⟨op, stands, same⟩ := exists_numeric known
  exact ⟨op, stands, Numeric.meets_of_rule? same⟩

theorem rule?_or_divides : ∀ n < 256, (match Opcode.ofByte? (UInt8.ofNat n) with
    | some (.numeric op) => op.divides || (rule? (UInt8.ofNat n)).isSome
    | _ => true) = true := by
  decide +kernel

/-- There is a rule for every opcode of an operator that does not divide. -/
theorem isSome_rule? {byte : UInt8} {op : Numeric}
    (stands : Opcode.ofByte? byte = some (.numeric op)) (whole : op.divides = false) :
    (rule? byte).isSome := by
  have covered := rule?_or_divides byte.toNat byte.toNat_lt
  rw [UInt8.ofNat_toNat, stands] at covered
  simpa only [whole, Bool.false_or] using covered

end Standard

end Wasm
