import Mathlib.Algebra.Order.Group.Unbundled.Int
import Wasm.Integer

/-!
Quotients and remainders of integers.

A sign reads bits as a number. Under either reading a quotient is that of the numbers, rounded
toward zero, and a remainder is what is left over. The only quotient that has no bits is that of the
least signed number by minus one; the remainder of these two is zero.

* `Sign.divide_cases`, `Sign.remainder_cases`: all that the operators can come to;
* `quotient_and_remainder`: the quotient and the remainder of two numbers of a type.
-/

namespace Wasm

namespace Sign

/-- The number that bits stand for. -/
def value (sign : Sign) {n : Nat} (x : BitVec n) : Int :=
  match sign with
  | .signed => x.toInt
  | .unsigned => x.toNat

variable {n : Nat} {sign : Sign} {x y : BitVec n}

theorem value_eq_zero_iff : sign.value x = 0 ↔ x = 0 := by
  cases sign with
  | signed => rw [value, ← BitVec.toInt_inj, BitVec.ofNat_eq_ofNat, BitVec.toInt_zero]
  | unsigned => rw [value, ← BitVec.toNat_inj, BitVec.ofNat_eq_ofNat, BitVec.toNat_zero,
      Int.natCast_eq_zero]

/-- The quotient of two numbers is outside the numbers of `n` bits. -/
def Overflows (sign : Sign) (x y : BitVec n) : Prop :=
  sign = .signed ∧ sign.value x = -2 ^ (n - 1) ∧ sign.value y = -1

/-- The quotient that the operator refuses is the one that does not fit. -/
theorem overflows_iff (some : 0 < n) :
    signed.Overflows x y ↔ x = BitVec.intMin n ∧ y = BitVec.allOnes n := by
  have ones : (BitVec.allOnes n).toInt = -1 := by rw [BitVec.toInt_allOnes, if_pos some]
  rw [← BitVec.toInt_inj, ← BitVec.toInt_inj, BitVec.toInt_intMin_of_pos some, ones]
  exact and_iff_right rfl

/-- What a division comes to: a trap on zero, a trap on the quotient that does not fit, or a
quotient that is rounded toward zero. -/
theorem divide_cases (sign : Sign) (x y : BitVec n) :
    (sign.value y = 0 ∧ divide sign x y = .error .divideByZero) ∨
      (sign.value y ≠ 0 ∧ sign.Overflows x y ∧ divide sign x y = .error .integerOverflow) ∨
      (sign.value y ≠ 0 ∧ ¬ sign.Overflows x y ∧ ∃ q, divide sign x y = .ok q ∧
        sign.value q = (sign.value x).tdiv (sign.value y)) := by
  by_cases zero : y = 0
  · exact .inl ⟨value_eq_zero_iff.mpr zero, if_pos zero⟩
  have nonzero : sign.value y ≠ 0 := fun same => zero (value_eq_zero_iff.mp same)
  refine .inr ?_
  unfold divide
  rw [if_neg zero]
  cases sign with
  | unsigned =>
    refine .inr ⟨nonzero, (fun overflows => nomatch overflows.1), x / y, rfl, ?_⟩
    rw [value, value, value, BitVec.toNat_udiv, Int.ofNat_tdiv]
  | signed =>
    have some : 0 < n := by
      by_contra none
      obtain rfl : n = 0 := by omega
      exact zero (BitVec.of_length_zero)
    by_cases overflows : signed.Overflows x y
    · exact .inl ⟨nonzero, overflows, if_pos ((overflows_iff some).mp overflows)⟩
    · have fits := mt (overflows_iff some).mpr overflows
      refine .inr ⟨nonzero, overflows, x.sdiv y, if_neg fits, ?_⟩
      apply BitVec.toInt_sdiv_of_ne_or_ne
      rw [BitVec.neg_one_eq_allOnes]
      exact not_and_or.mp fits

/-- What a remainder comes to: a trap on zero, or the remainder of the quotient that is rounded
toward zero, whether that quotient fits or not. -/
theorem remainder_cases (sign : Sign) (x y : BitVec n) :
    (sign.value y = 0 ∧ remainder sign x y = .error .divideByZero) ∨
      (sign.value y ≠ 0 ∧ ∃ r, remainder sign x y = .ok r ∧
        sign.value r = (sign.value x).tmod (sign.value y)) := by
  by_cases zero : y = 0
  · exact .inl ⟨value_eq_zero_iff.mpr zero, if_pos zero⟩
  have nonzero : sign.value y ≠ 0 := fun same => zero (value_eq_zero_iff.mp same)
  refine .inr ⟨nonzero, ?_⟩
  unfold remainder
  rw [if_neg zero]
  cases sign with
  | unsigned =>
    refine ⟨x % y, rfl, ?_⟩
    rw [value, value, value, BitVec.toNat_umod, Int.ofNat_tmod]
  | signed => exact ⟨x.srem y, rfl, BitVec.toInt_srem x y⟩

theorem Overflows.value_ne_zero (overflows : sign.Overflows x y) : sign.value y ≠ 0 := by
  obtain ⟨-, -, minusOne⟩ := overflows
  rw [minusOne]
  decide

theorem divide_eq_divideByZero_iff :
    divide sign x y = .error .divideByZero ↔ sign.value y = 0 := by
  rcases sign.divide_cases x y with ⟨zero, trap⟩ | ⟨nonzero, -, trap⟩ | ⟨nonzero, -, q, done, -⟩
  · simp only [trap, zero]
  · simp only [trap, nonzero, Except.error.injEq, reduceCtorEq]
  · simp only [done, nonzero, reduceCtorEq]

theorem divide_eq_integerOverflow_iff :
    divide sign x y = .error .integerOverflow ↔ sign.Overflows x y := by
  rcases sign.divide_cases x y with ⟨zero, trap⟩ | ⟨-, overflows, trap⟩ | ⟨-, fits, q, done, -⟩
  · have fits : ¬ sign.Overflows x y := fun overflows => overflows.value_ne_zero zero
    simp only [trap, fits, Except.error.injEq, reduceCtorEq]
  · simp only [trap, overflows]
  · simp only [done, fits, reduceCtorEq]

theorem exists_divide (nonzero : sign.value y ≠ 0) (fits : ¬ sign.Overflows x y) :
    ∃ q, divide sign x y = .ok q ∧ sign.value q = (sign.value x).tdiv (sign.value y) := by
  rcases sign.divide_cases x y with ⟨zero, -⟩ | ⟨-, overflows, -⟩ | ⟨-, -, quotient⟩
  · exact absurd zero nonzero
  · exact absurd overflows fits
  · exact quotient

theorem remainder_eq_error_iff {trap : Trap} :
    remainder sign x y = .error trap ↔ trap = .divideByZero ∧ sign.value y = 0 := by
  rcases sign.remainder_cases x y with ⟨zero, trapped⟩ | ⟨nonzero, r, done, -⟩
  · simp only [trapped, zero, Except.error.injEq, and_true, eq_comm]
  · simp only [done, nonzero, and_false, reduceCtorEq]

/-- A remainder is smaller than the divisor, and if it is not zero, it has the sign of the dividend.
-/
theorem exists_remainder (nonzero : sign.value y ≠ 0) :
    ∃ r, remainder sign x y = .ok r ∧ |sign.value r| < |sign.value y| ∧
      (sign.value r = 0 ∨ (sign.value r).sign = (sign.value x).sign) ∧
      (sign.value y = -1 → sign.value r = 0) := by
  rcases sign.remainder_cases x y with ⟨zero, -⟩ | ⟨-, r, done, value⟩
  · exact absurd zero nonzero
  refine ⟨r, done, ?_, ?_, ?_⟩
  · rw [value, Int.abs_eq_natAbs, Int.abs_eq_natAbs, Int.natAbs_tmod]
    exact Int.ofNat_lt.mpr (Nat.mod_lt _ (Int.natAbs_pos.mpr nonzero))
  · rw [value, Int.sign_tmod]
    by_cases whole : sign.value y ∣ sign.value x
    · exact .inl (Int.tmod_eq_zero_of_dvd whole)
    · exact .inr (if_neg whole)
  · intro minusOne
    rw [value, minusOne]
    exact Int.tmod_eq_zero_of_dvd (Int.neg_dvd.mpr (Int.one_dvd _))

/-- The dividend is the quotient times the divisor plus the remainder. -/
theorem eq_divide_mul_add_remainder {q : BitVec n} (done : divide sign x y = .ok q) :
    ∃ r, remainder sign x y = .ok r ∧
      sign.value x = sign.value q * sign.value y + sign.value r := by
  rcases sign.divide_cases x y with ⟨-, trap⟩ | ⟨-, -, trap⟩ | ⟨nonzero, -, q', done', quotient⟩
  · rw [trap] at done
    cases done
  · rw [trap] at done
    cases done
  rw [done'] at done
  cases done
  rcases sign.remainder_cases x y with ⟨zero, -⟩ | ⟨-, r, left, rest⟩
  · exact absurd zero nonzero
  · refine ⟨r, left, ?_⟩
    rw [quotient, rest, Int.tdiv_mul_add_tmod]

end Sign

/-- Division and remainder of the numbers of a type. Division traps on zero and on the quotient that
does not fit, and on nothing else; a quotient is rounded toward zero. Remainder traps on zero only;
a remainder is smaller than the divisor, and zero or of the sign of the dividend. Where there is a
quotient, the dividend is the quotient times the divisor plus the remainder, as integers. -/
theorem quotient_and_remainder (type : IntType) (x y : BitVec type.width.bits) :
    ((Arith.div type.sign).eval x y = .error .divideByZero ↔ type.sign.value y = 0) ∧
    ((Arith.div type.sign).eval x y = .error .integerOverflow ↔
      type.sign = .signed ∧ type.sign.value x = -2 ^ (type.width.bits - 1) ∧
        type.sign.value y = -1) ∧
    (type.sign.value y ≠ 0 →
      ¬ (type.sign = .signed ∧ type.sign.value x = -2 ^ (type.width.bits - 1) ∧
        type.sign.value y = -1) →
      ∃ q, (Arith.div type.sign).eval x y = .ok q ∧
        type.sign.value q = (type.sign.value x).tdiv (type.sign.value y)) ∧
    (∀ trap, (Arith.rem type.sign).eval x y = .error trap ↔
      trap = .divideByZero ∧ type.sign.value y = 0) ∧
    (type.sign.value y ≠ 0 → ∃ r, (Arith.rem type.sign).eval x y = .ok r ∧
      |type.sign.value r| < |type.sign.value y| ∧
      (type.sign.value r = 0 ∨ (type.sign.value r).sign = (type.sign.value x).sign) ∧
      (type.sign.value y = -1 → type.sign.value r = 0)) ∧
    ∀ q, (Arith.div type.sign).eval x y = .ok q → ∃ r, (Arith.rem type.sign).eval x y = .ok r ∧
      type.sign.value x = type.sign.value q * type.sign.value y + type.sign.value r :=
  ⟨Sign.divide_eq_divideByZero_iff, Sign.divide_eq_integerOverflow_iff, Sign.exists_divide,
    fun _ => Sign.remainder_eq_error_iff, Sign.exists_remainder,
    fun _ => Sign.eq_divide_mul_add_remainder⟩

/-- The theorem at the least number and minus one, at a negative dividend, at zero, and at the same
bits under both signs. -/
theorem quotients_of_extremes :
    (Arith.div .signed).eval (BitVec.intMin 32) (BitVec.ofInt 32 (-1)) =
      .error .integerOverflow ∧
    (∃ r : BitVec 32, (Arith.rem .signed).eval (BitVec.intMin 32) (BitVec.ofInt 32 (-1)) = .ok r ∧
      r.toInt = 0) ∧
    (∃ q : BitVec 64, (Arith.div .signed).eval (BitVec.ofInt 64 (-7)) 2#64 = .ok q ∧
      q.toInt = -3 ∧
      ∃ r, (Arith.rem .signed).eval (BitVec.ofInt 64 (-7)) 2#64 = .ok r ∧ r.toInt = -1) ∧
    (Arith.rem .unsigned).eval 7#64 0#64 = .error .divideByZero ∧
    (∃ q : BitVec 32, (Arith.div .unsigned).eval (BitVec.intMin 32) (BitVec.ofInt 32 (-1)) = .ok q ∧
      q.toNat = 0) := by
  obtain ⟨-, overflows, -, -, left, -⟩ :=
    quotient_and_remainder ⟨.w32, .signed⟩ (BitVec.intMin 32) (BitVec.ofInt 32 (-1))
  obtain ⟨-, -, quotient, -, -, together⟩ :=
    quotient_and_remainder ⟨.w64, .signed⟩ (BitVec.ofInt 64 (-7)) 2#64
  obtain ⟨-, -, -, zero, -⟩ := quotient_and_remainder ⟨.w64, .unsigned⟩ 7#64 0#64
  obtain ⟨-, -, unsigned, -⟩ :=
    quotient_and_remainder ⟨.w32, .unsigned⟩ (BitVec.intMin 32) (BitVec.ofInt 32 (-1))
  refine ⟨overflows.mpr (by decide), ?_, ?_, (zero _).mpr (by decide), ?_⟩
  · obtain ⟨r, done, -, -, nothing⟩ := left (by decide)
    exact ⟨r, done, nothing (by decide)⟩
  · obtain ⟨(q : BitVec 64), done, (rounded : q.toInt = -3)⟩ :=
      quotient (by decide) (by decide)
    obtain ⟨(r : BitVec 64), left, (dividend : -7 = q.toInt * 2 + r.toInt)⟩ := together q done
    exact ⟨q, done, rounded, r, left, by omega⟩
  · obtain ⟨q, done, value⟩ := unsigned (by decide) (by decide)
    exact ⟨q, done, Int.ofNat_inj.mp value⟩

end Wasm
