import Mathlib.Data.Nat.Bitwise

/-!
Alignment of a machine word to a power of two, by the usual mask expressions,
in a word of `w` bits.
-/
namespace LibAlign

/-- `((x - 1) | (2^k - 1)) + 1` in a word of `w` bits. -/
def alignUp (w k x : Nat) : Nat :=
  (((x + (2 ^ w - 1)) % 2 ^ w ||| (2 ^ k - 1)) + 1) % 2 ^ w

/-- `x & ~(2^k - 1)` in a word of `w` bits. -/
def alignLow (w k x : Nat) : Nat := x &&& (2 ^ w - 1 - (2 ^ k - 1))

theorem or_low_ones (k y : Nat) : (y ||| (2 ^ k - 1)) + 1 = 2 ^ k * (y / 2 ^ k + 1) := by
  have split : y ||| (2 ^ k - 1) = 2 ^ k * (y / 2 ^ k) + (2 ^ k - 1) := by
    rw [Nat.two_pow_add_eq_or_of_lt (Nat.sub_lt (Nat.two_pow_pos k) Nat.one_pos)]
    apply Nat.eq_of_testBit_eq
    intro i
    simp only [Nat.testBit_or, Nat.testBit_two_pow_mul, Nat.testBit_div_two_pow]
    by_cases low : i < k
    · simp [low]
    · simp [Nat.le_of_not_lt low]
  have positive := Nat.two_pow_pos k
  rw [Nat.mul_add]
  omega

theorem dvd_alignUp {w k : Nat} (x : Nat) (small : k ≤ w) : 2 ^ k ∣ alignUp w k x := by
  rw [alignUp, or_low_ones, Nat.dvd_mod_iff (Nat.pow_dvd_pow 2 small)]
  exact Nat.dvd_mul_right _ _

/-- Where it does not wrap, `alignUp` is the next multiple. -/
theorem alignUp_eq {w k x : Nat} (small : k ≤ w) (fits : x + (2 ^ k - 1) < 2 ^ w) :
    alignUp w k x = 2 ^ k * ((x + (2 ^ k - 1)) / 2 ^ k) := by
  have positive := Nat.two_pow_pos k
  have range := Nat.two_pow_pos w
  cases x with
  | zero =>
    have ones : 2 ^ w - 1 ||| (2 ^ k - 1) = 2 ^ w - 1 := by
      apply Nat.eq_of_testBit_eq
      intro i
      by_cases low : i < k
      · simp [low.trans_le small]
      · simp [low]
    have last : (2 ^ w - 1) % 2 ^ w = 2 ^ w - 1 := Nat.mod_eq_of_lt (by omega)
    rw [alignUp, Nat.zero_add, last, ones, Nat.sub_add_cancel range, Nat.mod_self,
      Nat.div_eq_of_lt (by omega), Nat.mul_zero]
  | succ y =>
    have before : (y + 1 + (2 ^ w - 1)) % 2 ^ w = y := by
      have shift : y + 1 + (2 ^ w - 1) = y + 2 ^ w := by omega
      rw [shift, Nat.add_mod_right, Nat.mod_eq_of_lt (by omega)]
    have after : (y + 1 + (2 ^ k - 1)) / 2 ^ k = y / 2 ^ k + 1 := by
      have shift : y + 1 + (2 ^ k - 1) = y + 2 ^ k := by omega
      rw [shift, Nat.add_div_right y positive]
    have below : 2 ^ k * (y / 2 ^ k + 1) ≤ y + 2 ^ k := by
      exact Nat.add_le_add_right (Nat.mul_div_le y (2 ^ k)) _
    rw [alignUp, before, or_low_ones, after, Nat.mod_eq_of_lt (by omega)]

theorem le_alignUp {w k x : Nat} (small : k ≤ w) (fits : x + (2 ^ k - 1) < 2 ^ w) :
    x ≤ alignUp w k x ∧ alignUp w k x ≤ x + (2 ^ k - 1) := by
  have positive := Nat.two_pow_pos k
  have whole := Nat.div_add_mod (x + (2 ^ k - 1)) (2 ^ k)
  rw [alignUp_eq small fits]
  omega

theorem alignLow_eq {w k x : Nat} (small : k ≤ w) (fits : x < 2 ^ w) :
    alignLow w k x = 2 ^ k * (x / 2 ^ k) := by
  have ones : 2 ^ k - 1 < 2 ^ w :=
    Nat.lt_of_lt_of_le (Nat.sub_lt (Nat.two_pow_pos k) Nat.one_pos)
      (Nat.pow_le_pow_right (by decide) small)
  rw [alignLow, Nat.sub_sub, Nat.add_comm 1]
  apply Nat.eq_of_testBit_eq
  intro i
  rw [Nat.testBit_and, Nat.testBit_two_pow_sub_succ ones, Nat.testBit_two_pow_mul,
    Nat.testBit_div_two_pow]
  by_cases low : i < k
  · simp [low]
  · by_cases high : i < w
    · simp [high, Nat.le_of_not_lt low]
    · have zero : x.testBit i = false := Nat.testBit_lt_two_pow
        (fits.trans_le (Nat.pow_le_pow_right (by decide) (Nat.le_of_not_lt high)))
      simp [zero, Nat.le_of_not_lt low]

end LibAlign
