import Mathlib.Tactic.Ring
import Mathlib.Data.Int.Basic

/-!
Fixed-width integers as integers: a signed register of `w` bits holds the
balanced residue of what is stored in it, an unsigned one the residue. A value
in range is stored unchanged.
-/
namespace LibFixedWidth

/-- What a signed register of `w` bits holds after `x` is stored in it. -/
def sint (w : Nat) (x : Int) : Int := Int.bmod x (2 ^ w)

/-- `x` is a value of a signed register of `w` bits. -/
def Fits (w : Nat) (x : Int) : Prop := -(2 ^ w : Int) ≤ 2 * x ∧ 2 * x < 2 ^ w

instance (w : Nat) (x : Int) : Decidable (Fits w x) :=
  instDecidableAnd

theorem sint_of_fits {w : Nat} {x : Int} (h : Fits w x) : sint w x = x := by
  obtain ⟨low,high⟩ := h
  exact Int.bmod_eq_of_le_mul_two (by push_cast; omega) (by push_cast; omega)

theorem fits_zero (w : Nat) : Fits w 0 := by
  have pos : (0 : Int) < 2 ^ w := Int.pow_pos (by decide)
  constructor <;> omega

theorem fits_minus_one {w : Nat} (wide : 1 ≤ w) : Fits w (-1) := by
  have two : ((2 ^ 1 : Nat) : Int) ≤ ((2 ^ w : Nat) : Int) :=
    Int.ofNat_le.mpr (Nat.pow_le_pow_right (by decide) wide)
  push_cast at two
  constructor <;> omega

/-- The range is an interval: it holds whatever lies between two of its values. -/
theorem fits_between {w : Nat} {x y z : Int} (low : Fits w x) (high : Fits w z)
    (hxy : x ≤ y) (hyz : y ≤ z) : Fits w y := by
  obtain ⟨hl,_⟩ := low
  obtain ⟨_,hu⟩ := high
  constructor <;> omega

theorem sint_add_sint (w : Nat) (x y : Int) : sint w (sint w x + y) = sint w (x + y) := by
  exact Int.bmod_add_bmod

theorem sint_succ_ne {w : Nat} (wide : 1 ≤ w) (x : Int) : sint w (x + 1) ≠ x := by
  intro same
  have residue : x % ((2 ^ w : Nat) : Int) = (x + 1) % ((2 ^ w : Nat) : Int) := by
    conv => lhs; rw [← same]
    exact Int.bmod_emod
  have divides : ((2 ^ w : Nat) : Int) ∣ x + 1 - x :=
    Int.dvd_of_emod_eq_zero (Int.emod_eq_emod_iff_emod_sub_eq_zero.mp residue.symm)
  have one : x + 1 - x = (1 : Int) := by omega
  rw [one] at divides
  have unit : 2 ^ w = 1 := Nat.dvd_one.mp (Int.natCast_dvd_natCast.mp divides)
  have two : 2 ^ 1 ≤ 2 ^ w := Nat.pow_le_pow_right (by decide) wide
  omega

theorem fits_sint {w : Nat} (wide : 1 ≤ w) (x : Int) : Fits w (sint w x) := by
  obtain ⟨k,rfl⟩ : ∃ k, w = k + 1 := ⟨w - 1,by omega⟩
  have pos : 0 < 2 ^ (k + 1) := Nat.two_pow_pos (k + 1)
  have low := Int.le_bmod (x := x) pos
  have high := Int.bmod_lt (x := x) pos
  unfold Fits sint
  push_cast at low high ⊢
  constructor <;> omega

theorem sint_dvd (w : Nat) (x : Int) : ((2 ^ w : Nat) : Int) ∣ x - sint w x := by
  have divides := Int.dvd_bmod_sub_self (x := x) (m := 2 ^ w)
  rw [← Int.neg_sub]
  exact Int.dvd_neg.mpr divides

theorem fits_natCast {w : Nat} (wide : 1 ≤ w) (n : Nat) : Fits w n ↔ n < 2 ^ (w - 1) := by
  obtain ⟨k,rfl⟩ : ∃ k, w = k + 1 := ⟨w - 1,by omega⟩
  unfold Fits
  rw [← Int.ofNat_lt]
  push_cast
  constructor
  · rintro ⟨_,high⟩
    omega
  · intro small
    constructor <;> omega

theorem sint_wraps {w : Nat} (wide : 1 ≤ w) : sint w ((2 ^ (w - 1) : Nat) : Int) < 0 := by
  obtain ⟨k,rfl⟩ : ∃ k, w = k + 1 := ⟨w - 1,by omega⟩
  obtain ⟨_,high⟩ := fits_sint wide (((2 ^ (k + 1 - 1) : Nat) : Int))
  have divides := sint_dvd (k + 1) ((2 ^ (k + 1 - 1) : Nat) : Int)
  push_cast at high divides ⊢
  by_contra positive
  have zero := Int.eq_zero_of_dvd_of_nonneg_of_lt (by omega) (by omega) divides
  omega

theorem sint_eq_self_iff {w : Nat} (wide : 1 ≤ w) (x : Int) : sint w x = x ↔ Fits w x := by
  constructor
  · intro same
    rw [← same]
    exact fits_sint wide x
  · exact sint_of_fits

/-- What an unsigned register of `w` bits holds after `x` is stored in it. -/
def uint (w : Nat) (x : Int) : Int := x % 2 ^ w

theorem uint_of_range {w : Nat} {x : Int} (low : 0 ≤ x) (high : x < 2 ^ w) : uint w x = x :=
  Int.emod_eq_of_lt low high

theorem uint_of_fits {w : Nat} {x : Int} (low : 0 ≤ x) (fits : Fits w x) : uint w x = x := by
  obtain ⟨_,high⟩ := fits
  exact uint_of_range low (by omega)

end LibFixedWidth
