import Mathlib.Data.BitVec

/-!
A register that is shifted left bit by bit and reduced by a polynomial. One shift
is linear in exclusive or, so what several shifts do to a word is the sum of what
they do to its leading bits and of the rest of the word, moved.
-/
namespace LibShiftRegister
variable {w : Nat}

def shift (poly x : BitVec w) : BitVec w :=
  if x.msb then (x <<< 1) ^^^ poly else x <<< 1

def shifts (poly : BitVec w) : Nat → BitVec w → BitVec w
  | 0, x => x
  | n + 1, x => shifts poly n (shift poly x)

theorem shift_xor (poly x y : BitVec w) : shift poly (x ^^^ y) = shift poly x ^^^ shift poly y := by
  unfold shift
  rw [BitVec.msb_xor, BitVec.shiftLeft_xor_distrib]
  cases x.msb with
  | false =>
    cases y.msb with
    | false => simp
    | true => simp [BitVec.xor_assoc]
  | true => ?_
  cases y.msb with
  | false =>
    simp only [Bool.xor_false, ↓reduceIte, Bool.false_eq_true]
    rw [BitVec.xor_assoc, BitVec.xor_comm (y <<< 1), ← BitVec.xor_assoc]
  | true => ?_
  -- The polynomial is added twice.
  simp only [Bool.xor_true, Bool.not_true, Bool.false_eq_true, ↓reduceIte]
  rw [BitVec.xor_comm (y <<< 1), BitVec.xor_assoc, ← BitVec.xor_assoc poly, BitVec.xor_self,
    BitVec.zero_xor]

theorem shifts_xor (poly : BitVec w) (n : Nat) :
    ∀ x y, shifts poly n (x ^^^ y) = shifts poly n x ^^^ shifts poly n y := by
  induction n with
  | zero =>
    intro x y
    rfl
  | succ n ih =>
    intro x y
    simp only [shifts, shift_xor]
    exact ih _ _

theorem shifts_of_clear (poly : BitVec w) (n : Nat) :
    ∀ x : BitVec w, (∀ i, i < n → x.getMsbD i = false) → shifts poly n x = x <<< n := by
  induction n with
  | zero =>
    intro x _
    simp [shifts]
  | succ n ih => ?_
  intro x clear
  have top : x.msb = false := by
    exact clear 0 (by omega)
  have moved : shift poly x = x <<< 1 := by simp [shift, top]
  rw [shifts, moved, ih]
  · rw [← BitVec.shiftLeft_add, Nat.add_comm]
  · intro i small
    rw [BitVec.getMsbD_shiftLeft]
    exact clear (i + 1) (by omega)

end LibShiftRegister
