import Mathlib.Data.Nat.ModEq
import Mathlib.Tactic.Ring

/-!
Memory as a function from addresses to bytes, with words of `p` bytes stored
low byte first.
-/
namespace LibMemory
variable {p : Nat} {m n : Nat → Nat}

def load : Nat → (Nat → Nat) → Nat → Nat
  | 0, _, _ => 0
  | p + 1, m, a => m a + 256 * load p m (a + 1)

def store (p : Nat) (m : Nat → Nat) (a v : Nat) : Nat → Nat :=
  fun x => if a ≤ x ∧ x < a + p then v / 256 ^ (x - a) % 256 else m x

def fill (m : Nat → Nat) (a b count : Nat) : Nat → Nat :=
  fun x => if a ≤ x ∧ x < a + count then b else m x

/-- `memcpy` of `count` bytes, from another memory. -/
def copy (m : Nat → Nat) (a : Nat) (source : Nat → Nat) (b count : Nat) : Nat → Nat :=
  fun x => if a ≤ x ∧ x < a + count then source (b + (x - a)) else m x

theorem load_congr {a : Nat} (same : ∀ x, a ≤ x → x < a + p → n x = m x) :
    load p n a = load p m a := by
  induction p generalizing a with
  | zero => rfl
  | succ p ih => ?_
  have head : n a = m a := same a (Nat.le_refl a) (by omega)
  have tail : load p n (a + 1) = load p m (a + 1) := by
    apply ih
    intro x low high
    exact same x (by omega) (by omega)
  rw [load, load, head, tail]

theorem store_outside {a v x : Nat} (outside : x < a ∨ a + p ≤ x) : store p m a v x = m x := by
  unfold store
  rw [if_neg (by omega)]

theorem fill_outside {a b count x : Nat} (outside : x < a ∨ a + count ≤ x) :
    fill m a b count x = m x := by
  unfold fill
  rw [if_neg (by omega)]

theorem load_store_part (k i a v : Nat) (inside : i + k ≤ p) :
    load k (store p m a v) (a + i) = v / 256 ^ i % 256 ^ k := by
  induction k generalizing i with
  | zero => simp [load, Nat.mod_one]
  | succ k ih => ?_
  have byte : store p m a v (a + i) = v / 256 ^ i % 256 := by
    unfold store
    rw [if_pos (by omega), Nat.add_sub_cancel_left]
  have rest : load k (store p m a v) (a + i + 1) = v / 256 ^ i / 256 % 256 ^ k := by
    rw [Nat.add_assoc, ih (i + 1) (by omega), Nat.div_div_eq_div_mul, Nat.pow_succ]
  rw [load, byte, rest, Nat.pow_succ, Nat.mul_comm (256 ^ k), Nat.mod_mul]

theorem load_store {a v : Nat} (fits : v < 2 ^ (8 * p)) : load p (store p m a v) a = v := by
  have whole := load_store_part (m := m) p 0 a v (Nat.le_of_eq (Nat.zero_add p))
  rw [Nat.add_zero, Nat.pow_zero, Nat.div_one] at whole
  rw [whole]
  apply Nat.mod_eq_of_lt
  rwa [Nat.pow_mul] at fits

theorem load_store_apart {a b v : Nat} (apart : a + p ≤ b ∨ b + p ≤ a) :
    load p (store p m a v) b = load p m b := by
  apply load_congr
  intro x low high
  exact store_outside (by omega)

end LibMemory
