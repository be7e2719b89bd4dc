import Mathlib.Algebra.BigOperators.Fin
import Mathlib.Algebra.BigOperators.Group.List.Basic
import Mathlib.Algebra.Order.BigOperators.Group.Finset

/-!
Weights over lists and over finitely many piles. A quantity that is shared out among
several holders is followed by the sum of what each of them weighs: replacing one pile
changes the sum by the difference of the two, and no holder weighs more than the sum.
-/
namespace LibWeights
open Function Finset
variable {ι α : Type} [Fintype ι]

variable (φ : α → Int)

def weigh (xs : List α) : Int := (xs.map φ).sum

@[simp] theorem weigh_nil : weigh φ [] = 0 := rfl

@[simp] theorem weigh_cons (x : α) (xs : List α) : weigh φ (x :: xs) = φ x + weigh φ xs := by
  simp [weigh]

theorem weigh_nonneg {φ : α → Int} (nonneg : ∀ x, 0 ≤ φ x) (xs : List α) : 0 ≤ weigh φ xs := by
  induction xs with
  | nil => simp
  | cons x xs ih =>
    have first := nonneg x
    rw [weigh_cons]
    omega

theorem weigh_mem {φ : α → Int} (nonneg : ∀ x, 0 ≤ φ x) {x : α} {xs : List α} (member : x ∈ xs) :
    φ x ≤ weigh φ xs := by
  induction member with
  | head xs =>
    have rest := weigh_nonneg nonneg xs
    rw [weigh_cons]
    omega
  | tail y member ih =>
    have first := nonneg y
    rw [weigh_cons]
    omega

theorem weigh_erase [DecidableEq α] {x : α} {xs : List α} (member : x ∈ xs) :
    weigh φ (xs.erase x) = weigh φ xs - φ x := by
  induction xs with
  | nil => cases member
  | cons y xs ih => ?_
  by_cases same : y = x
  · rw [same, List.erase_cons_head, weigh_cons]
    omega
  · have later : x ∈ xs := List.mem_of_ne_of_mem (Ne.symm same) member
    rw [List.erase_cons_tail (by simpa using same), weigh_cons, weigh_cons, ih later]
    omega

theorem weigh_zero {φ : α → Int} {xs : List α} (none : ∀ x ∈ xs, φ x = 0) : weigh φ xs = 0 := by
  induction xs with
  | nil => rfl
  | cons x xs ih =>
    rw [weigh_cons, none x (by simp), ih (fun y member => none y (by simp [member]))]
    rfl

theorem weigh_sub (φ ψ : α → Int) (xs : List α) :
    weigh (fun x => φ x - ψ x) xs = weigh φ xs - weigh ψ xs := by
  induction xs with
  | nil => rfl
  | cons x xs ih =>
    rw [weigh_cons, weigh_cons, weigh_cons]
    omega

def tally (piles : ι → List α) : Int := ∑ i, weigh φ (piles i)

theorem sum_update {β : Type} [DecidableEq ι] (φ : β → Int) (f : ι → β) (i : ι) (v : β) :
    ∑ j, φ (update f i v j) = ∑ j, φ (f j) - φ (f i) + φ v := by
  have rest : ∀ j ∈ univ.erase i, φ (update f i v j) = φ (f j) := by
    intro j member
    rw [update_of_ne (Finset.ne_of_mem_erase member)]
  rw [← Finset.add_sum_erase _ _ (Finset.mem_univ i),
    ← Finset.add_sum_erase _ (fun j => φ (f j)) (Finset.mem_univ i), Finset.sum_congr rfl rest,
    update_self]
  omega

theorem tally_update [DecidableEq ι] (piles : ι → List α) (i : ι) (xs : List α) :
    tally φ (update piles i xs) = tally φ piles - weigh φ (piles i) + weigh φ xs :=
  sum_update (weigh φ) piles i xs

theorem tally_nonneg {φ : α → Int} (nonneg : ∀ x, 0 ≤ φ x) (piles : ι → List α) :
    0 ≤ tally φ piles :=
  Finset.sum_nonneg fun i _ => weigh_nonneg nonneg (piles i)

theorem weigh_le_tally {φ : α → Int} (nonneg : ∀ x, 0 ≤ φ x) (piles : ι → List α) (i : ι) :
    weigh φ (piles i) ≤ tally φ piles :=
  Finset.single_le_sum (fun j _ => weigh_nonneg nonneg (piles j)) (Finset.mem_univ i)

theorem tally_sub (φ ψ : α → Int) (piles : ι → List α) :
    tally (fun x => φ x - ψ x) piles = tally φ piles - tally ψ piles := by
  simp [tally, weigh_sub]

end LibWeights
