import Mathlib.Algebra.Order.BigOperators.Group.Finset

/-!
Sums over an arbitrary type of parties of which only finitely many count. A party
that moves from one point to another changes the sum by the difference of the
weights of the two points.
-/
namespace LibTally
open Function
variable {T P : Type} {f : T → Nat} {n m : Nat}

/-- `f` is zero outside a finite set, and sums to `n`. -/
def Tally (f : T → Nat) (n : Nat) : Prop :=
  ∃ A : Finset T, (∀ t, t ∉ A → f t = 0) ∧ A.sum f = n

theorem tally_zero (zero : ∀ t, f t = 0) : Tally f 0 :=
  ⟨∅, fun t _ => zero t, Finset.sum_empty⟩

theorem tally_le (h : Tally f n) (t : T) : f t ≤ n := by
  obtain ⟨A,outside,rfl⟩ := h
  by_cases member : t ∈ A
  · exact Finset.single_le_sum (fun _ _ => Nat.zero_le _) member
  · rw [outside t member]
    exact Nat.zero_le _

theorem tally_eq_zero (h : Tally f n) (zero : ∀ t, f t = 0) : n = 0 := by
  obtain ⟨A,_,rfl⟩ := h
  exact Finset.sum_eq_zero (fun t _ => zero t)

variable [DecidableEq T]

theorem tally_move {weight : P → Nat} {pc : T → P} (h : Tally (fun t => weight (pc t)) n) (t : T)
    {b : P} (change : n + weight b = m + weight (pc t)) :
    Tally (fun x => weight (update pc t b x)) m := by
  obtain ⟨A,outside,total⟩ := h
  refine ⟨insert t A,?_,?_⟩
  · intro x absent
    rw [Finset.mem_insert, not_or] at absent
    simp only [update_of_ne absent.1]
    exact outside x absent.2
  have old : (insert t A).sum (fun x => weight (pc x)) = n := by
    rw [← total]
    apply Finset.sum_insert_of_eq_zero_if_notMem
    intro absent
    exact outside t absent
  have split := Finset.sum_erase_add (insert t A) (fun x => weight (pc x))
    (Finset.mem_insert_self t A)
  have split' := Finset.sum_erase_add (insert t A)
    (fun x => weight (update pc t b x)) (Finset.mem_insert_self t A)
  have rest : ((insert t A).erase t).sum (fun x => weight (update pc t b x)) =
      ((insert t A).erase t).sum (fun x => weight (pc x)) := by
    apply Finset.sum_congr rfl
    intro x member
    rw [update_of_ne (Finset.ne_of_mem_erase member)]
  rw [update_self] at split'
  omega

end LibTally
