import Mathlib.Logic.Function.Basic
import Mathlib.Logic.Relation

/-!
Nodes with a parent link each. Following the links from a node leads to a root or not; a
link that is changed at one node matters to the nodes whose way goes through it.
-/
namespace LibForest
open Function Relation

section
variable {α : Type} {parent : α → Option α} {root x y n d : α}

/-- The links lead from `x` to `root`. -/
def Leads (parent : α → Option α) (x root : α) : Prop :=
  ReflTransGen (fun a b => parent a = some b) x root

theorem leads_refl (parent : α → Option α) (x : α) : Leads parent x x := ReflTransGen.refl

theorem leads_head (first : parent x = some y) (rest : Leads parent y root) : Leads parent x root :=
  ReflTransGen.head first rest

theorem leads_closed (keep : α → Prop) (closed : ∀ a b, keep a → parent a = some b → keep b)
    (start : keep x) (leads : Leads parent x y) : keep y := by
  induction leads with
  | refl => exact start
  | tail _ step ih => exact closed _ _ ih step

theorem avoids_leaf (leaf : ∀ a, parent a ≠ some n) (other : x ≠ n) : ¬ Leads parent x n := by
  intro leads
  rcases ReflTransGen.cases_tail leads with same | ⟨a,_,last⟩
  · exact other same.symm
  · exact leaf a last

theorem orphan_avoided (loop : parent root = some root) (orphan : parent n = none)
    (leads : Leads parent x root) : ¬ Leads parent x n := by
  induction leads using ReflTransGen.head_induction_on with
  | refl =>
    intro through
    have closed : ∀ a b, a = root → parent a = some b → b = root := by
      rintro a b rfl step
      rw [loop, Option.some.injEq] at step
      exact step.symm
    have same : n = root := leads_closed (fun a => a = root) closed rfl through
    rw [same, loop] at orphan
    cases orphan
  | @head a b step _ ih =>
    intro through
    rcases ReflTransGen.cases_head through with same | ⟨c,other,rest⟩
    · rw [same, orphan] at step
      cases step
    · rw [step, Option.some.injEq] at other
      rw [← other] at rest
      exact ih rest

variable [DecidableEq α]

theorem leads_of_update_none (leads : Leads (update parent n none) x y) : Leads parent x y := by
  induction leads with
  | refl => exact leads_refl _ _
  | @tail a b _ step ih => ?_
  have other : a ≠ n := by
    rintro rfl
    rw [update_self] at step
    cases step
  rw [update_of_ne other] at step
  exact ReflTransGen.tail ih step

theorem leads_update_of_avoid {link : Option α} (avoid : ¬ Leads parent x n)
    (leads : Leads parent x root) : Leads (update parent n link) x root := by
  induction leads using ReflTransGen.head_induction_on with
  | refl => exact leads_refl _ _
  | @head a b step _ ih => ?_
  have other : a ≠ n := by
    rintro rfl
    exact avoid (leads_refl _ _)
  refine leads_head ?_ (ih ?_)
  · rw [update_of_ne other]
    exact step
  · intro through
    exact avoid (leads_head step through)

theorem leads_update_some (avoid : ¬ Leads parent d n) (below : Leads parent d root)
    (leads : Leads parent x root) : Leads (update parent n (some d)) x root := by
  induction leads using ReflTransGen.head_induction_on with
  | refl => exact leads_refl _ _
  | @head a b step _ ih => ?_
  by_cases here : a = n
  · subst here
    exact leads_head (update_self _ _ _) (leads_update_of_avoid avoid below)
  · refine leads_head ?_ ih
    rw [update_of_ne here]
    exact step

end
end LibForest
