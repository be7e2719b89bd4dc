import Mathlib.Algebra.Ring.Nat

/-!
Binary search (libc/stdlib.c). `compar` is the comparison with the key, as a function of the address
of an element; `size_t` has `w` bits.
-/
namespace MutekBsearch
section
variable (w base width : Nat) (compar : Nat → Int)

/-- The address returned, if any, and the addresses passed to `compar`; `none` when the fuel is used
    up. -/
def search : Nat → Nat → Nat → Nat → Option (Option Nat × List Nat)
  | 0, _, _, _ => none
  | fuel + 1, max, min, cur =>
    if cur < max then
      let ptr := base + cur * width
      let cmp := compar ptr
      if cmp = 0 then some (some ptr, [ptr])
      else
        let max' := if cmp ≤ 0 then cur else max
        let min' := if cmp ≤ 0 then min else cur + 1
        let tmp := (max' + min') % 2 ^ w / 2
        if cur = tmp then some (none, [ptr])
        else (search fuel max' min' tmp).map fun (found, passed) => (found, ptr :: passed)
    else some (none, [])

def bsearch (fuel max : Nat) : Option (Option Nat × List Nat) :=
  search w base width compar fuel max 0 ((max + 0) % 2 ^ w / 2)

/-- What `bsearch` should return for an array of `n` elements. -/
structure Found (n : Nat) (r : Option Nat × List Nat) : Prop where
  passed : ∀ ptr ∈ r.2, ∃ i, i < n ∧ ptr = base + i * width
  equal : ∀ ptr, r.1 = some ptr → ∃ i, i < n ∧ ptr = base + i * width ∧ compar ptr = 0
  missed : r.1 = none → ∀ i, i < n → compar (base + i * width) ≠ 0

end

section
variable {w base width : Nat} {compar : Nat → Int} {n : Nat} (small : 2 * n < 2 ^ w)
  (less : ∀ i j, i < n → j < n → compar (base + i * width) = 0 →
    0 < compar (base + j * width) → j < i)
  (greater : ∀ i j, i < n → j < n → compar (base + i * width) = 0 →
    compar (base + j * width) < 0 → i < j)
include small less greater

/-- An element that compares equal is in the range from `min` to `max` in every turn. -/
theorem search_found (fuel max min : Nat) (enough : max - min < fuel) (ordered : min ≤ max)
    (bound : max ≤ n) (inside : ∀ i, i < n → compar (base + i * width) = 0 → min ≤ i ∧ i < max) :
    ∃ r, search w base width compar fuel max min ((max + min) % 2 ^ w / 2) = some r ∧
      Found base width compar n r := by
  induction fuel generalizing max min with
  | zero => omega
  | succ fuel ih => ?_
  rw [Nat.mod_eq_of_lt (by omega)]
  unfold search
  by_cases more : (max + min) / 2 < max
  · generalize middle : (max + min) / 2 = cur at more
    have below : cur < n := by omega
    have passes : ∀ ptr ∈ [base + cur * width], ∃ i, i < n ∧ ptr = base + i * width :=
      fun ptr is => ⟨cur,below,List.mem_singleton.mp is⟩
    simp only [if_pos more]
    by_cases same : compar (base + cur * width) = 0
    · refine ⟨_,if_pos same,passes,?_,by simp⟩
      rintro ptr ⟨⟩
      exact ⟨cur,below,rfl,same⟩
    simp only [if_neg same]
    generalize narrowed : (if compar (base + cur * width) ≤ 0 then cur else max) = max'
    generalize risen : (if compar (base + cur * width) ≤ 0 then min else cur + 1) = min'
    have range : min' ≤ max' ∧ max' - min' < max - min ∧ max' ≤ n ∧ (max' = cur ∨ cur < min') ∧
        ∀ i, i < n → compar (base + i * width) = 0 → min' ≤ i ∧ i < max' := by
      by_cases lower : compar (base + cur * width) ≤ 0
      · rw [if_pos lower] at narrowed risen
        refine ⟨by omega,by omega,by omega,by omega,fun i small equal => ?_⟩
        have := inside i small equal
        have := greater i cur small below equal
        omega
      · rw [if_neg lower] at narrowed risen
        refine ⟨by omega,by omega,by omega,by omega,fun i small equal => ?_⟩
        have := inside i small equal
        have := less i cur small below equal
        omega
    obtain ⟨ordered',shorter,bound',beside,inside'⟩ := range
    by_cases repeated : cur = (max' + min') % 2 ^ w / 2
    · refine ⟨_,if_pos repeated,passes,by simp,fun _ i small equal => ?_⟩
      have := inside' i small equal
      rw [Nat.mod_eq_of_lt (by omega)] at repeated
      omega
    · obtain ⟨r,returned,found⟩ := ih max' min' (by omega) ordered' bound' inside'
      refine ⟨(r.1, _ :: r.2),by rw [if_neg repeated, returned]; rfl,?_,found.equal,found.missed⟩
      exact List.forall_mem_cons.mpr ⟨passes _ (.head _),found.passed⟩
  · refine ⟨_,if_neg more,by simp,by simp,fun _ i small equal => ?_⟩
    have := inside i small equal
    omega

/-- The search ends and is right for fewer than half as many elements as there are values of
    `size_t`. -/
theorem bsearch_finds (fuel : Nat) (enough : n < fuel) :
    ∃ r, bsearch w base width compar fuel n = some r ∧ Found base width compar n r :=
  search_found small less greater fuel n 0 enough (Nat.zero_le n) (Nat.le_refl n)
    fun i below _ => ⟨Nat.zero_le i,below⟩

end

theorem bsearch_finds_three :
    ∃ r, bsearch 32 100 4 (fun ptr => 104 - ptr) 4 3 = some r ∧
      Found 100 4 (fun ptr => 104 - ptr) 3 r :=
  bsearch_finds (by decide) (by omega) (by omega) 4 (by decide)

/-- With half as many elements the sum of the bounds becomes 0, and the search for a greater key
    begins anew. -/
theorem bsearch_restarts : ¬∃ fuel, (bsearch 32 0 1 (fun _ => 1) fuel (2 ^ 31)).isSome := by
  have again : ∀ fuel min cur, cur < 2 ^ 31 →
      search 32 0 1 (fun _ => 1) fuel (2 ^ 31) min cur = none := by
    intro fuel
    induction fuel with
    | zero =>
      intro min cur below
      rfl
    | succ fuel ih => ?_
    intro min cur below
    have moves : cur ≠ (2 ^ 31 + (cur + 1)) % 2 ^ 32 / 2 := by omega
    have lower : ¬(1 : Int) ≤ 0 := by decide
    simp only [search, if_pos below, Int.one_ne_zero, if_neg lower, if_neg moves, if_false]
    rw [ih _ _ (by omega)]
    rfl
  rintro ⟨fuel,ends⟩
  rw [bsearch, again fuel 0 _ (by decide)] at ends
  cases ends

end MutekBsearch
