import MutekH.PageAlloc
import Mathlib.Data.List.Nodup
import Mathlib.Data.List.Perm.Subperm

/-!
The invariant of the page allocator. Taking pages off the front of the free
list is sound; the unlinking loop is not when it has to step over a page,
because it then writes the page's word back without the free bit.
-/
namespace MutekPageAllocInvariant
open Function Option List LibMachine LibAlign MutekPageAlloc

/- Table words. -/

theorem isfree_iff (x : Nat) : vmem_ppage_isfree x ↔ x / 2 ^ 31 % 2 = 1 := by
  have bit : x &&& 0x80000000 = (x.testBit 31).toNat * 2 ^ 31 := Nat.and_two_pow x 31
  rw [vmem_ppage_isfree, bit, Nat.testBit_eq_decide_div_mod_eq]
  simp

theorem value_eq (x : Nat) : vmem_ppage_value x = x % 2 ^ 31 :=
  Nat.and_two_pow_sub_one_eq_mod x 31

theorem value_lt (x : Nat) : vmem_ppage_value x < 2 ^ 31 := by
  rw [value_eq]
  exact Nat.mod_lt _ (by decide)

theorem value_of_lt (h : x < 2 ^ 31) : vmem_ppage_value x = x := by
  rw [value_eq, Nat.mod_eq_of_lt h]

theorem not_isfree_of_lt (h : x < 2 ^ 31) : ¬ vmem_ppage_isfree x := by
  rw [isfree_iff, Nat.div_eq_of_lt h]
  decide

theorem set_free_eq (h : v < 2 ^ 31) : vmem_ppage_set 1 v = 2 ^ 31 + v := by
  have joined : (1 <<< 31) ||| v = 2 ^ 31 + v := (Nat.two_pow_add_eq_or_of_lt h 1).symm
  rw [vmem_ppage_set, joined, u32, Nat.mod_eq_of_lt (by omega)]

theorem isfree_set (h : v < 2 ^ 31) : vmem_ppage_isfree (vmem_ppage_set 1 v) := by
  rw [set_free_eq h, isfree_iff]
  omega

theorem value_set (h : v < 2 ^ 31) : vmem_ppage_value (vmem_ppage_set 1 v) = v := by
  rw [set_free_eq h, value_eq]
  omega

@[simp] theorem set_used : vmem_ppage_set 0 1 = 1 := rfl

/- Following links. -/

theorem follow_length (table : Nat → Nat) (steps : Nat) :
    ∀ page, (follow table page steps).length = steps := by
  induction steps with
  | zero => intro page; rfl
  | succ steps ih => intro page; simp [follow, ih]

theorem follow_update (steps : Nat) : ∀ page, p ∉ follow table page steps →
      follow (update table p v) page steps = follow table page steps := by
  induction steps with
  | zero => intro page _; rfl
  | succ steps ih =>
    intro page away
    simp only [follow, mem_cons, not_or] at away
    rw [follow, follow, update_of_ne (Ne.symm away.1), ih _ away.2]

variable {first last size : Nat}

attribute [local simp] setWord

/-- With the pages it wants in front, the unlinking loop takes them off one by
    one and touches no other word. -/
theorem unlink_front (k : Nat) :
    ∀ fuel c m (r : Region), c + k = size → k ≤ fuel → k ≤ m → r.free_head < 2 ^ 31 →
      (follow r.table r.free_head m).Nodup →
      (∀ p ∈ (follow r.table r.free_head m).take k, first ≤ p ∧ p < last) →
      ∃ head table, unlink first last size fuel none c r =
          some { r with free_head := head, table := table } ∧ head < 2 ^ 31 ∧
        follow table head (m - k) = (follow r.table r.free_head m).drop k ∧
        ∀ p, table p = if p ∈ (follow r.table r.free_head m).take k then 1 else r.table p := by
  induction k with
  | zero =>
    intro fuel c m r done _ _ small _ _
    have stop : ¬ c < size := by omega
    have returns : unlink first last size fuel none c r = some r := by
      cases fuel <;> simp [unlink, stop]
    exact ⟨r.free_head,r.table,returns,small,by simp,by simp⟩
  | succ k ih =>
    intro fuel c m r done enough le small nodup hit
    obtain ⟨fuel,rfl⟩ := Nat.exists_eq_add_of_lt (Nat.lt_of_lt_of_le (Nat.succ_pos k) enough)
    obtain ⟨m,rfl⟩ := Nat.exists_eq_add_of_lt (Nat.lt_of_lt_of_le (Nat.succ_pos k) le)
    simp only [Nat.zero_add] at *
    rw [follow] at nodup hit
    obtain ⟨away,nodup⟩ := nodup_cons.mp nodup
    have inside : first ≤ r.free_head ∧ r.free_head < last := hit _ (by simp)
    have frame := follow_update (v := 1) m _ away
    have more : c < size := by omega
    obtain ⟨head,table,returns,small',rest,words⟩ :=
      ih fuel (c + 1) m
        (setWord (writeLink r (vmem_ppage_value (r.table r.free_head)) none) r.free_head 1)
        (by omega) (by omega) (by omega) (value_lt _) (by simpa [writeLink, frame] using nodup)
        (by
          intro p member
          simp only [setWord, writeLink, frame] at member
          exact hit p (by simp [member]))
    simp only [setWord, writeLink, frame] at returns rest words
    refine ⟨head,table,?_,small',?_,?_⟩
    · simpa [unlink, more, readLink, value_of_lt small, inside, writeLink] using returns
    · simpa [follow] using rest
    · intro p
      rw [words p, follow]
      by_cases same : p = r.free_head
      · simp [same]
      · simp [same]

/-- What taking one page off keeps, the unlinking loop keeps. -/
theorem unlink_keeps {P : Region → Prop}
    (taken : ∀ r n i, P r → P
      (setWord (writeLink r (vmem_ppage_value (r.table i)) n) i (vmem_ppage_set 0 1)))
    (fuel : Nat) :
    ∀ n c (r r' : Region), unlink first last size fuel n c r = some r' → P r → P r' := by
  induction fuel with intro n c r r' returns before
  | zero =>
    simp only [unlink] at returns
    split at returns
    · contradiction
    · cases returns
      exact before
  | succ fuel ih =>
    simp only [unlink] at returns
    split at returns
    · split at returns
      · exact ih _ _ _ _ returns (taken r n _ before)
      · exact ih _ _ _ _ returns before
    · cases returns
      exact before

theorem clear_keeps (r : Region) (n : Option Nat) (i : Nat)
    (used : ¬ vmem_ppage_isfree (r.table p)) :
    ¬ vmem_ppage_isfree
      ((setWord (writeLink r (vmem_ppage_value (r.table i)) n) i
        (vmem_ppage_set 0 1)).table p) := by
  have one : ¬ vmem_ppage_isfree 1 := by decide
  have link : ¬ vmem_ppage_isfree (vmem_ppage_value (r.table i)) := not_isfree_of_lt (value_lt _)
  cases n with simp only [setWord, writeLink, update_apply]
  | none =>
    split
    · exact one
    · exact used
  | some q =>
    split
    · exact one
    · split
      · exact link
      · exact used

/-- Past a page it steps over, the loop writes back a link without the free bit. -/
theorem unlink_past (steps : Nat) :
    ∀ fuel q c (r r' : Region), c < size → ¬ (first ≤ q ∧ q < last) →
      (∃ p ∈ follow r.table (vmem_ppage_value (r.table q)) steps, first ≤ p ∧ p < last) →
      unlink first last size fuel (some q) c r = some r' →
      ∃ p, (p = q ∨ p ∈ follow r.table (vmem_ppage_value (r.table q)) steps) ∧
        ¬ (first ≤ p ∧ p < last) ∧ ¬ vmem_ppage_isfree (r'.table p) := by
  induction steps with
  | zero =>
    intro fuel q c r r' _ _ wanted _
    simp [follow] at wanted
  | succ steps ih => ?_
  intro fuel q c r r' more outside wanted returns
  cases fuel with
  | zero => simp [unlink, more] at returns
  | succ fuel => ?_
  simp only [unlink, more, readLink] at returns
  by_cases hit : first ≤ vmem_ppage_value (r.table q) ∧ vmem_ppage_value (r.table q) < last
  · simp only [hit] at returns
    have other : q ≠ vmem_ppage_value (r.table q) := by
      intro same
      exact outside (same ▸ hit)
    refine ⟨q,.inl rfl,outside,unlink_keeps clear_keeps _ _ _ _ _ returns ?_⟩
    simp only [setWord, writeLink, update_of_ne other, update_self]
    exact not_isfree_of_lt (value_lt _)
  · simp only [hit] at returns
    simp only [follow, mem_cons, exists_eq_or_imp, hit, false_or] at wanted
    obtain ⟨p,member,outside',cleared⟩ := ih _ _ _ _ _ more hit wanted returns
    refine ⟨p,.inr ?_,outside',cleared⟩
    simpa [follow] using member

theorem unlink_not_front (k : Nat) :
    ∀ fuel c m (r r' : Region), c + k = size → r.free_head < 2 ^ 31 →
      (follow r.table r.free_head m).Nodup →
      k ≤ (follow r.table r.free_head m).countP (fun p => first ≤ p ∧ p < last) →
      (∃ p ∈ (follow r.table r.free_head m).take k, ¬ (first ≤ p ∧ p < last)) →
      unlink first last size fuel none c r = some r' →
      ∃ p ∈ follow r.table r.free_head m,
        ¬ (first ≤ p ∧ p < last) ∧ ¬ vmem_ppage_isfree (r'.table p) := by
  induction k with
  | zero =>
    intro fuel c m r r' _ _ _ _ odd _
    simp at odd
  | succ k ih => ?_
  intro fuel c m r r' done small nodup wanted odd returns
  have more : c < size := by omega
  cases m with
  | zero => simp [follow] at wanted
  | succ m => ?_
  cases fuel with
  | zero => simp [unlink, more] at returns
  | succ fuel => ?_
  rw [follow] at nodup wanted odd ⊢
  obtain ⟨away,nodup⟩ := nodup_cons.mp nodup
  simp only [unlink, more, ↓reduceIte, readLink, value_of_lt small] at returns
  by_cases hit : first ≤ r.free_head ∧ r.free_head < last
  · simp only [hit, and_self, ↓reduceIte, set_used] at returns
    have frame := follow_update (v := 1) m _ away
    obtain ⟨p,member,outside,cleared⟩ := ih fuel (c + 1) m _ r' (by omega) (value_lt _)
      (by simpa [writeLink, frame] using nodup)
      (by simpa [writeLink, frame, hit] using wanted)
      (by simpa only [setWord, writeLink, frame, take_succ_cons, mem_cons,
        exists_eq_or_imp, hit, and_self, not_true_eq_false, false_or] using odd) returns
    simp only [setWord, writeLink, frame] at member
    exact ⟨p,.tail _ member,outside,cleared⟩
  · simp only [hit, ↓reduceIte] at returns
    have later : ∃ p ∈ follow r.table (vmem_ppage_value (r.table r.free_head)) m,
        first ≤ p ∧ p < last := by
      rw [countP_cons_of_neg (by simpa using hit)] at wanted
      have positive := Nat.lt_of_lt_of_le (Nat.succ_pos k) wanted
      simpa using countP_pos_iff.mp positive
    obtain ⟨p,member,outside,cleared⟩ := unlink_past m _ _ _ _ _ more hit later returns
    exact ⟨p,mem_cons.mpr member,outside,cleared⟩

/- The search for a window. -/

theorem search_more (more fuel : Nat) : ∀ first i, search r size fuel first i = some found →
      search r size (fuel + more) first i = some found := by
  induction fuel with intro first i returns
  | zero =>
    simp only [search] at returns
    split at returns
    · contradiction
    · rename_i stop
      cases more <;> simpa [search, stop] using returns
  | succ fuel ih =>
    rw [Nat.add_right_comm]
    simp only [search] at returns ⊢
    split_ifs at returns ⊢
    · exact ih _ _ returns
    · exact returns
    · exact ih _ _ returns
    · exact returns

theorem unlink_more (more fuel : Nat) : ∀ n c r, unlink first last size fuel n c r = some r' →
      unlink first last size (fuel + more) n c r = some r' := by
  induction fuel with intro n c r returns
  | zero =>
    simp only [unlink] at returns
    split at returns
    · contradiction
    · rename_i stop
      cases more <;> simpa [unlink, stop] using returns
  | succ fuel ih =>
    rw [Nat.add_right_comm]
    simp only [unlink] at returns ⊢
    split_ifs at returns ⊢
    · exact ih _ _ _ returns
    · exact ih _ _ _ returns
    · exact returns

theorem picked_unique (hf : Picked r size f) (hg : Picked r size g) : f = g := by
  obtain ⟨_,free,lower⟩ := hf
  obtain ⟨_,free',lower'⟩ := hg
  by_contra distinct
  rcases Nat.lt_or_gt_of_ne distinct with less | less
  · obtain ⟨k,within,used⟩ := lower' f less
    exact used (free k within)
  · obtain ⟨k,within,used⟩ := lower g less
    exact used (free' k within)

theorem search_done (fuel : Nat) (whole : i = first + size) (bound : first + size ≤ r.count + 1)
    (free : ∀ j, first ≤ j → j < i → vmem_ppage_isfree (r.table j))
    (lower : ∀ f, f < first → ∃ k, k < size ∧ ¬ vmem_ppage_isfree (r.table (f + k))) :
    search r size fuel first i = some (some first) ∧ Picked r size first := by
  have stop : ¬ i < first + size := by omega
  refine ⟨by cases fuel <;> simp [search, stop],bound,?_,lower⟩
  intro k within
  exact free _ (by omega) (by omega)

theorem search_spec (fuel : Nat) :
    ∀ first i, first ≤ i → i ≤ first + size → first + size ≤ r.count + 1 → r.count + 1 ≤ i + fuel →
      (∀ j, first ≤ j → j < i → vmem_ppage_isfree (r.table j)) →
      (∀ f, f < first → ∃ k, k < size ∧ ¬ vmem_ppage_isfree (r.table (f + k))) →
      ∃ found, search r size fuel first i = some found ∧ ∀ f, found = some f ↔ Picked r size f := by
  induction fuel with intro first i start within bound enough free lower
  | zero =>
    obtain ⟨returns,picked⟩ := search_done 0 (by omega) bound free lower
    refine ⟨_,returns,?_⟩
    intro f
    rw [some.injEq]
    exact ⟨fun same => same ▸ picked,picked_unique picked⟩
  | succ fuel ih =>
    by_cases inner : i < first + size
    · by_cases here : vmem_ppage_isfree (r.table i)
      · have step : search r size (fuel + 1) first i = search r size fuel first (i + 1) := by
          simp [search, inner, here]
        rw [step]
        apply ih first (i + 1) (by omega) (by omega) bound (by omega) _ lower
        intro j low high
        by_cases last : j = i
        · exact last ▸ here
        · exact free j low (by omega)
      -- Every window that starts at or below `i` and was not ruled out contains `i`.
      have lower' : ∀ f, f < i + 1 → ∃ k, k < size ∧ ¬ vmem_ppage_isfree (r.table (f + k)) := by
        intro f low
        by_cases old : f < first
        · exact lower f old
        · refine ⟨i - f,by omega,?_⟩
          rwa [Nat.add_sub_cancel' (by omega)]
      by_cases exceeds : r.count < i + size
      · refine ⟨none,by simp [search, inner, here, exceeds],?_⟩
        intro f
        simp only [reduceCtorEq, false_iff]
        intro ⟨fits,all,_⟩
        obtain ⟨k,within,used⟩ := lower' f (by omega)
        exact used (all k within)
      have step : search r size (fuel + 1) first i = search r size fuel (i + 1) (i + 1) := by
        simp [search, inner, here, exceeds]
      rw [step]
      apply ih (i + 1) (i + 1) le_rfl (by omega) (by omega) (by omega) _ lower'
      intro j low high
      omega
    · obtain ⟨returns,picked⟩ := search_done (fuel + 1) (by omega) bound free lower
      refine ⟨_,returns,?_⟩
      intro f
      rw [some.injEq]
      exact ⟨fun same => same ▸ picked,picked_unique picked⟩

structure Shape (w paddr size count : Nat) : Prop where
  aligned : MMU_PAGESIZE ∣ paddr
  sized : size = count * MMU_PAGESIZE
  small : size < 2 ^ 32
  top : paddr + size < 2 ^ w

/-- What every step in the domain keeps: the property itself and that no page on
    the free list has a reference. -/
structure Inv (w : Nat) (s : System) : Prop where
  kept : Kept s
  idle : ∀ p ∈ visits s.region, s.refs p = 0
  few : ∀ p, s.refs p < 2 ^ 31
  head : s.region.free_head < 2 ^ 31
  shape : Shape w s.region.paddr s.region.size s.region.count

theorem inv_of_visits {w : Nat} {s : System} (pages : List Nat) (seen : visits s.region = pages)
    (shape : Shape w s.region.paddr s.region.size s.region.count)
    (head : s.region.free_head < 2 ^ 31) (inside : ∀ p ∈ pages, p < s.region.count)
    (once : pages.Nodup) (marked : ∀ p ∈ pages, vmem_ppage_isfree (s.region.table p) ∧ s.refs p = 0)
    (counted : ∀ p, p < s.region.count → p ∉ pages → s.region.table p = s.refs p ∧ 1 ≤ s.refs p)
    (few : ∀ p, s.refs p < 2 ^ 31) :
    Inv w s := by
  subst seen
  refine ⟨⟨inside,once,?_,counted⟩,fun p member => (marked p member).2,few,head,shape⟩
  intro p within
  refine ⟨fun member => (marked p member).1,?_⟩
  intro free
  by_contra away
  rw [(counted p within away).1] at free
  exact not_isfree_of_lt (few p) free

attribute [local simp] ppage_contiguous_alloc operate ppage_alloc Unreferenced countRefs

theorem visits_length (r : Region) : (visits r).length = r.free_count := follow_length _ _ _

section
variable {w : Nat} {s : System}

theorem free_count_le (inv : Inv w s) : s.region.free_count ≤ s.region.count := by
  have within : visits s.region ⊆ List.range s.region.count := by
    intro p member
    exact mem_range.mpr (inv.kept.inside p member)
  have le := (subperm_of_subset inv.kept.once within).length_le
  rwa [visits_length, length_range] at le

theorem count_small (inv : Inv w s) : s.region.count < 2 ^ 31 := by
  obtain ⟨_,sized,small,_⟩ := inv.shape
  unfold MMU_PAGESIZE at *
  omega

variable {paddr : Nat}

theorem pageOf_eq (inv : Inv w s) (low : s.region.paddr ≤ paddr)
    (high : paddr ≤ s.region.paddr + s.region.size) :
    pageOf w s.region paddr = (paddr - s.region.paddr) / MMU_PAGESIZE := by
  have top := inv.shape.top
  have small := inv.shape.small
  have shift : paddr + (2 ^ w - s.region.paddr) = paddr - s.region.paddr + 2 ^ w := by omega
  have offset : (paddr + (2 ^ w - s.region.paddr)) % 2 ^ w = paddr - s.region.paddr := by
    rw [shift, Nat.add_mod_right, Nat.mod_eq_of_lt (by omega)]
  have page : (paddr - s.region.paddr) / MMU_PAGESIZE ≤ paddr - s.region.paddr :=
    Nat.div_le_self _ _
  rw [pageOf, offset, u32, Nat.mod_eq_of_lt (by omega)]

theorem pageOf_addressOf (inv : Inv w s) (h : p ≤ s.region.count) :
    pageOf w s.region (addressOf w s.region p) = p := by
  have top := inv.shape.top
  have small := inv.shape.small
  have sized := inv.shape.sized
  have offset : p * MMU_PAGESIZE ≤ s.region.size := by
    rw [sized]
    exact Nat.mul_le_mul_right _ h
  have address : addressOf w s.region p = s.region.paddr + p * MMU_PAGESIZE := by
    rw [addressOf, u32, Nat.mod_eq_of_lt (by omega : p * MMU_PAGESIZE < 2 ^ 32),
      Nat.mod_eq_of_lt (by omega)]
  rw [address, pageOf_eq inv (by omega) (by omega), Nat.add_sub_cancel_left,
    Nat.mul_div_cancel _ (by decide)]

theorem pageOf_lt (inv : Inv w s) (h : ppage_inrange s.region paddr) :
    pageOf w s.region paddr < s.region.count := by
  obtain ⟨low,high⟩ := h
  have sized := inv.shape.sized
  rw [pageOf_eq inv low high.le, Nat.div_lt_iff_lt_mul (by decide)]
  omega

variable {paddr_end : Nat}

theorem range_pages (wide : 32 ≤ w) (inv : Inv w s)
    (high : paddr_end < 2 ^ w) (asserted : alignValueUp w paddr < alignValueLow w paddr_end)
    (inside : s.region.paddr ≤ alignValueUp w paddr ∧
      alignValueLow w paddr_end ≤ s.region.paddr + s.region.size) :
    ∃ p n, alignValueUp w paddr = s.region.paddr + p * MMU_PAGESIZE ∧
      alignValueLow w paddr_end = s.region.paddr + (p + n) * MMU_PAGESIZE ∧
      p + n ≤ s.region.count ∧ pageOf w s.region (alignValueUp w paddr) = p ∧
      (alignValueLow w paddr_end - alignValueUp w paddr) / MMU_PAGESIZE = n ∧
      (alignValueUp w paddr - s.region.paddr) / MMU_PAGESIZE = p := by
  have up : MMU_PAGESIZE ∣ alignValueUp w paddr := dvd_alignUp paddr (by omega)
  have low : MMU_PAGESIZE ∣ alignValueLow w paddr_end := by
    rw [alignValueLow, alignLow_eq (by omega) high]
    exact Nat.dvd_mul_right _ _
  obtain ⟨start,aligned⟩ := inv.shape.aligned
  obtain ⟨a,up⟩ := up
  obtain ⟨b,low⟩ := low
  have sized := inv.shape.sized
  have page := pageOf_eq inv inside.1 (asserted.le.trans inside.2)
  unfold MMU_PAGESIZE at *
  refine ⟨a - start,b - a,?_,?_,?_,?_,?_,?_⟩ <;> omega

variable {size first : Nat}

theorem atHead_mem (once : (visits r).Nodup)
    (enough : size ≤ r.free_count) (front : AtHead r size first) (p : Nat) :
    p ∈ (visits r).take size ↔ first ≤ p ∧ p < first + size := by
  have length : ((visits r).take size).length = size := by
    rw [length_take, visits_length]
    omega
  have within : (visits r).take size ⊆ List.range' first size := by
    intro p member
    exact mem_range'_1.mpr (front p member)
  have subperm := subperm_of_subset (once.sublist (take_sublist _ _)) within
  have perm := subperm.perm_of_length_le (by simp [length])
  rw [perm.mem_iff, mem_range'_1]

theorem taken_inv (inv : Inv w s) {front rest : List Nat} {head : Nat} {table : Nat → Nat}
    (split : visits s.region = front ++ rest) (small : head < 2 ^ 31)
    (left : follow table head rest.length = rest)
    (words : ∀ p, table p = if p ∈ front then 1 else s.region.table p) :
    Inv w ⟨{ s.region with free_head := head, table := table, free_count := rest.length },
      fun p => if p ∈ front then 1 else s.refs p⟩ := by
  have once := inv.kept.once
  rw [split] at once
  obtain ⟨_,nodup,distinct⟩ := nodup_append.mp once
  have apart : ∀ p ∈ rest, p ∉ front := fun p member hit => distinct p hit p member rfl
  have stays : ∀ p ∈ rest, p ∈ visits s.region := by
    intro p member
    rw [split]
    exact mem_append_right front member
  refine inv_of_visits rest left inv.shape small ?_ nodup ?_ ?_ ?_
  · intro p member
    exact inv.kept.inside p (stays p member)
  · intro p member
    have within := inv.kept.inside p (stays p member)
    simp only [words p, apart p member]
    exact ⟨(inv.kept.free p within).mp (stays p member),inv.idle p (stays p member)⟩
  · intro p within away
    simp only [words p]
    by_cases hit : p ∈ front
    · simp [hit]
    · simp only [hit]
      apply inv.kept.counted p within
      rw [split, mem_append]
      exact not_or.mpr ⟨hit,away⟩
  · intro p
    by_cases hit : p ∈ front
    · simp [hit]
    · simpa [hit] using inv.few p

theorem window_taken (inv : Inv w s) (fuel : Nat) (enough : size ≤ s.region.free_count)
    (front : AtHead s.region size first) (fueled : size ≤ fuel) :
    ∃ r', unlink first (first + size) size fuel none 0 s.region = some r' ∧
      r'.free_count = s.region.free_count ∧
      Inv w ⟨{ r' with free_count := s.region.free_count - size },
        fun p => if p ∈ List.range' first size then 1 else s.refs p⟩ := by
  obtain ⟨head,table,returns,small,rest,words⟩ := unlink_front size fuel 0
    s.region.free_count s.region (Nat.zero_add size) fueled enough inv.head inv.kept.once front
  have pages : ∀ p, p ∈ (visits s.region).take size ↔ p ∈ List.range' first size :=
    fun p => (atHead_mem inv.kept.once enough front p).trans mem_range'_1.symm
  have length : ((visits s.region).drop size).length = s.region.free_count - size := by
    rw [length_drop, visits_length]
  have taken := taken_inv inv (take_append_drop size (visits s.region)).symm small
    (by rw [length]; exact rest) words
  simp only [length, pages] at taken
  exact ⟨_,returns,rfl,taken⟩

theorem follow_fresh {table : Nat → Nat} {count : Nat}
    (linked : ∀ i, i + 1 < count → vmem_ppage_value (table i) = i + 1) (steps : Nat) :
    ∀ page, page + steps = count → follow table page steps = List.range' page steps := by
  induction steps with
  | zero => intro page _; rfl
  | succ steps ih => ?_
  intro page total
  rw [follow, range'_succ]
  cases steps with
  | zero => rfl
  | succ steps => rw [linked page (by omega), ih (page + 1) (by omega)]

theorem boot_inv (wide : 32 ≤ w) (boot : Boot w paddr paddr_end s)
    (small : alignValueLow w paddr_end - alignValueUp w paddr < 2 ^ 32) : Inv w s := by
  obtain ⟨⟨_,high⟩,asserted,⟨mem,made⟩,none⟩ := boot
  have up : MMU_PAGESIZE ∣ alignValueUp w paddr := dvd_alignUp paddr (by omega)
  have low : alignValueLow w paddr_end = MMU_PAGESIZE * (paddr_end / MMU_PAGESIZE) :=
    alignLow_eq (by omega) high
  cases mem with
  | none => simp [ppage_region_init] at made
  | some words => ?_
  simp only [ppage_region_init, u32, Nat.mod_eq_of_lt small, Except.ok.injEq] at made
  have extent : alignValueLow w paddr_end - alignValueUp w paddr =
      (alignValueLow w paddr_end - alignValueUp w paddr) / MMU_PAGESIZE * MMU_PAGESIZE := by
    unfold MMU_PAGESIZE at *
    omega
  generalize count_eq : (alignValueLow w paddr_end - alignValueUp w paddr) / MMU_PAGESIZE = count
    at made extent
  have positive : 0 < count := by
    unfold MMU_PAGESIZE at *
    omega
  have few : count < 2 ^ 31 := by
    unfold MMU_PAGESIZE at *
    omega
  have last : (count + (2 ^ 32 - 1)) % 2 ^ 32 = count - 1 := by omega
  rw [last] at made
  have free : ∀ p, p < count → vmem_ppage_isfree (s.region.table p) := by
    intro p within
    rw [← made]
    simp only [update_apply]
    split
    · exact isfree_set (by decide)
    · exact isfree_set (by omega)
  have linked : ∀ i, i + 1 < count → vmem_ppage_value (s.region.table i) = i + 1 := by
    intro i within
    rw [← made]
    have other : i ≠ count - 1 := by omega
    simp only [update_of_ne other, (by omega : i < count)]
    exact value_set (by omega)
  have fields : s.region.count = count ∧ s.region.free_count = count ∧
      s.region.free_head = 0 ∧ s.region.size = count * MMU_PAGESIZE ∧
      s.region.paddr = alignValueUp w paddr := by
    rw [← made]
    exact ⟨rfl,rfl,rfl,extent,rfl⟩
  obtain ⟨count_eq',free_count,head,size,start⟩ := fields
  have seen : visits s.region = List.range' 0 count := by
    rw [visits, head, free_count]
    exact follow_fresh linked count 0 (Nat.zero_add count)
  have shape : Shape w s.region.paddr s.region.size s.region.count := by
    rw [start, size, count_eq']
    refine ⟨up,rfl,by omega,?_⟩
    have below : MMU_PAGESIZE * (paddr_end / MMU_PAGESIZE) ≤ paddr_end := Nat.mul_div_le _ _
    omega
  refine inv_of_visits _ seen shape (by omega) ?_ (nodup_range') ?_ ?_ ?_
  · intro p member
    rw [count_eq']
    simpa using member
  · intro p member
    exact ⟨free p (by simpa using member),none p⟩
  · intro p within away
    rw [count_eq'] at within
    exact absurd (by simpa using within) away
  · intro p
    rw [none p]
    decide

section
variable (inv : Inv w s)
include inv

theorem alloc_keeps (free : s.region.locked = false) :
    Unreferenced w s .alloc ∧ (operate w s.region .alloc).isSome ∧
      Inv w ((machine w).next s .alloc) := by
  by_cases some_left : 0 < s.region.free_count
  · obtain ⟨left,count⟩ := Nat.exists_eq_add_of_lt some_left
    rw [Nat.zero_add] at count
    have seen : visits s.region = [s.region.free_head] ++
        follow s.region.table (vmem_ppage_value (s.region.table s.region.free_head)) left := by
      rw [visits, count]
      rfl
    have member : s.region.free_head ∈ visits s.region := by simp [seen]
    have page := pageOf_addressOf inv (inv.kept.inside _ member).le
    have pages : granted w s.region .alloc = [s.region.free_head] := by
      simp [granted, free, some_left, page]
    have once := inv.kept.once
    rw [seen] at once
    have frame := follow_update (v := 1) left _ (nodup_cons.mp once).1
    refine ⟨?_,by simp [free, some_left],?_⟩
    · intro p granted_p
      rw [pages, mem_singleton] at granted_p
      exact granted_p ▸ inv.idle _ member
    have words : ∀ p, update s.region.table s.region.free_head 1 p =
        if p ∈ [s.region.free_head] then 1 else s.region.table p := by
      intro p
      simp [update_apply]
    have taken := taken_inv inv seen (value_lt _) (by rw [follow_length]; exact frame) words
    simpa [machine, free, pages, follow_length, count] using taken
  · have nothing : granted w s.region .alloc = [] := by
      simp [granted, some_left]
    refine ⟨by simp [nothing],by simp [free, some_left],?_⟩
    simpa [machine, free, some_left, nothing] using inv

theorem used_of_refs (within : p < s.region.count) (held : 1 ≤ s.refs p) :
    p ∉ visits s.region ∧ s.region.table p = s.refs p := by
  have away : p ∉ visits s.region := by
    intro member
    have none := inv.idle p member
    omega
  exact ⟨away,(inv.kept.counted p within away).1⟩

theorem recount_inv (away : p ∉ visits s.region) (held : 1 ≤ refs) (few : refs < 2 ^ 31) :
    Inv w ⟨setWord s.region p refs, update s.refs p refs⟩ := by
  have other : ∀ q ∈ visits s.region, q ≠ p := by
    intro q member same
    exact away (same ▸ member)
  refine inv_of_visits (visits s.region) (follow_update _ _ away) inv.shape inv.head
    inv.kept.inside inv.kept.once ?_ ?_ ?_
  · intro q member
    simp only [setWord, update_of_ne (other q member)]
    exact ⟨(inv.kept.free q (inv.kept.inside q member)).mp member,inv.idle q member⟩
  · intro q inside gone
    by_cases same : q = p
    · simp [same, held]
    · simpa [update_of_ne same] using inv.kept.counted q inside gone
  · intro q
    by_cases same : q = p
    · simpa [same] using few
    · simpa [update_of_ne same] using inv.few q

theorem refnew_keeps (free : s.region.locked = false) (can : CanCall w s (.refnew paddr))
    (dom : InDomain w s (.refnew paddr)) :
    (operate w s.region (.refnew paddr)).isSome ∧ Inv w ((machine w).next s (.refnew paddr)) := by
  obtain ⟨range,held⟩ := can
  obtain ⟨away,word⟩ := used_of_refs inv (pageOf_lt inv range) held
  simp only [InDomain] at dom
  refine ⟨by simp [ppage_refnew, free],?_⟩
  simp only [machine, operate, ppage_refnew, free, word, u32]
  rw [Nat.mod_eq_of_lt (by omega)]
  exact recount_inv inv away (by omega) dom

theorem refdrop_keeps (free : s.region.locked = false) (can : CanCall w s (.refdrop paddr)) :
    (operate w s.region (.refdrop paddr)).isSome ∧ Inv w ((machine w).next s (.refdrop paddr)) := by
  obtain ⟨range,held⟩ := can
  have within := pageOf_lt inv range
  obtain ⟨away,word⟩ := used_of_refs inv within held
  have few := inv.few (pageOf w s.region paddr)
  have left : u32 (s.region.table (pageOf w s.region paddr) + (2 ^ 32 - 1)) =
      s.refs (pageOf w s.region paddr) - 1 := by
    rw [u32]
    omega
  simp only [machine, operate, ppage_refdrop, free, left, Bool.false_eq_true, ↓reduceIte]
  refine ⟨by split <;> rfl,?_⟩
  by_cases last : s.refs (pageOf w s.region paddr) - 1 = 0
  · simp only [last, ↓reduceIte, getD_some, countRefs]
    have other : ∀ q ∈ visits s.region, q ≠ pageOf w s.region paddr := by
      intro q member same
      exact away (same ▸ member)
    have seen : follow (update s.region.table (pageOf w s.region paddr)
        (vmem_ppage_set 1 s.region.free_head)) s.region.free_head s.region.free_count =
        visits s.region := follow_update _ _ away
    have bound := count_small inv
    refine inv_of_visits (pageOf w s.region paddr :: visits s.region) ?_ inv.shape
      (within.trans bound) ?_ (nodup_cons.mpr ⟨away,inv.kept.once⟩) ?_ ?_ ?_
    · simp only [visits, setWord, follow, update_self, value_set inv.head]
      rw [seen]
      rfl
    · intro q member
      rcases mem_cons.mp member with same | old
      · exact same ▸ within
      · exact inv.kept.inside q old
    · intro q member
      rcases mem_cons.mp member with same | old
      · simp [same, isfree_set inv.head]
      · simp only [setWord, update_of_ne (other q old)]
        exact ⟨(inv.kept.free q (inv.kept.inside q old)).mp old,inv.idle q old⟩
    · intro q inside gone
      rw [mem_cons, not_or] at gone
      obtain ⟨same,gone⟩ := gone
      simpa [update_of_ne same] using inv.kept.counted q inside gone
    · intro q
      by_cases same : q = pageOf w s.region paddr
      · simp [same]
      · simpa [update_of_ne same] using inv.few q
  · simp only [last]
    exact recount_inv inv away (by omega) (by omega)

theorem lock_inv (locked : Bool) : Inv w ⟨{ s.region with locked := locked }, s.refs⟩ :=
  ⟨⟨inv.kept.inside, inv.kept.once, inv.kept.free, inv.kept.counted⟩, inv.idle, inv.few, inv.head,
    inv.shape⟩

theorem window_free (inside : first + size ≤ s.region.count)
    (free : ∀ i, first ≤ i → i < first + size → vmem_ppage_isfree (s.region.table i)) :
    List.range' first size ⊆ visits s.region := by
  intro p member
  obtain ⟨low,high⟩ := mem_range'_1.mp member
  exact (inv.kept.free p (by omega)).mpr (free p low high)

theorem window_enough (inside : first + size ≤ s.region.count)
    (free : ∀ i, first ≤ i → i < first + size → vmem_ppage_isfree (s.region.table i)) :
    size ≤ s.region.free_count := by
  have le := (subperm_of_subset nodup_range' (window_free inv inside free)).length_le
  rwa [length_range', visits_length] at le

end

theorem picked_free (picked : Picked s.region size first) (i : Nat)
    (low : first ≤ i) (high : i < first + size) : vmem_ppage_isfree (s.region.table i) := by
  have free := picked.2.1 (i - first) (by omega)
  rwa [Nat.add_sub_cancel' low] at free

theorem search_answer (inv : Inv w s) (enough : size ≤ s.region.free_count) :
    ∃ found, (∀ f, found = some f ↔ Picked s.region size f) ∧
      (∀ fuel, s.region.count + 1 ≤ fuel → search s.region size fuel 0 0 = some found) ∧
      ∀ fuel answer, search s.region size fuel 0 0 = some answer → answer = found := by
  have le := free_count_le inv
  have spec : ∃ found, search s.region size (s.region.count + 1) 0 0 = some found ∧
      ∀ f, found = some f ↔ Picked s.region size f :=
    search_spec _ 0 0 le_rfl (by omega) (by omega) (by omega)
      (by intro j low high; omega) (by intro f low; omega)
  obtain ⟨found,answers,picked⟩ := spec
  refine ⟨found,picked,?_,?_⟩
  · intro fuel fueled
    obtain ⟨more,rfl⟩ := Nat.exists_eq_add_of_le fueled
    exact search_more _ _ _ _ answers
  · intro fuel answer returns
    have same := search_more (s.region.count + 1) _ _ _ returns
    rw [Nat.add_comm, search_more _ _ _ _ answers, some.injEq] at same
    exact same.symm

variable {a : Call}

theorem unreferenced_of_window (inv : Inv w s)
    (pages : granted w s.region a = List.range' first size) (inside : first + size ≤ s.region.count)
    (free : ∀ i, first ≤ i → i < first + size → vmem_ppage_isfree (s.region.table i)) :
    Unreferenced w s a := by
  intro p member
  rw [pages] at member
  exact inv.idle p (window_free inv inside free member)

variable {fuel : Nat}

theorem unlink_answer {last enough : Nat} (full : unlink first last size enough none 0 r = some r')
    (returns : unlink first last size fuel none 0 r = some answer) : answer = r' := by
  have same := unlink_more enough _ _ _ _ returns
  rw [Nat.add_comm, unlink_more _ _ _ _ _ full, some.injEq] at same
  exact same.symm

theorem contiguous_keeps (inv : Inv w s) (dom : InDomain w s (.contiguous size fuel))
    (returns : (operate w s.region (.contiguous size fuel)).isSome) :
    Unreferenced w s (.contiguous size fuel) ∧
      Inv w ((machine w).next s (.contiguous size fuel)) := by
  obtain ⟨region,front⟩ := dom
  by_cases exceeds : s.region.free_count < size
  · have nothing : granted w s.region (.contiguous size fuel) = [] := by
      simp [granted, exceeds]
    refine ⟨by simp [nothing],?_⟩
    simpa [machine, exceeds, nothing] using inv
  have enough : size ≤ s.region.free_count := Nat.le_of_not_lt exceeds
  obtain ⟨found,picked,_,answer⟩ := search_answer inv enough
  simp only [operate, ppage_contiguous_alloc, exceeds, ↓reduceIte] at returns
  split at returns
  · simp at returns
  rename_i free
  cases searched : search s.region size fuel 0 0 with
  | none => simp [searched] at returns
  | some result => ?_
  rw [searched] at returns
  have same := answer fuel result searched
  cases result with
  | none =>
    have nothing : granted w s.region (.contiguous size fuel) = [] := by
      simp [granted, exceeds, searched]
    refine ⟨by simp [nothing],?_⟩
    simpa [machine, exceeds, free, searched, nothing]
      using lock_inv inv true
  | some first =>
    have here : Picked s.region size first := (picked first).mp same.symm
    have inside := region enough first here
    obtain ⟨r',full,count,kept⟩ := window_taken inv size enough (front enough first here)
      (le_refl size)
    cases taken : unlink first (first + size) size fuel none 0 s.region with
    | none => simp [taken] at returns
    | some last => ?_
    have same := unlink_answer full taken
    subst same
    have pages : granted w s.region (.contiguous size fuel) = List.range' first size := by
      simp [granted, exceeds, free, searched, taken,
        pageOf_addressOf inv (by omega : first ≤ s.region.count)]
    refine ⟨unreferenced_of_window inv pages inside (picked_free here),?_⟩
    simpa [machine, exceeds, free, searched, taken, pages, count] using kept

theorem contiguous_returns (inv : Inv w s)
    (dom : InDomain w s (.contiguous size fuel)) (free : s.region.locked = false)
    (fueled : s.region.count + 1 ≤ fuel) :
    (operate w s.region (.contiguous size fuel)).isSome := by
  obtain ⟨region,front⟩ := dom
  by_cases exceeds : s.region.free_count < size
  · simp [exceeds]
  have enough : size ≤ s.region.free_count := Nat.le_of_not_lt exceeds
  have le := free_count_le inv
  obtain ⟨found,picked,answers,_⟩ := search_answer inv enough
  have searched := answers fuel fueled
  cases found with
  | none => simp [exceeds, free, searched]
  | some first =>
    obtain ⟨r',full,_,_⟩ := window_taken inv fuel enough
      (front enough first ((picked first).mp rfl)) (by omega)
    simp [exceeds, free, searched, full]

theorem reserve_eq (wide : 32 ≤ w) (inv : Inv w s) (fuel : Nat)
    (can : CanCall w s (.reserve paddr paddr_end fuel))
    (inside : InRegion w s (.reserve paddr paddr_end fuel)) :
    ∃ p n, p + n ≤ s.region.count ∧
      (AtHead s.region ((alignValueLow w paddr_end - alignValueUp w paddr) / MMU_PAGESIZE)
        ((alignValueUp w paddr - s.region.paddr) / MMU_PAGESIZE) ↔ AtHead s.region n p) ∧
      ((∀ i, s.region.paddr + i * MMU_PAGESIZE < alignValueLow w paddr_end →
          alignValueUp w paddr ≤ s.region.paddr + i * MMU_PAGESIZE →
          vmem_ppage_isfree (s.region.table i)) ↔
        ∀ i, p ≤ i → i < p + n → vmem_ppage_isfree (s.region.table i)) ∧
      List.range' (pageOf w s.region (alignValueUp w paddr))
        ((alignValueLow w paddr_end - alignValueUp w paddr) / MMU_PAGESIZE) = List.range' p n ∧
      ∀ fuel, ppage_reserve w fuel s.region paddr paddr_end =
        if s.region.locked then none
        else if ∀ i, p ≤ i → i < p + n → vmem_ppage_isfree (s.region.table i) then
          (unlink p (p + n) n fuel none 0 s.region).map fun r' =>
            ({ r' with free_count := u32 (r'.free_count + (2 ^ 32 - n)) }, 0)
        else some (s.region, -MutekWaitQueue.ENOMEM) := by
  obtain ⟨_,high,asserted⟩ := can
  obtain ⟨p,n,start,stop,within,page,size,first⟩ :=
    range_pages wide inv high asserted inside
  have bound := count_small inv
  refine ⟨p,n,within,by rw [size, first],?_,by rw [page, size],?_⟩
  · rw [start, stop]
    unfold MMU_PAGESIZE
    constructor
    · intro free i low high
      exact free i (by omega) (by omega)
    · intro free i high low
      exact free i (by omega) (by omega)
  · intro fuel
    have whole : u32 n = n := Nat.mod_eq_of_lt (by omega)
    have last : u32 (p + n) = p + n := Nat.mod_eq_of_lt (by omega)
    simp only [ppage_reserve, size, page, whole, last]
    cases unlink p (p + n) n fuel none 0 s.region <;> rfl

section
variable (wide : 32 ≤ w) (inv : Inv w s) (can : CanCall w s (.reserve paddr paddr_end fuel))
  (dom : InDomain w s (.reserve paddr paddr_end fuel))
include wide inv can dom

theorem reserve_keeps (returns : (operate w s.region (.reserve paddr paddr_end fuel)).isSome) :
    Unreferenced w s (.reserve paddr paddr_end fuel) ∧
      Inv w ((machine w).next s (.reserve paddr paddr_end fuel)) := by
  obtain ⟨region,front⟩ := dom
  obtain ⟨p,n,within,at_head,all_free,pages,result⟩ := reserve_eq wide inv fuel can region
  rw [all_free, at_head] at front
  simp only [operate, result] at returns
  split at returns
  · simp at returns
  rename_i unlocked
  by_cases free : ∀ i, p ≤ i → i < p + n → vmem_ppage_isfree (s.region.table i)
  · have enough := window_enough inv within free
    have le := free_count_le inv
    have bound := count_small inv
    obtain ⟨r',full,count,kept⟩ := window_taken inv n enough (front free) (le_refl n)
    cases taken : unlink p (p + n) n fuel none 0 s.region with
    | none =>
      rw [if_pos free, taken] at returns
      simp at returns
    | some last => ?_
    have same := unlink_answer full taken
    subst same
    have value : ppage_reserve w fuel s.region paddr paddr_end =
        some ({ last with free_count := u32 (last.free_count + (2 ^ 32 - n)) }, 0) := by
      rw [result, if_neg unlocked, if_pos free, taken, map_some]
    have granted_eq : granted w s.region (.reserve paddr paddr_end fuel) = List.range' p n := by
      simp [granted, value, pages]
    have left : u32 (last.free_count + (2 ^ 32 - n)) = s.region.free_count - n := by
      rw [u32]
      omega
    refine ⟨unreferenced_of_window inv granted_eq within free,?_⟩
    simpa only [machine, operate, value, map_some, getD_some, countRefs, granted_eq,
      left] using kept
  · have value : ppage_reserve w fuel s.region paddr paddr_end =
        some (s.region, -MutekWaitQueue.ENOMEM) := by
      rw [result, if_neg unlocked, if_neg free]
    have nothing : granted w s.region (.reserve paddr paddr_end fuel) = [] := by
      simp [granted, value, MutekWaitQueue.ENOMEM]
    refine ⟨by simp [nothing],?_⟩
    simpa [machine, value, nothing] using inv

theorem reserve_returns (unlocked : s.region.locked = false) (fueled : s.region.count + 1 ≤ fuel) :
    (operate w s.region (.reserve paddr paddr_end fuel)).isSome := by
  obtain ⟨region,front⟩ := dom
  obtain ⟨p,n,within,at_head,all_free,_,result⟩ := reserve_eq wide inv fuel can region
  rw [all_free, at_head] at front
  simp only [operate, result, unlocked, Bool.false_eq_true, ↓reduceIte]
  split
  · rename_i free
    obtain ⟨r',full,_,_⟩ := window_taken inv fuel (window_enough inv within free) (front free)
      (by omega)
    simp [full]
  · rfl

end

section
variable (inv : Inv w s) (inside : first + size ≤ s.region.count)
  (free : ∀ i, first ≤ i → i < first + size → vmem_ppage_isfree (s.region.table i))
include inv inside free

theorem window_many : size ≤ (visits s.region).countP (fun p => first ≤ p ∧ p < first + size) := by
  have within : List.range' first size ⊆
      (visits s.region).filter (fun p => first ≤ p ∧ p < first + size) := by
    intro p member
    refine mem_filter.mpr ⟨window_free inv inside free member,?_⟩
    simpa using mem_range'_1.mp member
  have le := (subperm_of_subset nodup_range' within).length_le
  rwa [length_range', ← countP_eq_length_filter] at le

theorem window_not_front (behind : ¬ AtHead s.region size first)
    (returns : unlink first (first + size) size fuel none 0 s.region = some r') (left : Nat) :
    ¬ Kept ⟨{ r' with free_count := left },
      fun p => if p ∈ List.range' first size then 1 else s.refs p⟩ := by
  intro kept
  have odd : ∃ p ∈ (visits s.region).take size, ¬ (first ≤ p ∧ p < first + size) := by
    simpa only [AtHead, not_forall, exists_prop] using behind
  obtain ⟨p,member,outside,cleared⟩ := unlink_not_front size fuel 0 s.region.free_count
    s.region r' (Nat.zero_add size) inv.head inv.kept.once (window_many inv inside free) odd returns
  have count : r'.count = s.region.count :=
    unlink_keeps (P := fun r => r.count = s.region.count)
      (fun _ n _ same => by cases n <;> exact same) _ _ _ _ _
      returns rfl
  have within : p < r'.count := count ▸ inv.kept.inside p member
  by_cases still : p ∈ visits { r' with free_count := left }
  · exact cleared ((kept.free p within).mp still)
  · have held := (kept.counted p within still).2
    simp only [mem_range'_1, outside, ↓reduceIte, inv.idle p member] at held
    omega

end

theorem contiguous_exact (inv : Inv w s) (region : InRegion w s (.contiguous size fuel))
    (returns : (operate w s.region (.contiguous size fuel)).isSome)
    (kept : Kept ((machine w).next s (.contiguous size fuel))) :
    InDomain w s (.contiguous size fuel) := by
  refine ⟨region,?_⟩
  intro enough first here
  by_contra behind
  have inside := region enough first here
  have exceeds : ¬ s.region.free_count < size := Nat.not_lt.mpr enough
  obtain ⟨found,picked,_,answer⟩ := search_answer inv enough
  simp only [operate, ppage_contiguous_alloc, exceeds, ↓reduceIte] at returns
  split at returns
  · simp at returns
  rename_i free
  cases searched : search s.region size fuel 0 0 with
  | none => simp [searched] at returns
  | some result => ?_
  have same : result = some first :=
    (answer fuel result searched).trans ((picked first).mpr here)
  subst same
  rw [searched] at returns
  cases taken : unlink first (first + size) size fuel none 0 s.region with
  | none => simp [taken] at returns
  | some last => ?_
  have pages : granted w s.region (.contiguous size fuel) = List.range' first size := by
    simp [granted, exceeds, free, searched, taken,
      pageOf_addressOf inv (by omega : first ≤ s.region.count)]
  apply window_not_front inv inside (picked_free here) behind taken (last.free_count - size)
  simpa [machine, exceeds, free, searched, taken, pages] using kept

theorem reserve_exact (wide : 32 ≤ w) (inv : Inv w s)
    (can : CanCall w s (.reserve paddr paddr_end fuel))
    (region : InRegion w s (.reserve paddr paddr_end fuel))
    (returns : (operate w s.region (.reserve paddr paddr_end fuel)).isSome)
    (kept : Kept ((machine w).next s (.reserve paddr paddr_end fuel))) :
    InDomain w s (.reserve paddr paddr_end fuel) := by
  refine ⟨region,?_⟩
  obtain ⟨p,n,within,at_head,all_free,pages,result⟩ := reserve_eq wide inv fuel can region
  rw [all_free, at_head]
  intro free
  by_contra behind
  simp only [operate, result] at returns
  split at returns
  · simp at returns
  rename_i unlocked
  cases taken : unlink p (p + n) n fuel none 0 s.region with
  | none => simp [taken] at returns
  | some last => ?_
  have value : ppage_reserve w fuel s.region paddr paddr_end =
      some ({ last with free_count := u32 (last.free_count + (2 ^ 32 - n)) }, 0) := by
    rw [result, if_neg unlocked, if_pos free, taken, map_some]
  have granted_eq : granted w s.region (.reserve paddr paddr_end fuel) = List.range' p n := by
    simp [granted, value, pages]
  apply window_not_front inv within free behind taken (u32 (last.free_count + (2 ^ 32 - n)))
  simpa only [machine, operate, value, map_some, getD_some, countRefs, granted_eq] using kept

theorem refnew_exact (inv : Inv w s) (can : CanCall w s (.refnew paddr))
    (returns : (operate w s.region (.refnew paddr)).isSome)
    (kept : Kept ((machine w).next s (.refnew paddr))) : InDomain w s (.refnew paddr) := by
  obtain ⟨range,held⟩ := can
  have within := pageOf_lt inv range
  obtain ⟨away,word⟩ := used_of_refs inv within held
  have few := inv.few (pageOf w s.region paddr)
  simp only [InDomain]
  by_contra full
  have top : u32 (s.region.table (pageOf w s.region paddr) + 1) = 2 ^ 31 := by
    rw [u32]
    omega
  simp only [operate, ppage_refnew] at returns
  split at returns
  · simp at returns
  rename_i unlocked
  simp only [machine, operate, ppage_refnew, unlocked, Bool.false_eq_true, ↓reduceIte, getD_some,
    top] at kept
  have listed : pageOf w s.region paddr ∈
      visits (setWord s.region (pageOf w s.region paddr) (2 ^ 31)) :=
    (kept.free _ within).mpr (by
      simp only [setWord, update_self]
      decide)
  simp only [visits, setWord] at listed
  rw [follow_update _ _ away] at listed
  exact away listed

theorem unlocked_of_returns (plain : ∀ size fuel, a ≠ .contiguous size fuel)
    (returns : (operate w s.region a).isSome) : s.region.locked = false := by
  by_contra locked
  rw [Bool.not_eq_false] at locked
  cases a with
  | alloc => simp [locked] at returns
  | contiguous size fuel => exact plain size fuel rfl
  | reserve paddr paddr_end fuel => simp [ppage_reserve, locked] at returns
  | refnew paddr => simp [ppage_refnew, locked] at returns
  | refdrop paddr => simp [ppage_refdrop, locked] at returns

section
variable (wide : 32 ≤ w) (inv : Inv w s) (can : CanCall w s a)
include wide inv can

theorem step_keeps (returns : (operate w s.region a).isSome) (dom : InDomain w s a) :
    Unreferenced w s a ∧ Inv w ((machine w).next s a) := by
  cases a with
  | alloc =>
    obtain ⟨honest,_,kept⟩ := alloc_keeps inv (unlocked_of_returns (by simp) returns)
    exact ⟨honest,kept⟩
  | contiguous size fuel => exact contiguous_keeps inv dom returns
  | reserve paddr paddr_end fuel => exact reserve_keeps wide inv can dom returns
  | refnew paddr =>
    have unlocked := unlocked_of_returns (by simp) returns
    exact ⟨by simp [granted],(refnew_keeps inv unlocked can dom).2⟩
  | refdrop paddr =>
    have unlocked := unlocked_of_returns (by simp) returns
    exact ⟨by simp [granted],(refdrop_keeps inv unlocked can).2⟩

theorem step_exact (returns : (operate w s.region a).isSome) (region : InRegion w s a)
    (kept : Kept ((machine w).next s a)) : InDomain w s a := by
  cases a with
  | alloc | refdrop paddr => trivial
  | contiguous size fuel => exact contiguous_exact inv region returns kept
  | reserve paddr paddr_end fuel => exact reserve_exact wide inv can region returns kept
  | refnew paddr => exact refnew_exact inv can returns kept

def Fueled (r : Region) : Call → Prop
  | .contiguous _ fuel => r.count + 1 ≤ fuel
  | .reserve _ _ fuel => r.count + 1 ≤ fuel
  | _ => True

theorem step_returns
    (dom : InDomain w s a) (unlocked : s.region.locked = false) (fueled : Fueled s.region a) :
    (operate w s.region a).isSome := by
  cases a with
  | alloc => exact (alloc_keeps inv unlocked).2.1
  | contiguous size fuel => exact contiguous_returns inv dom unlocked fueled
  | reserve paddr paddr_end fuel => exact reserve_returns wide inv can dom unlocked fueled
  | refnew paddr => exact (refnew_keeps inv unlocked can dom).1
  | refdrop paddr => exact (refdrop_keeps inv unlocked can).1

end

theorem run_inv (wide : 32 ≤ w) {paddr paddr_end : Nat} {first : System}
    (boot : Boot w paddr paddr_end first)
    (small : alignValueLow w paddr_end - alignValueUp w paddr < 2 ^ 32)
    (run : Run (restrict (machine w) (InDomain w)) first calls s) :
    Inv w s := by
  have keep : ∀ s a, Inv w s → (restrict (machine w) (InDomain w)).enabled s a →
      Inv w ((machine w).next s a) := by
    intro s a inv ⟨⟨can,returns⟩,dom⟩
    exact (step_keeps wide inv can returns dom).2
  exact run_invariant (Inv w) keep run (boot_inv wide boot small)

/-- Every run in the domain, from a region below 4 GiB, keeps the free list and the reference
    counts, and a call in the domain returns while the lock is free. Of the calls on pages of the
    region, those in the domain are exactly the ones that keep the property. -/
theorem pages_kept_exactly_in_domain (wide : 32 ≤ w) {paddr paddr_end : Nat} {first : System}
    {calls : List Call} (boot : Boot w paddr paddr_end first)
    (small : alignValueLow w paddr_end - alignValueUp w paddr < 2 ^ 32)
    (run : Run (restrict (machine w) (InDomain w)) first calls s) :
    Kept s ∧
    (∀ a, CanCall w s a → InDomain w s a → s.region.locked = false → Fueled s.region a →
      (operate w s.region a).isSome) ∧
    ∀ a, CanCall w s a → (operate w s.region a).isSome → InRegion w s a →
      (Unreferenced w s a ∧ Kept ((machine w).next s a) ↔ InDomain w s a) := by
  have inv := run_inv wide boot small run
  refine ⟨inv.kept,fun a => step_returns wide inv,?_⟩
  intro a can returns region
  constructor
  · intro ⟨_,kept⟩
    exact step_exact wide inv can returns region kept
  · intro dom
    obtain ⟨honest,after⟩ := step_keeps wide inv can returns dom
    exact ⟨honest,after.kept⟩

end

def threePages : System :=
  ⟨⟨4096, 12288, 3, 3, 0, update
    (fun i => if i < 3 then vmem_ppage_set 1 (i + 1) else 0) 2 (vmem_ppage_set 1 0), false⟩,
    fun _ => 0⟩

theorem threePages_boot : Boot 32 4096 16384 threePages :=
  ⟨by decide, by decide, ⟨some fun _ => 0, rfl⟩, fun _ => rfl⟩

theorem pages_kept_exactly_in_domain_three :
    let s := after (machine 32) threePages [.alloc, .refnew 4096, .reserve 8192 16384 4]
    visits s.region = [] ∧ s.region.table 0 = 2 ∧ Kept s := by
  intro s
  have run : Run (restrict (machine 32) (InDomain 32)) threePages
      [.alloc, .refnew 4096, .reserve 8192 16384 4] s := by
    refine Run.cons ⟨⟨trivial,by decide⟩,trivial⟩ ?_
    refine Run.cons ⟨⟨by decide,by decide⟩,by unfold InDomain; decide⟩ ?_
    refine Run.cons ⟨⟨by decide,by decide⟩,?_⟩ (Run.nil _)
    refine ⟨by unfold InRegion; decide,?_⟩
    intro _
    unfold AtHead
    decide
  exact ⟨by decide,by decide,
    (pages_kept_exactly_in_domain (by decide) threePages_boot (by decide) run).1⟩

/-- Reserving the middle one of three free pages leaves page 0 on the free list
    without its free bit. -/
theorem reserve_unmarks_neighbour :
    let s := after (machine 32) threePages [.reserve 8192 12288 3]
    Boot 32 4096 16384 threePages ∧ Run (machine 32) threePages [.reserve 8192 12288 3] s ∧
      0 ∈ visits s.region ∧ ¬ vmem_ppage_isfree (s.region.table 0) ∧ ¬ Kept s := by
  intro s
  have listed : 0 ∈ visits s.region := by decide
  have unmarked : ¬ vmem_ppage_isfree (s.region.table 0) := by decide
  refine ⟨threePages_boot,Run.cons ⟨by decide,by decide⟩ (Run.nil _),listed,unmarked,?_⟩
  intro kept
  exact unmarked ((kept.free 0 (by decide)).mp listed)

end MutekPageAllocInvariant
