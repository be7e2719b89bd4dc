import MutekH.PageAllocInvariant
import Mathlib.Data.Nat.Find

/-!
Contiguous pages. The search finds the lowest window of free pages, and the pages are
taken off the free list correctly when they are the first ones on it. When there is no
window although enough pages are free, the call reads the word past the end of the table
or keeps the lock.
-/
namespace MutekPageAllocContiguous
open List LibMachine MutekPageAlloc MutekPageAllocInvariant

/- The table words that the loops read. -/

def searchReads (r : Region) (size : Nat) : Nat → Nat → Nat → List Nat
  | 0, _, _ => []
  | fuel + 1, first, i =>
      if i < first + size then
        i :: if vmem_ppage_isfree (r.table i) then searchReads r size fuel first (i + 1)
          else if r.count < i + size then []
          else searchReads r size fuel (i + 1) (i + 1)
      else []

def unlinkReads (first last size : Nat) : Nat → Option Nat → Nat → Region → List Nat
  | 0, _, _, _ => []
  | fuel + 1, n, c, r =>
      if c < size then
        let i := vmem_ppage_value (readLink r n)
        n.toList ++
          if first ≤ i ∧ i < last then
            i :: unlinkReads first last size fuel n (c + 1)
              (setWord (writeLink r (vmem_ppage_value (r.table i)) n) i (vmem_ppage_set 0 1))
          else unlinkReads first last size fuel (some i) c r
      else []

/-- The indices at which `ppage_contiguous_alloc` reads the table. -/
def contiguousReads (fuel : Nat) (r : Region) (size : Nat) : List Nat :=
  if r.free_count < size then []
  else
    searchReads r size fuel 0 0 ++
      match search r size fuel 0 0 with
      | some (some first) => unlinkReads first (first + size) size fuel none 0 r
      | _ => []

def Window (r : Region) (size first : Nat) : Prop :=
  first + size ≤ r.count ∧ ∀ k, k < size → vmem_ppage_isfree (r.table (first + k))

/-- The pages of the window are used with one reference each and are no longer on the free list, and
    nothing else has changed. -/
structure Taken (r r' : Region) (size first : Nat) : Prop where
  window : Window r size first
  used : ∀ k, k < size → r'.table (first + k) = 1
  free : ∀ p, p < r.count → ¬ (first ≤ p ∧ p < first + size) →
    (vmem_ppage_isfree (r'.table p) ↔ vmem_ppage_isfree (r.table p))
  counts : ∀ p, p < r.count → ¬ vmem_ppage_isfree (r.table p) → r'.table p = r.table p
  list : visits r' = (visits r).filter fun p => ¬ (first ≤ p ∧ p < first + size)
  rest : r'.paddr = r.paddr ∧ r'.size = r.size ∧ r'.count = r.count ∧ r'.locked = r.locked

structure Contract (w fuel : Nat) (r : Region) (size : Nat) : Prop where
  reads : ∀ i ∈ contiguousReads fuel r size, i < r.count
  success : (∃ first, Window r size first) → ∃ first r', Taken r r' size first ∧
    ppage_contiguous_alloc w fuel r size = some (r', .ok (r.paddr + first * MMU_PAGESIZE))
  failure : ¬ (∃ first, Window r size first) →
    ppage_contiguous_alloc w fuel r size = some (r, .error (-MutekWaitQueue.ENOMEM))

/-- There are too few free pages, or the lowest window is in front of the free list. -/
def ContiguousDomain (r : Region) (size : Nat) : Prop :=
  r.free_count < size ∨
    ∃ first, Window r size first ∧ (∀ f, f < first → ¬ Window r size f) ∧ AtHead r size first

section
variable {w : Nat} {s : System}

theorem window_free_at (window : Window r size first) (i : Nat) (low : first ≤ i)
    (high : i < first + size) : vmem_ppage_isfree (r.table i) := by
  have free := window.2 (i - first) (by omega)
  rwa [Nat.add_sub_cancel' low] at free

theorem search_reads (window : Window r size f) (fuel : Nat) :
    ∀ first i, first ≤ f → first ≤ i → ∀ j ∈ searchReads r size fuel first i, j < r.count := by
  induction fuel with
  | zero =>
    intro first i _ _ j member
    cases member
  | succ fuel ih => ?_
  intro first i low start j member
  have bound := window.1
  rw [searchReads] at member
  split at member
  · rename_i inner
    rw [mem_cons] at member
    obtain here | later := member
    · omega
    split at later
    · exact ih first (i + 1) low (by omega) j later
    rename_i used
    have before : i < f := by
      by_contra past
      exact used (window_free_at window i (by omega) (by omega))
    split at later
    · cases later
    · exact ih (i + 1) (i + 1) (by omega) (by omega) j later
  · cases member

theorem unlink_reads (k : Nat) :
    ∀ fuel c m (r : Region), c + k = size → k ≤ m → r.free_head < 2 ^ 31 →
      (follow r.table r.free_head m).Nodup →
      (∀ p ∈ (follow r.table r.free_head m).take k, first ≤ p ∧ p < last) →
      ∀ p ∈ unlinkReads first last size fuel none c r, first ≤ p ∧ p < last := by
  induction k with
  | zero =>
    intro fuel c m r done _ _ _ _ p member
    have stop : ¬ c < size := by omega
    cases fuel with
    | zero => cases member
    | succ fuel =>
      rw [unlinkReads, if_neg stop] at member
      cases member
  | succ k ih =>
    intro fuel c m r done le small nodup hit p member
    have more : c < size := by omega
    cases fuel with
    | zero => cases member
    | succ fuel => ?_
    cases m with
    | zero => omega
    | succ m => ?_
    rw [follow] at nodup hit
    obtain ⟨away,nodup⟩ := nodup_cons.mp nodup
    have inside : first ≤ r.free_head ∧ r.free_head < last := hit _ (by simp)
    have frame := follow_update (v := 1) m _ away
    simp only [unlinkReads, more, if_true, readLink, value_of_lt small, inside, and_self,
      Option.toList_none, nil_append, mem_cons] at member
    obtain here | later := member
    · rw [here]
      exact inside
    · refine ih fuel (c + 1) m _ (by omega) (by omega) (value_lt _) ?_ ?_ p later
      · simpa [setWord, writeLink, frame] using nodup
      · intro q front
        simp only [setWord, writeLink, set_used, frame] at front
        exact hit q (by simp [front])

theorem picked_of_lowest (window : Window r size first)
    (lowest : ∀ f, f < first → ¬ Window r size f) : Picked r size first := by
  have bound := window.1
  refine ⟨by omega,window.2,?_⟩
  intro f less
  by_contra free
  refine lowest f less ⟨by omega,?_⟩
  intro k within
  by_contra used
  exact free ⟨k,within,used⟩

theorem address_eq (inv : Inv w s) (bound : first ≤ s.region.count) :
    addressOf w s.region first = s.region.paddr + first * MMU_PAGESIZE := by
  have top := inv.shape.top
  have small := inv.shape.small
  have offset : first * MMU_PAGESIZE ≤ s.region.size := by
    rw [inv.shape.sized]
    exact Nat.mul_le_mul_right _ bound
  rw [addressOf, u32, Nat.mod_eq_of_lt (by omega : first * MMU_PAGESIZE < 2 ^ 32),
    Nat.mod_eq_of_lt (by omega)]

theorem filter_window (inv : Inv w s) (enough : size ≤ s.region.free_count)
    (front : AtHead s.region size first) :
    (visits s.region).drop size =
      (visits s.region).filter fun p => ¬ (first ≤ p ∧ p < first + size) := by
  have mem := atHead_mem inv.kept.once enough front
  have once := inv.kept.once
  rw [← take_append_drop size (visits s.region)] at once
  have apart := (nodup_append.mp once).2.2
  conv => rhs; rw [← take_append_drop size (visits s.region)]
  have gone : ((visits s.region).take size).filter (fun p => ¬ (first ≤ p ∧ p < first + size)) =
      [] := by
    rw [filter_eq_nil_iff]
    intro p member
    simpa using (mem p).mp member
  have stays : ((visits s.region).drop size).filter (fun p => ¬ (first ≤ p ∧ p < first + size)) =
      (visits s.region).drop size := by
    rw [filter_eq_self]
    intro p member
    have outside : ¬ (first ≤ p ∧ p < first + size) := by
      intro hit
      exact apart p ((mem p).mpr hit) p member rfl
    exact decide_eq_true outside
  rw [filter_append, gone, stays, nil_append]

theorem window_contract (inv : Inv w s) (free : s.region.locked = false)
    (window : Window s.region size first) (lowest : ∀ f, f < first → ¬ Window s.region size f)
    (front : AtHead s.region size first) (fueled : s.region.count + 1 ≤ fuel) :
    (∀ i ∈ contiguousReads fuel s.region size, i < s.region.count) ∧
      ∃ r', Taken s.region r' size first ∧
        ppage_contiguous_alloc w fuel s.region size =
          some (r', .ok (s.region.paddr + first * MMU_PAGESIZE)) := by
  have bound := window.1
  have enough := window_enough inv bound (window_free_at window)
  have exceeds : ¬ s.region.free_count < size := Nat.not_lt.mpr enough
  obtain ⟨found,picked,answers,_⟩ := search_answer inv enough
  have here : found = some first := (picked first).mpr (picked_of_lowest window lowest)
  have searched := answers fuel fueled
  rw [here] at searched
  obtain ⟨head,table,returns,_,rest,words⟩ := unlink_front size fuel 0 s.region.free_count s.region
    (Nat.zero_add size) (by omega) enough inv.head inv.kept.once front
  have mem := atHead_mem inv.kept.once enough front
  have word : ∀ p, table p = if first ≤ p ∧ p < first + size then 1 else s.region.table p := by
    intro p
    rw [words p]
    simp only [← mem p]
    rfl
  refine ⟨?_,
    { s.region with free_head := head, table := table, free_count := s.region.free_count - size },
    ?_,?_⟩
  · intro i member
    simp only [contiguousReads, exceeds, if_false, searched, mem_append] at member
    obtain looked | unlinked := member
    · exact search_reads window fuel 0 0 (Nat.zero_le first) (Nat.le_refl 0) i looked
    · have inside := unlink_reads size fuel 0 s.region.free_count s.region
        (Nat.zero_add size) enough inv.head
        inv.kept.once front i unlinked
      omega
  · refine ⟨window,?_,?_,?_,?_,rfl,rfl,rfl,rfl⟩
    · intro k within
      exact (word (first + k)).trans (if_pos (by omega))
    · intro p _ outside
      simp only [word p, if_neg outside]
    · intro p _ used
      have outside : ¬ (first ≤ p ∧ p < first + size) :=
        fun hit => used (window_free_at window p hit.1 hit.2)
      exact (word p).trans (if_neg outside)
    · rw [← filter_window inv enough front]
      exact rest
  · rw [ppage_contiguous_alloc, if_neg exceeds, if_neg (by simp [free])]
    simp only [searched, returns, address_eq inv (by omega : first ≤ s.region.count)]

theorem few_contract (inv : Inv w s) (region : s.region = r)
    (few : r.free_count < size) : Contract w fuel r size := by
  subst region
  have none : ¬ ∃ first, Window s.region size first := by
    intro ⟨first,window⟩
    have enough := window_enough inv window.1 (window_free_at window)
    omega
  refine ⟨?_,fun some => absurd some none,fun _ => ?_⟩
  · intro i member
    rw [contiguousReads, if_pos few] at member
    cases member
  · rw [ppage_contiguous_alloc, if_pos few]

theorem domain_of_contract (inv : Inv w s) (free : s.region.locked = false)
    (fueled : s.region.count + 1 ≤ fuel) (contract : Contract w fuel s.region size) :
    ContiguousDomain s.region size := by
  by_cases few : s.region.free_count < size
  · exact .inl few
  right
  obtain ⟨found,picked,answers,_⟩ := search_answer inv (Nat.le_of_not_lt few)
  have searched := answers fuel fueled
  by_cases some : ∃ first, Window s.region size first
  · classical
    obtain ⟨first,window,lowest⟩ : ∃ first, Window s.region size first ∧
        ∀ f < first, ¬ Window s.region size f :=
      ⟨Nat.find some,Nat.find_spec some,fun f less => Nat.find_min some less⟩
    refine ⟨first,window,lowest,?_⟩
    by_contra behind
    have here : found = .some first := (picked first).mpr (picked_of_lowest window lowest)
    rw [here] at searched
    obtain ⟨first',r',taken,returned⟩ := contract.success some
    rw [ppage_contiguous_alloc, if_neg few, if_neg (by simp [free])] at returned
    simp only [searched] at returned
    cases unlinked : unlink first (first + size) size fuel none 0 s.region with
    | none => simp [unlinked] at returned
    | some last => ?_
    -- a page that was stepped over has lost its mark
    have odd : ∃ p ∈ (visits s.region).take size, ¬ (first ≤ p ∧ p < first + size) := by
      simpa only [AtHead, not_forall, exists_prop] using behind
    obtain ⟨p,member,outside,cleared⟩ :=
      unlink_not_front size fuel 0 s.region.free_count s.region last
      (Nat.zero_add size) inv.head inv.kept.once (window_many inv window.1 (window_free_at window))
        odd unlinked
    simp only [unlinked, Option.some.injEq, Prod.mk.injEq, Except.ok.injEq] at returned
    obtain ⟨region,address⟩ := returned
    have bound := window.1
    rw [address_eq inv (by omega)] at address
    have same : first' = first := by
      unfold MMU_PAGESIZE at address
      omega
    have within := inv.kept.inside p member
    have kept := taken.free p within (by rw [same]; exact outside)
    rw [← region] at kept
    exact cleared (kept.mpr ((inv.kept.free p within).mp member))
  · have failed := contract.failure some
    rw [ppage_contiguous_alloc, if_neg few, if_neg (by simp [free])] at failed
    simp only [searched] at failed
    cases found with
    | none =>
      simp only [Option.some.injEq, Prod.mk.injEq, and_true] at failed
      have locked := congrArg Region.locked failed
      simp [free] at locked
    | some first =>
      cases unlinked : unlink first (first + size) size fuel none 0 s.region with
      | none | some last => simp [unlinked] at failed

/-- After every run in the domain of the region's calls, from a region below 4 GiB, a request for
    pages keeps its contract exactly when too few pages are free or the lowest window is in front of
    the free list. -/
theorem contiguous_contract_exactly (wide : 32 ≤ w) {paddr paddr_end : Nat} {boot : System}
    {calls : List Call} (booted : Boot w paddr paddr_end boot)
    (small : alignValueLow w paddr_end - alignValueUp w paddr < 2 ^ 32)
    (run : Run (restrict (machine w) (InDomain w)) boot calls s)
    (unlocked : s.region.locked = false) (size fuel : Nat) (fueled : s.region.count + 1 ≤ fuel) :
    Contract w fuel s.region size ↔ ContiguousDomain s.region size := by
  have inv := run_inv wide booted small run
  constructor
  · exact domain_of_contract inv unlocked fueled
  · intro domain
    obtain few | ⟨first,window,lowest,front⟩ := domain
    · exact few_contract inv rfl few
    · obtain ⟨reads,after,taken,returns⟩ := window_contract inv unlocked window lowest front fueled
      exact ⟨reads,fun _ => ⟨first,after,taken,returns⟩,fun none => absurd ⟨first,window⟩ none⟩

end

/-- Two of three free pages. -/
theorem contiguous_contract_exactly_three : Contract 32 4 threePages.region 2 := by
  refine (contiguous_contract_exactly (by decide) threePages_boot (by decide)
    (Run.nil threePages) rfl 2 4
    (by decide)).mpr ?_
  exact .inr ⟨0,⟨by decide,by decide⟩,
    fun f less => absurd less (Nat.not_lt_zero f),by unfold AtHead; decide⟩

/-- Three pages of which the first two are used, after which the first is given back: two pages are
    free and apart. The request for two reads the word behind the table and keeps the lock. -/
theorem gap_read_past_table :
    let s := after (machine 32) threePages [.alloc, .alloc, .refdrop 4096]
    Run (machine 32) threePages [.alloc, .alloc, .refdrop 4096] s ∧ s.region.count = 3 ∧
      3 ∈ contiguousReads 4 s.region 2 ∧
      ppage_contiguous_alloc 32 4 s.region 2 =
        some ({ s.region with locked := true }, .error (-MutekWaitQueue.ENOMEM)) ∧
      ¬ Contract 32 4 s.region 2 := by
  intro s
  have reads : 3 ∈ contiguousReads 4 s.region 2 := by decide
  have searched : search s.region 2 4 0 0 = some none := by decide
  refine ⟨?_,by decide,reads,?_,?_⟩
  · refine Run.cons ⟨trivial,by decide⟩
      (Run.cons ⟨trivial,by decide⟩ (Run.cons ⟨?_,by decide⟩ (Run.nil _)))
    decide
  · rw [ppage_contiguous_alloc, if_neg (by decide), if_neg (by decide), searched]
  · intro contract
    exact absurd (contract.reads 3 reads) (by decide)

end MutekPageAllocContiguous
