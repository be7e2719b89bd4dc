import MutekH.MemoryAllocatorLists

/-!
The heap invariant, and what the calls of the allocator do to it.
-/
namespace MutekMemoryAllocatorHeap
open Option List LibMachine LibAlign LibMemory LibCircularList MutekMemoryAllocator
open MutekMemoryAllocatorLists

structure Heap (cfg : Config) (region first last : Nat) (m : Nat → Nat) (bs fs as : List Nat) : Prop
    extends Lists cfg region first last m bs fs as where
  cover : ∀ h ∈ bs, h ∈ fs ∨ h ∈ as
  starts : first ∈ bs
  ends : last ∈ as
  joined : ∀ a ∈ fs, ∀ b ∈ fs, a < b → ∃ c ∈ as, a < c ∧ c < b

section
variable {cfg : Config} {region first last : Nat} {m n : Nat → Nat} {bs fs as xs ys zs : List Nat}
  {h a b size : Nat} {s : State}

namespace Heap

theorem free_ne_last (heap : Heap cfg region first last m bs fs as) (member : h ∈ fs) :
    h ≠ last := by
  rintro rfl
  exact (heap.marked h heap.ends).2.1 member

theorem ends_at (heap : Heap cfg region first last m (xs ++ [h]) fs as) : h = last := by
  have found := (heap.marked last heap.ends).1
  have bound := heap.bounds h (by simp)
  rcases mem_append.mp found with front | same
  · have near := (pairwise_append.mp heap.spaced).2.2 last front h (by simp)
    omega
  · exact (mem_singleton.mp same).symm

theorem next_exists (heap : Heap cfg region first last m bs fs as) (member : h ∈ bs)
    (inner : h ≠ last) : ∃ xs b ys, bs = xs ++ h :: b :: ys := by
  obtain ⟨xs,rest,split⟩ := append_of_mem member
  cases rest with
  | cons b ys => exact ⟨xs,b,ys,split⟩
  | nil => exact absurd (split ▸ heap : Heap cfg region first last m _ fs as).ends_at inner

theorem next_used (heap : Heap cfg region first last m (xs ++ a :: b :: ys) fs as) (free : a ∈ fs) :
    b ∈ as := by
  have step := heap.gap
  have room := header_room cfg
  have positive := cfg.pointers
  rcases heap.cover b (by simp) with also | used
  · unfold minBlock at step
    obtain ⟨c,used,above,below⟩ := heap.joined a free b also (by omega)
    have order := heap.between (heap.marked c used).1
    omega
  · exact used

theorem take (site : Site cfg region first last)
    (heap : Heap cfg region first last m bs (xs ++ h :: ys) as) :
    Heap cfg region first last
      (header_set_alloc cfg (mem_list_function_rem cfg m freeEntry
        (free_root cfg region) h) h region)
      bs (xs ++ ys) (h :: as) := by
  have member : h ∈ xs ++ h :: ys := by simp
  have once := heap.free.once
  have gone : h ∉ xs ++ ys := by grind
  refine { (heap.remove_free site).set_alloc site (heap.listed h member) (heap.free_ne_last member)
    gone with cover := ?_, starts := heap.starts, ends := ?_, joined := ?_ }
  · intro b block
    have known := heap.cover b block
    grind
  · exact .tail h heap.ends
  · intro a ha b hb less
    obtain ⟨c,used,order⟩ := heap.joined a (by grind) b (by grind) less
    exact ⟨c,.tail h used,order⟩

theorem split_used (heap : Heap cfg region first last m (xs ++ h :: b :: ys) fs as)
    (lists : Lists cfg region first last n (xs ++ h :: item :: b :: ys) (item :: fs) as)
    (used : h ∈ as) (after : b ∈ as) :
    Heap cfg region first last n (xs ++ h :: item :: b :: ys) (item :: fs) as := by
  have room := header_room cfg
  have positive := cfg.pointers
  have front := lists.gap
  have shape : xs ++ h :: item :: b :: ys = (xs ++ [h]) ++ item :: b :: ys := by simp
  have back := (shape ▸ lists : Lists cfg region first last n _ (item :: fs) as).gap
  unfold minBlock at front back
  have order : ∀ f ∈ fs, f < h ∨ b < f := by
    intro f member
    have place := heap.between (heap.listed f member)
    have away := (heap.marked h used).2.1
    have away' := (heap.marked b after).2.1
    have other : f ≠ h := by
      rintro rfl
      exact away member
    have other' : f ≠ b := by
      rintro rfl
      exact away' member
    omega
  refine { lists with cover := ?_, starts := ?_, ends := heap.ends, joined := ?_ }
  · intro c block
    by_cases new : c = item
    · simp [new]
    · have known := heap.cover c (by grind)
      grind
  · have start := heap.starts
    grind
  intro c hc d hd less
  rcases mem_cons.mp hc with rfl | oldC
  · rcases mem_cons.mp hd with rfl | oldD
    · omega
    · have place := order d oldD
      exact ⟨b,after,by omega,by omega⟩
  · rcases mem_cons.mp hd with rfl | oldD
    · have place := order c oldC
      exact ⟨h,used,by omega,by omega⟩
    · exact heap.joined c oldC d oldD less

theorem with_lists (heap : Heap cfg region first last m bs fs as)
    (lists : Lists cfg region first last n bs fs as) : Heap cfg region first last n bs fs as :=
  { heap with toLists := lists }

theorem inside_fresh (heap : Heap cfg region first last m (xs ++ h :: b :: ys) fs as) (item : Nat)
    (above : h < item) (below : item < b) : item ∉ fs ∧ item ∉ as := by
  constructor
  · intro member
    have order := heap.between (heap.listed item member)
    omega
  · intro member
    have order := heap.between (heap.marked item member).1
    omega

end Heap

theorem minBlock_pos (cfg : Config) :
    0 < minBlock cfg ∧ minBlock cfg ≤ memalloc_split_size cfg := by
  have minimum := minBlock_room cfg
  have positive := cfg.pointers
  have guarded := guardBytes_le cfg
  constructor
  · omega
  · unfold minBlock memalloc_split_size
    omega

theorem split_lists (site : Site cfg region first last) (item : Nat)
    (heap : Heap cfg region first last m (xs ++ h :: b :: ys) fs as)
    (above : h + minBlock cfg ≤ item) (below : item + minBlock cfg ≤ b) :
    Lists cfg region first last (memory_allocator_crc_set cfg (mem_list_function_push cfg push
          (mem_list_function_ins cfg m (blockEntry cfg) (block_root cfg region) item h)
          freeEntry (free_root cfg region) item) item)
      (xs ++ h :: item :: b :: ys) (item :: fs) as ∧
    ∀ x, Body cfg region (xs ++ h :: item :: b :: ys) x → memory_allocator_crc_set cfg
        (mem_list_function_push cfg push
          (mem_list_function_ins cfg m (blockEntry cfg) (block_root cfg region) item h)
          freeEntry (free_root cfg region) item) item x = m x := by
  have small := minBlock_pos cfg
  have bound := heap.bounds b (by simp)
  have under : ∀ c ∈ b :: ys, item + minBlock cfg ≤ c := by
    intro c member
    have spaced := heap.spaced
    rcases mem_cons.mp member with rfl | later
    · exact below
    · have tail := (pairwise_cons.mp (pairwise_append.mp spaced).2.1).2
      have near := (pairwise_cons.mp tail).1 c later
      omega
  obtain ⟨unlisted,unmarked⟩ := heap.inside_fresh item (by omega) (by omega)
  have block : item ∈ xs ++ h :: item :: b :: ys := by simp
  obtain ⟨inserted,kept⟩ := heap.insert_block site above under (by omega)
  refine ⟨(inserted.push_free site block unlisted unmarked).crc_set site block,?_⟩
  intro x body
  rw [crc_frame (body.2 item block), inserted.push_free_frame site block unlisted unmarked body,
    kept x body]

theorem popSplit_keeps (site : Site cfg region first last)
    (heap : Heap cfg region first last s.mem (xs ++ h :: b :: ys) fs as) (used : h ∈ as)
    (after : b ∈ as) (large : minBlock cfg ≤ size) (left : h + size + minBlock cfg ≤ b) :
    ∃ t, popSplit cfg s region size h = some t ∧
      Heap cfg region first last t.mem (xs ++ h :: (h + size) :: b :: ys)
        ((h + size) :: fs) as := by
  have small := minBlock_pos cfg
  have fits := site.last_fits
  have bound := heap.bounds b (by simp)
  have lists := (split_lists site (h + size) heap (by omega) left).1
  have shape : xs ++ h :: (h + size) :: b :: ys = (xs ++ [h]) ++ (h + size) :: b :: ys := by simp
  have here : wrap cfg (h + size) = h + size := wrap_eq (by omega)
  rw [shape] at lists
  have known := lists.size_of_block site (.inl (by simp))
  have scrambled := lists.scramble_set site (b - (h + size)) (by omega) (by omega)
  have guarded := scrambled.guard_set site (b - (h + size)) (by omega) (by omega)
  rw [← shape] at guarded
  have again := guarded.guard_set site size large (Nat.le_refl _)
  simp only [popSplit, here, known, map_some]
  exact ⟨_,rfl,heap.split_used again used after⟩

structure Carved (bs as bs' as' : List Nat) (h size : Nat) : Prop where
  used : h ∈ as'
  kept : ∀ a ∈ as, a ∈ as'
  blocks : ∀ c ∈ bs', c ∈ bs ∨ c = h + size
  room : ∀ c ∈ bs', h < c → h + size ≤ c

theorem popBlock_keeps (site : Site cfg region first last)
    (heap : Heap cfg region first last s.mem (xs ++ h :: b :: ys) fs as) (free : h ∈ fs)
    (large : minBlock cfg ≤ size) (enough : h + size ≤ b) :
    ∃ t, popBlock cfg s region size h = some t ∧ ∃ bs' fs' as',
      Heap cfg region first last t.mem bs' fs' as' ∧
      Carved (xs ++ h :: b :: ys) as bs' as' h size := by
  have small := minBlock_pos cfg
  have span := site.span
  have bound := heap.bounds b (by simp)
  have low := heap.bounds h (by simp)
  have sized := heap.size_of_block site (.inl free)
  have after := heap.next_used free
  obtain ⟨front,back,cut⟩ := append_of_mem free
  subst cut
  have taken := heap.take site
  have noWrap : size + memalloc_split_size cfg < space cfg := by omega
  simp only [popBlock, if_neg (heap.free_not_alloc site free), sized, bind_some,
    if_neg (by omega : ¬ b - h < size), wrap_eq noWrap]
  by_cases split : size + memalloc_split_size cfg ≤ b - h
  · obtain ⟨t,result,tiled⟩ := popSplit_keeps (s := State.mk (header_set_alloc cfg
        (mem_list_function_rem cfg s.mem freeEntry (free_root cfg region) h) h region) s.regions)
      site taken (by simp) (.tail h after) large (by omega)
    have checked := tiled.crc_set site (h := h) (by simp)
    have scrambled := checked.scramble_set site size large (Nat.le_refl _)
    simp only [if_pos split, result, map_some]
    refine ⟨_,rfl,_,_,_,tiled.with_lists scrambled,?_⟩
    refine ⟨by simp,fun a member => .tail h member,by grind,?_⟩
    intro c member later
    have order := tiled.between member
    omega
  · have checked := taken.crc_set site (h := h) (by simp)
    have scrambled := checked.scramble_set site size large enough
    simp only [if_neg split, map_some]
    refine ⟨_,rfl,_,_,_,taken.with_lists scrambled,?_⟩
    refine ⟨by simp,fun a member => .tail h member,fun c member => .inl member,?_⟩
    intro c member later
    have order := heap.between member
    omega

theorem firstFit_visit (size : Nat) {sizes : Nat → Nat}
    (known : ∀ f ∈ fs, header_get_size cfg m region f = some (sizes f)) :
    ∃ r, visit (firstFit cfg m region size) fs 0 = some r ∧
      ((r = 0 ∧ ∀ f ∈ fs, sizes f < size) ∨ (r ∈ fs ∧ size ≤ sizes r)) := by
  induction fs with
  | nil => exact ⟨0,rfl,.inl ⟨rfl,by simp⟩⟩
  | cons f fs ih => ?_
  have here := known f (by simp)
  by_cases fit : size ≤ sizes f
  · exact ⟨f,by simp [visit, firstFit, here, fit],.inr ⟨by simp,fit⟩⟩
  · obtain ⟨r,result,spec⟩ := ih fun g member => known g (.tail f member)
    refine ⟨r,by simpa [visit, firstFit, here, fit] using result,?_⟩
    rcases spec with ⟨zero,none_fits⟩ | ⟨member,fits⟩
    · exact .inl ⟨zero,by simpa using ⟨by omega,none_fits⟩⟩
    · exact .inr ⟨.tail f member,fits⟩

theorem bestFit_visit (size : Nat) (best : Nat × Nat) {sizes : Nat → Nat}
    (known : ∀ f ∈ fs, header_get_size cfg m region f = some (sizes f)) (positive : ∀ f ∈ fs, f ≠ 0)
    (sofar : best.1 = 0 ∨ size ≤ sizes best.1) :
    ∃ r, visit (bestFit cfg m region size) fs best = some r ∧
      ((best.1 = 0 ∧ r.1 = 0 ∧ ∀ f ∈ fs, sizes f < size) ∨
        (r.1 ≠ 0 ∧ (r.1 = best.1 ∨ r.1 ∈ fs) ∧ size ≤ sizes r.1)) := by
  induction fs generalizing best with
  | nil =>
    refine ⟨best,rfl,?_⟩
    by_cases zero : best.1 = 0
    · exact .inl ⟨zero,zero,by simp⟩
    · exact .inr ⟨zero,.inl rfl,sofar.resolve_left zero⟩
  | cons f fs ih =>
    have here := known f (by simp)
    have nonzero := positive f (by simp)
    have later := fun g member => known g (.tail f member)
    have positive' := fun g member => positive g (.tail f member)
    by_cases better : size ≤ sizes f ∧ (best.1 = 0 ∨ sizes f < best.2)
    · obtain ⟨r,result,spec⟩ := ih (f, sizes f) later positive' (.inr better.1)
      refine ⟨r,by simpa [visit, bestFit, here, better] using result,.inr ?_⟩
      rcases spec with ⟨zero,_⟩ | ⟨found,origin,fits⟩
      · exact absurd zero nonzero
      · refine ⟨found,.inr ?_,fits⟩
        rcases origin with same | member
        · simp [same]
        · exact .tail f member
    obtain ⟨r,result,spec⟩ := ih best later positive' sofar
    refine ⟨r,by simpa [visit, bestFit, here, better] using result,?_⟩
    rcases spec with ⟨zero,none,small⟩ | ⟨found,origin,fits⟩
    · refine .inl ⟨zero,none,?_⟩
      intro g member
      rcases mem_cons.mp member with rfl | old
      · by_contra large
        exact better ⟨by omega,.inl zero⟩
      · exact small g old
    · refine .inr ⟨found,?_,fits⟩
      rcases origin with same | member
      · exact .inl same
      · exact .inr (.tail f member)

section
variable (site : Site cfg region first last) (heap : Heap cfg region first last m bs fs as)
include site heap

theorem free_length : fs.length < space cfg := by
  have room := header_room cfg
  have positive := cfg.pointers
  have fits := site.last_fits
  have once := (nodup_cons.mp heap.free.once).2
  have inside : fs ⊆ List.range' 1 (space cfg - 1) := by
    intro f member
    have bound := heap.bounds f (heap.listed f member)
    have low := heap.free_pos site (.tail _ member)
    rw [mem_range'_1]
    omega
  have short := once.length_le_of_subset inside
  rw [length_range'] at short
  omega

def sizeIn (cfg : Config) (region : Nat) (m : Nat → Nat) (h : Nat) : Nat :=
  (header_get_size cfg m region h).getD 0

theorem size_known (member : h ∈ fs) :
    header_get_size cfg m region h = some (sizeIn cfg region m h) := by
  obtain ⟨xs,b,ys,rfl⟩ := heap.next_exists (heap.listed h member) (heap.free_ne_last member)
  have sized := heap.size_of_block site (.inl member)
  simp [sizeIn, sized]

theorem candidate_spec (size : Nat) : ∃ r, memory_allocator_candidate cfg m region size = some r ∧
      ((r = 0 ∧ ∀ f ∈ fs, sizeIn cfg region m f < size) ∨
        (r ∈ fs ∧ size ≤ sizeIn cfg region m r)) := by
  have known := fun f (member : f ∈ fs) => size_known site heap member
  have enough := free_length site heap
  unfold memory_allocator_candidate
  by_cases best : cfg.bestfit
  · obtain ⟨r,result,spec⟩ := bestFit_visit size (0, 0) known
      (fun f member => Nat.ne_of_gt (heap.free_pos site (.tail _ member)))
      (.inl rfl)
    refine ⟨r.1,by simp [best, foreach_ring heap.free enough, result],?_⟩
    rcases spec with ⟨_,zero,small⟩ | ⟨found,origin,fits⟩
    · exact .inl ⟨zero,small⟩
    · exact .inr ⟨origin.resolve_left found,fits⟩
  · obtain ⟨r,result,spec⟩ := firstFit_visit size known
    exact ⟨r,by simp [best, foreach_ring heap.free enough, result],spec⟩

end

/-- The real size of a request, computed exactly, is a word. -/
def RealFits (cfg : Config) (size : Nat) : Prop :=
  minBlock cfg + 2 ^ cfg.align * ((size + (2 ^ cfg.align - 1)) / 2 ^ cfg.align) < space cfg

def rounded (cfg : Config) (size : Nat) : Nat :=
  2 ^ cfg.align * ((size + (2 ^ cfg.align - 1)) / 2 ^ cfg.align)

theorem align_small (cfg : Config) : cfg.align ≤ 8 * cfg.ptr := by
  have header := cfg.headerFits
  exact (Nat.pow_le_pow_iff_right (by decide)).mp (by omega : 2 ^ cfg.align ≤ 2 ^ (8 * cfg.ptr))

theorem le_rounded (cfg : Config) (size : Nat) : size ≤ rounded cfg size := by
  have near := Nat.div_add_mod (size + (2 ^ cfg.align - 1)) (2 ^ cfg.align)
  unfold rounded
  omega

theorem real_eq (fits : RealFits cfg size) :
    size_alloc2real cfg size = minBlock cfg + rounded cfg size := by
  have small := align_small cfg
  obtain ⟨units,whole⟩ := Nat.pow_dvd_pow 2 small
  have near := Nat.div_add_mod (size + (2 ^ cfg.align - 1)) (2 ^ cfg.align)
  unfold RealFits space at fits
  have fewer : (size + (2 ^ cfg.align - 1)) / 2 ^ cfg.align < units := by
    apply Nat.lt_of_mul_lt_mul_left (a := 2 ^ cfg.align)
    omega
  have step := Nat.mul_le_mul_left (2 ^ cfg.align) fewer
  rw [Nat.mul_succ] at step
  have aligned : alignValueUp cfg size = rounded cfg size := alignUp_eq small (by omega)
  have exactly : mem_hdr_size_align cfg + guardBytes cfg * 2 + alignValueUp cfg size <
      space cfg := by
    rw [aligned]
    exact fits
  rw [size_alloc2real, wrap_eq exactly, aligned]
  rfl

theorem real_size (fits : RealFits cfg size) : minBlock cfg + size ≤ size_alloc2real cfg size := by
  have large := le_rounded cfg size
  rw [real_eq fits]
  omega

section
variable (site : Site cfg region first last)
include site

theorem pop_keeps (heap : Heap cfg region first last s.mem bs fs as) (fits : RealFits cfg size)
    (page : Nat)
    (served : cfg.pageSize = none ∨
      memory_allocator_candidate cfg s.mem region (size_alloc2real cfg size) ≠ some 0) :
    ∃ r t, memory_allocator_pop cfg s region size page = some (r, t) ∧
      ((r = 0 ∧ t = s ∧ ∀ f ∈ fs, sizeIn cfg region s.mem f < size_alloc2real cfg size) ∨
        ∃ h bs' fs' as', h ∈ fs ∧ r = h + mem_hdr_size_align cfg + guardBytes cfg ∧
          Heap cfg region first last t.mem bs' fs' as' ∧
          Carved bs as bs' as' h (size_alloc2real cfg size)) := by
  obtain ⟨h,found,spec⟩ := candidate_spec site heap (size_alloc2real cfg size)
  have same : popCandidate cfg s region (size_alloc2real cfg size) page = some (h, s) := by
    unfold popCandidate
    rw [found, bind_some]
    cases paged : cfg.pageSize with
    | none => rfl
    | some pageSize => ?_
    have nonzero : h ≠ 0 := by
      rintro rfl
      simp [paged, found] at served
    simp [nonzero]
  simp only [memory_allocator_pop, same, bind_some]
  rcases spec with ⟨rfl,tooSmall⟩ | ⟨free,enough⟩
  · exact ⟨0,s,by simp,.inl ⟨rfl,rfl,tooSmall⟩⟩
  have nonzero := heap.free_pos site (.tail _ free)
  have real := real_size fits
  have room := header_room cfg
  have last_fits := site.last_fits
  obtain ⟨xs,b,ys,rfl⟩ := heap.next_exists (heap.listed h free) (heap.free_ne_last free)
  have step := heap.gap
  have bound := heap.bounds b (by simp)
  have sized := heap.size_of_block site (.inl free)
  have exact_size : sizeIn cfg region s.mem h = b - h := by simp [sizeIn, sized]
  obtain ⟨t,result,bs',fs',as',after,carved⟩ := popBlock_keeps site heap free
    (by omega : minBlock cfg ≤ size_alloc2real cfg size) (by omega)
  refine ⟨h + mem_hdr_size_align cfg + guardBytes cfg,t,?_,.inr
    ⟨h,bs',fs',as',free,rfl,after,carved⟩⟩
  have positive := cfg.pointers
  unfold minBlock at step
  rw [if_neg (by omega), result, map_some, hdr2mem, wrap_eq (by omega)]

/- Giving a block back. -/

theorem absorb_next (heap : Heap cfg region first last m (xs ++ h :: b :: ys) fs as)
    (free : b ∈ fs) :
    ∃ c zs fs', ys = c :: zs ∧ c ∈ as ∧ (∀ f ∈ fs', f ∈ fs) ∧ Heap cfg region first last
        (mem_list_function_rem cfg (mem_list_function_rem cfg m freeEntry (free_root cfg region) b)
          (blockEntry cfg) (block_root cfg region) b) (xs ++ h :: c :: zs) fs' as := by
  have shape : ∀ zs, xs ++ h :: zs = (xs ++ [h]) ++ zs := by simp
  have moved := heap
  rw [shape] at moved
  cases ys with
  | nil => exact absurd moved.ends_at (heap.free_ne_last free)
  | cons c zs => ?_
  have after := moved.next_used free
  obtain ⟨front,back,cut⟩ := append_of_mem free
  subst cut
  have once := heap.free.once
  have gone : b ∉ front ++ back := by grind
  have unmarked : b ∉ as := by
    intro member
    exact (heap.marked b member).2.1 free
  have fewer : ∀ f ∈ front ++ back, f ∈ front ++ b :: back := by grind
  have removed := (moved.remove_free site).remove_block site gone unmarked
  rw [← shape] at removed
  refine ⟨c,zs,front ++ back,rfl,after,fewer,{ removed with
    cover := ?_, starts := ?_, ends := heap.ends, joined := ?_ }⟩
  · intro d block
    have other : d ≠ b := by
      have once := spaced_nodup moved.spaced
      grind
    have known := heap.cover d (by grind)
    grind
  · have start := heap.starts
    have other : first ≠ b := by
      intro same
      have step := heap.gap
      have small := minBlock_pos cfg
      have low := heap.bounds h (by simp)
      omega
    grind
  · intro a ha d hd less
    exact heap.joined a (fewer a ha) d (fewer d hd) less

theorem absorb_frame (heap : Heap cfg region first last m (xs ++ h :: b :: ys) fs as)
    (free : b ∈ fs) (body : Body cfg region (xs ++ h :: b :: ys) x) :
    mem_list_function_rem cfg (mem_list_function_rem cfg m freeEntry (free_root cfg region) b)
      (blockEntry cfg) (block_root cfg region) b x = m x := by
  obtain ⟨front,back,cut⟩ := append_of_mem free
  subst cut
  rw [(heap.remove_free site).remove_block_frame site (by simp) body,
    heap.remove_free_frame site free body]

theorem pushMergeNext_keeps (heap : Heap cfg region first last s.mem (xs ++ h :: b :: ys) fs as) :
    ∃ c zs fs', c ∈ as ∧ (∀ d ∈ xs ++ h :: c :: zs, d ∈ xs ++ h :: b :: ys) ∧
      Heap cfg region first last (pushMergeNext cfg s region b).mem
        (xs ++ h :: c :: zs) fs' as := by
  have nonzero : b ≠ 0 := by
    have bound := heap.bounds b (by simp)
    have positive := site.first_pos
    omega
  rcases heap.cover b (by simp) with free | busy
  · obtain ⟨c,zs,fs',rfl,after,_,absorbed⟩ := absorb_next site heap free
    refine ⟨c,zs,fs',after,by grind,?_⟩
    simpa [pushMergeNext, heap.free_not_alloc site free, nonzero] using absorbed
  · have skip : pushMergeNext cfg s region b = s := by
      simp [pushMergeNext, heap.marked_alloc busy]
    rw [skip]
    exact ⟨b,ys,fs,busy,fun d member => member,heap⟩

end

theorem mem_others : ∀ c ∈ as, c ≠ h → c ∈ as.filter (· ≠ h) := by
  intro c member other
  simp [member, other]

structure Released (bs as bs' as' : List Nat) (h : Nat) : Prop where
  kept : ∀ a ∈ as, a ≠ h → a ∈ as'
  blocks : ∀ c ∈ bs', c ∈ bs

section
variable (site : Site cfg region first last)
include site

theorem free_block (heap : Heap cfg region first last m (xs ++ h :: b :: ys) fs as)
    (used : h ∈ as) (after : b ∈ as) (before : ∀ f ∈ fs, f < h → ∃ c ∈ as, f < c ∧ c < h) :
    Heap cfg region first last (memory_allocator_crc_set cfg
        (mem_list_function_push cfg push m freeEntry (free_root cfg region) h) h)
      (xs ++ h :: b :: ys) (h :: fs) (as.filter (· ≠ h)) := by
  have small := minBlock_pos cfg
  have step := heap.gap
  have bound := heap.bounds b (by simp)
  have lists := ((heap.forget (as.filter (· ≠ h)) (by simp +contextual)).push_free site
    (by simp) (heap.marked h used).2.1 (by simp)).crc_set site (h := h) (by simp)
  have others : ∀ c ∈ as, c ≠ h → c ∈ as.filter (· ≠ h) := mem_others
  refine { lists with cover := ?_, starts := heap.starts, ends := ?_, joined := ?_ }
  · intro c block
    have known := heap.cover c block
    by_cases same : c = h
    · simp [same]
    · rcases known with free | busy
      · exact .inl (.tail h free)
      · exact .inr (others c busy same)
  · exact others last heap.ends (by omega)
  intro c hc d hd less
  rcases mem_cons.mp hc with rfl | oldC
  · rcases mem_cons.mp hd with rfl | oldD
    · omega
    · have place := heap.between (heap.listed d oldD)
      have other : d ≠ b := by
        rintro rfl
        exact (heap.marked d after).2.1 oldD
      exact ⟨b,others b after (by omega),by omega,by omega⟩
  rcases mem_cons.mp hd with rfl | oldD
  · obtain ⟨e,busy,low,high⟩ := before c oldC less
    exact ⟨e,others e busy (by omega),low,high⟩
  · obtain ⟨e,busy,low,high⟩ := heap.joined c oldC d oldD less
    by_cases same : e = h
    · obtain ⟨f,busy',low',high'⟩ := before c oldC (by omega)
      exact ⟨f,others f busy' (by omega),low',by omega⟩
    · exact ⟨e,others e busy same,low,high⟩

theorem join_prev (heap : Heap cfg region first last m (xs ++ a :: h :: b :: ys) fs as)
    (free : a ∈ fs) (used : h ∈ as) (after : b ∈ as) :
    Heap cfg region first last (memory_allocator_crc_set cfg
        (mem_list_function_rem cfg m (blockEntry cfg) (block_root cfg region) h) a)
      (xs ++ a :: b :: ys) fs (as.filter (· ≠ h)) := by
  have small := minBlock_pos cfg
  have shape : ∀ zs, xs ++ a :: zs = (xs ++ [a]) ++ zs := by simp
  have moved := heap
  rw [shape] at moved
  have front := heap.gap
  have back := moved.gap
  have bound := heap.bounds b (by simp)
  have lists := (moved.forget (as.filter (· ≠ h)) (by simp +contextual)).remove_block site
    (heap.marked h used).2.1 (by simp)
  rw [← shape] at lists
  have checked := lists.crc_set site (h := a) (by simp)
  have others : ∀ c ∈ as, c ≠ h → c ∈ as.filter (· ≠ h) := mem_others
  refine { checked with cover := ?_, starts := ?_, ends := ?_, joined := ?_ }
  · intro c block
    have other : c ≠ h := by
      have order := lists.between block
      omega
    have known := heap.cover c (by grind)
    rcases known with listed | busy
    · exact .inl listed
    · exact .inr (others c busy other)
  · have start := heap.starts
    have low := heap.bounds a (by simp)
    grind
  · exact others last heap.ends (by omega)
  intro c hc d hd less
  obtain ⟨e,busy,low,high⟩ := heap.joined c hc d hd less
  by_cases same : e = h
  · have placeC := heap.between (heap.listed c hc)
    have placeD := moved.between (shape _ ▸ heap.listed d hd)
    have otherD : d ≠ b := by
      rintro rfl
      exact (heap.marked d after).2.1 hd
    by_cases first_free : c = a
    · exact ⟨b,others b after (by omega),by omega,by omega⟩
    · obtain ⟨f,busy',low',high'⟩ := heap.joined c hc a free (by omega)
      exact ⟨f,others f busy' (by omega),low',by omega⟩
  · exact ⟨e,others e busy same,low,high⟩

theorem header_of_address (heap : Heap cfg region first last m bs fs as) (used : h ∈ as)
    (inner : h ≠ last) :
    mem2hdr cfg (h + mem_hdr_size_align cfg + guardBytes cfg) = h ∧ load cfg.ptr m h = region ∧
      ¬ (¬ header_is_alloc cfg m h ∨ header_is_endblock cfg m h) := by
  obtain ⟨block,_,_,owner⟩ := heap.marked h used
  obtain ⟨xs,b,ys,rfl⟩ := heap.next_exists block inner
  have step := heap.gap
  have bound := heap.bounds b (by simp)
  have fits := site.last_fits
  unfold minBlock at step
  refine ⟨?_,?_,?_⟩
  · rw [mem2hdr, minus_eq (by omega) (by omega)]
    omega
  · rw [if_neg inner] at owner
    exact owner
  · have alloc := heap.marked_alloc used
    have notEnd := heap.not_endblock site (.inr used) inner
    tauto

theorem push_finish (heap : Heap cfg region first last s.mem (xs ++ h :: b :: ys) fs as)
    (free : h ∈ fs) :
    ∃ t, (header_get_size cfg s.mem region h).map (fun size =>
        (⟨memory_allocator_scramble_set cfg s.mem size h,
          update_region_stats cfg s.regions region 0 0 minusOne⟩ : State)) = some t ∧
      Heap cfg region first last t.mem (xs ++ h :: b :: ys) fs as := by
  have step := heap.gap
  have sized := heap.size_of_block site (.inl free)
  have scrambled := heap.scramble_set site (b - h) (by omega) (by omega)
  rw [sized, map_some]
  exact ⟨_,rfl,heap.with_lists scrambled⟩

theorem push_keeps (heap : Heap cfg region first last s.mem bs fs as) (used : h ∈ as)
    (inner : h ≠ last) :
    ∃ t, memory_allocator_push cfg s (h + mem_hdr_size_align cfg + guardBytes cfg) = some t ∧
      ∃ bs' fs' as', Heap cfg region first last t.mem bs' fs' as' ∧ Released bs as bs' as' h := by
  obtain ⟨header,owner,checks⟩ := header_of_address site heap used inner
  obtain ⟨xs,b,ys,rfl⟩ := heap.next_exists (heap.marked h used).1 inner
  obtain ⟨c,zs,fs',after,fewer,merged⟩ := pushMergeNext_keeps site heap
  have small := minBlock_pos cfg
  have others : ∀ c ∈ as, c ≠ h → c ∈ as.filter (· ≠ h) := mem_others
  have finish := fun alone => push_finish (s := ⟨_, update_region_stats cfg
    (pushMergeNext cfg s region b).regions region 0 1 0⟩) site
    (free_block site merged used after alone) (by simp)
  simp only [memory_allocator_push, header, owner, if_neg checks, heap.next_block]
  rcases eq_nil_or_concat xs with rfl | ⟨ws,z,rfl⟩
  · have alone : ∀ f ∈ fs', f < h → ∃ c ∈ as, f < c ∧ c < h := by
      intro f member less
      have place := merged.listed f member
      have spaced := (pairwise_cons.mp merged.spaced).1
      rcases mem_cons.mp place with rfl | later
      · omega
      · have near := spaced f later
        omega
    obtain ⟨t,result,final⟩ := finish alone
    simp only [heap.prev_of_first, pushMergePrev, ne_eq, not_true_eq_false, false_and, if_false]
    exact ⟨t,result,_,_,_,final,others,fewer⟩
  rw [concat_eq_append] at *
  have shape : ∀ vs, (ws ++ [z]) ++ vs = ws ++ z :: vs := by simp
  rw [shape] at heap merged
  have nonzero : z ≠ 0 := by
    have bound := heap.bounds z (by simp)
    have positive := site.first_pos
    omega
  simp only [heap.prev_block, pushMergePrev]
  rcases merged.cover z (by simp) with free | busy
  · have joined := join_prev site merged free used after
    obtain ⟨t,result,final⟩ := push_finish (s := ⟨_,(pushMergeNext cfg s region b).regions⟩)
      site joined free
    rw [if_pos ⟨nonzero,merged.free_not_alloc site free⟩]
    refine ⟨t,result,_,_,_,final,others,?_⟩
    intro d member
    exact fewer d (by grind)
  have alone : ∀ f ∈ fs', f < h → ∃ c ∈ as, f < c ∧ c < h := by
    intro f member less
    have place := merged.between (merged.listed f member)
    have step := merged.gap
    have other : f ≠ z := by
      rintro rfl
      exact (merged.marked f busy).2.1 member
    exact ⟨z,busy,by omega,by omega⟩
  obtain ⟨t,result,final⟩ := finish alone
  rw [if_neg (by simp [merged.marked_alloc busy])]
  exact ⟨t,result,_,_,_,final,others,fewer⟩

/- Resizing. -/

theorem resizeSplit_keeps (diff : Nat)
    (heap : Heap cfg region first last s.mem (xs ++ h :: b :: ys) fs as) (used : h ∈ as)
    (after : b ∈ as) (large : minBlock cfg ≤ size) (left : h + size + minBlock cfg ≤ b) :
    Heap cfg region first last (resizeSplit cfg s region size h (b - (h + size)) diff).mem
      (xs ++ h :: (h + size) :: b :: ys) ((h + size) :: fs) as ∧
    ∀ x, Body cfg region (xs ++ h :: (h + size) :: b :: ys) x → (x < h ∨ b ≤ x ∨
        h + mem_hdr_size_align cfg + guardBytes cfg ≤ x ∧ x + guardBytes cfg < h + size) →
      (resizeSplit cfg s region size h (b - (h + size)) diff).mem x = s.mem x := by
  have room := header_room cfg
  have fits := site.last_fits
  have positive := cfg.pointers
  have bound := heap.bounds b (by simp)
  have guarded := heap.with_lists (heap.guard_set site size large (by omega))
  obtain ⟨lists,kept⟩ := split_lists site (h + size) guarded (by omega) left
  have shape : xs ++ h :: (h + size) :: b :: ys = (xs ++ [h]) ++ (h + size) :: b :: ys := by simp
  rw [shape] at lists
  have final := (lists.guard_set site (b - (h + size)) (by omega) (by omega)).scramble_set site
    (b - (h + size)) (by omega) (by omega)
  rw [← shape] at final
  simp only [resizeSplit, wrap_eq (by omega : h + size < space cfg)]
  refine ⟨heap.split_used final used after,?_⟩
  intro x body outside
  rw [scramble_frame (by omega) (by omega) (by omega), guard_frame (by omega) (by omega) (by omega),
    kept x body, guard_frame large (by omega) (by omega)]

end

theorem carved_same (heap : Heap cfg region first last m (xs ++ h :: b :: ys) fs as) (used : h ∈ as)
    (enough : h + size ≤ b) :
    Carved (xs ++ h :: b :: ys) as (xs ++ h :: b :: ys) as h size := by
  refine ⟨used,fun a member => member,fun c member => .inl member,?_⟩
  intro c member later
  have order := heap.between member
  omega

theorem carved_split (heap : Heap cfg region first last m (xs ++ h :: (h + size) :: ys) fs as)
    (used : h ∈ as) (more : ∀ c ∈ ys, c ∈ bs) (same : ∀ c ∈ xs ++ [h], c ∈ bs) :
    Carved bs as (xs ++ h :: (h + size) :: ys) as h size := by
  refine ⟨used,fun a member => member,?_,?_⟩
  · intro c member
    grind
  · intro c member later
    have order := heap.between member
    omega

/-- The result of resizing the block `h` to `size` bytes: nothing happened, or the
    block has them. -/
def Resized (cfg : Config) (region first last : Nat) (s : State) (bs as : List Nat)
    (address h size : Nat) (r : Nat) (t : State) : Prop :=
  (r = 0 ∧ t = s) ∨ (r = address ∧ ∃ bs' fs' as',
    Heap cfg region first last t.mem bs' fs' as' ∧ Carved bs as bs' as' h size)

/-- The block `h`, with `b` behind it, is not resized: it should grow and `b` is in use or too
    small, or it should shrink and `b` is free. -/
def Refused (cfg : Config) (region : Nat) (m : Nat → Nat) (fs as : List Nat) (h b size : Nat) :
    Prop :=
  (b - h < size ∧ (b ∈ as ∨ sizeIn cfg region m b < size - (b - h))) ∨ (size < b - h ∧ b ∈ fs)

/-- The same with the reason if nothing happened, and with the bytes of the block that the old and
    the new one share. -/
def Settled (cfg : Config) (region first last : Nat) (s : State) (bs fs as : List Nat)
    (address h b size : Nat) (r : Nat) (t : State) : Prop :=
  (r = 0 ∧ t = s ∧ Refused cfg region s.mem fs as h b size) ∨
  (r = address ∧ ¬ Refused cfg region s.mem fs as h b size ∧
    (∀ x, h + mem_hdr_size_align cfg + guardBytes cfg ≤ x → x + guardBytes cfg < h + size →
      x + guardBytes cfg < b → t.mem x = s.mem x) ∧
    ∃ bs' fs' as', Heap cfg region first last t.mem bs' fs' as' ∧ Carved bs as bs' as' h size)

/-- A byte behind the header of a block in use other than `h`. -/
def Elsewhere (cfg : Config) (last : Nat) (bs as : List Nat) (h x : Nat) : Prop :=
  ∃ d ∈ as, d ≠ h ∧ d + mem_hdr_size_align cfg ≤ x ∧ x < last ∧ ∀ c ∈ bs, d < c → x < c

theorem elsewhere_body (site : Site cfg region first last)
    (heap : Heap cfg region first last m (xs ++ h :: b :: ys) fs as)
    (far : Elsewhere cfg last (xs ++ h :: b :: ys) as h x) :
    Body cfg region (xs ++ h :: b :: ys) x := by
  obtain ⟨d,busy,_,above,inside,below⟩ := far
  have block := (heap.marked d busy).1
  have bound := heap.bounds d block
  have away := site.away
  refine ⟨by omega,?_⟩
  intro c member
  have under := below c member
  omega

section
variable (site : Site cfg region first last)
  (heap : Heap cfg region first last s.mem (xs ++ h :: b :: ys) fs as) (used : h ∈ as)
include site heap used

theorem resizeIntoNext_settled (free : b ∈ fs) (large : minBlock cfg ≤ size)
    (fits : size < space cfg) (other : size ≠ b - h) (address : Nat) :
    ∃ r t, resizeIntoNext cfg s region address size h b (minus cfg size (b - h)) = some (r, t) ∧
      Settled cfg region first last s (xs ++ h :: b :: ys) fs as address h b size r t ∧
      ∀ x, Elsewhere cfg last (xs ++ h :: b :: ys) as h x → t.mem x = s.mem x := by
  have small := minBlock_pos cfg
  have span := site.span
  have low := heap.bounds h (by simp)
  have step := heap.gap
  have idle : b ∉ as := by
    intro busy
    exact (heap.marked b busy).2.1 free
  have kept := fun x body => absorb_frame (x := x) site heap free body
  obtain ⟨c,zs,fs',rfl,after,_,absorbed⟩ := absorb_next site heap free
  have shape : xs ++ h :: b :: c :: zs = (xs ++ [h]) ++ b :: c :: zs := by simp
  have moved := heap
  rw [shape] at moved
  have bound := heap.bounds c (by simp)
  have sized := moved.size_of_block site (.inl free)
  have known : sizeIn cfg region s.mem b = c - b := by simp [sizeIn, sized]
  have beyond : ∀ x, Elsewhere cfg last (xs ++ h :: b :: c :: zs) as h x → x < h ∨ c ≤ x := by
    rintro x ⟨d,busy,other,above,_,below⟩
    have block := (heap.marked d busy).1
    have place := heap.between block
    have place' := moved.between (shape ▸ block)
    have under := below h (by simp)
    have differ : d ≠ b := by
      rintro rfl
      exact idle busy
    omega
  simp only [resizeIntoNext, sized, map_some]
  by_cases grow : b - h < size
  · have diff : minus cfg size (b - h) = size - (b - h) := minus_eq fits (by omega)
    by_cases enough : c - b < size - (b - h)
    · rw [diff, if_pos enough]
      exact ⟨0,s,rfl,.inl ⟨rfl,rfl,.inl ⟨grow,.inr (by omega)⟩⟩,fun _ _ => rfl⟩
    have granted : ¬ Refused cfg region s.mem fs as h b size := by
      rintro (⟨_,busy | short⟩ | ⟨shrink,_⟩)
      · exact idle busy
      · omega
      · omega
    rw [diff, if_neg enough, wrap_eq (by omega)]
    by_cases split : size - (b - h) + memalloc_split_size cfg ≤ c - b
    · have rest : minus cfg (c - b) (size - (b - h)) = c - (h + size) := by
        rw [minus_eq (by omega) (by omega)]
        omega
      obtain ⟨done,same⟩ := resizeSplit_keeps (s := ⟨mem_list_function_rem cfg
        (mem_list_function_rem cfg s.mem freeEntry (free_root cfg region) b) (blockEntry cfg)
        (block_root cfg region) b,s.regions⟩) site (size - (b - h)) absorbed used after large
        (by omega)
      rw [if_pos split, rest]
      refine ⟨_,_,rfl,.inr ⟨rfl,granted,?_,_,_,_,done.with_lists
        (done.crc_set site (h := h) (by simp)),carved_split done used ?_ ?_⟩,?_⟩
      · intro x above below old
        dsimp only
        rw [crc_frame (by omega), same x (done.inside_body site (by omega) (by omega)) (by omega)]
        exact kept x (heap.inside_body site (by omega) (by omega))
      · grind
      · grind
      intro x far
      have body := elsewhere_body site heap far
      have outside := beyond x far
      have header : mem_hdr_size_align cfg ≤ minBlock cfg := Nat.le_add_right _ _
      dsimp only
      rw [crc_frame (body.2 h (by simp)),
        same x (body_with (i := h + size) body (by omega) (by grind)) (by omega)]
      exact kept x body
    · rw [if_neg split]
      have same : Carved _ as _ as h size := carved_same absorbed used (by omega)
      refine ⟨_,_,rfl,.inr ⟨rfl,granted,?_,_,_,_,absorbed.with_lists
        (absorbed.crc_set site (h := h) (by simp)),same.used,same.kept,?_,same.room⟩,?_⟩
      · intro x above below old
        dsimp only
        rw [crc_frame (by omega)]
        exact kept x (heap.inside_body site (by omega) (by omega))
      · grind
      · intro x far
        have body := elsewhere_body site heap far
        dsimp only
        rw [crc_frame (body.2 h (by simp))]
        exact kept x body
  · have diff : minus cfg size (b - h) = size + (space cfg - (b - h)) :=
      Nat.mod_eq_of_lt (by omega)
    rw [diff, if_pos (by omega)]
    exact ⟨0,s,rfl,.inl ⟨rfl,rfl,.inr ⟨by omega,free⟩⟩,fun _ _ => rfl⟩

theorem resizeInPlace_settled (after : b ∈ as) (large : minBlock cfg ≤ size)
    (other : size ≠ b - h) (address : Nat) :
    ∃ r t, resizeInPlace cfg s region address size h (b - h) (minus cfg size (b - h)) = (r, t) ∧
      Settled cfg region first last s (xs ++ h :: b :: ys) fs as address h b size r t ∧
      ∀ x, Elsewhere cfg last (xs ++ h :: b :: ys) as h x → t.mem x = s.mem x := by
  have small := minBlock_pos cfg
  have span := site.span
  have low := heap.bounds h (by simp)
  have bound := heap.bounds b (by simp)
  have busy := (heap.marked b after).2.1
  unfold resizeInPlace
  by_cases grow : b - h ≤ size
  · rw [if_pos grow]
    exact ⟨0,s,rfl,.inl ⟨rfl,rfl,.inl ⟨by omega,.inl after⟩⟩,fun _ _ => rfl⟩
  have granted : ¬ Refused cfg region s.mem fs as h b size := by
    rintro (⟨more,_⟩ | ⟨_,free⟩)
    · omega
    · exact busy free
  rw [if_neg grow, wrap_eq (by omega)]
  by_cases split : size + memalloc_split_size cfg ≤ b - h
  · have diff : minus cfg size (b - h) = size + (space cfg - (b - h)) :=
      Nat.mod_eq_of_lt (by omega)
    have rest : minus cfg 0 (minus cfg size (b - h)) = b - (h + size) := by
      have value : 0 + (space cfg - (size + (space cfg - (b - h)))) = b - (h + size) := by omega
      rw [diff, minus, value, Nat.mod_eq_of_lt (by omega)]
    obtain ⟨done,same⟩ := resizeSplit_keeps site (minus cfg size (b - h)) heap used after large
      (by omega)
    rw [if_pos split, rest]
    refine ⟨_,_,rfl,.inr ⟨rfl,granted,?_,_,_,_,done,carved_split done used ?_ ?_⟩,?_⟩
    · intro x above below _
      exact same x (done.inside_body site (by omega) (by omega)) (by omega)
    · grind
    · grind
    intro x far
    have body := elsewhere_body site heap far
    obtain ⟨d,busy',other,above,_,below⟩ := far
    have place := heap.between (heap.marked d busy').1
    have under := below h (by simp)
    exact same x (body_with (i := h + size) body (by omega) (by grind)) (by omega)
  · rw [if_neg split]
    refine ⟨_,_,rfl,.inr ⟨rfl,granted,fun _ _ _ _ => rfl,_,_,_,heap,
      carved_same heap used (by omega)⟩,fun _ _ => rfl⟩

theorem resize_settled (fits : RealFits cfg size) :
    ∃ r t, memory_allocator_resize cfg s (h + mem_hdr_size_align cfg + guardBytes cfg) size =
        some (r, t) ∧
      Settled cfg region first last s (xs ++ h :: b :: ys) fs as
        (h + mem_hdr_size_align cfg + guardBytes cfg) h b (size_alloc2real cfg size) r t ∧
      ∀ x, Elsewhere cfg last (xs ++ h :: b :: ys) as h x → t.mem x = s.mem x := by
  have real := real_size fits
  have large : minBlock cfg ≤ size_alloc2real cfg size := by omega
  have word : size_alloc2real cfg size < space cfg := Nat.mod_lt _ (Nat.two_pow_pos _)
  have sized := heap.size_of_block site (.inr used)
  have step := heap.gap
  have small := minBlock_pos cfg
  have bound := heap.bounds b (by simp)
  obtain ⟨header,owner,checks⟩ := header_of_address site heap used (by omega)
  simp only [memory_allocator_resize, header, owner, if_neg checks, sized, bind_some,
    heap.next_block]
  by_cases same : size_alloc2real cfg size = b - h
  · have zero : minus cfg (size_alloc2real cfg size) (b - h) = 0 := by
      rw [minus_eq word (by omega), same, Nat.sub_self]
    have granted : ¬ Refused cfg region s.mem fs as h b (size_alloc2real cfg size) := by
      unfold Refused
      omega
    rw [if_pos zero]
    refine ⟨_,_,rfl,.inr ⟨rfl,granted,fun _ _ _ _ => rfl,_,_,_,heap,
      carved_same heap used (by omega)⟩,fun _ _ => rfl⟩
  have nonzero : minus cfg (size_alloc2real cfg size) (b - h) ≠ 0 := by
    by_cases grow : b - h < size_alloc2real cfg size
    · rw [minus_eq word (by omega)]
      omega
    · rw [minus, Nat.mod_eq_of_lt (by omega)]
      omega
  rw [if_neg nonzero]
  rcases heap.cover b (by simp) with free | busy
  · rw [if_pos ⟨by omega,heap.free_not_alloc site free⟩]
    exact resizeIntoNext_settled site heap used free large word same _
  · rw [if_neg (by simp [heap.marked_alloc busy])]
    obtain ⟨r,t,result,spec⟩ := resizeInPlace_settled site heap used busy large same
      (h + mem_hdr_size_align cfg + guardBytes cfg)
    exact ⟨r,t,by rw [result],spec⟩

end

theorem resize_keeps (site : Site cfg region first last)
    (heap : Heap cfg region first last s.mem bs fs as) (used : h ∈ as) (inner : h ≠ last)
    (fits : RealFits cfg size) :
    ∃ r t, memory_allocator_resize cfg s (h + mem_hdr_size_align cfg + guardBytes cfg) size =
        some (r, t) ∧
      Resized cfg region first last s bs as (h + mem_hdr_size_align cfg + guardBytes cfg) h
        (size_alloc2real cfg size) r t := by
  obtain ⟨xs,b,ys,rfl⟩ := heap.next_exists (heap.marked h used).1 inner
  obtain ⟨r,t,result,spec,_⟩ := resize_settled site heap used fits
  refine ⟨r,t,result,?_⟩
  rcases spec with ⟨zero,same,_⟩ | ⟨address,_,_,after⟩
  · exact .inl ⟨zero,same⟩
  · exact .inr ⟨address,after⟩

end
end MutekMemoryAllocatorHeap
