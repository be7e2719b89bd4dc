import MutekH.MemoryAllocatorHeap
import Mathlib.Data.List.Chain

/-!
Runs of the kernel heap. The blocks of a region tile it, the free list holds the
free blocks, and live allocations do not overlap, from its construction on and
after every call whose sizes are words.
-/
namespace MutekMemoryAllocatorInvariant
open Option List LibMachine LibAlign LibMemory LibCircularList MutekMemoryAllocator
open MutekMemoryAllocatorLists
  MutekMemoryAllocatorHeap

/-- The block list is `bs` and the free list `fs`: from the first header to the end
    block in increasing order, so that each block ends where the next one starts,
    with the free list holding each block that is not in use once. -/
structure Tiled (cfg : Config) (s : System) (bs fs : List Nat) : Prop where
  blocks : Ring cfg.ptr s.heap.mem (block_root cfg s.region) (bs.map (· + blockEntry cfg))
  starts : bs.head? = some s.first
  ends : bs.getLast? = some s.last
  closed : header_is_endblock cfg s.heap.mem s.last
  increasing : bs.Pairwise (· < ·)
  sizes : bs.IsChain fun a b => a + mem_hdr_size_align cfg ≤ b
  free : Ring cfg.ptr s.heap.mem (free_root cfg s.region) fs
  exact : ∀ h, h ∈ fs ↔ h ∈ bs ∧ ¬ header_is_alloc cfg s.heap.mem h
  joined : bs.IsChain fun a b =>
    header_is_alloc cfg s.heap.mem a ∨ header_is_alloc cfg s.heap.mem b

structure Kept (cfg : Config) (s : System) : Prop where
  tiled : ∃ bs fs, Tiled cfg s bs fs
  apart : s.live.Pairwise fun x y => x.1 + x.2 ≤ y.1 ∨ y.1 + y.2 ≤ x.1

structure Holds (cfg : Config) (last : Nat) (bs as : List Nat) (live : List (Nat × Nat)) :
    Prop where
  held : ∀ x ∈ live, ∃ a ∈ as, a ≠ last ∧
    x.1 = a + mem_hdr_size_align cfg + guardBytes cfg ∧
    ∀ b ∈ bs, a < b → x.1 + x.2 + guardBytes cfg ≤ b
  once : (live.map Prod.fst).Nodup

structure Inv (cfg : Config) (s : System) : Prop where
  site : Site cfg s.region s.first s.last
  heap : ∃ bs fs as, Heap cfg s.region s.first s.last s.heap.mem bs fs as ∧
    Holds cfg s.last bs as s.live

section
variable {cfg : Config} {s : System} {bs fs as bs' fs' as' : List Nat} {h size : Nat}
  {live : List (Nat × Nat)} {region first last : Nat} {m : Nat → Nat}

/- The property from the invariant. -/

theorem heap_head (heap : Heap cfg region first last m bs fs as) : bs.head? = some first := by
  have start := heap.starts
  cases bs with
  | nil => simp at start
  | cons b bs => ?_
  have low := heap.bounds b (by simp)
  rcases mem_cons.mp start with same | later
  · simp [same]
  · have near := (pairwise_cons.mp heap.spaced).1 first later
    have small := minBlock_pos cfg
    omega

theorem heap_getLast (heap : Heap cfg region first last m bs fs as) : bs.getLast? = some last := by
  rcases eq_nil_or_concat bs with rfl | ⟨xs,b,rfl⟩
  · have start := heap.starts
    simp at start
  · rw [concat_eq_append] at *
    simp [heap.ends_at]

theorem heap_alloc_iff (site : Site cfg region first last)
    (heap : Heap cfg region first last m bs fs as) (block : h ∈ bs) :
    header_is_alloc cfg m h ↔ h ∈ as := by
  constructor
  · intro alloc
    rcases heap.cover h block with free | used
    · exact absurd alloc (heap.free_not_alloc site free)
    · exact used
  · exact heap.marked_alloc

theorem tiled_of_heap (site : Site cfg s.region s.first s.last)
    (heap : Heap cfg s.region s.first s.last s.heap.mem bs fs as) : Tiled cfg s bs fs := by
  have small := minBlock_pos cfg
  refine ⟨heap.blocks,heap_head heap,heap_getLast heap,?_,?_,?_,heap.free,?_,?_⟩
  · have owner := (heap.marked s.last heap.ends).2.2.2
    rwa [if_pos rfl] at owner
  · apply heap.spaced.imp
    intro a b near
    omega
  · apply isChain_iff_forall_rel_of_append_cons_cons.mpr
    rintro a b xs ys rfl
    have step := heap.gap
    unfold minBlock at step
    omega
  · intro h
    constructor
    · intro free
      exact ⟨heap.listed h free,heap.free_not_alloc site free⟩
    · rintro ⟨block,notAlloc⟩
      rw [heap_alloc_iff site heap block] at notAlloc
      exact (heap.cover h block).resolve_right notAlloc
  · apply isChain_iff_forall_rel_of_append_cons_cons.mpr
    rintro a b xs ys rfl
    rw [heap_alloc_iff site heap (by simp), heap_alloc_iff site heap (by simp)]
    rcases heap.cover a (by simp) with free | used
    · exact .inr (heap.next_used free)
    · exact .inl used

theorem holds_apart (heap : Heap cfg region first last m bs fs as)
    (holds : Holds cfg last bs as live) :
    live.Pairwise fun x y => x.1 + x.2 ≤ y.1 ∨ y.1 + y.2 ≤ x.1 := by
  have distinct : live.Pairwise fun x y => x.1 ≠ y.1 := pairwise_map.mp holds.once
  apply distinct.imp_of_mem
  intro x y hx hy other
  obtain ⟨a,usedA,_,atA,insideA⟩ := holds.held x hx
  obtain ⟨b,usedB,_,atB,insideB⟩ := holds.held y hy
  have fromA := insideA b (heap.marked b usedB).1
  have fromB := insideB a (heap.marked a usedA).1
  omega

theorem kept_of_inv (inv : Inv cfg s) : Kept cfg s := by
  obtain ⟨bs,fs,as,heap,holds⟩ := inv.heap
  exact ⟨⟨bs,fs,tiled_of_heap inv.site heap⟩,holds_apart heap holds⟩

/- The calls. -/

def InDomain (cfg : Config) (s : System) : Act → Prop
  | .pop size _ => RealFits cfg size ∧ (cfg.pageSize = none ∨
      memory_allocator_candidate cfg s.heap.mem s.region (size_alloc2real cfg size) ≠ some 0)
  | .resize _ size => RealFits cfg size
  | .push _ => True
  | .write _ _ => True

theorem held_carved (heap : Heap cfg region first last m bs' fs' as') (block : h ∈ bs)
    (carved : Carved bs as bs' as' h size) {x : Nat × Nat} {a : Nat} (used : a ∈ as) (other : a ≠ h)
    (inside : ∀ b ∈ bs, a < b → x.1 + x.2 + guardBytes cfg ≤ b) :
    ∀ b ∈ bs', a < b → x.1 + x.2 + guardBytes cfg ≤ b := by
  intro b member later
  rcases carved.blocks b member with old | cut
  · exact inside b old later
  · have cutAbove := carved.room a (heap.marked a (carved.kept a used)).1
    have toH := inside h block
    omega

theorem holds_pop (heap : Heap cfg region first last m bs' fs' as')
    (holds : Holds cfg last bs as live) (block : h ∈ bs) (idle : h ∉ as) (inner : h ≠ last)
    (fits : RealFits cfg size) (carved : Carved bs as bs' as' h (size_alloc2real cfg size)) :
    Holds cfg last bs' as' ((h + mem_hdr_size_align cfg + guardBytes cfg, size) :: live) := by
  have real := real_size fits
  unfold minBlock at real
  constructor
  · intro x member
    rcases mem_cons.mp member with rfl | old
    · refine ⟨h,carved.used,inner,rfl,?_⟩
      intro b blockB later
      have above := carved.room b blockB later
      omega
    · obtain ⟨a,used,innerA,atA,inside⟩ := holds.held x old
      have other : a ≠ h := by
        rintro rfl
        exact idle used
      exact ⟨a,carved.kept a used,innerA,atA,held_carved heap block carved used other inside⟩
  · rw [map_cons, nodup_cons]
    refine ⟨?_,holds.once⟩
    intro member
    obtain ⟨x,old,same⟩ := mem_map.mp member
    obtain ⟨a,used,_,atA,_⟩ := holds.held x old
    have here : a = h := by omega
    exact idle (here ▸ used)

theorem holds_push (holds : Holds cfg last bs as live) (released : Released bs as bs' as' h) :
    Holds cfg last bs' as'
      (live.filter fun x => x.1 ≠ h + mem_hdr_size_align cfg + guardBytes cfg) := by
  constructor
  · intro x member
    obtain ⟨old,other⟩ := mem_filter.mp member
    obtain ⟨a,used,inner,atA,inside⟩ := holds.held x old
    have otherA : a ≠ h := by
      rintro rfl
      simp [atA] at other
    refine ⟨a,released.kept a used otherA,inner,atA,?_⟩
    intro b block
    exact inside b (released.blocks b block)
  · exact holds.once.sublist (filter_sublist.map _)

theorem holds_resize (heap : Heap cfg region first last m bs' fs' as')
    (holds : Holds cfg last bs as live) (block : h ∈ bs) (inner : h ≠ last)
    (fits : RealFits cfg size) (carved : Carved bs as bs' as' h (size_alloc2real cfg size)) :
    Holds cfg last bs' as' (live.map fun x =>
      if x.1 = h + mem_hdr_size_align cfg + guardBytes cfg then
        (h + mem_hdr_size_align cfg + guardBytes cfg, size) else x) := by
  have real := real_size fits
  unfold minBlock at real
  constructor
  · intro y member
    obtain ⟨x,old,rfl⟩ := mem_map.mp member
    by_cases same : x.1 = h + mem_hdr_size_align cfg + guardBytes cfg
    · rw [if_pos same]
      refine ⟨h,carved.used,inner,rfl,?_⟩
      intro b blockB later
      have above := carved.room b blockB later
      omega
    rw [if_neg same]
    obtain ⟨a,used,innerA,atA,inside⟩ := holds.held x old
    have other : a ≠ h := by
      rintro rfl
      exact same atA
    exact ⟨a,carved.kept a used,innerA,atA,held_carved heap block carved used other inside⟩
  · have addresses : (live.map fun x =>
        if x.1 = h + mem_hdr_size_align cfg + guardBytes cfg then
          (h + mem_hdr_size_align cfg + guardBytes cfg, size) else x).map Prod.fst =
        live.map Prod.fst := by
      rw [List.map_map]
      apply map_congr_left
      intro x _
      simp only [Function.comp_apply]
      split
      · exact Eq.symm ‹_›
      · rfl
    rw [addresses]
    exact holds.once

/-- Every header is an old one, or stands the real size of a request behind an old one. -/
def Grown (cfg : Config) (bs bs' : List Nat) : Prop :=
  ∀ c ∈ bs', c ∈ bs ∨ ∃ h ∈ bs, ∃ size, RealFits cfg size ∧ c = h + size_alloc2real cfg size

theorem grown_same (bs : List Nat) : Grown cfg bs bs := by
  intro c member
  exact .inl member

theorem grown_carved (block : h ∈ bs) (fits : RealFits cfg size)
    (carved : Carved bs as bs' as' h (size_alloc2real cfg size)) : Grown cfg bs bs' := by
  intro c member
  rcases carved.blocks c member with old | new
  · exact .inl old
  · exact .inr ⟨h,block,size,fits,new⟩

structure Shaped (cfg : Config) (s : System) (bs fs as : List Nat) : Prop where
  site : Site cfg s.region s.first s.last
  heap : Heap cfg s.region s.first s.last s.heap.mem bs fs as
  holds : Holds cfg s.last bs as s.live

section
variable (shaped : Shaped cfg s bs fs as)
include shaped

theorem pop_step {page : Nat} (dom : InDomain cfg s (.pop size page)) :
    (operate cfg s (.pop size page)).isSome ∧ ∃ bs' fs' as',
      Shaped cfg ((machine cfg).next s (.pop size page)) bs' fs' as' ∧ Grown cfg bs bs' := by
  obtain ⟨site,heap,holds⟩ := shaped
  obtain ⟨r,t,result,spec⟩ := pop_keeps site heap dom.1 page dom.2
  simp only [machine, operate, result, allocations, isSome_some, true_and]
  rcases spec with ⟨rfl,rfl,_⟩ | ⟨h,bs',fs',as',free,rfl,after,carved⟩
  · exact ⟨bs,fs,as,⟨site,heap,by simpa using holds⟩,grown_same bs⟩
  have idle : h ∉ as := by
    intro used
    exact (heap.marked h used).2.1 free
  have nonzero := heap.free_pos site (.tail _ free)
  have block := heap.listed h free
  rw [if_neg (by omega)]
  exact ⟨bs',fs',as',⟨site,after,holds_pop after holds block idle
    (heap.free_ne_last free) dom.1 carved⟩,grown_carved block dom.1 carved⟩

theorem push_step (can : CanCall s (.push address)) :
    (operate cfg s (.push address)).isSome ∧ ∃ bs' fs' as',
      Shaped cfg ((machine cfg).next s (.push address)) bs' fs' as' ∧ Grown cfg bs bs' := by
  obtain ⟨site,heap,holds⟩ := shaped
  obtain ⟨x,alive,rfl⟩ := mem_map.mp can
  obtain ⟨h,used,inner,atH,_⟩ := holds.held x alive
  obtain ⟨t,result,bs',fs',as',after,released⟩ := push_keeps site heap used inner
  simp only [machine, operate, atH, result, map_some, isSome_some, true_and]
  refine ⟨bs',fs',as',⟨site,after,holds_push holds released⟩,?_⟩
  intro c member
  exact .inl (released.blocks c member)

theorem resize_step (can : CanCall s (.resize address size))
    (dom : InDomain cfg s (.resize address size)) :
    (operate cfg s (.resize address size)).isSome ∧ ∃ bs' fs' as',
      Shaped cfg ((machine cfg).next s (.resize address size)) bs' fs' as' ∧ Grown cfg bs bs' := by
  obtain ⟨site,heap,holds⟩ := shaped
  obtain ⟨x,alive,rfl⟩ := mem_map.mp can
  obtain ⟨h,used,inner,atH,_⟩ := holds.held x alive
  obtain ⟨r,t,result,spec⟩ := resize_keeps site heap used inner dom
  have block := (heap.marked h used).1
  have low := heap.bounds h block
  have positive := site.first_pos
  simp only [machine, operate, atH, result, allocations, isSome_some, true_and]
  rcases spec with ⟨rfl,rfl⟩ | ⟨rfl,bs',fs',as',after,carved⟩
  · exact ⟨bs,fs,as,⟨site,heap,by simpa using holds⟩,grown_same bs⟩
  · rw [if_neg (by omega)]
    exact ⟨bs',fs',as',⟨site,after,holds_resize after holds block inner dom carved⟩,
      grown_carved block dom carved⟩

theorem write_step (can : CanCall s (.write address byte)) :
    (operate cfg s (.write address byte)).isSome ∧ ∃ bs' fs' as',
      Shaped cfg ((machine cfg).next s (.write address byte)) bs' fs' as' ∧ Grown cfg bs bs' := by
  obtain ⟨site,heap,holds⟩ := shaped
  obtain ⟨x,alive,from_x,to_x⟩ := can
  obtain ⟨h,used,inner,atH,inside⟩ := holds.held x alive
  obtain ⟨xs,b,ys,rfl⟩ := heap.next_exists (heap.marked h used).1 inner
  have step := heap.gap
  have small := minBlock_pos cfg
  have ahead := inside b (by simp) (by omega)
  have written := heap.body site (n := fill s.heap.mem address byte 1) (by
    intro x outside
    exact fill_outside (by omega))
  simp only [operate, isSome_some, true_and]
  exact ⟨_,fs,as,⟨site,heap.with_lists written,holds⟩,grown_same _⟩

theorem shaped_step (can : CanCall s a) (dom : InDomain cfg s a) :
    (operate cfg s a).isSome ∧ ∃ bs' fs' as',
      Shaped cfg ((machine cfg).next s a) bs' fs' as' ∧ Grown cfg bs bs' := by
  cases a with
  | pop size page => exact pop_step shaped dom
  | push address => exact push_step shaped can
  | resize address size => exact resize_step shaped can dom
  | write address byte => exact write_step shaped can

end

theorem step_keeps (inv : Inv cfg s) (can : CanCall s a) (dom : InDomain cfg s a) :
    (operate cfg s a).isSome ∧ Inv cfg ((machine cfg).next s a) := by
  obtain ⟨bs,fs,as,heap,holds⟩ := inv.heap
  obtain ⟨returns,bs',fs',as',shaped,_⟩ := shaped_step ⟨inv.site,heap,holds⟩ can dom
  exact ⟨returns,shaped.site,bs',fs',as',shaped.heap,shaped.holds⟩

/- Construction. -/

theorem initRegion_keeps (site : Site cfg region first last) (large : first + minBlock cfg ≤ last)
    (strict : first + mem_hdr_size_align cfg < last) (before : State) :
    ∃ t, initRegion cfg before region first last = some t ∧
      Heap cfg region first last t.mem [first, last] [first] [last] := by
  have room := header_room cfg
  have positive := cfg.pointers
  have fits := site.last_fits
  have size : minus cfg last first = last - first := minus_eq (by omega) (by omega)
  have lists := ((Lists.start site before.mem large).crc_set site (h := last) (by simp)).crc_set
    site (h := first) (by simp)
  have shape : ([first, last] : List Nat) = [] ++ first :: last :: [] := rfl
  rw [shape] at lists
  have sized := lists.size_of_block site (.inl (by simp))
  have filled := (lists.scramble_set site (last - first) (by omega) (by omega)).guard_set site
    (last - first) (by omega) (by omega)
  simp only [initRegion, size, if_neg (by omega : ¬ last - first ≤ mem_hdr_size_align cfg), sized,
    map_some]
  refine ⟨_,rfl,{ filled with cover := ?_, starts := ?_, ends := ?_, joined := ?_ }⟩
  · simp
  · simp
  · simp
  · intro a ha b hb less
    rw [mem_singleton] at ha hb
    omega

def firstHeader (cfg : Config) (container : Option Nat) (start : Nat) : Nat :=
  alignValueUp cfg start + if container = none then region_hdr_size cfg else 0

/-- The range given to `memory_allocator_init` has room for a block and the end block
    next to the region structure, and leaves room for size computations. -/
structure InitFits (cfg : Config) (container : Option Nat) (region start finish : Nat) : Prop where
  region_pos : 0 < region
  region_fits : region + regionSize cfg ≤ space cfg
  first_pos : 0 < firstHeader cfg container start
  finish_fits : alignValueLow cfg finish < space cfg
  away : region + regionSize cfg ≤ firstHeader cfg container start ∨
    alignValueLow cfg finish ≤ region
  large : firstHeader cfg container start + minBlock cfg + mem_hdr_size_align cfg ≤
    alignValueLow cfg finish
  strict : firstHeader cfg container start + mem_hdr_size_align cfg + mem_hdr_size_align cfg <
    alignValueLow cfg finish
  span : alignValueLow cfg finish + 16 + cfg.guardSize * 2 <
    firstHeader cfg container start + space cfg

variable {container : Option Nat} {start finish page : Nat}

theorem initPlace_first (place : initPlace cfg before container (alignValueUp cfg start) page =
      some (region, first, placed))
    (small : firstHeader cfg container start < space cfg) :
    first = firstHeader cfg container start := by
  cases container with
  | none =>
    simp only [initPlace, some.injEq, Prod.mk.injEq] at place
    simp only [firstHeader, if_true] at small ⊢
    rw [← place.2.1, wrap_eq small]
  | some c =>
    simp only [initPlace, map_eq_some_iff, Prod.mk.injEq] at place
    obtain ⟨_,_,_,same,_⟩ := place
    simp [firstHeader, same]

section
variable (boot : Boot cfg container start finish page s)
  (fits : InitFits cfg container s.region start finish)
include boot fits

theorem boot_shaped : s.first = firstHeader cfg container start ∧
      s.last = alignValueLow cfg finish - mem_hdr_size_align cfg ∧
      Shaped cfg s [s.first, s.last] [s.first] [s.last] := by
  obtain ⟨before,placed,place,built,ending,empty⟩ := boot
  have finishFits := fits.finish_fits
  have large := fits.large
  have strict := fits.strict
  have span := fits.span
  have firstAt : s.first = firstHeader cfg container start := initPlace_first place (by omega)
  have lastAt : s.last = alignValueLow cfg finish - mem_hdr_size_align cfg := by
    rw [ending, initEnd, minus_eq finishFits (by omega)]
  have site : Site cfg s.region s.first s.last := by
    refine ⟨fits.region_pos,fits.region_fits,firstAt ▸ fits.first_pos,by omega,?_,?_⟩
    · have away := fits.away
      omega
    · unfold memalloc_split_size
      omega
  obtain ⟨t,result,heap⟩ := initRegion_keeps site (by omega) (by omega) placed
  have same : t = s.heap := by
    simp only [memory_allocator_init, place, bind_some, ← ending, result, map_some,
      some.injEq, Prod.mk.injEq, true_and] at built
    exact built
  subst same
  refine ⟨firstAt,lastAt,site,heap,?_,?_⟩
  · simp [empty]
  · simp [empty]

theorem boot_inv : Inv cfg s := by
  obtain ⟨_,_,shaped⟩ := boot_shaped boot fits
  exact ⟨shaped.site,_,_,_,shaped.heap,shaped.holds⟩

end

/-- Every region whose construction fits keeps its representation over every run of
    calls in the domain, and each such call returns. -/
theorem heap_kept_in_domain {first : System} {calls : List Act}
    (boot : Boot cfg container start finish page first)
    (fits : InitFits cfg container first.region start finish)
    (run : Run (restrict (machine cfg) (InDomain cfg)) first calls s) :
    Kept cfg s ∧ ∀ a, CanCall s a → InDomain cfg s a → (operate cfg s a).isSome := by
  have keep : ∀ s a, Inv cfg s → (restrict (machine cfg) (InDomain cfg)).enabled s a →
      Inv cfg ((machine cfg).next s a) := by
    intro s a inv ⟨⟨can,_⟩,dom⟩
    exact (step_keeps inv can dom).2
  have inv : Inv cfg s := run_invariant (Inv cfg) keep run (boot_inv boot fits)
  refine ⟨kept_of_inv inv,?_⟩
  intro a can dom
  exact (step_keeps inv can dom).1

/- A request whose real size wraps to 0. -/

theorem crc_set_off (plain : cfg.crc = none) : memory_allocator_crc_set cfg m h = m := by
  simp [memory_allocator_crc_set, plain]

theorem self_loop_not_kept
    (loop : next cfg.ptr s.heap.mem (s.first + blockEntry cfg) = s.first + blockEntry cfg) :
    ¬ Kept cfg s := by
  rintro ⟨⟨bs,fs,tiled⟩,_⟩
  have start := tiled.starts
  have ring := tiled.blocks
  cases bs with
  | nil => simp at start
  | cons b rest => ?_
  simp only [List.head?_cons, some.injEq] at start
  subst start
  have split : (s.first :: rest).map (· + blockEntry cfg) =
      [] ++ (s.first + blockEntry cfg) :: rest.map (· + blockEntry cfg) := rfl
  rw [split] at ring
  have after := ring_next_back ring
  have once := ring.once
  grind

/-- Split at offset 0, the block is linked behind itself. -/
theorem split_at_zero (site : Site cfg region first last) (plain : cfg.crc = none)
    (heap : Heap cfg region first last m [h, last] [] as) :
    let n := mem_list_function_push cfg push
      (mem_list_function_ins cfg m (blockEntry cfg) (block_root cfg region) h h)
      freeEntry (free_root cfg region) h
    next cfg.ptr n (h + blockEntry cfg) = h + blockEntry cfg ∧
      header_get_size cfg n region h = some 0 := by
  have entriesOk := heap.entries_ok site
  have node : h + blockEntry cfg ∈ entries cfg region [h, last] := entry_mem_entries (by simp)
  have here : h ∈ entries cfg region [h, last] := block_mem_entries (by simp)
  have root : free_root cfg region ∈ entries cfg region [h, last] := .inl rfl
  have fits := entriesOk.fits _ node
  have far : ∀ z ∈ free_root cfg region :: [h, last], z ≠ h + blockEntry cfg := by
    intro z hz
    exact heap.free_ne_block site hz (by simp)
  have ahead : next cfg.ptr m (h + blockEntry cfg) ∈ entries cfg region [h, last] :=
    heap.blocks_inside _ (ring_next_mem heap.blocks (by simp))
  have aheadFits := entriesOk.fits _ ahead
  have looped : ∀ z ∈ entries cfg region [h, last],
      next cfg.ptr (insertPost cfg.ptr m (h + blockEntry cfg) (h + blockEntry cfg)) z =
        if z = h + blockEntry cfg then h + blockEntry cfg else next cfg.ptr m z := by
    intro z hz
    simp only [insertPost, next_setNext entriesOk, next_setPrev entriesOk, node, hz, fits, ahead,
      aheadFits, if_true]
    grind
  have rootNext : next cfg.ptr m (free_root cfg region) = free_root cfg region := heap.free.linked.1
  have rootLooped := looped _ root
  rw [if_neg (far _ (by simp)), rootNext] at rootLooped
  have links := fun z (hz : z ∈ entries cfg region [h, last]) =>
    push_links entriesOk root (rootLooped ▸ root) here hz
  intro n
  have shape : n = push cfg.ptr (insertPost cfg.ptr m (h + blockEntry cfg) (h + blockEntry cfg))
      (free_root cfg region) h := by
    simp [n, mem_list_function_push, mem_list_function_ins, crcSetIfAny,
      crc_set_off plain, freeEntry]
  have self : next cfg.ptr n (h + blockEntry cfg) = h + blockEntry cfg := by
    rw [shape, (links _ node).1, if_neg (far _ (by simp)).symm, if_neg (far _ (by simp)).symm,
      looped _ node, if_pos rfl]
  have word : ¬ header_is_endblock cfg n h := by
    change next cfg.ptr n h ≠ 0
    rw [shape, (links h here).1, if_neg (heap.root_not_block site (by simp)), if_pos rfl]
    have positive := heap.free_pos site (a := free_root cfg region) (by simp)
    omega
  have notRoot : h + blockEntry cfg ≠ block_root cfg region := by
    have once := heap.blocks.once
    grind
  have low := heap.bounds h (by simp)
  have last_fits := site.last_fits
  have room := header_room cfg
  have pointers := cfg.pointers
  refine ⟨self,?_⟩
  rw [header_get_size, if_neg word, block_list_next, listNext, self]
  simp only [if_neg notRoot, Nat.add_sub_cancel]
  rw [minus_eq (by omega) (Nat.le_refl h), Nat.sub_self]

theorem pop_zero (site : Site cfg region first last) (plain : cfg.crc = none)
    (unguarded : cfg.guard = false) (unscrambled : cfg.scramble = false)
    (unpaged : cfg.pageSize = none)
    (tiles : Heap cfg region first last heap.mem ([] ++ h :: last :: []) [h] [last])
    (large : memalloc_split_size cfg ≤ last - h) (zero : size_alloc2real cfg size = 0)
    (page : Nat) :
    ∃ r t, memory_allocator_pop cfg heap region size page = some (r, t) ∧
      next cfg.ptr t.mem (h + blockEntry cfg) = h + blockEntry cfg := by
  have room := header_room cfg
  have last_fits := site.last_fits
  have low := tiles.bounds h (by simp)
  have pointers := cfg.pointers
  have free : h ∈ [h] := by simp
  have sized := tiles.size_of_block site (.inl free)
  have notAlloc := tiles.free_not_alloc site free
  have positive := tiles.free_pos site (.tail _ free)
  have found : memory_allocator_candidate cfg heap.mem region 0 = some h := by
    obtain ⟨r,result,spec⟩ := candidate_spec site tiles 0
    rcases spec with ⟨_,small⟩ | ⟨member,_⟩
    · exact absurd (small h free) (Nat.not_lt_zero _)
    · rw [result, mem_singleton.mp member]
  have alone : [h] = [] ++ h :: [] := rfl
  rw [alone] at tiles
  obtain ⟨loop,size0⟩ := split_at_zero site plain (tiles.take site)
  simp only [memory_allocator_pop, popCandidate, zero, found, bind_some, unpaged,
    if_neg (by omega : ¬ h = 0), popBlock, if_neg notAlloc, sized, Nat.zero_add,
    wrap_eq (by omega : memalloc_split_size cfg < space cfg), if_pos large, popSplit, Nat.add_zero,
    wrap_eq (by omega : h < space cfg), crc_set_off plain, size0, memory_allocator_guard_set,
    memory_allocator_scramble_set, unguarded, unscrambled]
  exact ⟨_,_,rfl,loop⟩

end

/-- A 32 bits build with the default alignment, without debug options and statistics. -/
def build32 : Config where
  ptr := 4
  align := 5
  crc := none
  guard := false
  guardSize := 256
  scramble := false
  stats := false
  bestfit := false
  pageSize := none
  lockSize := 4
  pointers := by decide
  headerFits := by decide
  regionFits := by decide

theorem build32_fits : InitFits build32 none 0x1000 0x1000 0x3000 :=
  ⟨by decide, by decide, by decide, by decide, by decide, by decide, by decide, by decide⟩

theorem build32_site : Site build32 0x1000 0x1020 0x2fe0 :=
  ⟨by decide, by decide, by decide, by decide, by decide, by decide⟩

theorem build32_boot : ∃ first : System, Boot build32 none 0x1000 0x3000 0 first ∧
    first.region = 0x1000 ∧ first.first = 0x1020 ∧ first.last = 0x2fe0 ∧ first.live = [] ∧
    Heap build32 0x1000 0x1020 0x2fe0 first.heap.mem [0x1020, 0x2fe0] [0x1020] [0x2fe0] := by
  let before : State := ⟨fun _ => 0,fun _ => ⟨0,0,0,0⟩⟩
  obtain ⟨t,result,heap⟩ := initRegion_keeps build32_site (by decide) (by decide) before
  have place : initPlace build32 before none (alignValueUp build32 0x1000) 0 =
      some (0x1000, 0x1020, before) := by
    have aligned : alignValueUp build32 0x1000 = 0x1000 := by decide
    have after : wrap build32 (0x1000 + region_hdr_size build32) = 0x1020 := by decide
    simp only [initPlace, aligned, after]
  refine ⟨⟨t,0x1000,0x1020,0x2fe0,[]⟩,⟨before,before,place,?_,rfl,rfl⟩,
    rfl,rfl,rfl,rfl,heap⟩
  have ending : initEnd build32 0x3000 = 0x2fe0 := by decide
  simp only [memory_allocator_init, place, bind_some, ending, result, map_some]

theorem heap_kept_in_domain_pop : ∃ first s : System,
    Run (restrict (machine build32) (InDomain build32)) first [.pop 64 0] s ∧
    s.live = [(0x1040, 64)] ∧ Kept build32 s := by
  obtain ⟨first,boot,region,_,_,empty,heap⟩ := build32_boot
  have fits : InitFits build32 none first.region 0x1000 0x3000 := region ▸ build32_fits
  have dom : InDomain build32 first (.pop 64 0) := ⟨by unfold RealFits; decide,.inl rfl⟩
  have can : CanCall first (.pop 64 0) := trivial
  have run : Run (restrict (machine build32) (InDomain build32)) first [.pop 64 0]
      ((machine build32).next first (.pop 64 0)) :=
    Run.cons ⟨⟨can,(step_keeps (boot_inv boot fits) can dom).1⟩,dom⟩ (Run.nil _)
  refine ⟨first,_,run,?_,(heap_kept_in_domain boot fits run).1⟩
  obtain ⟨r,t,result,spec⟩ := pop_keeps build32_site heap dom.1 0 (.inl rfl)
  simp only [machine, operate, region, result, empty]
  rcases spec with ⟨_,_,small⟩ | ⟨h,_,_,_,free,address,_,_⟩
  · have shape : ([0x1020, 0x2fe0] : List Nat) = [] ++ 0x1020 :: 0x2fe0 :: [] := rfl
    rw [shape] at heap
    have short := small 0x1020 (by simp)
    rw [sizeIn, heap.size_of_block build32_site (.inl (by simp)), getD_some] at short
    exact absurd short (by decide)
  · rw [mem_singleton] at free
    rw [address, free]
    rfl

/-- The real size of a request of `0xffffffe0` bytes is 0: the block is handed out,
    linked behind itself in the block list. -/
theorem wrapped_pop_loops : ∃ first s : System, Boot build32 none 0x1000 0x3000 0 first ∧
    InitFits build32 none first.region 0x1000 0x3000 ∧
    Run (machine build32) first [.pop 0xffffffe0 0] s ∧
    s.first = 0x1020 ∧ next 4 s.heap.mem (0x1020 + 8) = 0x1020 + 8 ∧ ¬ Kept build32 s := by
  obtain ⟨first,boot,region,start,_,_,heap⟩ := build32_boot
  have fits : InitFits build32 none first.region 0x1000 0x3000 := region ▸ build32_fits
  obtain ⟨r,t,result,loop⟩ := pop_zero build32_site rfl rfl rfl rfl heap (by decide)
    (by decide : size_alloc2real build32 0xffffffe0 = 0) 0
  rw [← region] at result
  have next_s : (machine build32).next first (.pop 0xffffffe0 0) =
      { first with heap := t, live := allocations first.live r (.pop 0xffffffe0 0) } := by
    simp [machine, operate, result]
  have returns : (operate build32 first (.pop 0xffffffe0 0)).isSome := by
    simp [operate, result]
  refine ⟨first,_,boot,fits,Run.cons ⟨trivial,returns⟩ (Run.nil _),?_⟩
  rw [next_s]
  exact ⟨start,loop,self_loop_not_kept (start.symm ▸ loop)⟩

end MutekMemoryAllocatorInvariant
