import MutekH.MemoryAllocator

/-!
The two lists of a region in memory. `Lists` says which headers the block list
and the free list hold and which of the others are marked as in use; each list
function of the allocator is one lemma about it, and writes to memory that is
in no list entry keep it.
-/
namespace MutekMemoryAllocatorLists
open List LibAlign LibMemory LibCircularList MutekMemoryAllocator

section
variable (cfg : Config)

def minBlock : Nat := mem_hdr_size_align cfg + guardBytes cfg * 2

/-- The place of a region: its structure and its blocks, from the header `first` to the header
    `last`, lie in memory and apart, and the blocks leave room for size computations. -/
structure Site (region first last : Nat) : Prop where
  region_pos : 0 < region
  region_fits : region + regionSize cfg ≤ space cfg
  first_pos : 0 < first
  last_fits : last + mem_hdr_size_align cfg ≤ space cfg
  away : region + regionSize cfg ≤ first ∨ last + mem_hdr_size_align cfg ≤ region
  span : last + memalloc_split_size cfg < first + space cfg

def entries (region : Nat) (bs : List Nat) : Set Nat :=
  { z | z = free_root cfg region ∨ z = block_root cfg region ∨ z ∈ bs ∨
    ∃ h ∈ bs, z = h + blockEntry cfg }

/-- The block list holds `bs` and the free list `fs`; the headers `as` are marked as
    in use, by `region` or as its end block `last`. -/
structure Lists (region first last : Nat) (m : Nat → Nat) (bs fs as : List Nat) : Prop where
  blocks : Ring cfg.ptr m (block_root cfg region) (bs.map (· + blockEntry cfg))
  free : Ring cfg.ptr m (free_root cfg region) fs
  spaced : bs.Pairwise fun a b => a + minBlock cfg ≤ b
  bounds : ∀ h ∈ bs, first ≤ h ∧ h ≤ last
  listed : ∀ h ∈ fs, h ∈ bs
  marked : ∀ h ∈ as, h ∈ bs ∧ h ∉ fs ∧ prev cfg.ptr m h = 0 ∧
    next cfg.ptr m h = if h = last then 0 else region

end

section
variable {cfg : Config} {region first last : Nat} {m n : Nat → Nat} {bs fs as xs ys : List Nat}
  {h a b : Nat}

theorem header_room (cfg : Config) :
    4 * cfg.ptr ≤ mem_hdr_size cfg ∧ mem_hdr_size cfg ≤ mem_hdr_size_align cfg ∧
    memalloc_split_size cfg < space cfg := by
  have fits := cfg.headerFits
  have size : mem_hdr_size cfg ≤ 4 * cfg.ptr + max 4 cfg.ptr := by
    unfold mem_hdr_size
    split <;> omega
  have small : cfg.align ≤ 8 * cfg.ptr := by
    exact (Nat.pow_le_pow_iff_right (by decide)).mp (by omega : 2 ^ cfg.align ≤ 2 ^ (8 * cfg.ptr))
  have near := le_alignUp (x := mem_hdr_size cfg) small (by omega)
  unfold memalloc_split_size mem_hdr_size_align alignValueUp space
  refine ⟨?_,near.1,by omega⟩
  unfold mem_hdr_size
  omega

theorem struct_room (cfg : Config) : cfg.lockSize + 5 * cfg.ptr ≤ regionSize cfg := by
  unfold regionSize
  omega

theorem minBlock_room (cfg : Config) : 4 * cfg.ptr ≤ minBlock cfg := by
  have room := header_room cfg
  unfold minBlock
  omega

theorem Site.not_root (site : Site cfg region first last) (inside : first ≤ h ∧ h ≤ last) :
    h ≠ free_root cfg region := by
  have room := header_room cfg
  have positive := cfg.pointers
  have away := site.away
  have structSize := struct_room cfg
  unfold free_root
  omega

theorem Site.fresh_entry (site : Site cfg region first last)
    (inside : first ≤ item ∧ item ≤ last) (out : item ∉ bs) :
    item + blockEntry cfg ∉ block_root cfg region :: bs.map (· + blockEntry cfg) := by
  have root := site.not_root inside
  unfold free_root at root
  simp only [mem_cons, mem_map, block_root, blockEntry]
  rintro (same | ⟨b,member,same⟩)
  · omega
  · have equal : b = item := by omega
    exact out (equal ▸ member)

theorem guardBytes_le (cfg : Config) : guardBytes cfg ≤ cfg.guardSize := by
  unfold guardBytes
  split <;> omega

theorem wrap_eq (fits : x < space cfg) : wrap cfg x = x := Nat.mod_eq_of_lt fits

theorem minus_eq (fits : x < space cfg) (less : y ≤ x) : minus cfg x y = x - y := by
  have shift : x + (space cfg - y) = x - y + space cfg := by omega
  rw [minus, shift, Nat.add_mod_right, Nat.mod_eq_of_lt (by omega)]

theorem spaced_apart (spaced : bs.Pairwise fun a b => a + minBlock cfg ≤ b) (ha : a ∈ bs)
    (hb : b ∈ bs) : a = b ∨ a + minBlock cfg ≤ b ∨ b + minBlock cfg ≤ a := by
  induction spaced with
  | nil => simp at ha
  | cons head _ ih => ?_
  cases mem_cons.mp ha with
  | inl sameA =>
    cases mem_cons.mp hb with
    | inl sameB => exact .inl (sameA.trans sameB.symm)
    | inr laterB => exact .inr (.inl (sameA ▸ head b laterB))
  | inr laterA =>
    cases mem_cons.mp hb with
    | inl sameB => exact .inr (.inr (sameB ▸ head a laterA))
    | inr laterB => exact ih laterA laterB

theorem spaced_nodup (spaced : bs.Pairwise fun a b => a + minBlock cfg ≤ b) : bs.Nodup := by
  apply spaced.imp
  intro a b near same
  have minimum := minBlock_room cfg
  have positive := cfg.pointers
  omega

section
variable (site : Site cfg region first last)
  (spaced : bs.Pairwise fun a b => a + minBlock cfg ≤ b) (bounds : ∀ h ∈ bs, first ≤ h ∧ h ≤ last)
include site spaced bounds

theorem entries_apart : Entries cfg.ptr (entries cfg region bs) := by
  have room := header_room cfg
  have positive := cfg.pointers
  have structSize := struct_room cfg
  have fitsRegion := site.region_fits
  have fitsLast := site.last_fits
  have away := site.away
  have far := fun a (ha : a ∈ bs) b (hb : b ∈ bs) => spaced_apart spaced ha hb
  unfold space minBlock at *
  constructor
  · intro e he
    simp only [entries, free_root, block_root, blockEntry] at he
    rcases he with rfl | rfl | member | ⟨a,member,rfl⟩
    · omega
    · omega
    · have := bounds e member
      omega
    · have := bounds a member
      omega
  · intro e he f hf other
    simp only [entries, free_root, block_root, blockEntry] at he hf
    rcases he with rfl | rfl | member | ⟨a,member,rfl⟩ <;>
      rcases hf with rfl | rfl | member' | ⟨b,member',rfl⟩
    all_goals try have := bounds _ member
    all_goals try have := bounds _ member'
    all_goals try have := far _ member _ member'
    all_goals omega

theorem Site.free_ne_block (hz : z ∈ free_root cfg region :: bs)
    (he : e ∈ block_root cfg region :: bs.map (· + blockEntry cfg)) : z ≠ e := by
  have room := header_room cfg
  have positive := cfg.pointers
  have away := site.away
  have structSize := struct_room cfg
  have minimum := minBlock_room cfg
  simp only [mem_cons, mem_map] at hz he
  unfold free_root block_root blockEntry at *
  rcases hz with rfl | hz <;> rcases he with rfl | ⟨b,hb,rfl⟩
  · omega
  · have bound := bounds b hb
    omega
  · have bound := bounds z hz
    omega
  · have far := spaced_apart spaced hz hb
    omega

end

theorem entries_mono (more : ∀ h ∈ bs, h ∈ cs)
    (hz : z ∈ entries cfg region bs) : z ∈ entries cfg region cs := by
  rcases hz with root | root | block | ⟨b,block,same⟩
  · exact .inl root
  · exact .inr (.inl root)
  · exact .inr (.inr (.inl (more z block)))
  · exact .inr (.inr (.inr ⟨b,more b block,same⟩))

theorem block_mem_entries (member : h ∈ bs) : h ∈ entries cfg region bs :=
  .inr (.inr (.inl member))

theorem entry_mem_entries (member : h ∈ bs) : h + blockEntry cfg ∈ entries cfg region bs :=
  .inr (.inr (.inr ⟨h, member, rfl⟩))

theorem item_cases (offset : Nat) (found : e ∈ root :: bs.map (· + offset)) :
    (if e = root then 0 else e - offset) = 0 ∨ (if e = root then 0 else e - offset) ∈ bs := by
  by_cases same : e = root
  · rw [if_pos same]
    exact .inl rfl
  · obtain ⟨b,block,rfl⟩ := mem_map.mp ((mem_cons.mp found).resolve_left same)
    rw [if_neg same, Nat.add_sub_cancel]
    exact .inr block

/-- A byte that is in no header, nor in the structure of the region. -/
def Body (cfg : Config) (region : Nat) (bs : List Nat) (x : Nat) : Prop :=
  (x < region ∨ region + regionSize cfg ≤ x) ∧ ∀ h ∈ bs, x < h ∨ h + mem_hdr_size_align cfg ≤ x

theorem body_outside (body : Body cfg region bs x) :
    ∀ z ∈ entries cfg region bs, x < z ∨ z + 2 * cfg.ptr ≤ x := by
  obtain ⟨apart,headers⟩ := body
  have room := header_room cfg
  have structSize := struct_room cfg
  intro z inEntries
  simp only [entries, free_root, block_root, blockEntry] at inEntries
  rcases inEntries with rfl | rfl | found | ⟨a,found,rfl⟩
  · omega
  · omega
  · have away := headers z found
    omega
  · have away := headers a found
    omega

theorem body_with (body : Body cfg region bs x)
    (apart : x < i ∨ i + mem_hdr_size_align cfg ≤ x) (fewer : ∀ c ∈ cs, c = i ∨ c ∈ bs) :
    Body cfg region cs x := by
  refine ⟨body.1,?_⟩
  intro c member
  rcases fewer c member with rfl | old
  · exact apart
  · exact body.2 c old

theorem crc_frame (outside : x < h ∨ h + mem_hdr_size_align cfg ≤ x) :
    memory_allocator_crc_set cfg m h x = m x := by
  unfold memory_allocator_crc_set
  cases checked : cfg.crc with
  | none => rfl
  | some crc32 => ?_
  have room := header_room cfg
  have size : mem_hdr_size cfg = 4 * cfg.ptr + max 4 cfg.ptr := by
    simp [mem_hdr_size, checked]
  exact store_outside (by omega)

theorem crc_if_any_frame (body : Body cfg region bs x) (member : h = 0 ∨ h ∈ bs) :
    crcSetIfAny cfg m h x = m x := by
  unfold crcSetIfAny
  split
  · rfl
  · exact crc_frame (body.2 h (by tauto))

theorem guard_frame (large : minBlock cfg ≤ size) (fits : a + size < space cfg)
    (outside : x < a + mem_hdr_size_align cfg ∨ a + size ≤ x ∨
      (a + mem_hdr_size_align cfg + guardBytes cfg ≤ x ∧ x + guardBytes cfg < a + size)) :
    memory_allocator_guard_set cfg m size a x = m x := by
  unfold memory_allocator_guard_set
  split
  · have guarded : guardBytes cfg = cfg.guardSize := by simp [guardBytes, *]
    unfold minBlock at large
    rw [wrap_eq (by omega), wrap_eq (by omega), minus_eq (by omega) (by omega),
      fill_outside (by omega), fill_outside (by omega)]
  · rfl

theorem scramble_frame (large : minBlock cfg ≤ size) (fits : a + size < space cfg)
    (outside : x < a + mem_hdr_size_align cfg ∨ a + size ≤ x) :
    memory_allocator_scramble_set cfg m size a x = m x := by
  unfold memory_allocator_scramble_set
  split
  · unfold minBlock at large
    rw [hdr2mem, wrap_eq (by omega), size_real2alloc, minus_eq (by omega) (by omega),
      fill_outside (by omega)]
  · rfl

namespace Lists

theorem entries_ok (site : Site cfg region first last)
    (lists : Lists cfg region first last m bs fs as) :
    Entries cfg.ptr (entries cfg region bs) :=
  entries_apart site lists.spaced lists.bounds

theorem blocks_inside (_ : Lists cfg region first last m bs fs as) :
    ∀ z ∈ block_root cfg region :: bs.map (· + blockEntry cfg), z ∈ entries cfg region bs := by
  intro z member
  rcases mem_cons.mp member with rfl | found
  · exact .inr (.inl rfl)
  · obtain ⟨a,block,rfl⟩ := mem_map.mp found
    exact entry_mem_entries block

theorem free_inside (lists : Lists cfg region first last m bs fs as) :
    ∀ z ∈ free_root cfg region :: fs, z ∈ entries cfg region bs := by
  intro z member
  rcases mem_cons.mp member with rfl | found
  · exact .inl rfl
  · exact block_mem_entries (lists.listed z found)

theorem congr (lists : Lists cfg region first last m bs fs as) (same : ∀ z ∈ entries cfg region bs,
      next cfg.ptr n z = next cfg.ptr m z ∧ prev cfg.ptr n z = prev cfg.ptr m z) :
    Lists cfg region first last n bs fs as := by
  refine { lists with
    blocks := ring_congr lists.blocks fun z member => same z (lists.blocks_inside z member)
    free := ring_congr lists.free fun z member => same z (lists.free_inside z member)
    marked := ?_ }
  intro h member
  obtain ⟨block,busy,marker,owner⟩ := lists.marked h member
  obtain ⟨ahead,behind⟩ := same h (block_mem_entries block)
  exact ⟨block,busy,behind.trans marker,ahead.trans owner⟩

section
variable (site : Site cfg region first last) (lists : Lists cfg region first last m bs fs as)
include site lists

theorem slack (stop : Nat) (member : h ∈ bs) (before : ∀ b ∈ bs, h < b → stop ≤ b)
    (inside : stop ≤ last + mem_hdr_size_align cfg)
    (same : ∀ x, x < h + 4 * cfg.ptr ∨ stop ≤ x → n x = m x) :
    Lists cfg region first last n bs fs as := by
  have away := site.away
  have structSize := struct_room cfg
  have low := (lists.bounds h member).1
  have outside : ∀ z ∈ entries cfg region bs, z + 2 * cfg.ptr ≤ h + 4 * cfg.ptr ∨ stop ≤ z := by
    intro z inEntries
    simp only [entries, free_root, block_root, blockEntry] at inEntries
    rcases inEntries with rfl | rfl | found | ⟨a,found,rfl⟩
    · omega
    · omega
    · have far := spaced_apart lists.spaced found member
      have later := before z found
      omega
    · have far := spaced_apart lists.spaced found member
      have later := before a found
      omega
  apply lists.congr
  intro z inEntries
  have clear := outside z inEntries
  constructor
  · apply load_congr
    intro x from_z to_z
    exact same x (by omega)
  · apply load_congr
    intro x from_z to_z
    exact same x (by omega)

theorem crc_set (member : h ∈ bs) :
    Lists cfg region first last (memory_allocator_crc_set cfg m h) bs fs as := by
  unfold memory_allocator_crc_set
  cases checked : cfg.crc with
  | none => exact lists
  | some crc32 => ?_
  have room := header_room cfg
  have size : mem_hdr_size cfg = 4 * cfg.ptr + max 4 cfg.ptr := by
    simp [mem_hdr_size, checked]
  have bound := lists.bounds h member
  apply lists.slack site (h + mem_hdr_size_align cfg) member
  · intro b other later
    have far := spaced_apart lists.spaced member other
    unfold minBlock at far
    omega
  · omega
  · intro x outside
    exact store_outside (by omega)

theorem crc_set_if_any (member : h = 0 ∨ h ∈ bs) :
    Lists cfg region first last (crcSetIfAny cfg m h) bs fs as := by
  unfold crcSetIfAny
  split
  · exact lists
  · exact lists.crc_set site (by tauto)

theorem free_pos (member : a ∈ free_root cfg region :: fs) : 0 < a := by
  have pos := site.region_pos
  have low := site.first_pos
  rcases mem_cons.mp member with rfl | found
  · unfold free_root
    omega
  · have bound := lists.bounds a (lists.listed a found)
    omega

end

section
variable (lists : Lists cfg region first last m bs fs as)
include lists

theorem free_next (member : h ∈ fs) : listNext cfg m freeEntry (free_root cfg region) h = 0 ∨
      listNext cfg m freeEntry (free_root cfg region) h ∈ bs := by
  have found := ring_next_mem lists.free (.tail _ member)
  exact (item_cases freeEntry (by simpa [freeEntry] using found)).imp_right (lists.listed _)

theorem free_prev (member : h ∈ fs) : listPrev cfg m freeEntry (free_root cfg region) h = 0 ∨
      listPrev cfg m freeEntry (free_root cfg region) h ∈ bs := by
  have found := ring_prev_mem lists.free (.tail _ member)
  exact (item_cases freeEntry (by simpa [freeEntry] using found)).imp_right (lists.listed _)

theorem block_next (member : h ∈ bs) :
    listNext cfg m (blockEntry cfg) (block_root cfg region) h = 0 ∨
      listNext cfg m (blockEntry cfg) (block_root cfg region) h ∈ bs :=
  item_cases (blockEntry cfg) (ring_next_mem lists.blocks
    (.tail _ (mem_map_of_mem (f := (· + blockEntry cfg)) member)))

theorem block_prev (member : h ∈ bs) :
    listPrev cfg m (blockEntry cfg) (block_root cfg region) h = 0 ∨
      listPrev cfg m (blockEntry cfg) (block_root cfg region) h ∈ bs :=
  item_cases (blockEntry cfg) (ring_prev_mem lists.blocks
    (.tail _ (mem_map_of_mem (f := (· + blockEntry cfg)) member)))

theorem forget (less : List Nat) (fewer : ∀ h ∈ less, h ∈ as) :
    Lists cfg region first last m bs fs less :=
  { lists with marked := fun h member => lists.marked h (fewer h member) }

end

section
variable (site : Site cfg region first last) (lists : Lists cfg region first last m bs fs as)
include site lists

theorem free_ne_block (hz : z ∈ free_root cfg region :: bs)
    (he : e ∈ block_root cfg region :: bs.map (· + blockEntry cfg)) : z ≠ e :=
  site.free_ne_block lists.spaced lists.bounds hz he

theorem root_not_block (member : h ∈ bs) : h ≠ free_root cfg region :=
  site.not_root (lists.bounds h member)

theorem with_free (touched : List Nat) (free : Ring cfg.ptr n (free_root cfg region) now)
    (listed : ∀ h ∈ now, h ∈ bs) (inside : ∀ h ∈ touched, h ∈ free_root cfg region :: bs)
    (out : ∀ h ∈ as, h ∉ now ∧ h ∉ touched)
    (same : ∀ z ∈ entries cfg region bs, z ∉ touched → next cfg.ptr n z = next cfg.ptr m z ∧
      prev cfg.ptr n z = prev cfg.ptr m z) :
    Lists cfg region first last n bs now as := by
  refine { lists with
    blocks := ring_congr lists.blocks ?_
    free := free
    listed := listed
    marked := ?_ }
  · intro z hz
    apply same z (lists.blocks_inside z hz)
    intro member
    exact lists.free_ne_block site (inside z member) hz rfl
  · intro h member
    obtain ⟨block,busy,marker,owner⟩ := lists.marked h member
    obtain ⟨unlisted,untouched⟩ := out h member
    obtain ⟨ahead,behind⟩ := same h (block_mem_entries block) untouched
    exact ⟨block,unlisted,behind.trans marker,ahead.trans owner⟩

end

theorem with_blocks (lists : Lists cfg region first last m bs fs as)
    (blocks : Ring cfg.ptr n (block_root cfg region) (now.map (· + blockEntry cfg)))
    (spaced : now.Pairwise fun a b => a + minBlock cfg ≤ b)
    (bounds : ∀ h ∈ now, first ≤ h ∧ h ≤ last)
    (kept : ∀ h ∈ bs, h ∈ fs ∨ h ∈ as → h ∈ now)
    (same : ∀ z ∈ free_root cfg region :: bs,
      next cfg.ptr n z = next cfg.ptr m z ∧ prev cfg.ptr n z = prev cfg.ptr m z) :
    Lists cfg region first last n now fs as := by
  refine ⟨blocks,ring_congr lists.free ?_,spaced,bounds,?_,?_⟩
  · intro z hz
    rcases mem_cons.mp hz with rfl | found
    · exact same _ (by simp)
    · exact same z (.tail _ (lists.listed z found))
  · intro h member
    exact kept h (lists.listed h member) (.inl member)
  · intro h member
    obtain ⟨block,busy,marker,owner⟩ := lists.marked h member
    obtain ⟨ahead,behind⟩ := same h (.tail _ block)
    exact ⟨kept h block (.inr member),busy,behind.trans marker,ahead.trans owner⟩

theorem free_nodes_inside (lists : Lists cfg region first last m bs fs as) :
    ∀ z ∈ free_root cfg region :: fs, z ∈ free_root cfg region :: bs := by
  intro z member
  rcases mem_cons.mp member with rfl | found
  · simp
  · exact .tail _ (lists.listed z found)

section
variable (site : Site cfg region first last)
include site

section
variable (lists : Lists cfg region first last m bs fs as)
include lists

theorem marked_not_free (member : h ∈ as) : h ∉ free_root cfg region :: fs := by
  obtain ⟨block,busy,_,_⟩ := lists.marked h member
  intro found
  rcases mem_cons.mp found with root | listed
  · exact lists.root_not_block site block root
  · exact busy listed

omit lists in
theorem remove_free (lists : Lists cfg region first last m bs (xs ++ h :: ys) as) :
    Lists cfg region first last
      (mem_list_function_rem cfg m freeEntry (free_root cfg region) h) bs (xs ++ ys) as := by
  have member : h ∈ xs ++ h :: ys := by simp
  have before := lists.free_prev member
  have after := lists.free_next member
  have entriesOk := lists.entries_ok site
  have ahead := ring_next_mem lists.free (.tail _ member)
  have behind := ring_prev_mem lists.free (.tail _ member)
  have removed : Lists cfg region first last (remove cfg.ptr m h) bs (xs ++ ys) as := by
    apply lists.with_free site (free_root cfg region :: (xs ++ h :: ys))
    · exact ring_remove entriesOk lists.free lists.free_inside
    · intro f hf
      exact lists.listed f (by grind)
    · exact lists.free_nodes_inside
    · intro f hf
      have out := lists.marked_not_free site hf
      exact ⟨by grind,out⟩
    · intro z hz out
      obtain ⟨nextAt,prevAt⟩ := remove_links entriesOk
        (lists.free_inside h (.tail _ member)) (lists.free_inside _ ahead)
        (lists.free_inside _ behind) hz
      rw [nextAt, prevAt, if_neg (by grind), if_neg (by grind)]
      exact ⟨rfl,rfl⟩
  exact (removed.crc_set_if_any site before).crc_set_if_any site after

theorem remove_free_frame (member : h ∈ fs) (body : Body cfg region bs x) :
    mem_list_function_rem cfg m freeEntry (free_root cfg region) h x = m x := by
  have node := mem_cons_of_mem (free_root cfg region) member
  have removed := remove_frame (lists.entries_ok site) (lists.free_inside h node)
    (lists.free_inside _ (ring_next_mem lists.free node))
    (lists.free_inside _ (ring_prev_mem lists.free node)) (body_outside body)
  simp only [mem_list_function_rem]
  rw [crc_if_any_frame body (lists.free_next member),
    crc_if_any_frame body (lists.free_prev member)]
  exact removed

theorem pushed_free (block : h ∈ bs) (unlisted : h ∉ fs) (unmarked : h ∉ as) :
    Lists cfg region first last (push cfg.ptr m (free_root cfg region) (h + freeEntry))
      bs (h :: fs) as := by
  have entriesOk := lists.entries_ok site
  have root := lists.root_not_block site block
  have fresh : h ∉ free_root cfg region :: fs := by simp [root, unlisted]
  have ahead := ring_next_mem lists.free (z := free_root cfg region) (by simp)
  apply lists.with_free site (h :: free_root cfg region :: fs)
  · exact ring_push entriesOk lists.free lists.free_inside (block_mem_entries block) fresh
  · intro f hf
    rcases mem_cons.mp hf with rfl | found
    · exact block
    · exact lists.listed f found
  · intro f hf
    rcases mem_cons.mp hf with rfl | found
    · exact .tail _ block
    · exact lists.free_nodes_inside f found
  · intro f hf
    have out := lists.marked_not_free site hf
    grind
  · intro z hz out
    obtain ⟨nextAt,prevAt⟩ := push_links entriesOk (lists.free_inside _ (by simp))
      (lists.free_inside _ ahead) (block_mem_entries block) hz
    rw [freeEntry]
    grind

theorem push_free (block : h ∈ bs) (unlisted : h ∉ fs) (unmarked : h ∉ as) :
    Lists cfg region first last
      (mem_list_function_push cfg push m freeEntry (free_root cfg region) h) bs (h :: fs) as := by
  have pushed := lists.pushed_free site block unlisted unmarked
  have before := pushed.free_prev (h := h) (by simp)
  have after := pushed.free_next (h := h) (by simp)
  exact (pushed.crc_set_if_any site before).crc_set_if_any site after

theorem push_free_frame
    (block : h ∈ bs) (unlisted : h ∉ fs) (unmarked : h ∉ as) (body : Body cfg region bs x) :
    mem_list_function_push cfg push m freeEntry (free_root cfg region) h x = m x := by
  have pushed := lists.pushed_free site block unlisted unmarked
  have ahead := ring_next_mem lists.free (z := free_root cfg region) (by simp)
  have same := push_frame (lists.entries_ok site) (lists.free_inside _ (by simp))
    (lists.free_inside _ ahead) (block_mem_entries block) (body_outside body)
  simp only [mem_list_function_push]
  rw [crc_if_any_frame body (pushed.free_next (by simp)),
    crc_if_any_frame body (pushed.free_prev (by simp))]
  exact same

theorem set_alloc (block : h ∈ bs) (inner : h ≠ last) (unlisted : h ∉ fs) :
    Lists cfg region first last (header_set_alloc cfg m h region) bs fs (h :: as) := by
  have entriesOk := lists.entries_ok site
  have here : h ∈ entries cfg region bs := block_mem_entries block
  have room : region < 2 ^ (8 * cfg.ptr) := by
    have fits := site.region_fits
    have structSize := struct_room cfg
    have positive := cfg.pointers
    unfold space at fits
    omega
  have links : ∀ z ∈ entries cfg region bs, next cfg.ptr (header_set_alloc cfg m h region) z =
        (if z = h then region else next cfg.ptr m z) ∧
      prev cfg.ptr (header_set_alloc cfg m h region) z =
        (if z = h then 0 else prev cfg.ptr m z) := by
    intro z hz
    change next cfg.ptr (setNext cfg.ptr (setPrev cfg.ptr m h 0) h region) z = _ ∧
      prev cfg.ptr (setNext cfg.ptr (setPrev cfg.ptr m h 0) h region) z = _
    rw [next_setNext entriesOk here hz room, next_setPrev entriesOk here hz,
      prev_setNext entriesOk here hz, prev_setPrev entriesOk here hz (Nat.two_pow_pos _)]
    exact ⟨rfl,rfl⟩
  have others : Lists cfg region first last (header_set_alloc cfg m h region) bs fs
      (as.filter (· ≠ h)) := by
    have fewer := lists.forget (as.filter (· ≠ h)) (by simp +contextual)
    apply fewer.with_free site [h]
    · apply ring_congr lists.free
      intro z hz
      have other : z ≠ h := by
        rintro rfl
        rcases mem_cons.mp hz with root | found
        · exact lists.root_not_block site block root
        · exact unlisted found
      rw [(links z (lists.free_inside z hz)).1, (links z (lists.free_inside z hz)).2,
        if_neg other, if_neg other]
      exact ⟨rfl,rfl⟩
    · exact lists.listed
    · intro f hf
      rw [mem_singleton.mp hf]
      exact .tail _ block
    · intro f hf
      obtain ⟨member,other⟩ := mem_filter.mp hf
      exact ⟨(lists.marked f member).2.1,by simpa using other⟩
    · intro z hz out
      rw [mem_singleton] at out
      rw [(links z hz).1, (links z hz).2, if_neg out, if_neg out]
      exact ⟨rfl,rfl⟩
  refine { others with marked := ?_ }
  intro f hf
  by_cases same : f = h
  · obtain ⟨nextAt,prevAt⟩ := links f (same ▸ here)
    rw [if_pos same] at nextAt prevAt
    refine ⟨same ▸ block,same ▸ unlisted,prevAt,?_⟩
    rw [nextAt, same, if_neg inner]
  · exact others.marked f (by grind)

end

end

theorem map_split (xs ys : List Nat) (h k : Nat) : (xs ++ h :: ys).map (· + k) =
    xs.map (· + k) ++ (h + k) :: ys.map (· + k) := by
  simp

theorem free_words (site : Site cfg region first last)
    (lists : Lists cfg region first last m bs fs as)
    (hz : z ∈ free_root cfg region :: bs)
    (he : e ∈ block_root cfg region :: bs.map (· + blockEntry cfg))
    (hf : f ∈ block_root cfg region :: bs.map (· + blockEntry cfg))
    (links : next cfg.ptr n z = (if z = e then u else next cfg.ptr m z) ∧
      prev cfg.ptr n z = if z = f then v else prev cfg.ptr m z) :
    next cfg.ptr n z = next cfg.ptr m z ∧ prev cfg.ptr n z = prev cfg.ptr m z := by
  rw [if_neg (lists.free_ne_block site hz he), if_neg (lists.free_ne_block site hz hf)] at links
  exact links

theorem free_node_entry (hz : z ∈ free_root cfg region :: bs) : z ∈ entries cfg region bs := by
  rcases mem_cons.mp hz with rfl | block
  · exact .inl rfl
  · exact block_mem_entries block

section
variable (site : Site cfg region first last)
include site

theorem remove_block (lists : Lists cfg region first last m (xs ++ h :: ys) fs as)
    (unlisted : h ∉ fs) (unmarked : h ∉ as) :
    Lists cfg region first last
      (mem_list_function_rem cfg m (blockEntry cfg) (block_root cfg region) h)
        (xs ++ ys) fs as := by
  have node : h + blockEntry cfg ∈ block_root cfg region ::
      (xs ++ h :: ys).map (· + blockEntry cfg) := by simp
  have entriesOk := lists.entries_ok site
  have ahead := ring_next_mem lists.blocks node
  have behind := ring_prev_mem lists.blocks node
  have ring := lists.blocks
  have inside := lists.blocks_inside
  rw [map_split] at ring inside
  have before := item_cases (blockEntry cfg) (ring_prev_front ring)
  have after := item_cases (blockEntry cfg) (ring_next_back ring)
  have removed : Lists cfg region first last (remove cfg.ptr m (h + blockEntry cfg))
      (xs ++ ys) fs as := by
    apply lists.with_blocks
    · rw [map_append]
      exact ring_remove entriesOk ring inside
    · exact lists.spaced.sublist (by simp)
    · intro f hf
      exact lists.bounds f (by grind)
    · intro f hf kind
      grind
    · intro z hz
      exact lists.free_words site hz behind ahead (remove_links entriesOk
        (lists.blocks_inside _ node) (lists.blocks_inside _ ahead) (lists.blocks_inside _ behind)
        (free_node_entry hz))
  exact (removed.crc_set_if_any site (before.imp_right (mem_append_left ys))).crc_set_if_any site
    (after.imp_right (mem_append_right xs))

theorem remove_block_frame (lists : Lists cfg region first last m bs fs as)
    (member : h ∈ bs) (body : Body cfg region bs x) :
    mem_list_function_rem cfg m (blockEntry cfg) (block_root cfg region) h x = m x := by
  have node : h + blockEntry cfg ∈ block_root cfg region :: bs.map (· + blockEntry cfg) :=
    .tail _ (mem_map_of_mem (f := (· + blockEntry cfg)) member)
  have removed := remove_frame (lists.entries_ok site) (lists.blocks_inside _ node)
    (lists.blocks_inside _ (ring_next_mem lists.blocks node))
    (lists.blocks_inside _ (ring_prev_mem lists.blocks node)) (body_outside body)
  simp only [mem_list_function_rem]
  rw [crc_if_any_frame body (lists.block_next member),
    crc_if_any_frame body (lists.block_prev member)]
  exact removed

theorem insert_block (lists : Lists cfg region first last m (xs ++ h :: ys) fs as)
    (above : h + minBlock cfg ≤ item) (below : ∀ b ∈ ys, item + minBlock cfg ≤ b)
    (bound : item ≤ last) :
    Lists cfg region first last
      (mem_list_function_ins cfg m (blockEntry cfg) (block_root cfg region) item h)
      (xs ++ h :: item :: ys) fs as ∧
    ∀ x, Body cfg region (xs ++ h :: item :: ys) x →
      mem_list_function_ins cfg m (blockEntry cfg) (block_root cfg region) item h x = m x := by
  have low := (lists.bounds h (by simp)).1
  have spaced : (xs ++ h :: item :: ys).Pairwise fun a b => a + minBlock cfg ≤ b := by
    have old := lists.spaced
    simp only [pairwise_append, pairwise_cons] at old ⊢
    obtain ⟨front,⟨apart,back⟩,cross⟩ := old
    refine ⟨front,⟨?_,below,back⟩,?_⟩
    · intro b member
      rcases mem_cons.mp member with rfl | later
      · exact above
      · exact apart b later
    intro a left b member
    have near := cross a left h (by simp)
    rcases mem_cons.mp member with rfl | later
    · exact near
    · rcases mem_cons.mp later with rfl | last
      · omega
      · exact cross a left b (.tail h last)
  have bounds : ∀ b ∈ xs ++ h :: item :: ys, first ≤ b ∧ b ≤ last := by
    intro b member
    by_cases new : b = item
    · omega
    · exact lists.bounds b (by grind)
  have entriesOk := entries_apart site spaced bounds
  have node : h + blockEntry cfg ∈ block_root cfg region ::
      (xs ++ h :: ys).map (· + blockEntry cfg) := by simp
  have ahead := ring_next_mem lists.blocks node
  have more : ∀ b ∈ xs ++ h :: ys, b ∈ xs ++ h :: item :: ys := by
    intro b member
    simp only [mem_append, mem_cons] at member ⊢
    tauto
  have grow : ∀ z ∈ entries cfg region (xs ++ h :: ys),
      z ∈ entries cfg region (xs ++ h :: item :: ys) := fun z hz => entries_mono more hz
  have new : item + blockEntry cfg ∈ entries cfg region (xs ++ h :: item :: ys) :=
    entry_mem_entries (by simp)
  have itemOut : item ∉ xs ++ h :: ys := by
    intro member
    have once := spaced_nodup spaced
    grind
  have fresh := site.fresh_entry (bounds item (by simp)) itemOut
  have other : item + blockEntry cfg ≠ h + blockEntry cfg := by
    intro same
    exact fresh (same ▸ node)
  have ring := lists.blocks
  rw [map_split] at ring
  have inserted : Lists cfg region first last
      (insertPost cfg.ptr m (h + blockEntry cfg) (item + blockEntry cfg))
      (xs ++ h :: item :: ys) fs as := by
    apply lists.with_blocks
    · rw [map_split]
      apply ring_insertPost entriesOk ring _ new
      · rwa [← map_split]
      · rw [← map_split]
        intro z hz
        exact grow z (lists.blocks_inside z hz)
    · exact spaced
    · exact bounds
    · intro f hf _
      exact more f hf
    · intro z hz
      have itemFar : z ≠ item + blockEntry cfg := by
        apply site.free_ne_block spaced bounds
        · rcases mem_cons.mp hz with root | block
          · simp [root]
          · exact .tail _ (more z block)
        · simp
      obtain ⟨nextAt,prevAt⟩ := insertPost_links entriesOk (grow _ (lists.blocks_inside _ node))
        (grow _ (lists.blocks_inside _ ahead)) new (grow z (free_node_entry hz))
      rw [if_neg itemFar] at nextAt prevAt
      exact lists.free_words site hz node ahead ⟨nextAt,prevAt⟩
  have after := inserted.block_next (h := item) (by simp)
  have before := inserted.block_prev (h := item) (by simp)
  refine ⟨(inserted.crc_set_if_any site before).crc_set_if_any site after,?_⟩
  intro x body
  have same := insertPost_frame entriesOk (grow _ (lists.blocks_inside _ node))
    (grow _ (lists.blocks_inside _ ahead)) new other (body_outside body)
  simp only [mem_list_function_ins]
  rw [crc_if_any_frame body after, crc_if_any_frame body before]
  exact same

theorem push_block (item : Nat) (lists : Lists cfg region first last m bs fs as)
    (inside : first ≤ item ∧ item ≤ last) (below : ∀ b ∈ bs, item + minBlock cfg ≤ b)
    (pushed : m' = push cfg.ptr m (block_root cfg region) (item + blockEntry cfg)) :
    (∀ z ∈ free_root cfg region :: item :: bs,
      next cfg.ptr m' z = next cfg.ptr m z ∧ prev cfg.ptr m' z = prev cfg.ptr m z) ∧
    Lists cfg region first last m' (item :: bs) fs as := by
  have spaced : (item :: bs).Pairwise fun a b => a + minBlock cfg ≤ b :=
    pairwise_cons.mpr ⟨below,lists.spaced⟩
  have bounds : ∀ b ∈ item :: bs, first ≤ b ∧ b ≤ last := by
    intro b member
    rcases mem_cons.mp member with rfl | old
    · exact inside
    · exact lists.bounds b old
  have out : item ∉ bs := by
    intro member
    have room := header_room cfg
    have positive := cfg.pointers
    have near := below item member
    unfold minBlock at near
    omega
  have entriesOk := entries_apart site spaced bounds
  have grow : ∀ z ∈ entries cfg region bs, z ∈ entries cfg region (item :: bs) :=
    fun z hz => entries_mono (fun b member => .tail item member) hz
  have new : item + blockEntry cfg ∈ entries cfg region (item :: bs) :=
    entry_mem_entries (by simp)
  have ahead := ring_next_mem lists.blocks (z := block_root cfg region) (by simp)
  have words : ∀ z ∈ free_root cfg region :: item :: bs,
      next cfg.ptr m' z = next cfg.ptr m z ∧ prev cfg.ptr m' z = prev cfg.ptr m z := by
    intro z hz
    have far := fun e he => site.free_ne_block (e := e) spaced bounds hz he
    obtain ⟨nextAt,prevAt⟩ := push_links entriesOk (grow _ (lists.blocks_inside _ (by simp)))
      (grow _ (lists.blocks_inside _ ahead)) new (free_node_entry hz)
    have aheadFar : z ≠ next cfg.ptr m (block_root cfg region) := far _ (by
      rcases mem_cons.mp ahead with root | found
      · simp [root]
      · exact .tail _ (.tail _ found))
    rw [pushed, nextAt, prevAt, if_neg (far _ (by simp)), if_neg (far _ (by simp)), if_neg aheadFar,
      if_neg (far _ (by simp))]
    exact ⟨rfl,rfl⟩
  refine ⟨words,lists.with_blocks ?_ spaced bounds ?_ ?_⟩
  · rw [pushed]
    apply ring_push entriesOk lists.blocks _ new (site.fresh_entry inside out)
    intro z hz
    exact grow z (lists.blocks_inside z hz)
  · intro f hf _
    exact .tail item hf
  · intro z hz
    apply words z
    rcases mem_cons.mp hz with root | block
    · simp [root]
    · exact .tail _ (.tail _ block)

end

theorem endblock_words (entriesOk : Entries cfg.ptr N) (ending : h ∈ N) (hz : z ∈ N) :
    next cfg.ptr (header_set_endblock cfg n h) z = (if z = h then 0 else next cfg.ptr n z) ∧
      prev cfg.ptr (header_set_endblock cfg n h) z = (if z = h then 0 else prev cfg.ptr n z) := by
  change next cfg.ptr (setPrev cfg.ptr (setNext cfg.ptr n h 0) h 0) z = _ ∧
    prev cfg.ptr (setPrev cfg.ptr (setNext cfg.ptr n h 0) h 0) z = _
  rw [next_setPrev entriesOk ending hz, next_setNext entriesOk ending hz (Nat.two_pow_pos _),
    prev_setPrev entriesOk ending hz (Nat.two_pow_pos _), prev_setNext entriesOk ending hz]
  exact ⟨rfl,rfl⟩

theorem start (site : Site cfg region first last) (m : Nat → Nat)
    (large : first + minBlock cfg ≤ last) :
    Lists cfg region first last (push cfg.ptr (push cfg.ptr (push cfg.ptr (header_set_endblock cfg
              (init cfg.ptr (init cfg.ptr m (block_root cfg region)) (free_root cfg region)) last)
            (block_root cfg region) (last + blockEntry cfg))
          (block_root cfg region) (first + blockEntry cfg))
        (free_root cfg region) (first + freeEntry))
      [first, last] [first] [last] := by
  have positive := cfg.pointers
  have minimum := minBlock_room cfg
  have spaced : [last].Pairwise fun a b => a + minBlock cfg ≤ b := pairwise_singleton _ _
  have bounds : ∀ h ∈ [last], first ≤ h ∧ h ≤ last := by
    intro h member
    rw [mem_singleton.mp member]
    omega
  have entriesOk := entries_apart site spaced bounds
  have blockRoot : block_root cfg region ∈ entries cfg region [last] := .inr (.inl rfl)
  have freeRoot : free_root cfg region ∈ entries cfg region [last] := .inl rfl
  have ending : last ∈ entries cfg region [last] := block_mem_entries (by simp)
  have words := fun z (hz : z ∈ entries cfg region [last]) => endblock_words
    (n := init cfg.ptr (init cfg.ptr m (block_root cfg region)) (free_root cfg region))
      entriesOk ending hz
  have rootFar : last ≠ free_root cfg region := site.not_root (bounds last (by simp))
  have blockFar : last ≠ block_root cfg region :=
    site.free_ne_block spaced bounds (by simp) (by simp)
  have rootsFar : free_root cfg region ≠ block_root cfg region :=
    site.free_ne_block spaced bounds (by simp) (by simp)
  have empty : Lists cfg region first last (header_set_endblock cfg
        (init cfg.ptr (init cfg.ptr m (block_root cfg region)) (free_root cfg region)) last)
      [] [] [] := by
    refine ⟨?_,?_,by simp,by simp,by simp,by simp⟩
    · apply ring_congr (ring_init entriesOk blockRoot)
      intro z hz
      rw [mem_singleton] at hz
      subst hz
      obtain ⟨a,b⟩ := words _ blockRoot
      obtain ⟨c,d⟩ := init_links (m := init cfg.ptr m (block_root cfg region)) entriesOk freeRoot
        blockRoot
      rw [a, b, if_neg blockFar.symm, if_neg blockFar.symm, c, d, if_neg rootsFar.symm,
        if_neg rootsFar.symm]
      exact ⟨rfl,rfl⟩
    · apply ring_congr (ring_init entriesOk freeRoot)
      intro z hz
      rw [mem_singleton] at hz
      subst hz
      obtain ⟨a,b⟩ := words _ freeRoot
      rw [a, b, if_neg rootFar.symm, if_neg rootFar.symm]
      exact ⟨rfl,rfl⟩
  obtain ⟨same,one⟩ := empty.push_block site last (bounds last (by simp)) (by simp) rfl
  obtain ⟨same',two⟩ := one.push_block site first ⟨Nat.le_refl _,by omega⟩
    (by simpa using large) rfl
  have marked : Lists cfg region first last _ [first, last] [] [last] := { two with
    marked := by
      intro h member
      rw [mem_singleton] at member
      subst member
      obtain ⟨a,b⟩ := same' h (by simp)
      obtain ⟨c,d⟩ := same h (by simp)
      obtain ⟨e,f⟩ := words h ending
      rw [a, b, c, d, e, f, if_pos rfl, if_pos rfl, if_pos rfl]
      exact ⟨by simp,by simp,rfl,rfl⟩ }
  apply marked.pushed_free site (by simp) (by simp)
  rw [mem_singleton]
  omega

section
variable (lists : Lists cfg region first last m (xs ++ a :: b :: ys) fs as)
include lists

theorem between (member : c ∈ xs ++ a :: b :: ys) : c ≤ a ∨ b ≤ c := by
  have spaced := lists.spaced
  simp only [pairwise_append, pairwise_cons] at spaced
  obtain ⟨_,⟨_,above,_⟩,cross⟩ := spaced
  simp only [mem_append, mem_cons] at member
  rcases member with front | rfl | rfl | back
  · have near := cross c front a (by simp)
    omega
  · omega
  · omega
  · have near := above c back
    omega

theorem gap : a + minBlock cfg ≤ b := by
  have spaced := lists.spaced
  simp only [pairwise_append, pairwise_cons] at spaced
  exact spaced.2.1.1 b (by simp)

end

section
variable (site : Site cfg region first last)
include site

theorem body (lists : Lists cfg region first last m (xs ++ a :: b :: ys) fs as)
    (same : ∀ x, x < a + mem_hdr_size_align cfg ∨ b ≤ x → n x = m x) :
    Lists cfg region first last n (xs ++ a :: b :: ys) fs as := by
  have room := header_room cfg
  have bound := lists.bounds b (by simp)
  apply lists.slack site (h := a) b (by simp)
  · intro c member later
    have order := lists.between member
    omega
  · omega
  · intro x outside
    exact same x (by omega)

theorem guard_set (size : Nat) (lists : Lists cfg region first last m (xs ++ a :: b :: ys) fs as)
    (large : minBlock cfg ≤ size) (inside : a + size ≤ b) :
    Lists cfg region first last (memory_allocator_guard_set cfg m size a)
      (xs ++ a :: b :: ys) fs as := by
  have room := header_room cfg
  have positive := cfg.pointers
  have fits := site.last_fits
  have bound := lists.bounds b (by simp)
  apply lists.body site
  intro x outside
  exact guard_frame large (by omega) (by omega)

theorem scramble_set (size : Nat) (lists : Lists cfg region first last m (xs ++ a :: b :: ys) fs as)
    (large : minBlock cfg ≤ size) (inside : a + size ≤ b) :
    Lists cfg region first last (memory_allocator_scramble_set cfg m size a)
      (xs ++ a :: b :: ys) fs as := by
  have room := header_room cfg
  have positive := cfg.pointers
  have fits := site.last_fits
  have bound := lists.bounds b (by simp)
  apply lists.body site
  intro x outside
  exact scramble_frame large (by omega) (by omega)

theorem inside_body (lists : Lists cfg region first last m (xs ++ a :: b :: ys) fs as)
    (above : a + mem_hdr_size_align cfg ≤ x) (below : x < b) :
    Body cfg region (xs ++ a :: b :: ys) x := by
  have away := site.away
  have low := lists.bounds a (by simp)
  have high := lists.bounds b (by simp)
  refine ⟨by omega,?_⟩
  intro c member
  rcases lists.between member with before | after
  · by_cases same : c = a
    · omega
    · have far := spaced_apart lists.spaced member (b := a) (by simp)
      omega
  · omega

end

end Lists

namespace Lists

/- What the code reads from the lists. -/

section
variable (lists : Lists cfg region first last m (xs ++ a :: b :: ys) fs as)
include lists

theorem next_block : block_list_next cfg m region a = b := by
  have ring := lists.blocks
  rw [map_split] at ring
  have once := ring.once
  have other : b + blockEntry cfg ≠ block_root cfg region := by
    intro same
    simp [same] at once
  simp [block_list_next, listNext, (ring_pair ring).1, if_neg other]

theorem prev_block : block_list_prev cfg m region b = a := by
  have ring := lists.blocks
  rw [map_split] at ring
  have once := ring.once
  have other : a + blockEntry cfg ≠ block_root cfg region := by
    intro same
    simp [same] at once
  simp [block_list_prev, listPrev, (ring_pair ring).2, if_neg other]

end

theorem prev_of_first (lists : Lists cfg region first last m (a :: ys) fs as) :
    block_list_prev cfg m region a = 0 := by
  have ring := lists.blocks
  simp [block_list_prev, listPrev, ring.linked.2.1]

theorem free_not_alloc (site : Site cfg region first last)
    (lists : Lists cfg region first last m bs fs as) (member : h ∈ fs) :
    ¬ header_is_alloc cfg m h := by
  have found := ring_prev_mem lists.free (.tail _ member)
  have positive := lists.free_pos site found
  change prev cfg.ptr m h ≠ 0
  omega

theorem marked_alloc (lists : Lists cfg region first last m bs fs as) (member : h ∈ as) :
    header_is_alloc cfg m h :=
  (lists.marked h member).2.2.1

theorem not_endblock (site : Site cfg region first last)
    (lists : Lists cfg region first last m bs fs as) (member : h ∈ fs ∨ h ∈ as) (inner : h ≠ last) :
    ¬ header_is_endblock cfg m h := by
  change next cfg.ptr m h ≠ 0
  rcases member with free | used
  · have found := ring_next_mem lists.free (.tail _ free)
    have positive := lists.free_pos site found
    omega
  · have positive := site.region_pos
    rw [(lists.marked h used).2.2.2, if_neg inner]
    omega

theorem size_of_block (site : Site cfg region first last)
    (lists : Lists cfg region first last m (xs ++ a :: b :: ys) fs as)
    (known : a ∈ fs ∨ a ∈ as) : header_get_size cfg m region a = some (b - a) := by
  have room := header_room cfg
  have positive := cfg.pointers
  have fits := site.last_fits
  have step := lists.gap
  have bound := lists.bounds b (by simp)
  have inner : a ≠ last := by
    unfold minBlock at step
    omega
  rw [header_get_size, if_neg (lists.not_endblock site known inner), lists.next_block,
    minus_eq (by omega) (by omega)]

end Lists

end
end MutekMemoryAllocatorLists
