import MutekH.Lib.Machine
import MutekH.Lib.Align
import MutekH.Lib.CircularList

/-!
Kernel heap. A region keeps all its blocks in one circular list, in address
order and closed by an end block, and its free blocks in a second one. The
entries of both lists stand in the block headers, and the words of the free
entry of a block in use hold its region and a null marker. Addresses and sizes
are words of the target; calls that fail an assertion do not return.
-/
namespace MutekMemoryAllocator
open Function LibMachine LibAlign LibMemory LibCircularList

/-- A target and a build. `ptr` is the size of a pointer, `2 ^ align` is
    CONFIG_MUTEK_MEMALLOC_ALIGN, `crc` is the checksum of headers, `pageSize` the
    size of the pages that CONFIG_HEXO_MMU builds extend regions with. -/
structure Config where
  ptr : Nat
  align : Nat
  crc : Option (List Nat → Nat)
  guard : Bool
  guardSize : Nat
  scramble : Bool
  stats : Bool
  bestfit : Bool
  pageSize : Option Nat
  lockSize : Nat
  pointers : 0 < ptr
  headerFits : 4 * ptr + max 4 ptr + (2 ^ align - 1) + 16 + guardSize * 2 < 2 ^ (8 * ptr)
  regionFits : lockSize + 8 * ptr + (2 ^ align - 1) < 2 ^ (8 * ptr)

structure Stats where
  size : Nat
  alloc_blocks : Nat
  free_size : Nat
  free_blocks : Nat

structure State where
  mem : Nat → Nat
  regions : Nat → Stats

section
variable (cfg : Config)

def space : Nat := 2 ^ (8 * cfg.ptr)

def wrap (x : Nat) : Nat := x % space cfg

def minus (x y : Nat) : Nat := (x + (space cfg - y)) % space cfg

def alignValueUp (x : Nat) : Nat := alignUp (8 * cfg.ptr) cfg.align x

def alignValueLow (x : Nat) : Nat := alignLow (8 * cfg.ptr) cfg.align x

def mem_hdr_size : Nat := 4 * cfg.ptr + if cfg.crc.isSome then max 4 cfg.ptr else 0

def mem_hdr_size_no_crc : Nat := mem_hdr_size cfg - if cfg.crc.isSome then 4 else 0

def mem_hdr_size_align : Nat := alignValueUp cfg (mem_hdr_size cfg)

def memalloc_split_size : Nat := mem_hdr_size_align cfg + 16 + cfg.guardSize * 2

def regionSize : Nat := cfg.lockSize + 5 * cfg.ptr + if cfg.stats then 3 * cfg.ptr else 0

def region_hdr_size : Nat := alignValueUp cfg (regionSize cfg)

def free_root (region : Nat) : Nat := region + cfg.lockSize

def block_root (region : Nat) : Nat := region + cfg.lockSize + 2 * cfg.ptr

def freeEntry : Nat := 0

def blockEntry : Nat := 2 * cfg.ptr

def guardBytes : Nat := if cfg.guard then cfg.guardSize else 0

def mem2hdr (mem : Nat) : Nat := minus cfg mem (mem_hdr_size_align cfg + guardBytes cfg)

variable (s : State) (container : Option Nat) (m : Nat → Nat) (hdr : Nat)

def hdr2mem : Nat := wrap cfg (hdr + mem_hdr_size_align cfg + guardBytes cfg)

def size_alloc2real (size : Nat) : Nat :=
  wrap cfg (mem_hdr_size_align cfg + guardBytes cfg * 2 + alignValueUp cfg size)

def size_real2alloc (size : Nat) : Nat :=
  minus cfg size (guardBytes cfg * 2 + mem_hdr_size_align cfg)

/- The list functions of items whose entry stands at `offset`. -/

def listNext (offset root item : Nat) : Nat :=
  let e := next cfg.ptr m (item + offset)
  if e = root then 0 else e - offset

def listPrev (offset root item : Nat) : Nat :=
  let e := prev cfg.ptr m (item + offset)
  if e = root then 0 else e - offset

def block_list_next (region hdr : Nat) : Nat :=
  listNext cfg m (blockEntry cfg) (block_root cfg region) hdr

def block_list_prev (region hdr : Nat) : Nat :=
  listPrev cfg m (blockEntry cfg) (block_root cfg region) hdr

def header_is_alloc : Prop := load cfg.ptr m (hdr + cfg.ptr) = 0

def header_is_endblock : Prop := load cfg.ptr m hdr = 0

instance (m : Nat → Nat) (hdr : Nat) : Decidable (header_is_alloc cfg m hdr) :=
  inferInstanceAs (Decidable (_ = _))

instance (m : Nat → Nat) (hdr : Nat) : Decidable (header_is_endblock cfg m hdr) :=
  inferInstanceAs (Decidable (_ = _))

def header_set_alloc (hdr region : Nat) : Nat → Nat :=
  store cfg.ptr (store cfg.ptr m (hdr + cfg.ptr) 0) hdr region

def header_set_endblock : Nat → Nat :=
  store cfg.ptr (store cfg.ptr m hdr 0) (hdr + cfg.ptr) 0

def header_get_size (region hdr : Nat) : Option Nat :=
  if header_is_endblock cfg m hdr then none
  else some (minus cfg (block_list_next cfg m region hdr) hdr)

def memory_allocator_crc_set : Nat → Nat :=
  match cfg.crc with
  | none => m
  | some crc32 => store 4 m (hdr + 4 * cfg.ptr)
      (crc32 ((List.range (mem_hdr_size_no_crc cfg)).map fun i => m (hdr + i)))

def crcSetIfAny : Nat → Nat :=
  if hdr = 0 then m else memory_allocator_crc_set cfg m hdr

def mem_list_function_rem (offset root hdr : Nat) : Nat → Nat :=
  let before := listPrev cfg m offset root hdr
  let after := listNext cfg m offset root hdr
  let m := remove cfg.ptr m (hdr + offset)
  crcSetIfAny cfg (crcSetIfAny cfg m before) after

def mem_list_function_ins (offset root hdr other : Nat) : Nat → Nat :=
  let m := insertPost cfg.ptr m (other + offset) (hdr + offset)
  let before := listPrev cfg m offset root hdr
  let after := listNext cfg m offset root hdr
  crcSetIfAny cfg (crcSetIfAny cfg m before) after

def mem_list_function_push (function : Nat → (Nat → Nat) → Nat → Nat → Nat → Nat)
    (m : Nat → Nat) (offset root hdr : Nat) : Nat → Nat :=
  let m := function cfg.ptr m root (hdr + offset)
  let before := listPrev cfg m offset root hdr
  let after := listNext cfg m offset root hdr
  crcSetIfAny cfg (crcSetIfAny cfg m before) after

def memory_allocator_guard_set (size hdr : Nat) : Nat → Nat :=
  if cfg.guard then
    let m := fill m (wrap cfg (hdr + mem_hdr_size_align cfg)) 0x55 cfg.guardSize
    fill m (minus cfg (wrap cfg (hdr + size)) cfg.guardSize) 0xaa cfg.guardSize
  else m

def memory_allocator_scramble_set (size hdr : Nat) : Nat → Nat :=
  if cfg.scramble then
    fill m (hdr2mem cfg hdr) (if header_is_alloc cfg m hdr then 0x5a else 0xa5)
      (size_real2alloc cfg size)
  else m

/-- The block counts are 32 bits wide arguments, also on wider targets. -/
def minusOne : Nat := 2 ^ 32 - 1

def update_region_stats (regions : Nat → Stats) (region size free_block alloc_block : Nat) :
    Nat → Stats :=
  if cfg.stats then
    let r := regions region
    update regions region
      { r with
        free_size := wrap cfg (r.free_size + size)
        free_blocks := wrap cfg (r.free_blocks + free_block)
        alloc_blocks := wrap cfg (r.alloc_blocks + alloc_block) }
  else regions

def init_region_stats (regions : Nat → Stats) (region size free_block alloc_block : Nat) :
    Nat → Stats :=
  if cfg.stats then
    update regions region
      { regions region with
        free_size := size, free_blocks := free_block, alloc_blocks := alloc_block }
  else regions

def memory_allocator_nolock_extend (region start size : Nat) : Option (Nat × State) :=
  let hdr := start
  let hdr_end := minus cfg (wrap cfg (start + size)) (mem_hdr_size_align cfg)
  let hdr_size := minus cfg hdr hdr_end
  if hdr = 0 then none
  else
    let m := mem_list_function_push cfg pushback s.mem (blockEntry cfg) (block_root cfg region) hdr
    let m := mem_list_function_push cfg push m freeEntry (free_root cfg region) hdr
    let m := header_set_endblock cfg m hdr_end
    let m := mem_list_function_push cfg pushback m (blockEntry cfg) (block_root cfg region) hdr_end
    let m := memory_allocator_scramble_set cfg m hdr_size hdr
    let m := memory_allocator_guard_set cfg m hdr_size hdr
    let m := memory_allocator_crc_set cfg m hdr
    let m := memory_allocator_crc_set cfg m hdr_end
    let regions := update s.regions region
      { s.regions region with size := wrap cfg ((s.regions region).size + size) }
    some (hdr, ⟨m, update_region_stats cfg regions region size 1 0⟩)

def mmu_region_nolock_extend (region size page pageSize : Nat) : Option (Nat × State) :=
  memory_allocator_nolock_extend cfg s region page (wrap cfg (size * pageSize))

def firstFit (region size : Nat) (_ item : Nat) : Option (ForInStep Nat) :=
  (header_get_size cfg m region item).map fun item_size =>
    if size ≤ item_size then .done item else .yield 0

def bestFit (region size : Nat) (best : Nat × Nat) (item : Nat) :
    Option (ForInStep (Nat × Nat)) :=
  (header_get_size cfg m region item).map fun item_size =>
    if size ≤ item_size ∧ (best.1 = 0 ∨ item_size < best.2) then .yield (item, item_size)
    else .yield best

def memory_allocator_candidate (region size : Nat) : Option Nat :=
  let root := free_root cfg region
  if cfg.bestfit then
    (foreach cfg.ptr m root (bestFit cfg m region size) (space cfg)
      (next cfg.ptr m root) (0, 0)).map
      Prod.fst
  else foreach cfg.ptr m root (firstFit cfg m region size) (space cfg) (next cfg.ptr m root) 0

/-- The split in `memory_allocator_pop`: what is left of the block `hdr` after its
    first `size` bytes becomes a free block. -/
def popSplit (region size hdr : Nat) : Option State :=
  let nextHdr := wrap cfg (hdr + size)
  let m := mem_list_function_ins cfg s.mem (blockEntry cfg) (block_root cfg region) nextHdr hdr
  let m := mem_list_function_push cfg push m freeEntry (free_root cfg region) nextHdr
  let m := memory_allocator_crc_set cfg m nextHdr
  (header_get_size cfg m region nextHdr).map fun next_size =>
    let m := memory_allocator_scramble_set cfg m next_size nextHdr
    let m := memory_allocator_guard_set cfg m next_size nextHdr
    let m := memory_allocator_guard_set cfg m size hdr
    ⟨m, update_region_stats cfg s.regions region 0 1 0⟩

/-- `memory_allocator_pop` once it has the block `hdr`; `size` is the real size. -/
def popBlock (region size hdr : Nat) : Option State :=
  if header_is_alloc cfg s.mem hdr then none
  else (header_get_size cfg s.mem region hdr).bind fun hdr_size =>
    if hdr_size < size then none
    else
      let m := mem_list_function_rem cfg s.mem freeEntry (free_root cfg region) hdr
      let s : State := ⟨header_set_alloc cfg m hdr region, s.regions⟩
      let split :=
        if wrap cfg (size + memalloc_split_size cfg) ≤ hdr_size then popSplit cfg s region size hdr
        else some s
      split.map fun s =>
        let m := memory_allocator_crc_set cfg s.mem hdr
        ⟨memory_allocator_scramble_set cfg m size hdr,
          update_region_stats cfg s.regions region 0 minusOne 1⟩

def popCandidate (region size page : Nat) : Option (Nat × State) :=
  (memory_allocator_candidate cfg s.mem region size).bind fun hdr =>
    match cfg.pageSize with
    | none => some (hdr, s)
    | some pageSize =>
      if hdr = 0 then mmu_region_nolock_extend cfg s region (size / pageSize + 1) page pageSize
      else some (hdr, s)

def memory_allocator_pop (region size page : Nat) : Option (Nat × State) :=
  let size := size_alloc2real cfg size
  (popCandidate cfg s region size page).bind fun (hdr, s) =>
    if hdr = 0 then some (0, s)
    else (popBlock cfg s region size hdr).map fun s => (hdr2mem cfg hdr, s)

def pushMergeNext (region nextHdr : Nat) : State :=
  if nextHdr ≠ 0 ∧ ¬ header_is_alloc cfg s.mem nextHdr then
    let m := mem_list_function_rem cfg s.mem freeEntry (free_root cfg region) nextHdr
    let m := mem_list_function_rem cfg m (blockEntry cfg) (block_root cfg region) nextHdr
    ⟨m, update_region_stats cfg s.regions region 0 minusOne 0⟩
  else s

/-- Joins the block freed to the one before it if that is free, else links it as a free block. -/
def pushMergePrev (region hdr prevHdr : Nat) : Nat × State :=
  if prevHdr ≠ 0 ∧ ¬ header_is_alloc cfg s.mem prevHdr then
    let m := mem_list_function_rem cfg s.mem (blockEntry cfg) (block_root cfg region) hdr
    (prevHdr, ⟨memory_allocator_crc_set cfg m prevHdr, s.regions⟩)
  else
    let m := mem_list_function_push cfg push s.mem freeEntry (free_root cfg region) hdr
    (hdr, ⟨memory_allocator_crc_set cfg m hdr, update_region_stats cfg s.regions region 0 1 0⟩)

def memory_allocator_push (address : Nat) : Option State :=
  let hdr := mem2hdr cfg address
  let region := load cfg.ptr s.mem hdr
  if ¬ header_is_alloc cfg s.mem hdr ∨ header_is_endblock cfg s.mem hdr then none
  else
    let nextHdr := block_list_next cfg s.mem region hdr
    let prevHdr := block_list_prev cfg s.mem region hdr
    let (hdr, s) := pushMergePrev cfg (pushMergeNext cfg s region nextHdr) region hdr prevHdr
    (header_get_size cfg s.mem region hdr).map fun size =>
      ⟨memory_allocator_scramble_set cfg s.mem size hdr,
        update_region_stats cfg s.regions region 0 0 minusOne⟩

def resizeSplit (region size hdr next_size diff : Nat) : State :=
  let m := memory_allocator_guard_set cfg s.mem size hdr
  let nextHdr := wrap cfg (hdr + size)
  let m := mem_list_function_ins cfg m (blockEntry cfg) (block_root cfg region) nextHdr hdr
  let m := mem_list_function_push cfg push m freeEntry (free_root cfg region) nextHdr
  let m := memory_allocator_crc_set cfg m nextHdr
  let m := memory_allocator_guard_set cfg m next_size nextHdr
  let m := memory_allocator_scramble_set cfg m next_size nextHdr
  ⟨m, update_region_stats cfg s.regions region (minus cfg 0 diff) 1 0⟩

def resizeIntoNext (region address size hdr nextHdr diff : Nat) : Option (Nat × State) :=
  (header_get_size cfg s.mem region nextHdr).map fun next_size =>
    if next_size < diff then (0, s)
    else
      let m := mem_list_function_rem cfg s.mem freeEntry (free_root cfg region) nextHdr
      let m := mem_list_function_rem cfg m (blockEntry cfg) (block_root cfg region) nextHdr
      let s : State := ⟨m, s.regions⟩
      let (next_size, s) :=
        if wrap cfg (diff + memalloc_split_size cfg) ≤ next_size then
          let next_size := minus cfg next_size diff
          (next_size, resizeSplit cfg s region size hdr next_size diff)
        else (next_size, s)
      (address, ⟨memory_allocator_crc_set cfg s.mem hdr,
        update_region_stats cfg s.regions region (minus cfg 0 next_size) minusOne 0⟩)

def resizeInPlace (region address size hdr hdr_size diff : Nat) : Nat × State :=
  if hdr_size ≤ size then (0, s)
  else if wrap cfg (size + memalloc_split_size cfg) ≤ hdr_size then
    (address, resizeSplit cfg s region size hdr (minus cfg 0 diff) diff)
  else (address, s)

/-- The address returned, or 0. The signed difference of the sizes is compared with
    unsigned words only, and so is a word here. -/
def memory_allocator_resize (address size : Nat) : Option (Nat × State) :=
  let hdr := mem2hdr cfg address
  let region := load cfg.ptr s.mem hdr
  if ¬ header_is_alloc cfg s.mem hdr ∨ header_is_endblock cfg s.mem hdr then none
  else
    let size := size_alloc2real cfg size
    (header_get_size cfg s.mem region hdr).bind fun hdr_size =>
      let diff := minus cfg size hdr_size
      if diff = 0 then some (address, s)
      else
        let nextHdr := block_list_next cfg s.mem region hdr
        if nextHdr ≠ 0 ∧ ¬ header_is_alloc cfg s.mem nextHdr then
          resizeIntoNext cfg s region address size hdr nextHdr diff
        else some (resizeInPlace cfg s region address size hdr hdr_size diff)

/-- The region and the first header of a region built in `start`. With a container
    the region structure is one of its blocks. -/
def initPlace (start page : Nat) :
    Option (Nat × Nat × State) :=
  match container with
  | none => some (start, wrap cfg (start + region_hdr_size cfg), s)
  | some c => (memory_allocator_pop cfg s c (regionSize cfg) page).map fun (region, s) =>
      (region, start, s)

def initEnd (finish : Nat) : Nat := minus cfg (alignValueLow cfg finish) (mem_hdr_size_align cfg)

def initRegion (region hdr hdr_end : Nat) : Option State :=
  let size := minus cfg hdr_end hdr
  let regions := update s.regions region { s.regions region with size := size }
  let m := LibCircularList.init cfg.ptr s.mem (block_root cfg region)
  let m := LibCircularList.init cfg.ptr m (free_root cfg region)
  if size ≤ mem_hdr_size_align cfg then none
  else
    let m := header_set_endblock cfg m hdr_end
    let m := push cfg.ptr m (block_root cfg region) (hdr_end + blockEntry cfg)
    let m := push cfg.ptr m (block_root cfg region) (hdr + blockEntry cfg)
    let m := push cfg.ptr m (free_root cfg region) (hdr + freeEntry)
    let m := memory_allocator_crc_set cfg m hdr_end
    let m := memory_allocator_crc_set cfg m hdr
    (header_get_size cfg m region hdr).map fun block_size =>
      let m := memory_allocator_scramble_set cfg m block_size hdr
      let m := memory_allocator_guard_set cfg m block_size hdr
      ⟨m, init_region_stats cfg regions region size 1 0⟩

def memory_allocator_init (start finish page : Nat) :
    Option (Nat × State) :=
  (initPlace cfg s container (alignValueUp cfg start) page).bind fun (region, hdr, s) =>
    (initRegion cfg s region hdr (initEnd cfg finish)).map fun s => (region, s)

/- A heap in use: the region, its first and its end block, and the address and
   requested size of every live allocation. -/

structure System where
  heap : State
  region : Nat
  first : Nat
  last : Nat
  live : List (Nat × Nat)

inductive Act where
  | pop (size page : Nat)
  | push (address : Nat)
  | resize (address size : Nat)
  | write (address byte : Nat)

def operate (s : System) : Act → Option (Nat × State)
  | .pop size page => memory_allocator_pop cfg s.heap s.region size page
  | .push address => (memory_allocator_push cfg s.heap address).map fun heap => (0, heap)
  | .resize address size => memory_allocator_resize cfg s.heap address size
  | .write address byte => some (0, ⟨fill s.heap.mem address byte 1, s.heap.regions⟩)

def allocations (live : List (Nat × Nat)) (result : Nat) : Act → List (Nat × Nat)
  | .pop size _ => if result = 0 then live else (result, size) :: live
  | .push address => live.filter fun x => x.1 ≠ address
  | .resize address size =>
    if result = 0 then live else live.map fun x => if x.1 = address then (address, size) else x
  | .write _ _ => live

/-- Only live addresses are given back or resized, and clients write only in their allocations. -/
def CanCall (s : System) : Act → Prop
  | .pop _ _ => True
  | .push address => address ∈ s.live.map Prod.fst
  | .resize address _ => address ∈ s.live.map Prod.fst
  | .write address _ => ∃ x ∈ s.live, x.1 ≤ address ∧ address < x.1 + x.2

def Boot (start finish page : Nat) (s : System) : Prop :=
  ∃ before placed, initPlace cfg before container (alignValueUp cfg start) page =
      some (s.region, s.first, placed) ∧
    memory_allocator_init cfg before container start finish page = some (s.region, s.heap) ∧
    s.last = initEnd cfg finish ∧ s.live = []

def machine : Machine System Act where
  start s := ∃ container start finish page, Boot cfg container start finish page s
  enabled s a := CanCall s a ∧ (operate cfg s a).isSome
  next s a :=
    match operate cfg s a with
    | none => s
    | some (result, heap) => { s with heap := heap, live := allocations s.live result a }

end
end MutekMemoryAllocator
