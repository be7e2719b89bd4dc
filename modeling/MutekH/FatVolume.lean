import Mathlib.Data.List.Perm.Subperm
import Mathlib.Data.List.Range
import MutekH.Fat

/-!
FAT volumes: the image of a volume, the entries of its allocation table, the chains of
clusters of its files and their contents. The sector cache is transparent, and what the
code takes out of the table is what the image has there, for the entries that it reaches.
-/
namespace MutekFatVolume
open List LibBytes LibFixedWidth MutekFat

section
variable (fat : Fat)

def blocks : List (List UInt8) := (List.range fat.dev.blk_count).map fat.dev.block

def image : List UInt8 := (blocks fat).flatten

def entrySize : FatType → Nat
  | .FAT16 => 2
  | .FAT32 => 4

def fatEntry (c : Nat) : Nat :=
  let entry := little (slice (image fat)
    (fat.fat_sect0 * 2 ^ fat.sect_size_pow2 + c * entrySize fat.type) (entrySize fat.type))
  match fat.type with
  | .FAT16 => entry
  | .FAT32 => entry % 2 ^ 28

def endMark : FatType → Nat
  | .FAT16 => 0xfff8
  | .FAT32 => 0x0ffffff8

def clusterBytes (first_data c : Nat) : List UInt8 :=
  slice (image fat) ((first_data + (c - 2) * 2 ^ fat.sect_per_clust_pow2) * 2 ^ fat.sect_size_pow2)
    (2 ^ fat.sect_per_clust_pow2 * 2 ^ fat.sect_size_pow2)

structure FileChain (first_data clusters : Nat) (node : FsNode) (chain : List Nat) : Prop where
  first : node.first_cluster = chain.headD 0
  linked : ∀ i c d, chain[i]? = some c → chain[i + 1]? = some d → fatEntry fat c = d
  ended : ∀ c ∈ chain.getLast?, endMark fat.type ≤ fatEntry fat c
  inside : ∀ c ∈ chain, 2 ≤ c ∧ c < clusters + 2
  acyclic : chain.Nodup
  room : node.file_size ≤
    chain.length * (2 ^ fat.sect_per_clust_pow2 * 2 ^ fat.sect_size_pow2)
  size : node.file_size < 2 ^ 32

end

theorem getElem?_blocks (fat : Fat) (i : Nat) :
    (blocks fat)[i]? = if i < fat.dev.blk_count then some (fat.dev.block i) else none := by
  unfold blocks
  by_cases inside : i < fat.dev.blk_count
  · rw [if_pos inside, List.getElem?_map, List.getElem?_range inside]
    rfl
  · rw [if_neg inside]
    simpa using inside

def Even (fat : Fat) : Prop :=
  ∀ lba, lba < fat.dev.blk_count → (fat.dev.block lba).length = 2 ^ fat.sect_size_pow2

instance (fat : Fat) : Decidable (Even fat) :=
  inferInstanceAs (Decidable (∀ lba, lba < fat.dev.blk_count → _))

theorem blocks_even {fat : Fat} (even : Even fat) (b : List UInt8) (mem : b ∈ blocks fat) :
    b.length = 2 ^ fat.sect_size_pow2 := by
  obtain ⟨lba,inside,rfl⟩ := mem_map.mp mem
  exact even lba (mem_range.mp inside)

def perSector (fat : Fat) : Nat :=
  match fat.type with
  | .FAT16 => 2 ^ (fat.sect_size_pow2 - 1)
  | .FAT32 => 2 ^ (fat.sect_size_pow2 - 2)

theorem perSector_size {fat : Fat} (wide : 2 ≤ fat.sect_size_pow2) :
    perSector fat * entrySize fat.type = 2 ^ fat.sect_size_pow2 := by
  unfold perSector entrySize
  cases fat.type with
  | FAT16 =>
    obtain ⟨q,same⟩ := Nat.exists_eq_add_of_le (Nat.le_trans (by decide : 1 ≤ 2) wide)
    rw [same, Nat.add_sub_cancel_left, Nat.pow_add, Nat.mul_comm]
  | FAT32 =>
    obtain ⟨q,same⟩ := Nat.exists_eq_add_of_le wide
    rw [same, Nat.add_sub_cancel_left, Nat.pow_add, Nat.mul_comm]

theorem entry_block {fat : Fat} (even : Even fat) (wide : 2 ≤ fat.sect_size_pow2)
    (inside : fat.fat_sect0 + c / perSector fat < fat.dev.blk_count) :
    slice (image fat) (fat.fat_sect0 * 2 ^ fat.sect_size_pow2 + c * entrySize fat.type)
        (entrySize fat.type) =
      slice (fat.dev.block (fat.fat_sect0 + c / perSector fat))
        (c % perSector fat * entrySize fat.type) (entrySize fat.type) := by
  have size := perSector_size wide
  have split : c = c / perSector fat * perSector fat + c % perSector fat := by
    rw [Nat.mul_comm]
    exact (Nat.div_add_mod _ _).symm
  have place : fat.fat_sect0 * 2 ^ fat.sect_size_pow2 + c * entrySize fat.type =
      (fat.fat_sect0 + c / perSector fat) * 2 ^ fat.sect_size_pow2 +
        c % perSector fat * entrySize fat.type := by
    conv => lhs; rw [split]
    rw [← size]
    ring
  have positive : 0 < perSector fat := by
    unfold perSector
    cases fat.type <;> exact Nat.two_pow_pos _
  have short : c % perSector fat * entrySize fat.type + entrySize fat.type ≤
      2 ^ fat.sect_size_pow2 := by
    rw [← size, ← Nat.succ_mul]
    exact Nat.mul_le_mul_right _ (Nat.mod_lt _ positive)
  have found := getElem?_blocks fat (fat.fat_sect0 + c / perSector fat)
  rw [if_pos inside] at found
  rw [place, image, slice_flatten_within (blocks_even even) found short]

/-- A well-formed volume: the allocation table and then the clusters lie in the device, the
    table has an entry for each cluster, and every file has a chain. -/
structure Volume where
  fat : Fat
  first_data : Nat
  clusters : Nat
  chain : Nat → List Nat
  even : Even fat
  wide : 2 ≤ fat.sect_size_pow2
  numbered : fat.dev.blk_count < 2 ^ 32
  table : 0 < fat.fat_secsize ∧ fat.fat_sect0 + fat.fat_secsize ≤ first_data
  narrow : fat.type = .FAT16 → fat.fat_secsize < 2 ^ 16
  covered : (clusters + 2) * entrySize fat.type ≤ fat.fat_secsize * 2 ^ fat.sect_size_pow2
  counted : clusters + 2 < endMark fat.type
  data : first_data + clusters * 2 ^ fat.sect_per_clust_pow2 ≤ fat.dev.blk_count
  base : (fat.cluster0_sector + 2 * 2 ^ fat.sect_per_clust_pow2) % 2 ^ 32 = first_data
  file : ∀ n, FileChain fat first_data clusters (fat.node n) (chain n)

def content (vol : Volume) (n : Nat) : List UInt8 :=
  ((vol.chain n).flatMap (clusterBytes vol.fat vol.first_data)).take (vol.fat.node n).file_size

section
variable (vol : Volume)

theorem blocks_length : (blocks vol.fat).length = vol.fat.dev.blk_count := by
  simp [blocks]

theorem read_blocks {lba count : Nat} (inside : lba + count ≤ vol.fat.dev.blk_count) :
    dev_block_wait_read vol.fat.dev lba count = .ok (slice (blocks vol.fat) lba count).flatten := by
  unfold dev_block_wait_read
  rw [if_pos inside, flatMap_def]
  congr 2
  refine ext_getElem? ?_
  intro k
  rw [getElem?_slice, getElem?_blocks, List.getElem?_map]
  by_cases short : k < count
  · rw [if_pos short, if_pos (by omega), List.getElem?_range' short]
    simp
  · rw [if_neg short, List.getElem?_eq_none_iff.mpr (by simpa using short)]
    rfl

/- The sector cache. -/

def Cached (sector : Sector) : Prop :=
  sector.lba < vol.fat.dev.blk_count ∧ sector.data = vol.fat.dev.block sector.lba

variable {vol}

theorem load_cached (cached : Cached vol sector) {lba : Nat}
    (inside : lba < vol.fat.dev.blk_count) :
    fat_sector_lock_and_load vol.fat.dev lba sector = .ok ⟨lba, vol.fat.dev.block lba⟩ := by
  unfold fat_sector_lock_and_load
  by_cases hit : sector.lba = lba
  · rw [if_pos hit, ← hit, ← cached.2]
  rw [if_neg hit, read_blocks vol (by omega)]
  have found := getElem?_blocks vol.fat lba
  rw [if_pos inside] at found
  obtain ⟨within,same⟩ := List.getElem?_eq_some_iff.mp found
  simp [slice, drop_eq_getElem_cons within, same]

theorem cached_block (inside : lba < vol.fat.dev.blk_count) :
    Cached vol ⟨lba, vol.fat.dev.block lba⟩ := ⟨inside, rfl⟩

def decoded (type : FatType) (entry : Nat) : Nat :=
  match type with
  | .FAT16 => cluster_to_common entry
  | .FAT32 => entry % 2 ^ 28

def entrySector (fat : Fat) (c : Nat) : Nat :=
  match fat.type with
  | .FAT16 => (c % 2 ^ 16 / perSector fat + fat.fat_sect0) % 2 ^ 16
  | .FAT32 => (c / perSector fat + fat.fat_sect0) % 2 ^ 32

def entryOffset (fat : Fat) (c : Nat) : Nat :=
  match fat.type with
  | .FAT16 => c % 2 ^ 16 % perSector fat
  | .FAT32 => c % perSector fat

def fetched (fat : Fat) (c : Nat) : Nat :=
  if fat.fat_secsize ≤ entrySector fat c then CLUSTER_END
  else decoded fat.type (little (slice (fat.dev.block (entrySector fat c))
    (entryOffset fat c * entrySize fat.type) (entrySize fat.type)))

theorem table_inside (vol : Volume) : vol.fat.fat_secsize ≤ vol.fat.dev.blk_count := by
  have table := vol.table
  have data := vol.data
  omega

theorem fat16_entry_get_eq {fat : Fat} (type : fat.type = .FAT16) (c : Nat) (sector : Sector) :
    fat16_entry_get fat c sector =
      if fat.fat_secsize ≤ entrySector fat c then (CLUSTER_END, sector)
      else
        match fat_sector_lock_and_load fat.dev (entrySector fat c) sector with
        | .error _ => (CLUSTER_END, sector)
        | .ok sector =>
          (decoded .FAT16 (little (slice sector.data (entryOffset fat c * 2) 2)), sector) := by
  unfold entrySector entryOffset perSector
  rw [type]
  rfl

theorem fat32_entry_get_eq {fat : Fat} (type : fat.type = .FAT32) (c : Nat) (sector : Sector) :
    fat32_entry_get fat c sector =
      if fat.fat_secsize ≤ entrySector fat c then (CLUSTER_END, sector)
      else
        match fat_sector_lock_and_load fat.dev (entrySector fat c) sector with
        | .error err => ((uint 32 err).toNat, sector)
        | .ok sector =>
          (decoded .FAT32 (little (slice sector.data (entryOffset fat c * 4) 4)), sector) := by
  unfold entrySector entryOffset perSector
  rw [type]
  rfl

theorem entry_get_fetched (cached : Cached vol sector) (c : Nat) :
    ∃ sector', entry_get vol.fat c sector = (fetched vol.fat c, sector') ∧ Cached vol sector' := by
  have inside := table_inside vol
  unfold entry_get fetched
  by_cases beyond : vol.fat.fat_secsize ≤ entrySector vol.fat c
  · rw [if_pos beyond]
    cases type : vol.fat.type with
    | FAT16 =>
      simp only [fat16_entry_get_eq type, if_pos beyond]
      exact ⟨sector,rfl,cached⟩
    | FAT32 =>
      simp only [fat32_entry_get_eq type, if_pos beyond]
      exact ⟨sector,rfl,cached⟩
  have within := Nat.lt_of_lt_of_le (Nat.not_le.mp beyond) inside
  cases type : vol.fat.type with
  | FAT16 =>
    simp only [fat16_entry_get_eq type, if_neg beyond, load_cached cached within]
    exact ⟨_,rfl,cached_block within⟩
  | FAT32 =>
    simp only [fat32_entry_get_eq type, if_neg beyond, load_cached cached within]
    exact ⟨_,rfl,cached_block within⟩

theorem fetched_range (vol : Volume) (c : Nat) :
    fetched vol.fat c < 2 ^ 28 ∨ 2 ^ 31 ≤ fetched vol.fat c := by
  unfold fetched
  split
  case isTrue => exact .inr (by decide)
  case isFalse =>
    cases type : vol.fat.type with
    | FAT16 =>
      simp only [decoded, cluster_to_common]
      split <;> omega
    | FAT32 => exact .inl (Nat.mod_lt _ (by decide))

/-- The code looks for the entry where the table has it. -/
def Reachable (fat : Fat) (c : Nat) : Prop :=
  fat.fat_sect0 + c / perSector fat < fat.fat_secsize

instance (fat : Fat) (c : Nat) : Decidable (Reachable fat c) :=
  inferInstanceAs (Decidable (_ < _))

theorem fetched_decoded (reachable : Reachable vol.fat c)
    (short : vol.fat.type = .FAT16 → c < 2 ^ 16) :
    fetched vol.fat c = decoded vol.fat.type (fatEntry vol.fat c) := by
  have inside := table_inside vol
  have numbered := vol.numbered
  have narrow := vol.narrow
  unfold Reachable at reachable
  have entry := entry_block vol.even vol.wide (c := c) (by omega)
  unfold fatEntry
  rw [entry]
  unfold fetched entrySector entryOffset
  cases type : vol.fat.type with
  | FAT16 =>
    have narrow := narrow type
    simp only
    rw [Nat.mod_eq_of_lt (short type), Nat.add_comm, Nat.mod_eq_of_lt (by omega), if_neg (by omega)]
  | FAT32 =>
    simp only
    rw [Nat.add_comm, Nat.mod_eq_of_lt (by omega), if_neg (by omega)]
    simp [decoded]

/-- Of a reachable entry the code takes the number in the image, on a FAT16 volume only if
    its highest bit is clear. -/
theorem fetched_entry (reachable : Reachable vol.fat c)
    (small : vol.fat.type = .FAT16 → c < 2 ^ 16 ∧ fatEntry vol.fat c < 0x8000) :
    fetched vol.fat c = fatEntry vol.fat c := by
  rw [fetched_decoded reachable (fun type => (small type).1)]
  cases type : vol.fat.type with
  | FAT16 => simp [decoded, cluster_to_common, if_pos (small type).2]
  | FAT32 => simp [decoded, fatEntry, type]

theorem not_end (small : c < 0x0ffffff8) : fat_entry_is_end c = false := by
  have below : c ||| 0xf0000007 < 2 ^ 32 := Nat.or_lt_two_pow (by omega) (by decide)
  have other : c ||| 0xf0000007 ≠ 0xffffffff := by
    intro full
    have bits : ((c ||| 0xf0000007) >>> 3) % 2 ^ 25 = 0xffffffff >>> 3 % 2 ^ 25 := by rw [full]
    rw [Nat.shiftRight_or_distrib, Nat.or_mod_two_pow] at bits
    have high : (0xf0000007 : Nat) >>> 3 % 2 ^ 25 = 0 := by decide
    rw [high, Nat.or_zero, Nat.shiftRight_eq_div_pow] at bits
    omega
  unfold fat_entry_is_end
  simp only [decide_eq_false_iff_not]
  omega

/- The sectors of a file. -/

def fileSectors (vol : Volume) (n : Nat) : List (List UInt8) :=
  (vol.chain n).flatMap (fun c => slice (blocks vol.fat)
    (vol.first_data + (c - 2) * 2 ^ vol.fat.sect_per_clust_pow2) (2 ^ vol.fat.sect_per_clust_pow2))

theorem content_sectors (n : Nat) :
    content vol n = (fileSectors vol n).flatten.take (vol.fat.node n).file_size := by
  have cluster : ∀ c, clusterBytes vol.fat vol.first_data c = (slice (blocks vol.fat)
      (vol.first_data + (c - 2) * 2 ^ vol.fat.sect_per_clust_pow2)
      (2 ^ vol.fat.sect_per_clust_pow2)).flatten := by
    intro c
    exact slice_flatten_whole (blocks_even vol.even) _ _
  unfold content fileSectors
  rw [flatMap_def, flatMap_def, flatten_flatten, map_map, funext cluster]
  rfl

theorem fileSectors_even (vol : Volume) (n : Nat) (b : List UInt8) (mem : b ∈ fileSectors vol n) :
    b.length = 2 ^ vol.fat.sect_size_pow2 := by
  obtain ⟨c,_,piece⟩ := mem_flatMap.mp mem
  exact blocks_even vol.even b (mem_of_mem_drop (mem_of_mem_take piece))

theorem cluster_inside (n : Nat) (mem : c ∈ vol.chain n) :
    vol.first_data + (c - 2) * 2 ^ vol.fat.sect_per_clust_pow2 + 2 ^ vol.fat.sect_per_clust_pow2 ≤
      vol.fat.dev.blk_count := by
  obtain ⟨two,last⟩ := (vol.file n).inside c mem
  have room := Nat.mul_le_mul_right (2 ^ vol.fat.sect_per_clust_pow2)
    (by omega : c - 2 + 1 ≤ vol.clusters)
  have data := vol.data
  rw [Nat.add_mul] at room
  omega

theorem pieces_even (n : Nat) (piece : List (List UInt8))
    (mem : piece ∈ (vol.chain n).map (fun c => slice (blocks vol.fat)
      (vol.first_data + (c - 2) * 2 ^ vol.fat.sect_per_clust_pow2)
      (2 ^ vol.fat.sect_per_clust_pow2))) :
    piece.length = 2 ^ vol.fat.sect_per_clust_pow2 := by
  obtain ⟨c,chained,rfl⟩ := mem_map.mp mem
  have room := cluster_inside n chained
  rw [slice_length, blocks_length]
  omega

theorem getElem?_fileSectors (n : Nat) (found : (vol.chain n)[v]? = some c)
    (inside : j < 2 ^ vol.fat.sect_per_clust_pow2) :
    (fileSectors vol n)[v * 2 ^ vol.fat.sect_per_clust_pow2 + j]? =
      some (vol.fat.dev.block (vol.first_data +
        (c - 2) * 2 ^ vol.fat.sect_per_clust_pow2 + j)) := by
  have room := cluster_inside n (mem_of_getElem? found)
  unfold fileSectors
  rw [flatMap_def, getElem?_flatten (pieces_even n) inside, List.getElem?_map, found]
  simp only [Option.map_some, Option.bind_some]
  rw [getElem?_slice, if_pos inside, getElem?_blocks, if_pos (by omega)]

theorem bytes_length (n : Nat) : (fileSectors vol n).flatten.length =
    (vol.chain n).length * (2 ^ vol.fat.sect_per_clust_pow2 * 2 ^ vol.fat.sect_size_pow2) := by
  rw [flatten_length (fileSectors_even vol n)]
  unfold fileSectors
  rw [flatMap_def, flatten_length (pieces_even n), length_map, Nat.mul_assoc]

theorem chain_short (vol : Volume) (n : Nat) : (vol.chain n).length ≤ vol.clusters + 2 := by
  have subset : vol.chain n ⊆ List.range (vol.clusters + 2) := by
    intro c mem
    exact mem_range.mpr ((vol.file n).inside c mem).2
  simpa using ((vol.file n).acyclic.subperm subset).length_le

end
end MutekFatVolume
