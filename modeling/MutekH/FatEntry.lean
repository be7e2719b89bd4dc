import MutekH.FatFiles

/-!
The entries of the allocation table and the clusters of a file. An entry is read with the
semaphore of the sector cache; any sequence of lookups of clusters, back and forth and past
the end, follows the chain of the file, where the code reaches the entries of the chain and
does not take a cluster before the window for one in it.
-/
namespace MutekFatEntry
open LibBytes LibFixedWidth LibMachine MutekVfs MutekFat MutekFatVolume MutekFatWindow MutekFatFiles

/-- The cache, the value of its semaphore and, as history, the sectors read. -/
structure Cache where
  sector : Sector
  semaphore : Int
  reads : List Nat

def fat_sector_lock_and_load (dev : Device) (lba : Nat) (cache : Cache) : Except Int Unit × Cache :=
  let cache := { cache with semaphore := cache.semaphore - 1 }
  if cache.sector.lba = lba then (.ok (), cache)
  else
    let cache := { cache with reads := cache.reads ++ [lba] }
    match dev_block_wait_read dev lba 1 with
    | .error err => (.error err, { cache with semaphore := cache.semaphore + 1 })
    | .ok data => (.ok (), { cache with sector := ⟨lba, data⟩ })

def fat_sector_lock_release (cache : Cache) : Cache :=
  { cache with semaphore := cache.semaphore + 1 }

section
variable (fat : Fat)

def fat16_entry_get (cluster_no : Nat) (cache : Cache) : Nat × Cache :=
  let (fat_sector, fat_offset) := fat16_cut_fat_cluster_no fat cluster_no
  if fat.fat_secsize ≤ fat_sector then (CLUSTER_END, cache)
  else
    let (err, cache) := fat_sector_lock_and_load fat.dev fat_sector cache
    match err with
    | .error _ => (CLUSTER_END, cache)
    | .ok _ =>
      (cluster_to_common (little (slice cache.sector.data (fat_offset * 2) 2)),
        fat_sector_lock_release cache)

def fat32_entry_get (cluster_no : Nat) (cache : Cache) : Nat × Cache :=
  let (fat_sector, fat_offset) := fat32_cut_fat_cluster_no fat cluster_no
  if fat.fat_secsize ≤ fat_sector then (CLUSTER_END, cache)
  else
    let (err, cache) := fat_sector_lock_and_load fat.dev fat_sector cache
    match err with
    | .error err => ((uint 32 err).toNat, cache)
    | .ok _ =>
      (little (slice cache.sector.data (fat_offset * 4) 4) % 2 ^ 28, fat_sector_lock_release cache)

def entry_get (cluster_no : Nat) (cache : Cache) : Nat × Cache :=
  match fat.type with
  | .FAT16 => fat16_entry_get fat cluster_no cache
  | .FAT32 => fat32_entry_get fat cluster_no cache

end

section
variable {vol : Volume} {c : Nat}

/-- What an access to the entry `c` does to the cache, whatever comes out of it. -/
structure Accessed (fat : Fat) (c : Nat) (cache after : Cache) : Prop where
  released : after.semaphore = cache.semaphore
  reads : after.reads = cache.reads ∨
    entrySector fat c < fat.fat_secsize ∧ after.reads = cache.reads ++ [entrySector fat c]
  missed : cache.sector.lba ≠ entrySector fat c → entrySector fat c < fat.fat_secsize →
    after.reads = cache.reads ++ [entrySector fat c]

theorem load_cases (dev : Device) (lba : Nat) (cache : Cache) :
    (∃ err after, fat_sector_lock_and_load dev lba cache = (.error err, after) ∧
      MutekFat.fat_sector_lock_and_load dev lba cache.sector = .error err ∧
      after.semaphore = cache.semaphore ∧ after.reads = cache.reads ++ [lba]) ∨
    (∃ after, fat_sector_lock_and_load dev lba cache = (.ok (), after) ∧
      MutekFat.fat_sector_lock_and_load dev lba cache.sector = .ok after.sector ∧
      after.semaphore = cache.semaphore - 1 ∧
      (cache.sector.lba = lba ∧ after.reads = cache.reads ∨
        after.reads = cache.reads ++ [lba])) := by
  unfold fat_sector_lock_and_load MutekFat.fat_sector_lock_and_load
  by_cases hit : cache.sector.lba = lba
  · simp only [if_pos hit]
    exact .inr ⟨_,rfl,rfl,rfl,.inl ⟨hit,rfl⟩⟩
  · simp only [if_neg hit]
    cases dev_block_wait_read dev lba 1 with
    | error err => exact .inl ⟨err,_,rfl,rfl,by simp only; omega,rfl⟩
    | ok data => exact .inr ⟨_,rfl,rfl,rfl,.inr rfl⟩

/-- The shape of both accesses: an entry that is out of bounds, a sector that cannot be read and
    the value in the sector. -/
theorem load_accessed (fat : Fat) (c : Nat) (cache : Cache) (failed : Int → Nat)
    (value : List UInt8 → Nat) :
    let traced :=
      if fat.fat_secsize ≤ entrySector fat c then (CLUSTER_END, cache)
      else
        match (fat_sector_lock_and_load fat.dev (entrySector fat c) cache).1 with
        | .error err => (failed err, (fat_sector_lock_and_load fat.dev (entrySector fat c) cache).2)
        | .ok _ =>
          (value (fat_sector_lock_and_load fat.dev (entrySector fat c) cache).2.sector.data,
            fat_sector_lock_release (fat_sector_lock_and_load fat.dev (entrySector fat c) cache).2)
    traced.1 =
      (if fat.fat_secsize ≤ entrySector fat c then (CLUSTER_END, cache.sector)
      else
        match MutekFat.fat_sector_lock_and_load fat.dev (entrySector fat c) cache.sector with
        | .error err => (failed err, cache.sector)
        | .ok sector => (value sector.data, sector)).1 ∧
      Accessed fat c cache traced.2 := by
  by_cases beyond : fat.fat_secsize ≤ entrySector fat c
  · simp only [if_pos beyond]
    exact ⟨trivial,rfl,.inl rfl,by omega⟩
  simp only [if_neg beyond]
  rcases load_cases fat.dev (entrySector fat c) cache with
    ⟨err,after,load,same,released,reads⟩ | ⟨after,load,same,taken,reads⟩
  · simp only [load, same]
    exact ⟨trivial,released,.inr ⟨by omega,reads⟩,fun _ _ => reads⟩
  · simp only [load, same, fat_sector_lock_release]
    exact ⟨trivial,by simp only; omega,reads.imp And.right (fun more => ⟨by omega,more⟩),
      fun other _ => reads.resolve_left (fun hit => other hit.1)⟩

/-- The semaphore is released on every path, and what is returned is what `MutekFat.entry_get`
    returns. -/
theorem entry_get_accessed (fat : Fat) (c : Nat) (cache : Cache) :
    (entry_get fat c cache).1 = (MutekFat.entry_get fat c cache.sector).1 ∧
      Accessed fat c cache (entry_get fat c cache).2 := by
  unfold entry_get MutekFat.entry_get
  cases type : fat.type with
  | FAT16 =>
    have cut : fat16_cut_fat_cluster_no fat c = (entrySector fat c, entryOffset fat c) := by
      simp [fat16_cut_fat_cluster_no, entrySector, entryOffset, perSector, type]
    simp only [fat16_entry_get_eq type, fat16_entry_get, cut]
    exact load_accessed fat c cache (fun _ => CLUSTER_END)
      (fun data => decoded .FAT16 (little (slice data (entryOffset fat c * 2) 2)))
  | FAT32 =>
    have cut : fat32_cut_fat_cluster_no fat c = (entrySector fat c, entryOffset fat c) := by
      simp [fat32_cut_fat_cluster_no, entrySector, entryOffset, perSector, type]
    simp only [fat32_entry_get_eq type, fat32_entry_get, cut]
    exact load_accessed fat c cache (fun err => (uint 32 err).toNat)
      (fun data => decoded .FAT32 (little (slice data (entryOffset fat c * 4) 4)))

theorem fatEntry_bound (type : vol.fat.type = .FAT16) (c : Nat) : fatEntry vol.fat c < 2 ^ 16 := by
  unfold fatEntry
  rw [type]
  simp only [entrySize]
  generalize vol.fat.fat_sect0 * 2 ^ vol.fat.sect_size_pow2 + c * 2 = place
  unfold slice
  match (image vol.fat).drop place with
  | [] => decide
  | [x] =>
    have := x.toNat_lt
    simp only [List.take, little]
    omega
  | x :: y :: _ =>
    have := x.toNat_lt
    have := y.toNat_lt
    simp only [List.take, little]
    omega

theorem number_short (last : c < vol.clusters + 2) (type : vol.fat.type = .FAT16) : c < 2 ^ 16 := by
  have counted := vol.counted
  rw [type] at counted
  have mark : endMark .FAT16 = 0xfff8 := rfl
  omega

/-- The end marks stay end marks when they are extended with their sign. -/
theorem fetched_end (last : c < vol.clusters + 2) (reachable : Reachable vol.fat c)
    (ended : endMark vol.fat.type ≤ fatEntry vol.fat c) :
    fat_entry_is_end (fetched vol.fat c) = true := by
  have narrow : ∀ k < 8, fat_entry_is_end (0xfffffff8 + k) = true := by decide
  have wide : ∀ k < 8, fat_entry_is_end (0x0ffffff8 + k) = true := by decide
  rw [fetched_decoded reachable (number_short last)]
  cases type : vol.fat.type with
  | FAT16 =>
    have bound := fatEntry_bound type c
    have mark : endMark .FAT16 = 0xfff8 := rfl
    rw [type] at ended
    have value : decoded .FAT16 (fatEntry vol.fat c) =
        0xfffffff8 + (fatEntry vol.fat c - 0xfff8) := by
      simp only [decoded, cluster_to_common]
      rw [if_neg (by omega)]
      omega
    rw [value]
    exact narrow _ (by omega)
  | FAT32 =>
    have bound : fatEntry vol.fat c < 2 ^ 28 := by
      simp only [fatEntry, type]
      exact Nat.mod_lt _ (by decide)
    have mark : endMark .FAT32 = 0x0ffffff8 := rfl
    rw [type] at ended
    have value : decoded .FAT32 (fatEntry vol.fat c) =
        0x0ffffff8 + (fatEntry vol.fat c - 0x0ffffff8) := by
      simp only [decoded]
      omega
    rw [value]
    exact wide _ (by omega)

/-- The sector of an entry is in the table as it lies on the device. A number of 32 bits holds that
    of every sector, one of 16 bits does not. -/
theorem entrySector_eq (last : c < vol.clusters + 2) :
    entrySector vol.fat c = vol.fat.fat_sect0 + c / perSector vol.fat ∨
      ¬ Reachable vol.fat c ∧ entrySector vol.fat c < vol.fat.fat_sect0 := by
  have covered := vol.covered
  rw [← perSector_size vol.wide, ← Nat.mul_assoc] at covered
  have entries : vol.clusters + 2 ≤ vol.fat.fat_secsize * perSector vol.fat := by
    refine Nat.le_of_mul_le_mul_right covered ?_
    cases vol.fat.type <;> decide
  have inside : c / perSector vol.fat < vol.fat.fat_secsize := by
    refine Nat.div_lt_of_lt_mul ?_
    rw [Nat.mul_comm]
    omega
  have table := vol.table
  have data := vol.data
  have numbered := vol.numbered
  unfold entrySector Reachable
  cases type : vol.fat.type with
  | FAT16 =>
    have narrow := vol.narrow type
    simp only [Nat.mod_eq_of_lt (number_short last type)]
    generalize c / perSector vol.fat = q at inside ⊢
    omega
  | FAT32 =>
    generalize c / perSector vol.fat = q at inside ⊢
    simp only
    omega

/-- The value of the entry in the table, the end marks being recognised as such and nothing else,
    from a sector of the table, with the semaphore as it was. -/
structure Got (vol : Volume) (c : Nat) (cache : Cache) (out : Nat × Cache) : Prop where
  value : fatEntry vol.fat c < endMark vol.fat.type → out.1 = fatEntry vol.fat c
  ended : fat_entry_is_end out.1 = true ↔ endMark vol.fat.type ≤ fatEntry vol.fat c
  released : out.2.semaphore = cache.semaphore
  reads : out.2.reads = cache.reads ∨ ∃ lba, vol.fat.fat_sect0 ≤ lba ∧
    lba < vol.fat.fat_sect0 + vol.fat.fat_secsize ∧ out.2.reads = cache.reads ++ [lba]

/-- The access to an entry is right, whatever is in the cache, if and only if its sector on the
    device is below the size of the table and the entry does not change when it is extended with its
    sign; or the sector number of the code is not below that size and the entry is an end mark. -/
theorem entry_get_exact (vol : Volume) (c : Nat) (number : 2 ≤ c ∧ c < vol.clusters + 2) :
    (∀ cache, Cached vol cache.sector → Got vol c cache (entry_get vol.fat c cache)) ↔
      Reachable vol.fat c ∧ (vol.fat.type = .FAT16 →
          fatEntry vol.fat c < 0x8000 ∨ endMark .FAT16 ≤ fatEntry vol.fat c) ∨
        vol.fat.fat_secsize ≤ entrySector vol.fat c ∧
          endMark vol.fat.type ≤ fatEntry vol.fat c := by
  have mark := endMark_le vol.fat.type
  have sector := entrySector_eq number.2
  have table := vol.table
  have data := vol.data
  constructor
  · intro got
    have cached : Cached vol ⟨vol.fat.fat_sect0,vol.fat.dev.block vol.fat.fat_sect0⟩ :=
      cached_block (by omega)
    obtain ⟨value,ended,_,reads⟩ := got ⟨_,1,[]⟩ cached
    obtain ⟨same,accessed⟩ := entry_get_accessed vol.fat c
      ⟨⟨vol.fat.fat_sect0,vol.fat.dev.block vol.fat.fat_sect0⟩,1,[]⟩
    obtain ⟨_,fetches,_⟩ := entry_get_fetched cached c
    simp only [fetches] at same
    rw [same] at value ended
    by_cases beyond : vol.fat.fat_secsize ≤ entrySector vol.fat c
    · rw [fetched, if_pos beyond] at ended
      exact .inr ⟨beyond,ended.mp (by decide)⟩
    have reachable : Reachable vol.fat c := by
      rcases sector with right | ⟨_,wrapped⟩
      · unfold Reachable
        omega
      · rw [accessed.missed (by simp only; omega) (by omega)] at reads
        obtain none | ⟨lba,low,_,read⟩ := reads
        · cases none
        · cases read
          omega
    refine .inl ⟨reachable,?_⟩
    intro type
    by_contra changed
    rw [fetched_decoded reachable (number_short number.2), type] at value
    have wrong := value (by omega)
    simp only [decoded, cluster_to_common] at wrong
    rw [if_neg (by omega)] at wrong
    omega
  · intro holds cache cached
    obtain ⟨same,accessed⟩ := entry_get_accessed vol.fat c cache
    obtain ⟨_,got,_⟩ := entry_get_fetched cached c
    rw [got] at same
    rcases holds with ⟨reachable,plain⟩ | ⟨beyond,ended⟩
    · have value : fatEntry vol.fat c < endMark vol.fat.type →
          fetched vol.fat c = fatEntry vol.fat c := by
        intro below
        refine fetched_entry reachable (fun type => ⟨number_short number.2 type,?_⟩)
        rw [type] at below
        exact (plain type).resolve_right (by omega)
      refine ⟨same ▸ value,⟨?_,?_⟩,accessed.released,?_⟩
      · intro ended
        by_contra below
        rw [same, value (by omega), not_end (by omega)] at ended
        cases ended
      · rw [same]
        exact fetched_end number.2 reachable
      · refine accessed.reads.imp id (fun more => ⟨entrySector vol.fat c,?_,by omega,more.2⟩)
        rcases sector with right | ⟨unreachable,_⟩
        · exact right ▸ Nat.le_add_right _ _
        · exact absurd reachable unreachable
    · have mark : fetched vol.fat c = CLUSTER_END := if_pos beyond
      refine ⟨fun below => absurd below (by omega),?_,accessed.released,
        .inl (accessed.reads.resolve_right (by omega))⟩
      rw [same, mark]
      exact iff_of_true (by decide : fat_entry_is_end CLUSTER_END = true) ended

theorem entry_get_exact_small : Got smallVolume 3 ⟨⟨0, [0, 0, 0, 0]⟩, 1, []⟩
    (entry_get smallVolume.fat 3 ⟨⟨0, [0, 0, 0, 0]⟩, 1, []⟩) := by
  exact (entry_get_exact smallVolume 3 (by decide)).mpr (.inl ⟨by decide,fun _ => by decide⟩) _
    ⟨by decide,rfl⟩

/-- The number of the sector on the device is compared with the size of the table: behind four
    reserved sectors the entry of the cluster 2 is out of bounds. A number of FAT16 with its
    highest bit set is changed. -/
theorem entry_get_diverges : fatEntry reservedVolume.fat 2 = 3 ∧ 2 < reservedVolume.clusters + 2 ∧
    (entry_get reservedVolume.fat 2 ⟨⟨0, [0, 0, 0, 0]⟩, 1, []⟩).1 = CLUSTER_END ∧
    fatEntry highVolume.fat 2 = 0x8000 ∧ 0x8000 < highVolume.clusters + 2 ∧
    (entry_get highVolume.fat 2 ⟨⟨0, [0, 0, 0, 0]⟩, 1, []⟩).1 = 0xffff8000 :=
  ⟨by decide, by decide, by decide, highFat_next, by decide, by decide⟩

/- Lookups. -/

inductive Use where
  | open_ (h node : Nat)
  | close (h : Nat)
  | get (h cluster : Nat)

def clusterMachine (fuel : Nat) (vol : Volume) : Machine State Use where
  start s := Cached vol s.sector ∧ ∀ n, s.files n = []
  enabled s
    | .open_ h _ => ∀ n, h ∉ s.files n
    | .close h => Opened s h
    | .get h _ => Opened s h
  next s
    | .open_ h node => fat_node_open vol.fat h node s
    | .close h => fat_file_close h s
    | .get h cluster =>
      ((fat_file_get_cluster fuel vol.fat h cluster s).map Prod.snd).toOption.getD s

/-- The file has clusters, the one asked for is not before the window and its number is far
    from the largest. -/
def GetDomain (vol : Volume) (s : State) : Use → Prop
  | .get h cluster =>
    vol.chain (s.ffile h).extent ≠ [] ∧ Ahead (s.ffile h) cluster ∧ cluster ≤ 2 ^ 32 - 2 ^ 28
  | _ => True

variable {w fuel n h v : Nat} {s : State}

/-- The windows do not go beyond the end of the chain. -/
def Within (vol : Volume) (s : State) : Prop :=
  ∀ n g, g ∈ s.files n → vol.chain n ≠ [] → reach (s.ffile g) ≤ (vol.chain n).length

def LastReachable (vol : Volume) : Prop :=
  ∀ n, ∀ c ∈ (vol.chain n).getLast?, Reachable vol.fat c

structure Followed (vol : Volume) (n h : Nat) (s s' : State) : Prop where
  cached : Cached vol s'.sector
  window : Window vol n (s'.ffile h)
  within : reach (s'.ffile h) ≤ (vol.chain n).length
  kept : Kept h s s'

section
variable (sup : Supported w vol) (last : LastReachable vol)
include sup last

theorem walk_follows (fuel : Nat) (s : State)
    (cached : Cached vol s.sector) (window : Window vol n (s.ffile h))
    (within : reach (s.ffile h) ≤ (vol.chain n).length) (small : v ≤ 2 ^ 32 - 2 ^ 28)
    (ahead : (s.ffile h).cluster_index ≤ v)
    (enough : (vol.chain n).length < fuel + reach (s.ffile h)) :
    ∃ s', fat_file_walk vol.fat h v fuel s = .ok ((vol.chain n)[v]?.getD 0, s') ∧
      Followed vol n h s s' := by
  induction fuel generalizing s with
  | zero => omega
  | succ fuel ih => ?_
  have start := window.start
  have followed : Followed vol n h s s := ⟨cached,window,within,kept_refl h s⟩
  by_cases inside : v < reach (s.ffile h)
  · have found := List.getElem?_eq_getElem (Nat.lt_of_lt_of_le inside within)
    unfold reach at inside
    obtain ⟨same,nonzero⟩ := translate_holds window ⟨ahead,by omega⟩ found
    rw [fat_file_walk]
    simp only [same, ne_eq, nonzero, not_false_eq_true, ↓reduceIte]
    exact ⟨s,by rw [found]; rfl,followed⟩
  by_cases more : reach (s.ffile h) < (vol.chain n).length
  · obtain ⟨s1,turn,cached1,window1,ahead1,next,kept⟩ := walk_next sup s cached window
      small ahead (by omega) (List.getElem?_eq_getElem more)
    obtain ⟨s',walked,after⟩ := ih s1 cached1 window1 (by omega) ahead1 (by omega)
    exact ⟨s',(turn fuel).trans walked,after.cached,after.window,after.within,
      kept_trans kept after.kept⟩
  -- The zone ends with the chain, and the entry of its last cluster is an end mark.
  have whole : reach (s.ffile h) = (vol.chain n).length := by omega
  have final : (vol.chain n).getLast? = some ((s.ffile h).zone_end - 1) := by
    rw [List.getLast?_eq_getElem?, ← whole]
    exact zone_last window within
  have bounded := window.bounded
  have before : ((s.ffile h).zone_end + (2 ^ 32 - 1)) % 2 ^ 32 = (s.ffile h).zone_end - 1 := by
    omega
  obtain ⟨sector',read,cached'⟩ := entry_get_fetched cached ((s.ffile h).zone_end - 1)
  have mark := fetched_end ((vol.file n).inside _ (List.mem_of_getLast? final)).2
    (last n _ final) ((vol.file n).ended _ final)
  have none : (vol.chain n)[v]? = none := List.getElem?_eq_none_iff.mpr (by omega)
  have outside : ¬ (s.ffile h).zone_start + (v - (s.ffile h).cluster_index) <
      (s.ffile h).zone_end := by
    unfold reach at inside
    omega
  rw [fat_file_walk]
  simp only [translate_ahead window small ahead, if_neg outside, ne_eq, not_true_eq_false,
    ↓reduceIte, before, read, mark, none, Option.getD_none]
  exact ⟨_,rfl,cached',window,within,kept_sector h sector' s⟩

theorem get_follows (enough : vol.clusters + 2 < fuel)
    (ready : Ready vol s) (within : Within vol s) (opened : h ∈ s.files n)
    (chained : vol.chain n ≠ []) (ahead : Ahead (s.ffile h) v) (small : v ≤ 2 ^ 32 - 2 ^ 28) :
    ∃ s', fat_file_get_cluster fuel vol.fat h v s = .ok ((vol.chain n)[v]?.getD 0, s') ∧
      Followed vol n h s s' := by
  have window := ready.window n h opened chained
  have inside := within n h opened chained
  have short := chain_short vol n
  by_cases holds : Holds (s.ffile h) v
  · have bound : v < (vol.chain n).length := by
      obtain ⟨front,back⟩ := holds
      unfold reach at inside
      omega
    have found := List.getElem?_eq_getElem bound
    obtain ⟨same,nonzero⟩ := translate_holds window holds found
    unfold fat_file_get_cluster
    simp only [same, ne_eq, nonzero, not_false_eq_true, ↓reduceIte]
    exact ⟨s,by rw [found]; rfl,ready.cached,window,inside,kept_refl h s⟩
  have first := first_found chained
  have positive := List.length_pos_iff.mpr chained
  have one : ((vol.fat.node n).first_cluster + 1) % 2 ^ 32 = (vol.fat.node n).first_cluster + 1 :=
    Nat.mod_eq_of_lt (by have := cluster_small first; omega)
  obtain ⟨f,⟨fits,less⟩,before,extent,resumed⟩ := get_cluster_resumes
    (P := fun f => Window vol n f ∧ reach f ≤ (vol.chain n).length) fuel (ready.extent n h opened)
    (fun g mem => ⟨ready.window n g mem chained,within n g mem chained⟩)
    (translate_missed window small ahead holds)
    ⟨window_new first n,by rw [reach, one]; simp only; omega⟩
    (fun f fits => ⟨⟨fits.1.start,fits.1.bounded,fits.1.index,fits.1.place⟩,fits.2⟩)
  obtain ⟨s',walked,after⟩ := walk_follows sup last fuel (setFile h f s) ready.cached
    (by rw [setFile_self]; exact fits) (by rw [setFile_self]; exact less) small
    (by rw [setFile_self]; exact before) (by omega)
  exact ⟨s',resumed.trans walked,after.cached,after.window,after.within,
    kept_trans (kept_step s.sector extent) after.kept⟩

theorem reached_ready (enough : vol.clusters + 2 < fuel)
    (reached : Reached (restrict (clusterMachine fuel vol) (GetDomain vol)) s) :
    Ready vol s ∧ Within vol s := by
  refine reached_invariant (fun s => Ready vol s ∧ Within vol s) ?_ ?_ reached
  · rintro s ⟨cached,none⟩
    exact ⟨ready_start cached none,fun n g mem => absurd mem (none_open none n g)⟩
  rintro s use ⟨ready,within⟩ ⟨can,domain⟩
  cases use with
  | open_ h node =>
    refine ⟨open_ready ready can node,?_⟩
    change Within vol (fat_node_open vol.fat h node s)
    intro n g mem chained
    rcases mem_open can mem with ⟨old,other⟩ | ⟨rfl,rfl⟩
    · simpa [fat_node_open, other] using within n g old chained
    · have small := cluster_small (first_found chained)
      have positive := List.length_pos_iff.mpr chained
      simp only [fat_node_open, Function.update_self, reach]
      omega
  | close h => exact ⟨close_ready ready h,fun n g mem chained => within n g (mem_close mem) chained⟩
  | get h v =>
    obtain ⟨chained,ahead,small⟩ := domain
    obtain ⟨s',got,after⟩ := get_follows sup last enough ready within can chained ahead small
    have next : (clusterMachine fuel vol).next s (.get h v) = s' := by
      simp only [clusterMachine, got]
      rfl
    simp only [restrict, next]
    refine ⟨ready_kept ready can after.cached after.window after.kept,?_⟩
    intro m g mem chained
    rw [after.kept.files] at mem
    by_cases self : g = h
    · rw [self] at mem ⊢
      rw [← ready.extent m h mem]
      exact after.within
    · rw [after.kept.others g self]
      exact within m g mem chained

end

/-- A lookup returns the cluster of the chain, or 0 past its end. -/
theorem get_cluster_follows (w fuel : Nat) (vol : Volume) (sup : Supported w vol)
    (last : LastReachable vol) (enough : vol.clusters + 2 < fuel) (s : State)
    (reached : Reached (restrict (clusterMachine fuel vol) (GetDomain vol)) s) (h cluster : Nat)
    (opened : Opened s h) (domain : GetDomain vol s (.get h cluster)) :
    ∃ s', fat_file_get_cluster fuel vol.fat h cluster s =
      .ok ((vol.chain (s.ffile h).extent)[cluster]?.getD 0, s') := by
  obtain ⟨ready,within⟩ := reached_ready sup last enough reached
  obtain ⟨chained,ahead,small⟩ := domain
  obtain ⟨s',got,_⟩ := get_follows sup last enough ready within opened chained ahead small
  exact ⟨s',got⟩

def lookedUp (vol : Volume) (uses : List Use) : State :=
  after (clusterMachine 20 vol) (fresh vol) uses

theorem get_cluster_follows_small : (fat_file_get_cluster 20 smallVolume.fat 0 3
        (lookedUp smallVolume [.open_ 0 0, .get 0 1, .get 0 9])).map Prod.fst = .ok 4 := by
  have none : ∀ h n, h ∉ (fresh smallVolume).files n := fun h n => List.not_mem_nil
  have reached : Reached (restrict (clusterMachine 20 smallVolume) (GetDomain smallVolume))
      (lookedUp smallVolume [.open_ 0 0, .get 0 1, .get 0 9]) := by
    refine reached_of_allowed _ _ _ ⟨⟨by decide,rfl⟩,fun _ => rfl⟩ ?_
    exact ⟨⟨none 0,trivial⟩,
      ⟨(by decide : Opened (lookedUp smallVolume [.open_ 0 0]) 0),List.cons_ne_nil _ _,by decide,
        by decide⟩,
      ⟨(by decide +kernel : Opened (lookedUp smallVolume [.open_ 0 0, .get 0 1]) 0),
        List.cons_ne_nil _ _,by decide +kernel,by decide⟩,trivial⟩
  obtain ⟨s',got⟩ := get_cluster_follows 32 20 smallVolume small_supported
    (fun _ c last => by cases last; decide) (by decide) _ reached 0 3 (by decide +kernel)
    ⟨List.cons_ne_nil _ _,by decide +kernel,by decide⟩
  rw [got]
  rfl

/-- After the cluster 2 of the file the cluster 1 is taken for the one before the window, and
    the largest number for the cluster before the first one. -/
theorem get_cluster_diverges : smallVolume.chain 0 = [2, 3, 5, 4] ∧
    (fat_file_get_cluster 20 smallVolume.fat 0 1
        (lookedUp smallVolume [.open_ 0 0, .get 0 2])).map Prod.fst = .ok 4 ∧
    (fat_file_get_cluster 20 smallVolume.fat 0 (2 ^ 32 - 1)
        (lookedUp smallVolume [.open_ 0 0])).map Prod.fst = .ok 1 := by
  decide +kernel

end
end MutekFatEntry
