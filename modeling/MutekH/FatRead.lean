import MutekH.FatWindow

/-!
Reads of open FAT files. A read is made of a part of a sector, whole sectors and a part of a
sector; each gives the bytes of the file that are at its offset.
-/
namespace MutekFatRead
open Function LibBytes LibFixedWidth LibMachine MutekVfs MutekFat MutekFatVolume MutekFatWindow

section
variable {w : Nat} {vol : Volume} {s s' : State} {n h v c fuel o : Nat}

def bytes (vol : Volume) (n : Nat) : List UInt8 := (fileSectors vol n).flatten

theorem bytes_room (vol : Volume) (n : Nat) :
    (vol.fat.node n).file_size ≤ (bytes vol n).length := by
  unfold bytes
  rw [bytes_length]
  exact (vol.file n).room

theorem slice_bytes_length (inside : o + size ≤ (vol.fat.node n).file_size) :
    (slice (bytes vol n) o size).length = size := by
  have room := bytes_room vol n
  rw [slice_length]
  omega

theorem toNat_emod (o p : Nat) : ((o : Int) % 2 ^ p).toNat = o % 2 ^ p := by
  have cast : (o : Int) % 2 ^ p = ((o % 2 ^ p : Nat) : Int) := by
    rfl
  rw [cast, Int.toNat_natCast]

section
variable (sup : Supported w vol)
include sup

theorem fits_size (small : x ≤ (vol.fat.node n).file_size) : Fits w (x : Int) :=
  fits_between (fits_zero w) (sup.sizes n) (Int.natCast_nonneg x) (Int.ofNat_le.mpr small)

theorem read_part_reads (enough : 2 ^ 32 ≤ fuel)
    (ready : Ready vol s) (opened : h ∈ s.files n) (inside : o < (vol.fat.node n).file_size)
    (short : size < 2 ^ vol.fat.sect_size_pow2)
    (within : o % 2 ^ vol.fat.sect_size_pow2 + size ≤ 2 ^ vol.fat.sect_size_pow2)
    (ahead : Ahead (s.ffile h) (o / 2 ^ vol.fat.sect_size_pow2 / 2 ^ vol.fat.sect_per_clust_pow2)) :
    ∃ s', fat_file_read_part fuel vol.fat h o size s = .ok (size, slice (bytes vol n) o size, s') ∧
      Located vol n h (o / 2 ^ vol.fat.sect_size_pow2 / 2 ^ vol.fat.sect_per_clust_pow2) s s' := by
  obtain ⟨c,found⟩ := cluster_of_offset inside
  obtain ⟨t,done,located⟩ := get_sector_finds sup enough ready opened inside found ahead
  have less := Nat.mod_lt (o / 2 ^ vol.fat.sect_size_pow2)
    (Nat.two_pow_pos vol.fat.sect_per_clust_pow2)
  have sector := getElem?_fileSectors n found less
  have room := cluster_inside n (List.mem_of_getElem? found)
  have table := vol.table
  rw [Nat.mul_comm, Nat.div_add_mod] at sector
  have piece := slice_flatten_within (fileSectors_even vol n) sector within
  rw [Nat.mul_comm, Nat.div_add_mod] at piece
  generalize number : vol.first_data + (c - 2) * 2 ^ vol.fat.sect_per_clust_pow2 +
    o / 2 ^ vol.fat.sect_size_pow2 % 2 ^ vol.fat.sect_per_clust_pow2 = sect at *
  have device : sect < vol.fat.dev.blk_count := by omega
  refine ⟨setSector ⟨sect,vol.fat.dev.block sect⟩ t,?_,cached_block device,located.window,
    located.holds,kept_trans located.kept (kept_sector _ _ t)⟩
  unfold fat_file_read_part
  rw [if_neg (by omega)]
  simp only [done, Bind.bind, Except.bind]
  rw [if_neg (by omega : sect ≠ 0), toNat_emod, load_cached located.cached device]
  simp only [bytes, piece]

theorem extend_grows (enough : 2 ≤ fuel) (located : Located vol n h v s s') :
    ∃ t, fat_file_extend vol.fat h fuel (s'.ffile h).zone_end s' = .ok t ∧
      Located vol n h v s t := by
  obtain ⟨cached,window,⟨ahead,within⟩,kept⟩ := located
  obtain ⟨turns,rfl⟩ : ∃ turns, fuel = turns + 1 + 1 := ⟨fuel - 2,by omega⟩
  have bounded := window.bounded
  have before : ((s'.ffile h).zone_end + (2 ^ 32 - 1)) % 2 ^ 32 = (s'.ffile h).zone_end - 1 := by
    omega
  obtain ⟨sector,read,cached'⟩ := entry_get_fetched cached ((s'.ffile h).zone_end - 1)
  unfold fat_file_extend
  simp only [before, read]
  by_cases follows : fetched vol.fat ((s'.ffile h).zone_end - 1) = (s'.ffile h).zone_end
  · have range := fetched_range vol ((s'.ffile h).zone_end - 1)
    have grown := window_grow window (by omega) (by
      intro d next
      have inside := (List.getElem?_eq_some_iff.mp next).1
      have last := zone_last window (by omega)
      have position : (s'.ffile h).cluster_index +
          ((s'.ffile h).zone_end - (s'.ffile h).zone_start) - 1 + 1 =
          (s'.ffile h).cluster_index + ((s'.ffile h).zone_end - (s'.ffile h).zone_start) := by omega
      have fetch : fetched vol.fat ((s'.ffile h).zone_end - 1) = d :=
        fetched_next sup last (by rw [position]; exact next)
      exact fetch.symm.trans follows)
    have sum : ((s'.ffile h).zone_end + 1) % 2 ^ 32 = (s'.ffile h).zone_end + 1 :=
      Nat.mod_eq_of_lt (by omega)
    -- The second turn reads the same entry again and stops.
    obtain ⟨sector',again,cached''⟩ := entry_get_fetched cached' ((s'.ffile h).zone_end - 1)
    rw [if_pos follows, follows]
    unfold fat_file_extend
    simp only [before, setFile, setSector, again, follows, sum, update_self]
    rw [if_neg (by omega)]
    refine ⟨_,rfl,cached'',?_,?_,?_⟩
    · simp only [update_self]
      rw [sum] at grown
      exact grown
    · simp only [update_self]
      exact ⟨ahead,by simp only; omega⟩
    · exact kept_trans kept (kept_step sector' rfl)
  · rw [if_neg follows]
    exact ⟨_,rfl,cached',window,⟨ahead,within⟩,kept_trans kept (kept_sector h sector s')⟩

theorem read_aligned_reads (enough : 2 ^ 32 ≤ fuel)
    (single : vol.fat.sect_per_clust_pow2 = 0) (ready : Ready vol s)
    (opened : h ∈ s.files n) (some_sector : 0 < m)
    (aligned : o % 2 ^ vol.fat.sect_size_pow2 = 0)
    (inside : o + m * 2 ^ vol.fat.sect_size_pow2 ≤ (vol.fat.node n).file_size)
    (ahead : Ahead (s.ffile h) (o / 2 ^ vol.fat.sect_size_pow2 / 2 ^ vol.fat.sect_per_clust_pow2)) :
    ∃ x s', 0 < x ∧ x ≤ m ∧
      fat_file_read_aligned_sectors w fuel vol.fat h o (m * 2 ^ vol.fat.sect_size_pow2) s =
        .ok ((x * 2 ^ vol.fat.sect_size_pow2 : Nat),
          slice (bytes vol n) o (x * 2 ^ vol.fat.sect_size_pow2), s') ∧
      Located vol n h (o / 2 ^ vol.fat.sect_size_pow2 / 2 ^ vol.fat.sect_per_clust_pow2) s s' := by
  have positive := Nat.two_pow_pos vol.fat.sect_size_pow2
  have one : 2 ^ vol.fat.sect_per_clust_pow2 = 1 := by rw [single, Nat.pow_zero]
  have sectors := Nat.mul_le_mul_right (2 ^ vol.fat.sect_size_pow2) some_sector
  have start : o < (vol.fat.node n).file_size := by omega
  have size := (vol.file n).size
  obtain ⟨c,found⟩ := cluster_of_offset start
  have index := index_small found
  obtain ⟨t,done,located⟩ := get_cluster_finds sup (by omega : _ < fuel) ready opened found ahead
  obtain ⟨s',extended,located'⟩ := extend_grows sup (by omega : 2 ≤ fuel) located
  have two := cluster_small found
  have window := located'.window
  obtain ⟨front,back⟩ := located'.holds
  have first := (translate_holds window ⟨front,back⟩ found).1
  rw [translate_ahead window (by omega) front, if_pos back] at first
  have direct : o / 2 ^ vol.fat.sect_size_pow2 / 2 ^ vol.fat.sect_per_clust_pow2 =
      o / 2 ^ vol.fat.sect_size_pow2 := by rw [one, Nat.div_one]
  have place : o = o / 2 ^ vol.fat.sect_size_pow2 * 2 ^ vol.fat.sect_size_pow2 := by
    have split := Nat.div_add_mod o (2 ^ vol.fat.sect_size_pow2)
    rw [aligned, Nat.add_zero, Nat.mul_comm] at split
    exact split.symm
  have sector := vsector_nat vol.fat (by omega : o < 2 ^ 32)
  have longer : o / 2 ^ vol.fat.sect_size_pow2 + m ≤ (vol.chain n).length := by
    have room := (vol.file n).room
    rw [one, Nat.one_mul] at room
    refine Nat.le_of_mul_le_mul_right ?_ positive
    rw [Nat.add_mul, ← place]
    omega
  rw [direct] at done found located' front back first index ⊢
  generalize o / 2 ^ vol.fat.sect_size_pow2 = i at *
  -- As many sectors as are wanted and in the window; they are in the chain.
  obtain ⟨x,count⟩ : ∃ x, x = min m ((s'.ffile h).zone_end - c) := ⟨_,rfl⟩
  have run : ∀ j, j < x → (vol.chain n)[i + j]? = some (c + j) := by
    intro j less
    have inside' : i + j < (vol.chain n).length := by omega
    have here := List.getElem?_eq_getElem inside'
    have same := window.place (i - (s'.ffile h).cluster_index + j) _ (by omega) (by
      rw [← Nat.add_assoc, Nat.add_sub_cancel' front]
      exact here)
    rw [here, same]
    congr 1
    omega
  have range : fat_file_get_biggest_sector_range fuel vol.fat h o s =
      .ok (some (vol.first_data + (c - 2),
        (vol.fat.cluster0_sector + (s'.ffile h).zone_end) % 2 ^ 32), s') := by
    have number := sector_number found (Nat.two_pow_pos vol.fat.sect_per_clust_pow2)
    have nonzero : c ≠ 0 := by omega
    simp only [one, Nat.mul_one, Nat.zero_add, Nat.add_zero] at number
    unfold fat_file_get_biggest_sector_range
    simp only [sector, one, Nat.div_one, Nat.mod_one, Nat.mul_one, done, Bind.bind, Except.bind,
      if_neg nonzero, extended, Nat.sub_self, Nat.xor_self, Nat.add_zero,
      Nat.add_comm vol.fat.cluster0_sector c, number]
  have wanted : m * 2 ^ vol.fat.sect_size_pow2 / 2 ^ vol.fat.sect_size_pow2 = m :=
    Nat.mul_div_cancel m positive
  have device : vol.first_data + (c - 2) + x ≤ vol.fat.dev.blk_count := by
    have last := cluster_inside n (List.mem_of_getElem? (run (x - 1) (by omega)))
    rw [one] at last
    omega
  have many : ((vol.fat.cluster0_sector + (s'.ffile h).zone_end) % 2 ^ 32 +
      (2 ^ 32 - (vol.first_data + (c - 2)))) % 2 ^ 32 = (s'.ffile h).zone_end - c := by
    have base := vol.base
    have bounded := window.bounded
    have numbered := vol.numbered
    rw [one] at base
    omega
  have same : slice (blocks vol.fat) (vol.first_data + (c - 2)) (x) =
      slice (fileSectors vol n) i (x) := by
    refine List.ext_getElem? ?_
    intro j
    rw [getElem?_slice, getElem?_slice]
    by_cases less : j < x
    · have here := getElem?_fileSectors n (run j less) (Nat.two_pow_pos vol.fat.sect_per_clust_pow2)
      simp only [one, Nat.mul_one, Nat.add_zero] at here
      rw [if_pos less, if_pos less, here, getElem?_blocks, if_pos (by omega)]
      congr 2
      omega
    · rw [if_neg less, if_neg less]
  refine ⟨x,s',by omega,by omega,?_,located'⟩
  unfold fat_file_read_aligned_sectors
  simp only [range, Bind.bind, Except.bind, many, wanted, ← count, read_blocks vol device, same]
  have whole := slice_flatten_whole (fileSectors_even vol n) i x
  rw [← place] at whole
  have less : x * 2 ^ vol.fat.sect_size_pow2 ≤
      m * 2 ^ vol.fat.sect_size_pow2 := Nat.mul_le_mul_right _ (by omega)
  have fits := fits_size (n := n) sup (Nat.le_trans less (by omega))
  rw [← whole, Nat.mod_eq_of_lt (by omega), sint_of_fits fits]
  rfl

/- A read as a whole. `done` bytes of `size` are stored. -/

theorem data_end (small : size ≤ (vol.fat.node n).file_size)
    (left : Nat) : fat_data_read_end w size left left = size := by
  unfold fat_data_read_end
  rw [if_neg (by omega), Int.sub_self, sint_of_fits (fits_zero w), Int.sub_zero,
    sint_of_fits (fits_size sup small)]

end

theorem store_next (small : o + size ≤ (vol.fat.node n).file_size) (less : done + more ≤ size) :
    patch (patch buffer 0 (slice (bytes vol n) o done)) done (slice (bytes vol n) (o + done) more) =
      patch buffer 0 (slice (bytes vol n) o (done + more)) := by
  have stored : (slice (bytes vol n) o done).length = done := slice_bytes_length (by omega)
  have next : patch (patch buffer 0 (slice (bytes vol n) o done))
      (0 + (slice (bytes vol n) o done).length) (slice (bytes vol n) (o + done) more) = _ :=
    patch_patch (Nat.zero_le _) _
  rw [stored, Nat.zero_add] at next
  rw [next, slice_add]

theorem read_sectors_reads (sup : Supported w vol) (enough : 2 ^ 32 ≤ fuel)
    (small : o + size ≤ (vol.fat.node n).file_size) (room : size ≤ buffer.length)
    (turns done : Nat) (s : State) (ready : Ready vol s) (opened : h ∈ s.files n)
    (less : done ≤ size) (more : size - done < turns)
    (aligned : done = size ∨ (o + done) % 2 ^ vol.fat.sect_size_pow2 = 0)
    (domain : vol.fat.sect_per_clust_pow2 = 0 ∨ size - done < 2 ^ vol.fat.sect_size_pow2)
    (ahead : done = size ∨ Ahead (s.ffile h)
      ((o + done) / 2 ^ vol.fat.sect_size_pow2 / 2 ^ vol.fat.sect_per_clust_pow2)) :
    ∃ s', fat_data_read_sectors w fuel vol.fat h size turns (o + done : Nat)
      (size - done : Nat) done
        (patch buffer 0 (slice (bytes vol n) o done)) s =
          .ok (size, patch buffer 0 (slice (bytes vol n) o size), s') ∧
      Ready vol s' ∧ Kept h s s' := by
  induction turns generalizing done s with
  | zero => omega
  | succ turns ih => ?_
  have positive := Nat.two_pow_pos vol.fat.sect_size_pow2
  have unsigned : (uint w ((size - done : Nat) : Int)).toNat = size - done := by
    rw [uint_of_fits (Int.natCast_nonneg _) (fits_size (n := n) sup (by omega)), Int.toNat_natCast]
  unfold fat_data_read_sectors
  simp only [unsigned]
  by_cases whole : (size - done) / 2 ^ vol.fat.sect_size_pow2 = 0
  · have part : size - done < 2 ^ vol.fat.sect_size_pow2 := by
      rcases Nat.div_eq_zero_iff.mp whole with zero | part
      · omega
      · exact part
    rw [whole, Nat.zero_mul]
    simp only [ne_eq, not_true_eq_false, ↓reduceIte]
    by_cases last : done = size
    · subst last
      simp only [Nat.sub_self, Int.natCast_zero, not_true_eq_false, ↓reduceIte]
      have ended := data_end (n := n) sup (by omega : done ≤ _) 0
      rw [Int.natCast_zero] at ended
      exact ⟨s,by rw [ended],ready,kept_refl h s⟩
    have nonzero : ((size - done : Nat) : Int) ≠ 0 := by omega
    simp only [nonzero, not_false_eq_true, ↓reduceIte]
    obtain ⟨s',read,located⟩ := read_part_reads sup enough ready opened
      (by omega : o + done < (vol.fat.node n).file_size) part (by omega) (ahead.resolve_left last)
    refine ⟨s',?_,ready_located ready opened located,located.kept⟩
    simp only [read, Bind.bind, Except.bind]
    rw [data_end (n := n) sup (by omega), store_next small (by omega), Nat.add_sub_cancel' less]
  have single : vol.fat.sect_per_clust_pow2 = 0 := by
    refine domain.resolve_right ?_
    intro part
    exact whole (Nat.div_eq_of_lt part)
  have last : done ≠ size := by
    rintro rfl
    rw [Nat.sub_self, Nat.zero_div] at whole
    exact whole rfl
  have fit : (size - done) / 2 ^ vol.fat.sect_size_pow2 * 2 ^ vol.fat.sect_size_pow2 ≤
      size - done :=
    Nat.div_mul_le_self _ _
  obtain ⟨x,s',some_x,few,read,located⟩ := read_aligned_reads sup enough single ready opened
    (Nat.pos_of_ne_zero whole) (aligned.resolve_left last) (by omega) (ahead.resolve_left last)
  have part := Nat.mul_le_mul_right (2 ^ vol.fat.sect_size_pow2) few
  have gain := Nat.mul_pos some_x positive
  have front : (x * 2 ^ vol.fat.sect_size_pow2) % 2 ^ vol.fat.sect_size_pow2 = 0 :=
    Nat.mul_mod_left _ _
  have whole' : (size - done) / 2 ^ vol.fat.sect_size_pow2 * 2 ^ vol.fat.sect_size_pow2 ≠ 0 :=
    Nat.mul_ne_zero whole (by omega)
  simp only [ne_eq, whole', not_false_eq_true, ↓reduceIte, read, Bind.bind, Except.bind]
  generalize x * 2 ^ vol.fat.sect_size_pow2 = more' at *
  have start := aligned.resolve_left last
  have offset : sint w (((o + done : Nat) : Int) + (more' : Nat)) =
      ((o + (done + more') : Nat) : Int) := by
    rw [← Int.natCast_add, Nat.add_assoc]
    exact sint_of_fits (fits_size (n := n) sup (by omega))
  have left : sint w (((size - done : Nat) : Int) - (more' : Nat)) =
      ((size - (done + more') : Nat) : Int) := by
    rw [← Int.natCast_sub (by omega), Nat.sub_sub]
    exact sint_of_fits (fits_size (n := n) sup (by omega))
  rw [if_neg (by omega), offset, left, store_next small (by omega), Int.toNat_natCast]
  have further : (o + done) / 2 ^ vol.fat.sect_size_pow2 / 2 ^ vol.fat.sect_per_clust_pow2 ≤
      (o + (done + more')) / 2 ^ vol.fat.sect_size_pow2 / 2 ^ vol.fat.sect_per_clust_pow2 :=
    Nat.div_le_div_right (Nat.div_le_div_right (by omega))
  obtain ⟨t,rest,ready',kept⟩ := ih (done + more') s' (ready_located ready opened located)
    (by rw [located.kept.files]; exact opened) (by omega) (by omega)
    (.inr (by rw [← Nat.add_assoc, Nat.add_mod, start, front]; simp)) (.inl single)
    (.inr (.inl (Nat.le_trans located.holds.1 further)))
  exact ⟨t,rest,ready',kept_trans located.kept kept⟩

def NoWholeSector (fat : Fat) (o size : Nat) : Prop :=
  ∀ i, o ≤ i * 2 ^ fat.sect_size_pow2 → o + size < (i + 1) * 2 ^ fat.sect_size_pow2

theorem left_short (less : NoWholeSector vol.fat o size)
    (aligned : (o + done) % 2 ^ vol.fat.sect_size_pow2 = 0) :
    size - done < 2 ^ vol.fat.sect_size_pow2 := by
  have split := Nat.div_add_mod (o + done) (2 ^ vol.fat.sect_size_pow2)
  rw [aligned, Nat.add_zero, Nat.mul_comm] at split
  have bound := less ((o + done) / 2 ^ vol.fat.sect_size_pow2) (by omega)
  rw [Nat.add_mul] at bound
  omega

theorem assert_holds {x left p : Nat} (holds : left = 0 ∨ x % 2 ^ p = 0) :
    ¬ ((x : Int) % 2 ^ p ≠ 0 ∧ (left : Int) ≠ 0) := by
  rintro ⟨offset,some_left⟩
  rcases holds with zero | aligned
  · exact some_left (by rw [zero]; rfl)
  · exact offset (by exact_mod_cast aligned)

theorem data_read_reads (sup : Supported w vol) (enough : 2 ^ 32 ≤ fuel) {size : Nat}
    {buffer : List UInt8} (ready : Ready vol s) (opened : h ∈ s.files n)
    (inside : o < (vol.fat.node n).file_size)
    (small : o + size ≤ (vol.fat.node n).file_size) (room : size ≤ buffer.length)
    (domain : vol.fat.sect_per_clust_pow2 = 0 ∨ NoWholeSector vol.fat o size)
    (ahead : size = 0 ∨ Ahead (s.ffile h)
      (o / 2 ^ vol.fat.sect_size_pow2 / 2 ^ vol.fat.sect_per_clust_pow2)) :
    ∃ s', fat_data_read w fuel vol.fat h o buffer size s =
        .ok (size, patch buffer 0 (slice (bytes vol n) o size), s') ∧ Ready vol s' ∧
          Kept h s s' := by
  have filesize := (vol.file n).size
  have positive := Nat.two_pow_pos vol.fat.sect_size_pow2
  obtain ⟨c,found⟩ := cluster_of_offset inside
  have chained : vol.chain n ≠ [] := by
    intro empty
    rw [empty] at found
    cases found
  have first : (vol.fat.node n).first_cluster ≠ 0 := by
    have two := (cluster_small (first_found chained)).1
    omega
  have mod := toNat_emod o vol.fat.sect_size_pow2
  have left := sint_of_fits (fits_size (n := n) sup (by omega : size ≤ _))
  unfold fat_data_read
  rw [ready.extent n h opened, if_neg first]
  simp only [Int.natCast_pow, Nat.cast_ofNat, mod, left]
  -- The bytes up to the next sector, if the offset is not at the start of one.
  generalize head : min size (if o % 2 ^ vol.fat.sect_size_pow2 ≠ 0 then
    2 ^ vol.fat.sect_size_pow2 - o % 2 ^ vol.fat.sect_size_pow2 else 0) = part
  have less : part ≤ size := by omega
  have within : part = 0 ∨ o % 2 ^ vol.fat.sect_size_pow2 ≠ 0 ∧
      o % 2 ^ vol.fat.sect_size_pow2 + part ≤ 2 ^ vol.fat.sect_size_pow2 := by
    by_cases zero : o % 2 ^ vol.fat.sect_size_pow2 = 0
    · simp only [zero, ne_eq, not_true_eq_false, ↓reduceIte] at head
      omega
    · simp only [zero, ne_eq, not_false_eq_true, ↓reduceIte] at head
      omega
  have aligned : part = size ∨ (o + part) % 2 ^ vol.fat.sect_size_pow2 = 0 := by
    by_cases zero : o % 2 ^ vol.fat.sect_size_pow2 = 0
    · simp only [zero, ne_eq, not_true_eq_false, ↓reduceIte, Nat.min_zero] at head
      rw [← head]
      exact .inr zero
    simp only [zero, ne_eq, not_false_eq_true, ↓reduceIte] at head
    by_cases all : part = size
    · exact .inl all
    · have split := Nat.div_add_mod o (2 ^ vol.fat.sect_size_pow2)
      have next : o + part = 2 ^ vol.fat.sect_size_pow2 * (o / 2 ^ vol.fat.sect_size_pow2) +
          2 ^ vol.fat.sect_size_pow2 := by omega
      rw [next, Nat.add_mod_right, Nat.mul_mod_right]
      exact .inr rfl
  have rest : vol.fat.sect_per_clust_pow2 = 0 ∨ size - part < 2 ^ vol.fat.sect_size_pow2 := by
    rcases aligned with all | start
    · right
      omega
    · exact domain.imp_right (fun none => left_short none start)
  by_cases none : part = 0
  · subst none
    rw [if_neg (by simp), if_neg (assert_holds (x := o) (aligned.imp_left Eq.symm))]
    obtain ⟨s',read,ready',kept⟩ := read_sectors_reads sup enough small room fuel 0 s ready opened
      less (by omega) aligned rest (ahead.imp_left Eq.symm)
    have empty : patch buffer 0 (slice (bytes vol n) o 0) = buffer := by simp [patch, slice]
    rw [empty] at read
    exact ⟨s',read,ready',kept⟩
  obtain ⟨some_offset,fit⟩ := within.resolve_left none
  obtain ⟨t,read,located⟩ := read_part_reads sup enough ready opened inside (by omega) fit
    (ahead.resolve_left (by omega))
  have offset : sint w ((o : Int) + (part : Nat)) = ((o + part : Nat) : Int) := by
    rw [← Int.natCast_add]
    exact sint_of_fits (fits_size (n := n) sup (by omega))
  have less' : sint w ((size : Int) - (part : Nat)) = ((size - part : Nat) : Int) := by
    rw [← Int.natCast_sub less]
    exact sint_of_fits (fits_size (n := n) sup (by omega))
  simp only [ne_eq, none, not_false_eq_true, ↓reduceIte, read, Bind.bind, Except.bind,
    not_true_eq_false, offset, less']
  rw [if_neg (assert_holds (by omega))]
  have further : o / 2 ^ vol.fat.sect_size_pow2 / 2 ^ vol.fat.sect_per_clust_pow2 ≤
      (o + part) / 2 ^ vol.fat.sect_size_pow2 / 2 ^ vol.fat.sect_per_clust_pow2 :=
    Nat.div_le_div_right (Nat.div_le_div_right (by omega))
  obtain ⟨s',more,ready',kept⟩ := read_sectors_reads sup enough small room fuel part t
    (ready_located ready opened located) (by rw [located.kept.files]; exact opened) less (by omega)
    aligned rest (.inr (.inl (Nat.le_trans located.holds.1 further)))
  exact ⟨s',more,ready',kept_trans located.kept kept⟩

def Inside (vol : Volume) (s : State) : Prop :=
  ∀ n g, g ∈ s.files n → 0 ≤ s.offset g ∧ s.offset g ≤ (vol.fat.node n).file_size

/-- Where a read gives what it should: a cluster has one sector or no whole sector is wanted, and
    the read does not go back before the window. -/
def ReadDomain (vol : Volume) (s : State) (h size : Nat) : Prop :=
  let o := (s.offset h).toNat
  let size := min size ((vol.fat.node (s.ffile h).extent).file_size - o)
  (vol.fat.sect_per_clust_pow2 = 0 ∨ NoWholeSector vol.fat o size) ∧
    (size = 0 ∨ Ahead (s.ffile h)
      (o / 2 ^ vol.fat.sect_size_pow2 / 2 ^ vol.fat.sect_per_clust_pow2))

theorem file_read_reads (sup : Supported w vol) (enough : 2 ^ 32 ≤ fuel)
    (ready : Ready vol s) (inside : Inside vol s) (opened : h ∈ s.files n)
    (domain : ReadDomain vol s h buffer.length) :
    ∃ s', fat_file_read w fuel vol.fat h buffer s =
        .ok ((min buffer.length ((vol.fat.node n).file_size - (s.offset h).toNat) : Nat),
          patch buffer 0 (slice (content vol n) (s.offset h).toNat buffer.length), s') ∧
      Ready vol s' ∧ s'.files = s.files ∧ s'.offset = update s.offset h
        (s.offset h + (min buffer.length
          ((vol.fat.node n).file_size - (s.offset h).toNat) : Nat)) := by
  obtain ⟨low,high⟩ := inside n h opened
  obtain ⟨o,at_⟩ := Int.eq_ofNat_of_zero_le low
  unfold ReadDomain at domain
  rw [content_sectors, slice_take]
  rw [ready.extent n h opened] at domain
  unfold fat_file_read
  rw [ready.extent n h opened]
  simp only [at_, Int.toNat_natCast] at domain high ⊢
  have less : o ≤ (vol.fat.node n).file_size := Int.ofNat_le.mp high
  have unsigned : uint w (o : Int) = o :=
    uint_of_fits (Int.natCast_nonneg o) (fits_size sup less)
  have left : (uint w (((vol.fat.node n).file_size : Int) - o)).toNat =
      (vol.fat.node n).file_size - o := by
    rw [← Int.natCast_sub less, uint_of_fits (Int.natCast_nonneg _)
      (fits_size (n := n) sup (Nat.sub_le _ _)), Int.toNat_natCast]
  simp only [unsigned, left]
  rw [Nat.min_comm ((vol.fat.node n).file_size - o)]
  obtain ⟨single,ahead⟩ := domain
  by_cases ended : (vol.fat.node n).file_size ≤ o
  · have nothing : min buffer.length ((vol.fat.node n).file_size - o) = 0 := by omega
    rw [if_pos (Int.ofNat_le.mpr ended), nothing]
    refine ⟨s,?_,ready,rfl,?_⟩
    · simp [patch, slice]
    · rw [Int.natCast_zero, Int.add_zero, ← at_, update_eq_self]
  rw [if_neg (fun beyond => ended (Int.ofNat_le.mp beyond))]
  generalize size : min buffer.length ((vol.fat.node n).file_size - o) = more at *
  have room : more ≤ buffer.length := by omega
  obtain ⟨t,read,ready',kept⟩ := data_read_reads sup enough ready opened
    (by omega) (by omega) room single ahead
  simp only [read, Bind.bind, Except.bind]
  by_cases none : more = 0
  · rw [none, if_neg (by decide)]
    refine ⟨t,rfl,ready',kept.files,?_⟩
    rw [Int.natCast_zero, Int.add_zero, ← at_, update_eq_self]
    exact kept.offset
  have sum : sint w ((t.offset h) + (more : Nat)) = (o : Int) + (more : Nat) := by
    rw [kept.offset, at_, ← Int.natCast_add]
    exact sint_of_fits (fits_size (n := n) sup (by omega))
  rw [if_pos (by omega)]
  refine ⟨_,rfl,⟨ready'.cached,ready'.extent,ready'.window⟩,kept.files,?_⟩
  simp only [sum]
  rw [kept.offset]

end
end MutekFatRead
