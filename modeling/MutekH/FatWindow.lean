import MutekH.FatVolume

/-!
The windows of open files: the run of clusters of its chain that a file last used. A cluster
that is not before the window is found, from the window or from that of another file of the
node, and then lies in the window.
-/
namespace MutekFatWindow
open LibBytes LibFixedWidth MutekFat MutekFatVolume

section
variable {w : Nat} {vol : Volume} {s s' : State} {f : FatFile} {n h v c : Nat}

/-- The code follows the chains: it looks for the entry of each cluster that has a next one
    where the table has it, and the numbers of FAT16 do not look negative. Sizes are offsets. -/
structure Supported (w : Nat) (vol : Volume) : Prop where
  reachable : ∀ n i c d, (vol.chain n)[i]? = some c → (vol.chain n)[i + 1]? = some d →
    Reachable vol.fat c
  low : vol.fat.type = .FAT16 → ∀ n i c d, (vol.chain n)[i]? = some c →
    (vol.chain n)[i + 1]? = some d → d < 0x8000
  sizes : ∀ n, Fits w (vol.fat.node n).file_size

/-- The zone of a window is a part of the chain, as far as the chain goes. -/
structure Window (vol : Volume) (n : Nat) (f : FatFile) : Prop where
  start : f.zone_start < f.zone_end
  bounded : f.zone_end ≤ 2 ^ 28
  index : f.cluster_index < (vol.chain n).length
  place : ∀ j c, f.zone_start + j < f.zone_end → (vol.chain n)[f.cluster_index + j]? = some c →
    c = f.zone_start + j

theorem endMark_le (type : FatType) : endMark type ≤ 0x0ffffff8 := by
  cases type <;> decide

theorem cluster_small (found : (vol.chain n)[v]? = some c) : 2 ≤ c ∧ c < 0x0ffffff8 := by
  obtain ⟨two,last⟩ := (vol.file n).inside c (List.mem_of_getElem? found)
  have counted := vol.counted
  have mark := endMark_le vol.fat.type
  omega

theorem index_small (found : (vol.chain n)[v]? = some c) : v < 2 ^ 28 := by
  obtain ⟨inside,_⟩ := List.getElem?_eq_some_iff.mp found
  have short := chain_short vol n
  have counted := vol.counted
  have mark := endMark_le vol.fat.type
  omega

theorem fetched_next (sup : Supported w vol) (here : (vol.chain n)[v]? = some c)
    (next : (vol.chain n)[v + 1]? = some d) : fetched vol.fat c = d := by
  have linked := (vol.file n).linked v c d here next
  rw [← linked]
  refine fetched_entry (sup.reachable n v c d here next) ?_
  intro type
  have last := ((vol.file n).inside c (List.mem_of_getElem? here)).2
  have counted := vol.counted
  rw [type] at counted
  have mark : endMark .FAT16 = 0xfff8 := rfl
  rw [linked]
  exact ⟨by omega,sup.low type n v c d here next⟩

theorem translate_ahead (window : Window vol n f) (small : v ≤ 2 ^ 32 - 2 ^ 28)
    (ahead : f.cluster_index ≤ v) :
    fat_file_translate_cluster f v =
      if f.zone_start + (v - f.cluster_index) < f.zone_end then f.zone_start + (v - f.cluster_index)
      else 0 := by
  have bounded := window.bounded
  have start := window.start
  have sum : (v + (2 ^ 32 - f.cluster_index) + f.zone_start) % 2 ^ 32 =
      f.zone_start + (v - f.cluster_index) := by omega
  unfold fat_file_translate_cluster
  simp only [sum]

theorem translate_behind (window : Window vol n f) (behind : v < f.cluster_index)
    (under : f.zone_start ≤ f.cluster_index - v) : fat_file_translate_cluster f v = 0 := by
  have bounded := window.bounded
  have short := chain_short vol n
  have index := window.index
  have counted := vol.counted
  have mark := endMark_le vol.fat.type
  unfold fat_file_translate_cluster
  simp only
  split
  case isTrue low => omega
  case isFalse => rfl

def Holds (f : FatFile) (v : Nat) : Prop :=
  f.cluster_index ≤ v ∧ f.zone_start + (v - f.cluster_index) < f.zone_end

theorem translate_holds (window : Window vol n f) (holds : Holds f v)
    (found : (vol.chain n)[v]? = some c) : fat_file_translate_cluster f v = c ∧ c ≠ 0 := by
  obtain ⟨ahead,within⟩ := holds
  have two := (cluster_small found).1
  have index := index_small found
  rw [translate_ahead window (by omega) ahead, if_pos within]
  have position : f.cluster_index + (v - f.cluster_index) = v := by omega
  have place := window.place (v - f.cluster_index) c within (by rw [position]; exact found)
  exact ⟨place.symm,by omega⟩

theorem window_grow (window : Window vol n f) (small : f.zone_end < 2 ^ 28)
    (next : ∀ c, (vol.chain n)[f.cluster_index + (f.zone_end - f.zone_start)]? = some c →
      c = f.zone_end) :
    Window vol n { f with zone_end := (f.zone_end + 1) % 2 ^ 32 } := by
  have start := window.start
  refine ⟨?_,?_,window.index,?_⟩
  · simp only
    omega
  · simp only
    omega
  intro j c within found
  simp only at within found ⊢
  by_cases old : f.zone_start + j < f.zone_end
  · exact window.place j c old found
  · have last : j = f.zone_end - f.zone_start := by omega
    rw [last] at found
    rw [next c found]
    omega

theorem window_new (found : (vol.chain n)[v]? = some c) (extent : Nat) :
    Window vol n ⟨v, c, (c + 1) % 2 ^ 32, extent⟩ := by
  obtain ⟨_,small⟩ := cluster_small found
  have sum : (c + 1) % 2 ^ 32 = c + 1 := Nat.mod_eq_of_lt (by omega)
  rw [sum]
  refine ⟨Nat.lt_succ_self c,by simp only; omega,(List.getElem?_eq_some_iff.mp found).1,?_⟩
  intro j d within here
  simp only at within here ⊢
  have zero : j = 0 := by omega
  rw [zero, Nat.add_zero, found, Option.some.injEq] at here
  omega

theorem first_found (chained : vol.chain n ≠ []) :
    (vol.chain n)[0]? = some (vol.fat.node n).first_cluster := by
  rw [(vol.file n).first]
  cases chain : vol.chain n with
  | nil => exact absurd chain chained
  | cons c cs => rfl

theorem zone_last (window : Window vol n f)
    (longer : f.cluster_index + (f.zone_end - f.zone_start) ≤ (vol.chain n).length) :
    (vol.chain n)[f.cluster_index + (f.zone_end - f.zone_start) - 1]? = some (f.zone_end - 1) := by
  have start := window.start
  have inside : f.cluster_index + (f.zone_end - f.zone_start - 1) < (vol.chain n).length := by omega
  have found := List.getElem?_eq_getElem inside
  have place := window.place (f.zone_end - f.zone_start - 1) _ (by omega) found
  have position : f.cluster_index + (f.zone_end - f.zone_start) - 1 =
      f.cluster_index + (f.zone_end - f.zone_start - 1) := by omega
  rw [position, found]
  congr 1
  omega

structure Kept (h : Nat) (s s' : State) : Prop where
  offset : s'.offset = s.offset
  files : s'.files = s.files
  extent : (s'.ffile h).extent = (s.ffile h).extent
  others : ∀ g, g ≠ h → s'.ffile g = s.ffile g

theorem kept_refl (h : Nat) (s : State) : Kept h s s := ⟨rfl, rfl, rfl, fun _ _ => rfl⟩

theorem kept_trans (first : Kept h s s') (second : Kept h s' t) : Kept h s t where
  offset := second.offset.trans first.offset
  files := second.files.trans first.files
  extent := second.extent.trans first.extent
  others g other := (second.others g other).trans (first.others g other)

theorem kept_step (sector : Sector) {f : FatFile} (same : f.extent = (s.ffile h).extent) :
    Kept h s (setFile h f (setSector sector s)) where
  offset := rfl
  files := rfl
  extent := by simp [setFile, same]
  others g other := by simp [setFile, setSector, other]

theorem kept_sector (h : Nat) (sector : Sector) (s : State) : Kept h s (setSector sector s) :=
  ⟨rfl, rfl, rfl, fun _ _ => rfl⟩

structure Located (vol : Volume) (n h v : Nat) (s s' : State) : Prop where
  cached : Cached vol s'.sector
  window : Window vol n (s'.ffile h)
  holds : Holds (s'.ffile h) v
  kept : Kept h s s'

theorem setFile_self (h : Nat) (f : FatFile) (s : State) : (setFile h f s).ffile h = f := by
  simp [setFile]

theorem located_after (kept : Kept h s s') (located : Located vol n h v s' t) :
    Located vol n h v s t :=
  ⟨located.cached, located.window, located.holds, kept_trans kept located.kept⟩

/-- The place in the chain of the cluster after the zone. -/
def reach (f : FatFile) : Nat := f.cluster_index + (f.zone_end - f.zone_start)

/-- A turn of the loop takes the next cluster of the chain, if there is one, into the window. -/
theorem walk_next (sup : Supported w vol) (s : State) (cached : Cached vol s.sector)
    (window : Window vol n (s.ffile h)) (small : v ≤ 2 ^ 32 - 2 ^ 28)
    (ahead : (s.ffile h).cluster_index ≤ v) (outside : reach (s.ffile h) ≤ v)
    (next : (vol.chain n)[reach (s.ffile h)]? = some d) :
    ∃ s', (∀ fuel, fat_file_walk vol.fat h v (fuel + 1) s = fat_file_walk vol.fat h v fuel s') ∧
      Cached vol s'.sector ∧ Window vol n (s'.ffile h) ∧ (s'.ffile h).cluster_index ≤ v ∧
      reach (s'.ffile h) = reach (s.ffile h) + 1 ∧ Kept h s s' := by
  unfold reach at outside next
  have start := window.start
  have bounded := window.bounded
  obtain ⟨inside,_⟩ := List.getElem?_eq_some_iff.mp next
  have last := zone_last window (by omega)
  have position : (s.ffile h).cluster_index +
      ((s.ffile h).zone_end - (s.ffile h).zone_start) - 1 + 1 =
      (s.ffile h).cluster_index + ((s.ffile h).zone_end - (s.ffile h).zone_start) := by omega
  have fetch := fetched_next sup last (by rw [position]; exact next)
  have before : ((s.ffile h).zone_end + (2 ^ 32 - 1)) % 2 ^ 32 = (s.ffile h).zone_end - 1 := by
    omega
  obtain ⟨sector',read,cached'⟩ := entry_get_fetched cached ((s.ffile h).zone_end - 1)
  have below := (cluster_small next).2
  have missed : ¬ (s.ffile h).zone_start + (v - (s.ffile h).cluster_index) <
      (s.ffile h).zone_end := by
    omega
  by_cases follows : d = (s.ffile h).zone_end
  · have grown := window_grow window (by omega)
      (fun e here => by rw [next, Option.some.injEq] at here; omega)
    have sum : ((s.ffile h).zone_end + 1) % 2 ^ 32 = (s.ffile h).zone_end + 1 :=
      Nat.mod_eq_of_lt (by omega)
    refine ⟨setFile h { s.ffile h with zone_end := ((s.ffile h).zone_end + 1) % 2 ^ 32 }
      (setSector sector' s),?_,cached',by rw [setFile_self]; exact grown,
      by rw [setFile_self]; exact ahead,?_,kept_step sector' rfl⟩
    · intro fuel
      rw [fat_file_walk]
      simp only [translate_ahead window small ahead, if_neg missed, ne_eq, not_true_eq_false,
        ↓reduceIte, before, read, fetch, not_end below, Bool.false_eq_true, if_pos follows]
    · rw [setFile_self, sum]
      simp only [reach]
      omega
  have index := index_small next
  have sum : ((s.ffile h).cluster_index +
      ((s.ffile h).zone_end + (2 ^ 32 - (s.ffile h).zone_start))) % 2 ^ 32 =
      (s.ffile h).cluster_index + ((s.ffile h).zone_end - (s.ffile h).zone_start) := by omega
  have one : (d + 1) % 2 ^ 32 = d + 1 := Nat.mod_eq_of_lt (by omega)
  refine ⟨setFile h ⟨reach (s.ffile h),d,(d + 1) % 2 ^ 32,(s.ffile h).extent⟩
    (setSector sector' s),?_,cached',
    by rw [setFile_self]; exact window_new next (s.ffile h).extent,
    by rw [setFile_self]; exact outside,?_,kept_step sector' rfl⟩
  · intro fuel
    rw [fat_file_walk]
    simp only [translate_ahead window small ahead, if_neg missed, ne_eq, not_true_eq_false,
      ↓reduceIte, before, read, fetch, not_end below, Bool.false_eq_true,
        if_neg follows, sum, reach]
  · rw [setFile_self, one]
    simp only [reach]
    omega

theorem walk_finds (sup : Supported w vol) (found : (vol.chain n)[v]? = some c) (fuel : Nat)
    (s : State) (cached : Cached vol s.sector) (window : Window vol n (s.ffile h))
    (ahead : (s.ffile h).cluster_index ≤ v) (enough : v + 2 ≤ fuel + reach (s.ffile h))
    (some_fuel : 0 < fuel) :
    ∃ s', fat_file_walk vol.fat h v fuel s = .ok (c, s') ∧ Located vol n h v s s' := by
  induction fuel generalizing s with
  | zero => exact absurd some_fuel (Nat.lt_irrefl 0)
  | succ fuel ih => ?_
  have index := index_small found
  by_cases within : (s.ffile h).zone_start + (v - (s.ffile h).cluster_index) < (s.ffile h).zone_end
  · obtain ⟨same,nonzero⟩ := translate_holds window ⟨ahead,within⟩ found
    rw [fat_file_walk]
    simp only [same, ne_eq, nonzero, not_false_eq_true, ↓reduceIte]
    exact ⟨s,rfl,cached,window,⟨ahead,within⟩,kept_refl h s⟩
  -- The cluster after the zone is on the way to the one that is looked for.
  have inside := (List.getElem?_eq_some_iff.mp found).1
  have outside : reach (s.ffile h) ≤ v := by
    unfold reach
    omega
  obtain ⟨s1,turn,cached1,window1,ahead1,more,kept⟩ := walk_next sup s cached window
    (by omega) ahead outside (List.getElem?_eq_getElem (by omega))
  obtain ⟨s',walked,located⟩ := ih s1 cached1 window1 ahead1 (by omega) (by omega)
  exact ⟨s',(turn fuel).trans walked,located_after kept located⟩

structure Ready (vol : Volume) (s : State) : Prop where
  cached : Cached vol s.sector
  extent : ∀ n g, g ∈ s.files n → (s.ffile g).extent = n
  window : ∀ n g, g ∈ s.files n → vol.chain n ≠ [] → Window vol n (s.ffile g)

theorem ready_kept (ready : Ready vol s) (opened : h ∈ s.files n) (cached : Cached vol s'.sector)
    (window : Window vol n (s'.ffile h)) (kept : Kept h s s') : Ready vol s' where
  cached := cached
  extent m g mem := by
    rw [kept.files] at mem
    by_cases self : g = h
    · rw [self] at mem ⊢
      rw [kept.extent]
      exact ready.extent m h mem
    · rw [kept.others g self]
      exact ready.extent m g mem
  window m g mem chained := by
    rw [kept.files] at mem
    by_cases self : g = h
    · rw [self] at mem ⊢
      have same : m = n := (ready.extent m h mem).symm.trans (ready.extent n h opened)
      rw [same]
      exact window
    · rw [kept.others g self]
      exact ready.window m g mem chained

theorem ready_located (ready : Ready vol s) (opened : h ∈ s.files n)
    (located : Located vol n h v s s') : Ready vol s' :=
  ready_kept ready opened located.cached located.window located.kept

theorem best_fits {P : FatFile → Prop} (all : ∀ g ∈ s.files n, P (s.ffile g)) :
    ∀ b ∈ (s.files n).foldl (best_file s.ffile v) none, P b ∧ b.cluster_index < v := by
  have step : ∀ (items : List Nat) (best : Option FatFile), (∀ g ∈ items, P (s.ffile g)) →
      (∀ b ∈ best, P b ∧ b.cluster_index < v) →
      ∀ b ∈ items.foldl (best_file s.ffile v) best, P b ∧ b.cluster_index < v := by
    intro items
    induction items with
    | nil =>
      intro best _ fits
      exact fits
    | cons g rest ih => ?_
    intro best all fits
    rw [List.foldl_cons]
    refine ih _ (fun g mem => all g (by simp [mem])) ?_
    have here := all g (by simp)
    intro b chosen
    unfold best_file at chosen
    split at chosen
    case isTrue before =>
      cases best with
      | none =>
        cases chosen
        exact ⟨here,before⟩
      | some old => ?_
      simp only at chosen
      split at chosen
      case isTrue =>
        cases chosen
        exact ⟨here,before⟩
      case isFalse => exact fits b chosen
    case isFalse => exact fits b chosen
  exact step (s.files n) none all (fun b none => by cases none)

/-- A cluster is not before the window, or so far that the subtraction does not give a
    cluster number. -/
def Ahead (f : FatFile) (v : Nat) : Prop :=
  f.cluster_index ≤ v ∨ f.zone_start ≤ f.cluster_index - v

instance (f : FatFile) (v : Nat) : Decidable (Ahead f v) :=
  instDecidableOr

theorem translate_missed (window : Window vol n f) (small : v ≤ 2 ^ 32 - 2 ^ 28) (ahead : Ahead f v)
    (missed : ¬ Holds f v) : fat_file_translate_cluster f v = 0 := by
  by_cases behind : v < f.cluster_index
  · exact translate_behind window behind (ahead.resolve_left (by omega))
  · rw [translate_ahead window small (by omega), if_neg (fun within => missed ⟨by omega,within⟩)]

/-- The walk starts from the window of another file or from the first cluster. `P` is what the
    windows have in common. -/
theorem get_cluster_resumes {P : FatFile → Prop} (fuel : Nat) (extent : (s.ffile h).extent = n)
    (all : ∀ g ∈ s.files n, P (s.ffile g)) (missed : fat_file_translate_cluster (s.ffile h) v = 0)
    (first : P ⟨0, (vol.fat.node n).first_cluster,
      ((vol.fat.node n).first_cluster + 1) % 2 ^ 32, n⟩)
    (copied : ∀ f, P f → P { f with extent := n }) :
    ∃ f, P f ∧ f.cluster_index ≤ v ∧ f.extent = (s.ffile h).extent ∧
      fat_file_get_cluster fuel vol.fat h v s = fat_file_walk vol.fat h v fuel (setFile h f s) := by
  have best := best_fits (v := v) all
  unfold fat_file_get_cluster
  simp only [missed, ne_eq, not_true_eq_false, ↓reduceIte, extent]
  cases choice : (s.files n).foldl (best_file s.ffile v) none with
  | some b =>
    obtain ⟨fits,before⟩ := best b choice
    exact ⟨_,copied b fits,Nat.le_of_lt before,rfl,rfl⟩
  | none => exact ⟨_,first,Nat.zero_le v,rfl,rfl⟩

theorem get_cluster_finds (sup : Supported w vol) {fuel : Nat} (enough : v < fuel)
    (ready : Ready vol s) (opened : h ∈ s.files n) (found : (vol.chain n)[v]? = some c)
    (ahead : Ahead (s.ffile h) v) :
    ∃ s', fat_file_get_cluster fuel vol.fat h v s = .ok (c, s') ∧ Located vol n h v s s' := by
  have chained : vol.chain n ≠ [] := by
    intro empty
    rw [empty] at found
    cases found
  have window := ready.window n h opened chained
  have index := index_small found
  by_cases holds : Holds (s.ffile h) v
  · obtain ⟨same,nonzero⟩ := translate_holds window holds found
    unfold fat_file_get_cluster
    simp only [same, ne_eq, nonzero, not_false_eq_true, ↓reduceIte]
    exact ⟨s,rfl,ready.cached,window,holds,kept_refl h s⟩
  obtain ⟨f,fits,before,extent,resumed⟩ := get_cluster_resumes fuel
    (ready.extent n h opened) (fun g mem => ready.window n g mem chained)
    (translate_missed window (by omega) ahead holds) (window_new (first_found chained) n)
    (fun f fits => ⟨fits.start,fits.bounded,fits.index,fits.place⟩)
  have start := fits.start
  obtain ⟨s',walked,located⟩ := walk_finds sup found fuel (setFile h f s) ready.cached
    (by rw [setFile_self]; exact fits) (by rw [setFile_self]; exact before)
    (by rw [setFile_self, reach]; omega) (by omega)
  exact ⟨s',resumed.trans walked,located_after (kept_step s.sector extent) located⟩

/- Sectors. -/

theorem vsector_nat (fat : Fat) {o : Nat} (small : o < 2 ^ 32) :
    vsector fat (o : Int) = o / 2 ^ fat.sect_size_pow2 := by
  have less : o / 2 ^ fat.sect_size_pow2 < 2 ^ 32 := Nat.lt_of_le_of_lt (Nat.div_le_self _ _) small
  have cast : (o : Int) / 2 ^ fat.sect_size_pow2 = ((o / 2 ^ fat.sect_size_pow2 : Nat) : Int) := by
    rfl
  unfold vsector
  rw [cast, uint_of_range (Int.natCast_nonneg _) (by exact_mod_cast less), Int.toNat_natCast]

theorem sector_number (found : (vol.chain n)[v]? = some c)
    (inside : j < 2 ^ vol.fat.sect_per_clust_pow2) :
    (j + c * 2 ^ vol.fat.sect_per_clust_pow2 + vol.fat.cluster0_sector) % 2 ^ 32 =
      vol.first_data + (c - 2) * 2 ^ vol.fat.sect_per_clust_pow2 + j := by
  have room := cluster_inside n (List.mem_of_getElem? found)
  have two := (cluster_small found).1
  have numbered := vol.numbered
  have base := vol.base
  have split : c * 2 ^ vol.fat.sect_per_clust_pow2 =
      (c - 2) * 2 ^ vol.fat.sect_per_clust_pow2 + 2 * 2 ^ vol.fat.sect_per_clust_pow2 := by
    rw [← Nat.add_mul]
    congr 1
    omega
  omega

theorem cluster_of_offset (inside : o < (vol.fat.node n).file_size) :
    ∃ c, (vol.chain n)[o / 2 ^ vol.fat.sect_size_pow2 / 2 ^ vol.fat.sect_per_clust_pow2]? =
      some c := by
  have room := (vol.file n).room
  refine ⟨_,List.getElem?_eq_getElem ?_⟩
  rw [Nat.div_div_eq_div_mul, Nat.mul_comm (2 ^ vol.fat.sect_size_pow2)]
  exact Nat.div_lt_of_lt_mul (by rw [Nat.mul_comm]; omega)

theorem get_cluster_again (fuel : Nat) (fat : Fat) (h v : Nat) (s : State) :
    (if fat_file_translate_cluster (s.ffile h) v ≠ 0 then
      .ok (fat_file_translate_cluster (s.ffile h) v, s)
    else fat_file_get_cluster fuel fat h v s) = fat_file_get_cluster fuel fat h v s := by
  unfold fat_file_get_cluster
  split
  case isTrue nonzero => simp only [ne_eq, nonzero, not_false_eq_true, ↓reduceIte]
  case isFalse => rfl

theorem get_sector_finds (sup : Supported w vol) {fuel o : Nat} (enough : 2 ^ 32 ≤ fuel)
    (ready : Ready vol s) (opened : h ∈ s.files n) (inside : o < (vol.fat.node n).file_size)
    (found : (vol.chain n)[o / 2 ^ vol.fat.sect_size_pow2 / 2 ^ vol.fat.sect_per_clust_pow2]? =
      some c)
    (ahead : Ahead (s.ffile h) (o / 2 ^ vol.fat.sect_size_pow2 / 2 ^ vol.fat.sect_per_clust_pow2)) :
    ∃ s', fat_file_get_sector fuel vol.fat h o s =
        .ok (vol.first_data + (c - 2) * 2 ^ vol.fat.sect_per_clust_pow2 +
          o / 2 ^ vol.fat.sect_size_pow2 % 2 ^ vol.fat.sect_per_clust_pow2, s') ∧
      Located vol n h (o / 2 ^ vol.fat.sect_size_pow2 / 2 ^ vol.fat.sect_per_clust_pow2) s s' := by
  have size := (vol.file n).size
  have index := index_small found
  obtain ⟨s',done,located⟩ := get_cluster_finds sup (by omega : _ < fuel) ready opened found ahead
  refine ⟨s',?_,located⟩
  have nonzero : c ≠ 0 := by have := cluster_small found; omega
  have number := sector_number found (Nat.mod_lt (o / 2 ^ vol.fat.sect_size_pow2)
    (Nat.two_pow_pos vol.fat.sect_per_clust_pow2))
  have short : o < 2 ^ 32 := by omega
  unfold fat_file_get_sector
  rw [vsector_nat vol.fat short]
  simp only [get_cluster_again]
  simp only [done, Bind.bind, Except.bind, if_neg nonzero, number]

end
end MutekFatWindow
