import Mathlib.Data.List.Chain
import MutekH.FatRead

/-!
Any number of open files of a FAT volume: runs of open, close, seek and read. A read gives the
bytes of the file at its offset, which it advances. That is so where the code follows the chains
and the reads stay where it computes the right sectors.
-/
namespace MutekFatFiles
open Function List LibBytes LibFixedWidth LibMachine MutekVfs MutekFat MutekFatVolume
open MutekFatWindow MutekFatRead

inductive Call where
  | open_ (h node : Nat)
  | close (h : Nat)
  | seek (h : Nat) (offset : Int) (whence : Whence)
  | read (h : Nat) (buffer : List UInt8)

def Opened (s : State) (h : Nat) : Prop := h ∈ s.files (s.ffile h).extent

instance (s : State) (h : Nat) : Decidable (Opened s h) :=
  inferInstanceAs (Decidable (_ ∈ _))

section
variable (w fuel : Nat) (vol : Volume)

def nextState (s : State) : Call → State
  | .open_ h node => fat_node_open vol.fat h node s
  | .close h => fat_file_close h s
  | .seek h offset whence => (fat_file_seek w vol.fat h offset whence s).2
  | .read h buffer =>
    match fat_file_read w fuel vol.fat h buffer s with
    | .ok (_, _, s) => s
    | .error _ => s

def fatMachine : Machine State Call where
  start s := Cached vol s.sector ∧ ∀ n, s.files n = []
  enabled s
    | .open_ h _ => ∀ n, h ∉ s.files n
    | .close h => Opened s h
    | .seek h _ _ => Opened s h
    | .read h _ => Opened s h
  next := nextState w fuel vol

def InDomain (s : State) : Call → Prop
  | .read h buffer => ReadDomain vol s h buffer.length
  | _ => True

end

section
variable {w fuel : Nat} {vol : Volume} {s : State} {n h : Nat}

structure Sound (vol : Volume) (s : State) : Prop where
  ready : Ready vol s
  inside : Inside vol s

theorem mem_open (new : ∀ n, h ∉ s.files n) (mem : g ∈ (fat_node_open vol.fat h node s).files n) :
    g ∈ s.files n ∧ g ≠ h ∨ n = node ∧ g = h := by
  simp only [fat_node_open] at mem
  by_cases here : n = node
  · rw [here, update_self, mem_append, mem_singleton] at mem
    rcases mem with old | self
    · refine .inl ⟨by rw [here]; exact old,?_⟩
      rintro rfl
      exact new node old
    · exact .inr ⟨here,self⟩
  · rw [update_of_ne here] at mem
    refine .inl ⟨mem,?_⟩
    rintro rfl
    exact new n mem

attribute [local simp] fat_node_open

theorem open_ready (ready : Ready vol s) (new : ∀ n, h ∉ s.files n) (node : Nat) :
    Ready vol (fat_node_open vol.fat h node s) := by
  refine ⟨ready.cached,?_,?_⟩
  · intro n g mem
    rcases mem_open new mem with ⟨old,other⟩ | ⟨rfl,rfl⟩
    · simpa [other] using ready.extent n g old
    · simp
  · intro n g mem chained
    rcases mem_open new mem with ⟨old,other⟩ | ⟨rfl,rfl⟩
    · simpa [other] using ready.window n g old chained
    · have first : (vol.chain n)[0]? = some (vol.fat.node n).first_cluster := first_found chained
      simpa using window_new first n

theorem open_sound (sound : Sound vol s) (new : ∀ n, h ∉ s.files n) (node : Nat) :
    Sound vol (fat_node_open vol.fat h node s) := by
  refine ⟨open_ready sound.ready new node,?_⟩
  intro n g mem
  rcases mem_open new mem with ⟨old,other⟩ | ⟨rfl,rfl⟩
  · simpa [other] using sound.inside n g old
  · simp

theorem mem_close (mem : g ∈ (fat_file_close h s).files n) : g ∈ s.files n := by
  simp only [fat_file_close] at mem
  split at mem
  · rw [update_apply] at mem
    split at mem
    next here => exact here ▸ mem_of_mem_erase mem
    · exact mem
  · exact mem

theorem close_ready (ready : Ready vol s) (h : Nat) : Ready vol (fat_file_close h s) :=
  ⟨ready.cached, fun n g mem => ready.extent n g (mem_close mem),
    fun n g mem => ready.window n g (mem_close mem)⟩

theorem seek_sound (sup : Supported w vol) (sound : Sound vol s) (h : Nat) (offset : Int)
    (whence : Whence) : Sound vol (fat_file_seek w vol.fat h offset whence s).2 := by
  refine ⟨⟨sound.ready.cached,sound.ready.extent,sound.ready.window⟩,?_⟩
  intro n g mem
  by_cases self : g = h
  · rw [self] at mem ⊢
    have extent := sound.ready.extent n h mem
    unfold fat_file_seek
    simp only [update_self, extent, sint_of_fits (sup.sizes n)]
    split <;> split <;> omega
  · have old := sound.inside n g mem
    simpa [fat_file_seek, self] using old

theorem read_sound (sup : Supported w vol) (enough : 2 ^ 32 ≤ fuel) (sound : Sound vol s)
    (opened : Opened s h) (domain : ReadDomain vol s h buffer.length) :
    Sound vol (nextState w fuel vol s (.read h buffer)) := by
  obtain ⟨s',read,ready,files,offset⟩ :=
    file_read_reads sup enough sound.ready sound.inside opened domain
  simp only [nextState, read]
  refine ⟨ready,?_⟩
  intro n g mem
  rw [files] at mem
  have old := sound.inside n g mem
  rw [offset]
  by_cases self : g = h
  · rw [self] at mem old ⊢
    rw [update_self, sound.ready.extent n h mem]
    omega
  · rw [update_of_ne self]
    exact old

theorem none_open (none : ∀ n, s.files n = []) (n g : Nat) : g ∉ s.files n := by
  rw [none n]
  exact not_mem_nil

theorem ready_start (cached : Cached vol s.sector) (none : ∀ n, s.files n = []) : Ready vol s :=
  ⟨cached, fun n g mem => absurd mem (none_open none n g),
    fun n g mem => absurd mem (none_open none n g)⟩

theorem reached_sound (sup : Supported w vol) (enough : 2 ^ 32 ≤ fuel)
    (reached : Reached (restrict (fatMachine w fuel vol) (InDomain vol)) s) : Sound vol s := by
  refine reached_invariant (Sound vol) ?_ ?_ reached
  · rintro s ⟨cached,none⟩
    exact ⟨ready_start cached none,fun n g mem => absurd mem (none_open none n g)⟩
  rintro s c sound ⟨can,domain⟩
  cases c with
  | open_ h node => exact open_sound sound can node
  | close h => exact ⟨close_ready sound.ready h,fun n g mem => sound.inside n g (mem_close mem)⟩
  | seek h offset whence => exact seek_sound sup sound h offset whence
  | read h buffer => exact read_sound sup enough sound can domain

theorem content_length (vol : Volume) (n : Nat) :
    (content vol n).length = (vol.fat.node n).file_size := by
  have room := bytes_room vol n
  rw [content_sectors, length_take]
  unfold bytes at room
  omega

/-- A read stores the bytes of the file that are at the offset, as many as there are and fit in
    the buffer, and advances the offset. -/
theorem fat_file_reads (w fuel : Nat) (vol : Volume) (sup : Supported w vol)
    (enough : 2 ^ 32 ≤ fuel) (s : State)
    (reached : Reached (restrict (fatMachine w fuel vol) (InDomain vol)) s) (h : Nat)
    (opened : Opened s h) (buffer : List UInt8) (domain : ReadDomain vol s h buffer.length) :
    ∃ o size s', s.offset h = (o : Nat) ∧
      size = min buffer.length ((vol.fat.node (s.ffile h).extent).file_size - o) ∧
      (slice (content vol (s.ffile h).extent) o buffer.length).length = size ∧
      fat_file_read w fuel vol.fat h buffer s =
        .ok ((size : Nat), patch buffer 0
          (slice (content vol (s.ffile h).extent) o buffer.length), s') ∧
      s'.offset = update s.offset h ((o + size : Nat) : Int) := by
  have sound := reached_sound sup enough reached
  obtain ⟨low,_⟩ := sound.inside _ h opened
  obtain ⟨o,at_⟩ := Int.eq_ofNat_of_zero_le low
  obtain ⟨s',read,_,_,offset⟩ := file_read_reads sup enough sound.ready sound.inside opened domain
  rw [at_, Int.toNat_natCast] at read offset
  refine ⟨o,_,s',at_,rfl,?_,read,?_⟩
  · rw [slice_length, content_length]
  · rw [offset, Int.natCast_add]

end
/- Volumes. -/

theorem next_of_isChain {R : Nat → Nat → Prop} {l : List Nat} (chain : l.IsChain R) (i c d : Nat)
    (here : l[i]? = some c) (next : l[i + 1]? = some d) : R c d := by
  obtain ⟨inside,rfl⟩ := List.getElem?_eq_some_iff.mp next
  obtain ⟨_,rfl⟩ := List.getElem?_eq_some_iff.mp here
  exact isChain_iff_getElem.mp chain i inside

def deviceOf (sectors : List (List UInt8)) : Device where
  blk_count := sectors.length
  block lba := sectors.getD lba []

def clusterData : List (List UInt8) :=
  [[20, 21, 22, 23], [30, 31, 32, 33], [40, 41, 42, 43], [50, 51, 52, 53], [60, 61, 62, 63],
    [70, 71, 72, 73]]

/-- A FAT16 volume with sectors of four bytes, two entries each, and files that start with the
    first cluster. -/
def fatOf (reserved table : List (List UInt8)) (pow2 file_size : Nat) : Fat where
  dev := deviceOf (reserved ++ table ++ clusterData)
  type := .FAT16
  sect_size_pow2 := 2
  sect_per_clust_pow2 := pow2
  fat_secsize := table.length
  fat_sect0 := reserved.length
  cluster0_sector := reserved.length + table.length - 2 * 2 ^ pow2
  root_dir_base := 0
  node _ := ⟨2, file_size⟩

def fragmented : List (List UInt8) :=
  [[0xf8, 0xff, 0xff, 0xff], [3, 0, 5, 0], [0xff, 0xff, 4, 0], [0, 0, 0, 0], [0, 0, 0, 0]]

def smallFat : Fat := fatOf [[0, 0, 0, 0]] fragmented 0 14

theorem smallFat_chain : FileChain smallFat 6 6 ⟨2, 14⟩ [2, 3, 5, 4] where
  first := rfl
  linked := next_of_isChain (by decide)
  ended c last := by
    cases last
    decide
  inside := by decide
  acyclic := by decide
  room := by decide
  size := by decide

def smallVolume : Volume where
  fat := smallFat
  first_data := 6
  clusters := 6
  chain _ := [2, 3, 5, 4]
  even := by decide
  wide := by decide
  numbered := by decide
  table := by decide
  narrow _ := by decide
  covered := by decide
  counted := by decide
  data := by decide
  base := by decide
  file _ := smallFat_chain

def fresh (vol : Volume) : State :=
  ⟨⟨0, vol.fat.dev.block 0⟩, fun _ => ⟨0, 0, 0, 0⟩, fun _ => 0, fun _ => [], fun _ => 0⟩

theorem small_supported : Supported 32 smallVolume where
  reachable _ := next_of_isChain (l := [2, 3, 5, 4])
    (R := fun c _ => Reachable smallFat c) (by decide)
  low _ _ := next_of_isChain (l := [2, 3, 5, 4]) (R := fun _ d => d < 0x8000) (by decide)
  sizes _ := (by decide : Fits 32 14)

theorem new_open {s : State} {g h node : Nat} (other : g ≠ h) (new : ∀ n, g ∉ s.files n)
    (n : Nat) : g ∉ (fat_node_open fat h node s).files n := by
  intro mem
  simp only [fat_node_open] at mem
  by_cases here : n = node
  · rw [here, update_self, mem_append, mem_singleton] at mem
    exact mem.elim (new node) other
  · rw [update_of_ne here] at mem
    exact new n mem

def smallCalls : List Call :=
  [.open_ 0 0, .open_ 1 0, .seek 1 5 .set, .read 1 [0, 0, 0, 0, 0]]

def ran (vol : Volume) (calls : List Call) : State :=
  after (fatMachine 32 (2 ^ 32) vol) (fresh vol) calls

theorem fat_file_reads_fragmented :
    ∃ s', fat_file_read 32 (2 ^ 32) smallVolume.fat 1 [0, 0, 0, 0, 0, 0, 0, 0]
      (ran smallVolume smallCalls) = .ok (4, [52, 53, 40, 41, 0, 0, 0, 0], s') := by
  have none : ∀ h n, h ∉ (fresh smallVolume).files n := fun h n => not_mem_nil
  have reached : Reached (restrict (fatMachine 32 (2 ^ 32) smallVolume) (InDomain smallVolume))
      (ran smallVolume smallCalls) := by
    refine reached_of_allowed _ _ _ ⟨⟨by decide,rfl⟩,fun _ => rfl⟩ ?_
    exact ⟨⟨none 0,trivial⟩,⟨new_open (by decide) (none 1),trivial⟩,
      ⟨(by decide : Opened (ran smallVolume (smallCalls.take 2)) 1),trivial⟩,
      ⟨(by decide : Opened (ran smallVolume (smallCalls.take 3)) 1),.inl rfl,by decide⟩,trivial⟩
  obtain ⟨o,size,s',at_,rfl,_,read,_⟩ := fat_file_reads 32 (2 ^ 32) smallVolume small_supported
    (Nat.le_refl _) (ran smallVolume smallCalls) reached 1 (by decide +kernel)
    [0, 0, 0, 0, 0, 0, 0, 0] ⟨.inl rfl,by decide +kernel⟩
  have offset : (ran smallVolume smallCalls).offset 1 = (10 : Nat) := by decide +kernel
  rw [offset, Int.natCast_inj] at at_
  subst at_
  have size :
    ((min 8 ((smallVolume.fat.node ((ran smallVolume smallCalls).ffile 1).extent).file_size -
      10) : Nat) : Int) = 4 := by decide +kernel
  have stored : patch [0, 0, 0, 0, 0, 0, 0, 0] 0
      (slice (content smallVolume ((ran smallVolume smallCalls).ffile 1).extent) 10 8) =
        [52, 53, 40, 41, 0, 0, 0, 0] := by decide +kernel
  refine ⟨s',read.trans ?_⟩
  rw [← size, ← stored]
  rfl

def pairedFat : Fat :=
  fatOf [[0, 0, 0, 0]]
    [[0xf8, 0xff, 0xff, 0xff], [3, 0, 0xff, 0xff], [0, 0, 0, 0], [0, 0, 0, 0], [0, 0, 0, 0]] 1 16

theorem pairedFat_chain : FileChain pairedFat 6 3 ⟨2, 16⟩ [2, 3] where
  first := rfl
  linked := next_of_isChain (by decide)
  ended c last := by
    cases last
    decide
  inside := by decide
  acyclic := by decide
  room := by decide
  size := by decide

def pairedVolume : Volume where
  fat := pairedFat
  first_data := 6
  clusters := 3
  chain _ := [2, 3]
  even := by decide
  wide := by decide
  numbered := by decide
  table := by decide
  narrow _ := by decide
  covered := by decide
  counted := by decide
  data := by decide
  base := by decide
  file _ := pairedFat_chain

def reservedFat : Fat :=
  fatOf [[0, 0, 0, 0], [0, 0, 0, 0], [0, 0, 0, 0], [0, 0, 0, 0]] fragmented 0 14

theorem reservedFat_chain : FileChain reservedFat 9 6 ⟨2, 14⟩ [2, 3, 5, 4] where
  first := rfl
  linked := next_of_isChain (by decide)
  ended c last := by
    cases last
    decide
  inside := by decide
  acyclic := by decide
  room := by decide
  size := by decide

def reservedVolume : Volume where
  fat := reservedFat
  first_data := 9
  clusters := 6
  chain _ := [2, 3, 5, 4]
  even := by decide
  wide := by decide
  numbered := by decide
  table := by decide
  narrow _ := by decide
  covered := by decide
  counted := by decide
  data := by decide
  base := by decide
  file _ := reservedFat_chain

def highFat : Fat where
  dev := ⟨49153, fun lba =>
    if lba = 2 then [0, 0x80, 0, 0] else if lba = 16385 then [0xff, 0xff, 0, 0] else [0, 0, 0, 0]⟩
  type := .FAT16
  sect_size_pow2 := 2
  sect_per_clust_pow2 := 0
  fat_secsize := 16385
  fat_sect0 := 1
  cluster0_sector := 16384
  root_dir_base := 0
  node _ := ⟨2, 8⟩

theorem highFat_even : Even highFat := by
  intro lba _
  simp only [highFat]
  split
  · rfl
  · split <;> rfl

theorem highFat_next : fatEntry highFat 2 = 0x8000 := by
  unfold fatEntry
  rw [entry_block highFat_even (by decide) (by decide)]
  decide

theorem highFat_chain : FileChain highFat 16386 32767 ⟨2, 8⟩ [2, 0x8000] where
  first := rfl
  linked := next_of_isChain (.cons_cons highFat_next (.singleton _))
  ended c last := by
    cases last
    rw [fatEntry, entry_block highFat_even (by decide) (by decide)]
    decide
  inside := by decide
  acyclic := by decide
  room := by decide
  size := by decide

def highVolume : Volume where
  fat := highFat
  first_data := 16386
  clusters := 32767
  chain _ := [2, 0x8000]
  even := highFat_even
  wide := by decide
  numbered := by decide
  table := by decide
  narrow _ := by decide
  covered := by decide
  counted := by decide
  data := by decide
  base := by decide
  file _ := highFat_chain

def reply (vol : Volume) (calls : List Call) (buffer : List UInt8) :
    Except Fault (Int × List UInt8) :=
  (fat_file_read 32 (2 ^ 32) vol.fat 0 buffer (ran vol calls)).map (fun r => (r.1, r.2.1))

/-- Whole sectors of a cluster of two, a read that goes back, a table behind four reserved
    sectors, and a cluster number of FAT16 with its highest bit set. -/
theorem fat_reads_diverge :
    (reply pairedVolume [.open_ 0 0] [0, 0, 0, 0, 0, 0, 0, 0] =
        .ok (8, [30, 31, 32, 33, 40, 41, 42, 43]) ∧
      slice (content pairedVolume 0) 0 8 = [20, 21, 22, 23, 30, 31, 32, 33]) ∧
    (reply smallVolume [.open_ 0 0, .seek 0 8 .set, .read 0 [0, 0, 0, 0], .seek 0 4 .set]
      [0, 0, 0, 0] =
        .ok (4, [40, 41, 42, 43]) ∧
      slice (content smallVolume 0) 4 4 = [30, 31, 32, 33]) ∧
    (reply reservedVolume [.open_ 0 0] [0, 0, 0, 0, 0, 0, 0, 0] =
        .ok (-1, [20, 21, 22, 23, 0, 0, 0, 0]) ∧
      slice (content reservedVolume 0) 0 8 = [20, 21, 22, 23, 30, 31, 32, 33]) ∧
    (reply highVolume [.open_ 0 0, .seek 0 4 .set] [0, 0, 0, 0] = .ok (-1, [0, 0, 0, 0]) ∧
      (slice (content highVolume 0) 4 4).length = 4) := by
  refine ⟨by decide +kernel,by decide +kernel,by decide +kernel,by decide +kernel,?_⟩
  rw [slice_length, content_length]
  rfl

end MutekFatFiles
