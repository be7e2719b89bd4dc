import MutekH.Lib.Bytes
import MutekH.Lib.FixedWidth
import MutekH.Vfs

/-!
Open files of a FAT volume (fs/fat/fat-file.c, fat16.c, fat32.c, fat-sector-cache.c), with
both kinds of volumes configured: `common_cluster_t` and `sector_t` have 32 bits. `size_t` is
an unsigned and `ssize_t` and `off_t` are signed types of `w` bits. A shift by a number of bits
or a mask of that many bits is written as the quotient or the remainder by a power of two. A
loop takes at most `fuel` turns.
-/
namespace MutekFat
open Function LibBytes LibFixedWidth MutekVfs

inductive FatType where
  | FAT16
  | FAT32
  deriving DecidableEq

def ERANGE : Int := 34

def EUNKNOWN : Int := 1

structure Device where
  blk_count : Nat
  block : Nat → List UInt8

def dev_block_wait_read (dev : Device) (lba count : Nat) : Except Int (List UInt8) :=
  if lba + count ≤ dev.blk_count then .ok ((List.range' lba count).flatMap dev.block)
  else .error (-ERANGE)

/-- `fat_tmp_sector_s`, never dirty as nothing is written. -/
structure Sector where
  lba : Nat
  data : List UInt8

structure FsNode where
  first_cluster : Nat
  file_size : Nat

/-- `fat_s` as it is after the volume has been opened, and the nodes of its files. -/
structure Fat where
  dev : Device
  type : FatType
  sect_size_pow2 : Nat
  sect_per_clust_pow2 : Nat
  fat_secsize : Nat
  fat_sect0 : Nat
  cluster0_sector : Nat
  root_dir_base : Nat
  node : Nat → FsNode

structure FatFile where
  cluster_index : Nat
  zone_start : Nat
  zone_end : Nat
  extent : Nat

structure State where
  sector : Sector
  ffile : Nat → FatFile
  offset : Nat → Int
  files : Nat → List Nat
  refcnt : Nat → Nat

def setFile (h : Nat) (file : FatFile) (s : State) : State :=
  { s with ffile := update s.ffile h file }

def setSector (sector : Sector) (s : State) : State := { s with sector := sector }

def fat_sector_lock_and_load (dev : Device) (lba : Nat) (sector : Sector) : Except Int Sector :=
  if sector.lba = lba then .ok sector
  else
    match dev_block_wait_read dev lba 1 with
    | .ok data => .ok ⟨lba, data⟩
    | .error err => .error err

def CLUSTER_END : Nat := 0xffffffff

/-- `CLUSTER_TO_COMMON`: a 16 bit number is extended with its sign. -/
def cluster_to_common (x : Nat) : Nat := if x < 0x8000 then x else 0xffff0000 + x

section
variable (w fuel : Nat) (fat : Fat)

variable (cluster_no : Nat) (h : Nat)

def fat16_cut_fat_cluster_no : Nat × Nat :=
  let cluster_no := cluster_no % 2 ^ 16
  ((cluster_no / 2 ^ (fat.sect_size_pow2 - 1) + fat.fat_sect0) % 2 ^ 16,
    cluster_no % 2 ^ (fat.sect_size_pow2 - 1))

def fat16_entry_get (sector : Sector) : Nat × Sector :=
  let (fat_sector, fat_offset) := fat16_cut_fat_cluster_no fat cluster_no
  if fat.fat_secsize ≤ fat_sector then (CLUSTER_END, sector)
  else
    match fat_sector_lock_and_load fat.dev fat_sector sector with
    | .error _ => (CLUSTER_END, sector)
    | .ok sector => (cluster_to_common (little (slice sector.data (fat_offset * 2) 2)), sector)

def fat32_cut_fat_cluster_no : Nat × Nat :=
  ((cluster_no / 2 ^ (fat.sect_size_pow2 - 2) + fat.fat_sect0) % 2 ^ 32,
    cluster_no % 2 ^ (fat.sect_size_pow2 - 2))

def fat32_entry_get (sector : Sector) : Nat × Sector :=
  let (fat_sector, fat_offset) := fat32_cut_fat_cluster_no fat cluster_no
  if fat.fat_secsize ≤ fat_sector then (CLUSTER_END, sector)
  else
    match fat_sector_lock_and_load fat.dev fat_sector sector with
    | .error err => ((uint 32 err).toNat, sector)
    | .ok sector => (little (slice sector.data (fat_offset * 4) 4) % 2 ^ 28, sector)

def entry_get (sector : Sector) : Nat × Sector :=
  match fat.type with
  | .FAT16 => fat16_entry_get fat cluster_no sector
  | .FAT32 => fat32_entry_get fat cluster_no sector

def fat_entry_is_end (cluster : Nat) : Bool := ((cluster ||| 0xf0000007) + 1) % 2 ^ 32 = 0

def fat_file_translate_cluster (file : FatFile) (cluster : Nat) : Nat :=
  let ret := (cluster + (2 ^ 32 - file.cluster_index) + file.zone_start) % 2 ^ 32
  if ret < file.zone_end then ret else 0

def best_file (ffile : Nat → FatFile) (cluster : Nat) (best : Option FatFile) (item : Nat) :
    Option FatFile :=
  if (ffile item).cluster_index < cluster then
    match best with
    | none => some (ffile item)
    | some b => if b.cluster_index < (ffile item).cluster_index then some (ffile item) else some b
  else best

/-- The loop of `fat_file_get_cluster`. -/
def fat_file_walk (h cluster : Nat) : Nat → State → Except Fault (Nat × State)
  | 0, _ => .error .hang
  | fuel + 1, s =>
    let file := s.ffile h
    let ret := fat_file_translate_cluster file cluster
    if ret ≠ 0 then .ok (ret, s)
    else
      let (ret, sector) := entry_get fat ((file.zone_end + (2 ^ 32 - 1)) % 2 ^ 32) s.sector
      let s := setSector sector s
      if fat_entry_is_end ret then .ok (0, s)
      else if ret = file.zone_end then
        fat_file_walk h cluster fuel
          (setFile h { file with zone_end := (file.zone_end + 1) % 2 ^ 32 } s)
      else
        fat_file_walk h cluster fuel (setFile h { file with
          cluster_index :=
            (file.cluster_index + (file.zone_end + (2 ^ 32 - file.zone_start))) % 2 ^ 32
          zone_start := ret
          zone_end := (ret + 1) % 2 ^ 32 } s)

def fat_file_get_cluster (h cluster : Nat) (s : State) : Except Fault (Nat × State) :=
  let file := s.ffile h
  let ret := fat_file_translate_cluster file cluster
  if ret ≠ 0 then .ok (ret, s)
  else
    let first := (fat.node file.extent).first_cluster
    let file :=
      match (s.files file.extent).foldl (best_file s.ffile cluster) none with
      | some best => { file with
          cluster_index := best.cluster_index
          zone_start := best.zone_start
          zone_end := best.zone_end }
      | none => { file with
          cluster_index := 0
          zone_start := first
          zone_end := (first + 1) % 2 ^ 32 }
    fat_file_walk fat h cluster fuel (setFile h file s)

def vsector (offset : Int) : Nat := (uint 32 (offset / 2 ^ fat.sect_size_pow2)).toNat

/-- The loop of `fat_file_get_biggest_sector_range`. -/
def fat_file_extend (h : Nat) : Nat → Nat → State → Except Fault State
  | 0, _, _ => .error .hang
  | fuel + 1, pcluster, s =>
    let file := s.ffile h
    let (pcluster, sector) := entry_get fat ((pcluster + (2 ^ 32 - 1)) % 2 ^ 32) s.sector
    let s := setSector sector s
    if pcluster = file.zone_end then
      fat_file_extend h fuel pcluster
        (setFile h { file with zone_end := (file.zone_end + 1) % 2 ^ 32 } s)
    else .ok s

/-- The first sector and the one after the last, or nothing. -/
def fat_file_get_biggest_sector_range (offset : Int) (s : State) :
    Except Fault (Option (Nat × Nat) × State) := do
  let vcluster := vsector fat offset / 2 ^ fat.sect_per_clust_pow2
  let psector_mask := 2 ^ fat.sect_per_clust_pow2 - 1
  let psector_offset := (vsector fat offset % 2 ^ fat.sect_per_clust_pow2) ^^^ psector_mask
  let (pcluster, s) ← fat_file_get_cluster fuel fat h vcluster s
  if pcluster = 0 then .ok (none, s)
  else
    let first_sector :=
      (fat.cluster0_sector + pcluster * 2 ^ fat.sect_per_clust_pow2 + psector_offset) % 2 ^ 32
    let s ← fat_file_extend fat h fuel (s.ffile h).zone_end s
    let last_sector :=
      (fat.cluster0_sector + (s.ffile h).zone_end * 2 ^ fat.sect_per_clust_pow2) % 2 ^ 32
    .ok (some (first_sector, last_sector), s)

def fat_file_get_sector (offset : Int) (s : State) : Except Fault (Nat × State) := do
  let vcluster := vsector fat offset / 2 ^ fat.sect_per_clust_pow2
  let psector_offset := vsector fat offset % 2 ^ fat.sect_per_clust_pow2
  let (pcluster, s) ←
    (if fat_file_translate_cluster (s.ffile h) vcluster ≠ 0 then
      .ok (fat_file_translate_cluster (s.ffile h) vcluster, s)
    else fat_file_get_cluster fuel fat h vcluster s)
  if pcluster = 0 then .ok (0, s)
  else
    .ok ((psector_offset + pcluster * 2 ^ fat.sect_per_clust_pow2 + fat.cluster0_sector) % 2 ^ 32,
      s)

def fat_file_read_part (offset : Int) (size : Nat) (s : State) :
    Except Fault (Int × List UInt8 × State) :=
  if 2 ^ fat.sect_size_pow2 ≤ size then .error .assert
  else do
    let (sect, s) ← fat_file_get_sector fuel fat h offset s
    if sect = 0 then .ok (0, [], s)
    else
      let block_offset := (offset % 2 ^ fat.sect_size_pow2).toNat
      match fat_sector_lock_and_load fat.dev sect s.sector with
      | .error err => .ok (-err, [], s)
      | .ok sector => .ok (size, slice sector.data block_offset size, setSector sector s)

def fat_file_read_aligned_sectors (offset : Int) (size : Nat) (s : State) :
    Except Fault (Int × List UInt8 × State) := do
  let (range, s) ← fat_file_get_biggest_sector_range fuel fat h offset s
  match range with
  | none => .ok (-EUNKNOWN, [], s)
  | some (begin_, end_) =>
    let max := min (size / 2 ^ fat.sect_size_pow2) ((end_ + (2 ^ 32 - begin_)) % 2 ^ 32)
    match dev_block_wait_read fat.dev begin_ max with
    | .error err => .ok (-err, [], s)
    | .ok blocks => .ok (sint w (max * 2 ^ fat.sect_size_pow2 % 2 ^ 32 : Nat), blocks, s)

def fat_root_read (offset : Int) (size : Nat) (s : State) : Int × List UInt8 × State :=
  let block_size : Nat := 2 ^ fat.sect_size_pow2
  let block_offset := (offset % block_size).toNat
  let sect := (vsector fat offset + fat.root_dir_base) % 2 ^ 32
  if ((fat.node (s.ffile h).extent).file_size : Int) ≤ uint w offset then (0, [], s)
  else
    let size := if block_size < size + block_offset then block_size - block_offset else size
    match fat_sector_lock_and_load fat.dev sect s.sector with
    | .error err => (-err, [], s)
    | .ok sector => (size, slice sector.data block_offset size, setSector sector s)

/-- What is behind the label `err`. -/
def fat_data_read_end (size : Nat) (left ret : Int) : Int :=
  if ret < 0 then ret else sint w (size - sint w (left - ret))

/-- The whole sectors and what is left. `data` is where the next bytes are stored. -/
def fat_data_read_sectors (h size : Nat) :
    Nat → Int → Int → Nat → List UInt8 → State → Except Fault (Int × List UInt8 × State)
  | 0, _, _, _, _, _ => .error .hang
  | turns + 1, offset, left, data, buffer, s =>
    let part_size := (uint w left).toNat / 2 ^ fat.sect_size_pow2 * 2 ^ fat.sect_size_pow2
    if part_size ≠ 0 then do
      let (ret, bytes, s) ← fat_file_read_aligned_sectors w fuel fat h offset part_size s
      let buffer := patch buffer data bytes
      if ret ≤ 0 then .ok (fat_data_read_end w size left ret, buffer, s)
      else
        fat_data_read_sectors h size turns (sint w (offset + ret)) (sint w (left - ret))
          (data + ret.toNat) buffer s
    else if left ≠ 0 then do
      let (ret, bytes, s) ← fat_file_read_part fuel fat h offset (uint w left).toNat s
      .ok (fat_data_read_end w size left ret, patch buffer data bytes, s)
    else .ok (fat_data_read_end w size left 0, buffer, s)

def fat_data_read (offset : Int) (buffer : List UInt8) (size : Nat) (s : State) :
    Except Fault (Int × List UInt8 × State) :=
  if (fat.node (s.ffile h).extent).first_cluster = 0 then
    let (ret, bytes, s) := fat_root_read w fat h offset size s
    .ok (ret, patch buffer 0 bytes, s)
  else
    let sector_size : Nat := 2 ^ fat.sect_size_pow2
    let sect_offset := (offset % sector_size).toNat
    let left := sint w size
    let part_size := min size (if sect_offset ≠ 0 then sector_size - sect_offset else 0)
    if part_size ≠ 0 then do
      let (ret, bytes, s) ← fat_file_read_part fuel fat h offset part_size s
      let buffer := patch buffer 0 bytes
      if ret ≠ part_size then .ok (fat_data_read_end w size left ret, buffer, s)
      else
        let left := sint w (left - part_size)
        let offset := sint w (offset + part_size)
        if offset % sector_size ≠ 0 ∧ left ≠ 0 then .error .assert
        else fat_data_read_sectors w fuel fat h size fuel offset left part_size buffer s
    else if offset % sector_size ≠ 0 ∧ left ≠ 0 then .error .assert
    else fat_data_read_sectors w fuel fat h size fuel offset left 0 buffer s

/-- The size is that of the buffer. Offsets and sizes are compared as unsigned numbers. -/
def fat_file_read (buffer : List UInt8) (s : State) :
    Except Fault (Int × List UInt8 × State) :=
  let file_size := (fat.node (s.ffile h).extent).file_size
  if (file_size : Int) ≤ uint w (s.offset h) then .ok (0, buffer, s)
  else do
    let size := min (uint w (file_size - s.offset h)).toNat buffer.length
    let (r, buffer, s) ← fat_data_read w fuel fat h (s.offset h) buffer size s
    if r > 0 then
      .ok (r, buffer, { s with offset := update s.offset h (sint w (s.offset h + r)) })
    else .ok (r, buffer, s)

inductive Whence where
  | set
  | cur
  | end_

def fat_file_seek (offset : Int) (whence : Whence) (s : State) : Int × State :=
  let file_size := (fat.node (s.ffile h).extent).file_size
  let offset := match whence with
    | .set => offset
    | .cur => sint w (offset + s.offset h)
    | .end_ => sint w (offset + file_size)
  let offset := if offset > sint w file_size then sint w file_size else offset
  let offset := if offset < 0 then 0 else offset
  (offset, { s with offset := update s.offset h offset })

def fat_node_open (h node : Nat) (s : State) : State :=
  let first := (fat.node node).first_cluster
  { s with
    ffile := update s.ffile h ⟨0, first, (first + 1) % 2 ^ 32, node⟩
    offset := update s.offset h 0
    files := update s.files node (s.files node ++ [h])
    -- of `fat_file_new`, of the list and of the `vfs_file`
    refcnt := update s.refcnt h 3 }

def fat_file_close (s : State) : State :=
  let node := (s.ffile h).extent
  { s with
    files := if s.refcnt h = 1 then update s.files node ((s.files node).erase h) else s.files
    refcnt := update s.refcnt h (s.refcnt h - 1) }

end
end MutekFat
