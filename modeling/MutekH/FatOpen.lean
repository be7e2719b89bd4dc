import MutekH.Lib.Bytes
import MutekH.Vfs
import Mathlib.Algebra.Ring.Nat
import Mathlib.Algebra.Ring.Int.Defs

/-!
Opening a FAT volume (fs/fat/fat.c), with both kinds of volumes configured. The numbers of
sectors have 32 bits. A builtin or a shift without a defined result is a fault.
-/
namespace MutekFatOpen
open LibBytes MutekVfs

/-- The parameters of the device, the result of a read of its first block, and its content. -/
structure Disk where
  blk_size : Nat
  blk_count : Nat
  read : Except Error Unit
  data : Nat → UInt8

inductive FatType where
  | FAT12
  | FAT16
  | FAT32
  deriving DecidableEq

def volume_type : FatType → List UInt8
  | .FAT12 => [70, 65, 84, 49, 50, 32, 32, 32]
  | .FAT16 => [70, 65, 84, 49, 54, 32, 32, 32]
  | .FAT32 => [70, 65, 84, 51, 50, 32, 32, 32]

/-- `__builtin_ctz` of a number of `bits` bits that is not 0. -/
def ctz : Nat → Nat → Nat
  | 0, _ => 0
  | bits + 1, x => if x % 2 = 1 then 0 else ctz bits (x / 2) + 1

/-- What `fat_parse_bpb` sets of `fat_s`. -/
structure Fat where
  total_sector_count : Nat
  sect_size_pow2 : Nat
  sect_per_clust_pow2 : Nat
  root_dir_secsize : Nat
  fat_count : Nat
  fat_secsize : Nat
  type : Option FatType
  fat_sect0 : Nat
  cluster0_sector : Nat
  root_dir_base : Nat

section
variable (d : Disk) (type_from_string : Bool) (stale : Option FatType)

def bytes (offset n : Nat) : List UInt8 := (List.range' offset n).map d.data

/- The fields of `fat_bpb_s`. -/

def byte_per_sector : Nat := little (bytes d 11 2)

def sector_per_cluster : Nat := little (bytes d 13 1)

def reserved_sect_count : Nat := little (bytes d 14 2)

def fat_count : Nat := little (bytes d 16 1)

def root_dirent_count : Nat := little (bytes d 17 2)

def total_sector_count16 : Nat := little (bytes d 19 2)

def fat_size16 : Nat := little (bytes d 22 2)

def total_sector_count32 : Nat := little (bytes d 32 4)

def fat_size32 : Nat := little (bytes d 36 4)

def root_cluster : Nat := little (bytes d 44 4)

def total_sector_count : Nat :=
  if total_sector_count16 d ≠ 0 then total_sector_count16 d else total_sector_count32 d

def root_dir_secsize : Nat := root_dirent_count d / 2 ^ (ctz 16 (byte_per_sector d) - 5)

def fat_secsize : Nat := if fat_size16 d = 0 then fat_size32 d else fat_size16 d

/-- The sectors before the data. -/
def system_sectors : Nat := reserved_sect_count d + fat_secsize d * fat_count d + root_dir_secsize d

def data_clusters : Nat :=
  ((total_sector_count d - system_sectors d : Int) % 2 ^ 32).toNat / 2 ^ ctz 8
    (sector_per_cluster d)

def with_short_header (type : FatType) : Except Error (Option FatType) :=
  if fat_size16 d = 0 then .error .ENOTSUP else .ok (some type)

/-- The type, from the string of the header (CONFIG_DRIVER_FS_FAT_TYPE_FROM_STRING) or from the
    number of clusters. `stale` is what its memory held, if that is a type at all. -/
def fat_type : Except Error (Option FatType) :=
  if type_from_string then
    if bytes d 54 8 = volume_type .FAT12 then with_short_header d .FAT12
    else if bytes d 54 8 = volume_type .FAT16 then with_short_header d .FAT16
    else if bytes d 82 8 = volume_type .FAT32 then .ok (some .FAT32)
    else .ok stale
  else if data_clusters d < 4085 then with_short_header d .FAT12
  else if data_clusters d < 65525 then with_short_header d .FAT16
  else .ok (some .FAT32)

def geometry (type : Option FatType) : Fat where
  total_sector_count := total_sector_count d
  sect_size_pow2 := ctz 16 (byte_per_sector d)
  sect_per_clust_pow2 := ctz 8 (sector_per_cluster d)
  root_dir_secsize := root_dir_secsize d
  fat_count := fat_count d
  fat_secsize := fat_secsize d
  type := type
  fat_sect0 := reserved_sect_count d
  cluster0_sector :=
    ((system_sectors d - (2 * 2 ^ ctz 8 (sector_per_cluster d) : Nat) : Int) % 2 ^ 32).toNat
  root_dir_base :=
    if type = some .FAT32 then root_cluster d
    else (reserved_sect_count d + fat_secsize d * fat_count d) % 2 ^ 32

/-- With the value of the semaphore of the sector at the return, which is 1 at first. -/
def fat_parse_bpb : Except Fault (Except Error Fat × Int) :=
  match d.read with
  | .error err => .ok (.error err, 1)
  | .ok _ =>
    -- the buffer has the size of a block
    if d.blk_size < 512 then .error .undefined
    else if d.data 510 ≠ 0x55 ∨ d.data 511 ≠ 0xaa then .ok (.error .ENOENT, 0)
    else if byte_per_sector d ≠ d.blk_size then .ok (.error .EINVAL, 0)
    else if total_sector_count d < d.blk_count then .ok (.error .EINVAL, 0)
    else if sector_per_cluster d = 0 ∨ ctz 16 (byte_per_sector d) < 5 then .error .undefined
    else
      match fat_type d type_from_string stale with
      | .error err => .ok (.error err, 0)
      | .ok type => .ok (.ok (geometry d type), 1)

end

/-- Whether there is memory for the volume and for the node of its root. -/
structure Memory where
  fat : Bool
  root : Bool

/-- What is returned (no error is 0), what `*fs` is set to, the semaphore and whether the
    memory of the volume is kept. -/
structure Opened where
  err : Option Error
  fs : Option Fat
  semaphore : Int
  allocated : Bool

def fat_open (type_from_string : Bool) (stale : Option FatType) (d : Disk) (mem : Memory) :
    Except Fault Opened :=
  if mem.fat = false then .ok ⟨some .ENOMEM, none, 1, false⟩
  else
    match fat_parse_bpb d type_from_string stale with
    | .error fault => .error fault
    | .ok (.error err, semaphore) => .ok ⟨some err, none, semaphore, false⟩
    | .ok (.ok fat, semaphore) =>
      if fat.type ≠ some .FAT16 ∧ fat.type ≠ some .FAT32 then
        .ok ⟨some .ENOTSUP, none, semaphore, false⟩
      -- the error is still that of `fat_parse_bpb`
      else if mem.root = false then .ok ⟨none, none, semaphore, false⟩
      else .ok ⟨none, some fat, semaphore, true⟩

/-- The areas follow each other: the tables, the root directory of a FAT16 volume, and the data
    up to the declared end, which is inside the device. -/
structure Consistent (d : Disk) (fat : Fat) : Prop where
  sector : d.blk_size = 2 ^ fat.sect_size_pow2
  cluster : sector_per_cluster d = 2 ^ fat.sect_per_clust_pow2
  root : fat.type ≠ some .FAT32 →
    fat.root_dir_base = fat.fat_sect0 + fat.fat_secsize * fat.fat_count
  data : (fat.cluster0_sector + 2 * 2 ^ fat.sect_per_clust_pow2) % 2 ^ 32 =
    fat.fat_sect0 + fat.fat_secsize * fat.fat_count + fat.root_dir_secsize
  inside : fat.fat_sect0 + fat.fat_secsize * fat.fat_count + fat.root_dir_secsize ≤
    fat.total_sector_count
  device : fat.total_sector_count ≤ d.blk_count

def ofType (clusters : Nat) : FatType → Prop
  | .FAT12 => clusters < 4085
  | .FAT16 => 4085 ≤ clusters ∧ clusters < 65525
  | .FAT32 => 65525 ≤ clusters

def labelled (d : Disk) : FatType → Prop
  | .FAT32 => bytes d 82 8 = volume_type .FAT32 ∧ bytes d 54 8 ≠ volume_type .FAT12 ∧
      bytes d 54 8 ≠ volume_type .FAT16
  | type => bytes d 54 8 = volume_type type

/-- Sizes that are powers of two, and areas that fit in a total that fits in the device. -/
structure Laid (d : Disk) : Prop where
  sector : ∃ k, 9 ≤ k ∧ k < 16 ∧ byte_per_sector d = 2 ^ k
  cluster : ∃ j < 8, sector_per_cluster d = 2 ^ j
  inside : system_sectors d ≤ total_sector_count d
  device : total_sector_count d ≤ d.blk_count

/-- A well-formed volume that fits the device; where the build reads the string of the header,
    that is the one of the type. -/
structure WellFormed (type_from_string : Bool) (type : FatType) (d : Disk) :
    Prop extends Laid d where
  marked : d.data 510 = 0x55 ∧ d.data 511 = 0xaa
  block : byte_per_sector d = d.blk_size
  short : type ≠ .FAT32 → fat_size16 d ≠ 0
  counted : ofType ((total_sector_count d - system_sectors d) / sector_per_cluster d) type
  label : type_from_string = true → labelled d type

theorem ctz_pow (fits : k < bits) : ctz bits (2 ^ k) = k := by
  induction k generalizing bits with obtain ⟨bits,rfl⟩ : ∃ n, bits = n + 1 := ⟨bits - 1,by omega⟩
  | zero => simp [ctz]
  | succ k ih =>
    have even : ¬ 2 ^ (k + 1) % 2 = 1 := by omega
    have half : 2 ^ (k + 1) / 2 = 2 ^ k := by omega
    rw [ctz, if_neg even, half, ih (by omega)]

theorem little_lt (xs : List UInt8) : little xs < 256 ^ xs.length := by
  induction xs with
  | nil => decide
  | cons x xs ih =>
    have small := x.toNat_lt
    rw [little, List.length_cons]
    omega

section
variable {type_from_string : Bool} {type : FatType} {d : Disk}

theorem eq_pow_of_ctz (same : x = 2 ^ ctz bits x) (small : x < 2 ^ bits) :
    ∃ k < bits, x = 2 ^ k := by
  refine ⟨ctz bits x,?_,same⟩
  rw [same] at small
  exact (Nat.pow_lt_pow_iff_right (by decide)).mp small

theorem total_lt (d : Disk) : total_sector_count d < 2 ^ 32 := by
  have short := little_lt (bytes d 19 2)
  have long := little_lt (bytes d 32 4)
  simp only [bytes, List.length_map, List.length_range'] at short long
  unfold total_sector_count total_sector_count16 total_sector_count32 bytes
  split <;> omega

theorem geometry_consistent (laid : Laid d) (block : byte_per_sector d = d.blk_size)
    (type : Option FatType) : Consistent d (geometry d type) := by
  obtain ⟨k,-,wide,sector⟩ := laid.sector
  obtain ⟨j,narrow,cluster⟩ := laid.cluster
  have inside : reserved_sect_count d + fat_secsize d * fat_count d + root_dir_secsize d ≤
      total_sector_count d := laid.inside
  have small := total_lt d
  constructor
  case sector => rw [← block, geometry, sector, ctz_pow wide]
  case cluster => rw [geometry, cluster, ctz_pow narrow]
  case root =>
    intro other
    exact (if_neg other).trans (Nat.mod_eq_of_lt (by omega))
  case data =>
    simp only [geometry, system_sectors]
    omega
  case inside => exact inside
  case device => exact laid.device

theorem laid_of_consistent {type : Option FatType} (large : 512 ≤ d.blk_size)
    (block : byte_per_sector d = d.blk_size) (consistent : Consistent d (geometry d type)) :
    Laid d := by
  have sector := consistent.sector
  rw [← block] at sector
  have short := little_lt (bytes d 11 2)
  have byte := little_lt (bytes d 13 1)
  simp only [bytes, List.length_map, List.length_range'] at short byte
  obtain ⟨k,wide,power⟩ := eq_pow_of_ctz sector short
  refine ⟨⟨k,?_,wide,power⟩,eq_pow_of_ctz consistent.cluster byte,consistent.inside,
    consistent.device⟩
  by_contra small
  have bound : 2 ^ k < 2 ^ 9 := Nat.pow_lt_pow_right (by decide) (by omega)
  omega

section
variable (well : WellFormed type_from_string type d)
include well

theorem fat_type_eq (stale : Option FatType) :
    fat_type d type_from_string stale = .ok (some type) := by
  obtain ⟨j,narrow,cluster⟩ := well.cluster
  have inside := well.inside
  have small := total_lt d
  have short : type ≠ .FAT32 → with_short_header d type = .ok (some type) :=
    fun other => if_neg (well.short other)
  have clusters : data_clusters d =
      (total_sector_count d - system_sectors d) / sector_per_cluster d := by
    have left : ((total_sector_count d - system_sectors d : Int) % 2 ^ 32).toNat =
        total_sector_count d - system_sectors d := by omega
    rw [data_clusters, left, cluster, ctz_pow narrow]
  have counted := well.counted
  rw [← clusters] at counted
  unfold fat_type
  cases type_from_string with
  | true =>
    have label := well.label rfl
    cases type with
    | FAT12 => rw [if_pos rfl, label, if_pos rfl, short (by decide)]
    | FAT16 =>
      have other : volume_type .FAT16 ≠ volume_type .FAT12 := by decide
      rw [if_pos rfl, label, if_neg other, if_pos rfl, short (by decide)]
    | FAT32 => rw [if_pos rfl, if_neg label.2.1, if_neg label.2.2, if_pos label.1]
  | false =>
    rw [if_neg Bool.false_ne_true]
    cases type with
    | FAT12 => rw [if_pos (show data_clusters d < 4085 from counted), short (by decide)]
    | FAT16 => rw [if_neg (Nat.not_lt.mpr counted.1), if_pos counted.2, short (by decide)]
    | FAT32 =>
      have many : 65525 ≤ data_clusters d := counted
      rw [if_neg (by omega), if_neg (by omega)]

end

/-- What is claimed of a call: a success comes with a volume whose geometry is consistent, a
    well-formed volume is accepted if it can be read and there is memory, and an error leaves the
    sector unlocked and no memory allocated. -/
structure Opens (type_from_string : Bool) (d : Disk) (mem : Memory) (o : Opened) : Prop where
  sound : o.err = none → ∃ fat, o.fs = some fat ∧ Consistent d fat
  complete : ∀ type, WellFormed type_from_string type d → type ≠ .FAT12 → d.read = .ok () →
    mem.fat = true → mem.root = true → o.err = none
  clean : o.err ≠ none → o.semaphore = 1 ∧ o.allocated = false

/-- The header passes the tests before that of its type, with the builtins defined. -/
structure Checked (d : Disk) : Prop where
  buffer : 512 ≤ d.blk_size
  marked : d.data 510 = 0x55 ∧ d.data 511 = 0xaa
  block : byte_per_sector d = d.blk_size
  whole : d.blk_count ≤ total_sector_count d
  defined : sector_per_cluster d ≠ 0 ∧ 5 ≤ ctz 16 (byte_per_sector d)

theorem parse_checked (readable : d.read = .ok ()) (checked : Checked d) (stale : Option FatType) :
    fat_parse_bpb d type_from_string stale =
      match fat_type d type_from_string stale with
      | .error err => .ok (.error err, 0)
      | .ok type => .ok (.ok (geometry d type), 1) := by
  obtain ⟨buffer,marked,block,whole,defined⟩ := checked
  have marked : ¬ (d.data 510 ≠ 0x55 ∨ d.data 511 ≠ 0xaa) := by simp [marked]
  simp only [fat_parse_bpb, readable, if_neg marked]
  rw [if_neg (by omega), if_neg (by omega), if_neg (by omega), if_neg (by omega)]

/-- Every other header makes the code fault or return with the sector locked. -/
theorem parse_unchecked (readable : d.read = .ok ()) (failed : ¬ Checked d)
    (stale : Option FatType) :
    (∃ fault, fat_parse_bpb d type_from_string stale = .error fault) ∨
      ∃ err, fat_parse_bpb d type_from_string stale = .ok (.error err, 0) := by
  simp only [fat_parse_bpb, readable]
  by_cases buffer : d.blk_size < 512
  · exact .inl ⟨_,if_pos buffer⟩
  rw [if_neg buffer]
  by_cases marked : d.data 510 ≠ 0x55 ∨ d.data 511 ≠ 0xaa
  · exact .inr ⟨_,if_pos marked⟩
  rw [if_neg marked]
  by_cases block : byte_per_sector d ≠ d.blk_size
  · exact .inr ⟨_,if_pos block⟩
  rw [if_neg block]
  by_cases whole : total_sector_count d < d.blk_count
  · exact .inr ⟨_,if_pos whole⟩
  rw [if_neg whole]
  by_cases defined : sector_per_cluster d = 0 ∨ ctz 16 (byte_per_sector d) < 5
  · exact .inl ⟨_,if_pos defined⟩
  obtain ⟨filled,multiple⟩ := not_or.mp defined
  exact absurd ⟨by omega,by simpa using marked,not_not.mp block,by omega,filled,by omega⟩ failed

/-- A call opens the volume as claimed if and only if there is no memory for the volume, its first
    sector cannot be read, or the header passes the tests, has a table size where its type needs the
    short one and, if the type is supported, the root can be allocated and the areas
    fit in the device. -/
theorem fat_open_exact (type_from_string : Bool) (stale : Option FatType) (d : Disk)
    (mem : Memory) :
    (∃ o, fat_open type_from_string stale d mem = .ok o ∧ Opens type_from_string d mem o) ↔
      mem.fat = false ∨ d.read ≠ .ok () ∨ Checked d ∧
        ∃ type, fat_type d type_from_string stale = .ok type ∧
          (type = some .FAT16 ∨ type = some .FAT32 → mem.root = true ∧ Laid d) := by
  unfold fat_open
  by_cases room : mem.fat = false
  · refine iff_of_true ⟨_,if_pos room,by simp,?_,fun _ => ⟨rfl,rfl⟩⟩ (.inl room)
    intro _ _ _ _ given
    rw [room] at given
    cases given
  rw [if_neg room]
  by_cases readable : d.read = .ok ()
  · by_cases checked : Checked d
    · rw [parse_checked readable checked]
      cases told : fat_type d type_from_string stale with
      | error err =>
        refine iff_of_false ?_ (by simp [room, readable])
        rintro ⟨_,⟨⟩,opens⟩
        exact absurd (opens.clean (by simp)).1 (by decide : (0 : Int) ≠ 1)
      | ok type =>
        by_cases other : type ≠ some .FAT16 ∧ type ≠ some .FAT32
        · refine iff_of_true ⟨_,if_pos other,by simp,?_,fun _ => ⟨rfl,rfl⟩⟩
            (.inr (.inr ⟨checked,type,rfl,by simp [other]⟩))
          -- A well-formed volume is of the type that the header tells.
          intro type' well supported _ _ _
          have same := told.symm.trans (fat_type_eq well stale)
          cases same
          cases type' <;> simp_all
        · have supported : type = some .FAT16 ∨ type = some .FAT32 := by
            rwa [← not_and_or.trans (or_congr not_not not_not)]
          have kept : ¬ ((geometry d type).type ≠ some .FAT16 ∧
              (geometry d type).type ≠ some .FAT32) :=
            other
          dsimp only
          rw [if_neg kept]
          by_cases root : mem.root = false
          · rw [if_pos root]
            refine iff_of_false ?_ ?_
            · rintro ⟨_,⟨⟩,opens⟩
              obtain ⟨_,⟨⟩,_⟩ := opens.sound rfl
            · rintro (none | unreadable | ⟨_,_,⟨⟩,laid⟩)
              · exact room none
              · exact unreadable readable
              · rw [(laid supported).1] at root
                cases root
          rw [if_neg root]
          constructor
          · rintro ⟨_,⟨⟩,opens⟩
            obtain ⟨_,⟨⟩,consistent⟩ := opens.sound rfl
            refine .inr (.inr ⟨checked,type,rfl,fun _ => ⟨by simpa using root,?_⟩⟩)
            exact laid_of_consistent checked.buffer checked.block consistent
          · rintro (none | unreadable | ⟨_,type,⟨⟩,laid⟩)
            · exact absurd none room
            · exact absurd readable unreadable
            · refine ⟨_,rfl,fun _ => ⟨_,rfl,?_⟩,fun _ _ _ _ _ _ => rfl,by simp⟩
              exact geometry_consistent (laid supported).2 checked.block type
    · refine iff_of_false ?_ (by simp [room, readable, checked])
      rintro ⟨o,opened,opens⟩
      rcases @parse_unchecked type_from_string d readable checked stale with
        ⟨fault,parsed⟩ | ⟨err,parsed⟩
      · rw [parsed] at opened
        cases opened
      · rw [parsed] at opened
        cases opened
        exact absurd (opens.clean (by simp)).1 (by decide : (0 : Int) ≠ 1)
  · cases failed : d.read with
    | ok _ => exact absurd failed readable
    | error err =>
      have parsed : fat_parse_bpb d type_from_string stale = .ok (.error err, 1) := by
        rw [fat_parse_bpb, failed]
      rw [parsed]
      refine iff_of_true ⟨_,rfl,by simp,?_,fun _ => ⟨rfl,rfl⟩⟩ (.inr (.inl (by simp)))
      intro _ _ _ readable
      rw [failed] at readable
      cases readable

/-- 5000 sectors of 512 bytes: one reserved, a table of 16, a root directory of 32. -/
def small (blk_count : Nat) : Disk where
  blk_size := 512
  blk_count := blk_count
  read := .ok ()
  data
    | 12 | 18 => 2
    | 13 | 14 | 16 => 1
    | 19 => 0x88
    | 20 => 0x13
    | 22 => 16
    | 510 => 0x55
    | 511 => 0xaa
    | _ => 0

theorem small_well (fits : 5000 ≤ blk_count) : WellFormed false .FAT16 (small blk_count) where
  sector := ⟨9, by decide, by decide, rfl⟩
  cluster := ⟨0, by decide, rfl⟩
  inside := show system_sectors (small 0) ≤ total_sector_count (small 0) by decide
  device := fits
  marked := ⟨rfl, rfl⟩
  block := rfl
  short := fun _ => show 16 ≠ 0 by decide
  counted := show ofType ((total_sector_count (small 0) - system_sectors (small 0)) / 1) .FAT16 from
    ⟨by decide, by decide⟩
  label := nofun

/-- A volume smaller than the device is refused with the sector locked, one that the device does
    not hold is accepted, and 0 is returned without a volume when there is no root. -/
theorem small_volume_refused : (WellFormed false .FAT16 (small 6000) ∧
      fat_open false none (small 6000) ⟨true, true⟩ = .ok ⟨some .EINVAL, none, 0, false⟩) ∧
    (∃ fat, fat_open false none (small 100) ⟨true, true⟩ = .ok ⟨none, some fat, 1, true⟩ ∧
      ¬ Consistent (small 100) fat) ∧
    fat_open false none (small 5000) ⟨true, false⟩ = .ok ⟨none, none, 1, false⟩ := by
  refine ⟨⟨small_well (by decide),rfl⟩,⟨geometry (small 100) (some .FAT16),rfl,?_⟩,rfl⟩
  intro consistent
  exact absurd consistent.device (by decide)

end

end MutekFatOpen
