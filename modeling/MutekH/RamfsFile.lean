import Mathlib.Data.List.TakeDrop
import MutekH.Lib.Align
import MutekH.Lib.Bytes
import MutekH.Lib.FixedWidth
import MutekH.Vfs

/-!
Files of the RAM file system (fs/ramfs/ramfs_file.c, ramfs_data.c) as byte arrays. `size_t`
is an unsigned and `ssize_t` and `off_t` are signed types of `w` bits.
-/
namespace MutekRamfsFile
open Function Option LibAlign LibBytes LibFixedWidth MutekVfs

structure Data where
  data : List UInt8
  actual_size : Nat

structure Flags where
  read : Bool
  write : Bool
  append : Bool
  truncate : Bool

inductive Whence where
  | set
  | cur
  | end_

/-- An open file. What its operations are was fixed by the flags. -/
structure File where
  flags : Flags
  offset : Int

inductive Reply where
  | error (e : Error)
  | bytes (read : List UInt8)
  | count (written : Nat)
  | offset (offset : Int)
  | done
  deriving DecidableEq

section
variable (w : Nat)

/-- What `realloc` does that its caller does not choose: if the block can not grow where it is, it
    is allocated elsewhere and nothing is copied. Bytes that are not kept have any value. -/
structure Realloc where
  moved : Bool
  bytes : Nat → UInt8

def ramfs_data_realloc (fresh : Realloc) (new_size : Nat) (db : Data) : Data :=
  { db with data := (List.range new_size).map (fun i =>
      if fresh.moved then fresh.bytes i else db.data[i]?.getD (fresh.bytes i)) }

/-- The comparison with `size` is unsigned. -/
def ramfs_file_read (size : Nat) (file : File) (data : Data) : Except Fault (Reply × File) :=
  let left := sint w (data.actual_size - file.offset)
  let left := if (size : Int) < uint w left then sint w size else left
  if left < 0 then .ok (.error .EINVAL, file)
  else if 0 ≤ file.offset ∧ file.offset + left ≤ data.data.length then
    .ok (.bytes (slice data.data file.offset.toNat left.toNat),
      { file with offset := sint w (file.offset + left) })
  else .error .undefined

def ramfs_file_write (fresh : Realloc) (buffer : List UInt8) (file : File) (data : Data) :
    Except Fault (Reply × File × Data) :=
  let offset_after := sint w (file.offset + buffer.length)
  let data :=
    if offset_after > sint w data.data.length then
      ramfs_data_realloc fresh
        (uint w (((uint w offset_after).toNat ||| 0xfff : Nat) + 1)).toNat data
    else data
  if 0 ≤ file.offset ∧ file.offset + buffer.length ≤ data.data.length then
    let offset := sint w (file.offset + buffer.length)
    .ok (.count buffer.length, { file with offset := offset },
      { data := patch data.data file.offset.toNat buffer
        actual_size :=
          if offset > sint w data.actual_size then (uint w offset).toNat else data.actual_size })
  else .error .undefined

/-- `new_size` is rounded up when it is more than what is allocated. -/
def ramfs_file_truncate (fresh : Realloc) (new_size : Int) (data : Data) : Data :=
  if new_size > sint w data.data.length then
    let new_size := (new_size.toNat ||| 0xfff) + 1
    let data := ramfs_data_realloc fresh new_size data
    { data := patch data.data data.actual_size (List.replicate (new_size - data.actual_size) 0)
      actual_size := new_size }
  else { data with actual_size := (uint w new_size).toNat }

def ramfs_file_append (fresh : Realloc) (buffer : List UInt8) (file : File) (data : Data) :
    Except Fault (Reply × File × Data) :=
  ramfs_file_write w fresh buffer { file with offset := sint w data.actual_size } data

def ramfs_file_seek (offset : Int) (whence : Whence) (file : File) (data : Data) : Int × File :=
  let offset := match whence with
    | .set => offset
    | .cur => sint w (offset + file.offset)
    | .end_ => sint w (offset + data.actual_size)
  let offset := if offset > sint w data.actual_size then sint w data.actual_size else offset
  let offset := if offset < 0 then 0 else offset
  (offset, { file with offset := offset })

/-- With `VFS_OPEN_TRUNCATE` the new file is truncated before its `priv` is set. -/
def ramfs_node_open (flags : Flags) : Except Fault File :=
  if flags.truncate then .error .undefined else .ok ⟨flags, 0⟩

end

/- Runs: any number of open files on the same data. -/

inductive Call where
  | open_ (h : Nat) (flags : Flags)
  | read (h : Nat) (size : Nat)
  | write (h : Nat) (fresh : Realloc) (buffer : List UInt8)
  | seek (h : Nat) (offset : Int) (whence : Whence)
  | truncate (h : Nat) (fresh : Realloc) (new_size : Int)

structure State where
  data : Data
  file : Nat → Option File

/-- The operation that the flags gave the file, or the one that refuses. -/
def exec (w : Nat) (s : State) : Call → Except Fault (Reply × State)
  | .open_ h flags => do
    let file ← ramfs_node_open flags
    .ok (.done, { s with file := update s.file h (some file) })
  | .read h size =>
    match s.file h with
    | none => .error .undefined
    | some file =>
      if file.flags.read then do
        let (reply, file) ← ramfs_file_read w size file s.data
        .ok (reply, { s with file := update s.file h (some file) })
      else .ok (.error .ENOTSUP, s)
  | .write h fresh buffer =>
    match s.file h with
    | none => .error .undefined
    | some file =>
      if file.flags.append then do
        let (reply, file, data) ← ramfs_file_append w fresh buffer file s.data
        .ok (reply, ⟨data, update s.file h (some file)⟩)
      else if file.flags.write then do
        let (reply, file, data) ← ramfs_file_write w fresh buffer file s.data
        .ok (reply, ⟨data, update s.file h (some file)⟩)
      else .ok (.error .ENOTSUP, s)
  | .seek h offset whence =>
    match s.file h with
    | none => .error .undefined
    | some file =>
      let (offset, file) := ramfs_file_seek w offset whence file s.data
      .ok (.offset offset, { s with file := update s.file h (some file) })
  | .truncate h fresh new_size =>
    match s.file h with
    | none => .error .undefined
    | some _ => .ok (.done, { s with data := ramfs_file_truncate w fresh new_size s.data })

def run (w : Nat) : State → List Call → Except Fault (List Reply × State)
  | s, [] => .ok ([], s)
  | s, c :: rest => do
    let (reply, s) ← exec w s c
    let (replies, s) ← run w s rest
    .ok (reply :: replies, s)

/- One byte array with an offset for each open file. -/

structure Handle where
  flags : Flags
  offset : Nat

structure ByteArrayFile where
  content : List UInt8
  handle : Nat → Option Handle

def resized (content : List UInt8) (n : Nat) : List UInt8 := content.takeD n 0

def stored (content : List UInt8) (offset : Nat) (block : List UInt8) : List UInt8 :=
  patch (content.rightpad offset 0) offset block

def clamp (length : Nat) (offset : Int) : Nat := min length offset.toNat

def specSeek (σ : ByteArrayFile) (handle : Handle) (offset : Int) : Whence → Nat
  | .set => clamp σ.content.length offset
  | .cur => clamp σ.content.length (offset + handle.offset)
  | .end_ => clamp σ.content.length (offset + σ.content.length)

def specWrite (σ : ByteArrayFile) (h : Nat) (handle : Handle) (offset : Nat) (buffer : List UInt8) :
    Reply × ByteArrayFile :=
  (.count buffer.length,
    ⟨stored σ.content offset buffer,
      update σ.handle h (some ⟨handle.flags, offset + buffer.length⟩)⟩)

def spec (σ : ByteArrayFile) : Call → Reply × ByteArrayFile
  | .open_ h flags =>
    (.done, ⟨if flags.truncate then [] else σ.content, update σ.handle h (some ⟨flags, 0⟩)⟩)
  | .read h size =>
    match σ.handle h with
    | none => (.error .EINVAL, σ)
    | some handle =>
      if handle.flags.read then
        let read := slice σ.content handle.offset size
        (.bytes read, ⟨σ.content,
          update σ.handle h (some ⟨handle.flags, handle.offset + read.length⟩)⟩)
      else (.error .ENOTSUP, σ)
  | .write h _ buffer =>
    match σ.handle h with
    | none => (.error .EINVAL, σ)
    | some handle =>
      if handle.flags.append then specWrite σ h handle σ.content.length buffer
      else if handle.flags.write then specWrite σ h handle handle.offset buffer
      else (.error .ENOTSUP, σ)
  | .seek h offset whence =>
    match σ.handle h with
    | none => (.error .EINVAL, σ)
    | some handle =>
      let offset := specSeek σ handle offset whence
      (.offset offset, ⟨σ.content, update σ.handle h (some ⟨handle.flags, offset⟩)⟩)
  | .truncate h _ new_size =>
    match σ.handle h with
    | none => (.error .EINVAL, σ)
    | some _ => (.done, ⟨resized σ.content new_size.toNat, σ.handle⟩)

def specRun : ByteArrayFile → List Call → List Reply × ByteArrayFile
  | σ, [] => ([], σ)
  | σ, c :: rest =>
    let (reply, σ) := spec σ c
    let (replies, σ) := specRun σ rest
    (reply :: replies, σ)

/-- No file is opened with `VFS_OPEN_TRUNCATE` and none is made longer by a truncate; a file
    whose offset is beyond the end seeks before it reads or writes; the block of a file that has
    a content does not move; and offsets stay in the range of their type. -/
def InDomain (w : Nat) (σ : ByteArrayFile) : Call → Prop
  | .open_ _ flags => flags.truncate = false
  | .read h _ => ∃ handle ∈ σ.handle h, handle.offset ≤ σ.content.length
  | .write h fresh buffer => (fresh.moved = true → σ.content = []) ∧ ∃ handle ∈ σ.handle h,
      (handle.flags.append = true ∨ handle.offset ≤ σ.content.length) ∧
      Fits w ((σ.content.length + buffer.length + 4096 : Nat) : Int)
  | .seek h offset whence => ∃ handle ∈ σ.handle h,
      match whence with
      | .set => True
      | .cur => Fits w (offset + handle.offset)
      | .end_ => Fits w (offset + σ.content.length)
  | .truncate h _ new_size => (σ.handle h).isSome = true ∧ 0 ≤ new_size ∧
      new_size ≤ σ.content.length

def Within (w : Nat) : ByteArrayFile → List Call → Prop
  | _, [] => True
  | σ, c :: rest => InDomain w σ c ∧ Within w (spec σ c).2 rest

/-- The data hold the content and the open files have the offsets of the array's. -/
structure Represents (w : Nat) (s : State) (σ : ByteArrayFile) : Prop where
  short : s.data.actual_size ≤ s.data.data.length
  content : σ.content = s.data.data.take s.data.actual_size
  range : Fits w s.data.data.length
  handles : ∀ h, s.file h = (σ.handle h).map (fun handle => ⟨handle.flags, handle.offset⟩)
  offsets : ∀ h, ∀ handle ∈ σ.handle h, Fits w handle.offset

section
variable {w : Nat} {s : State} {σ : ByteArrayFile} {data : Data} {h : Nat}

theorem realloc_length (fresh : Realloc) (n : Nat) (db : Data) :
    (ramfs_data_realloc fresh n db).data.length = n := by
  simp [ramfs_data_realloc]

theorem realloc_take (fresh : Realloc) (db : Data) (kept : fresh.moved = true → k = 0)
    (fits : k ≤ n) (there : k ≤ db.data.length) :
    (ramfs_data_realloc fresh n db).data.take k = db.data.take k := by
  refine List.ext_getElem? ?_
  intro i
  rw [List.getElem?_take, List.getElem?_take]
  by_cases inside : i < k
  · have known : i < db.data.length := by omega
    have stays : fresh.moved = false := by
      rw [Bool.eq_false_iff]
      intro moved
      have := kept moved
      omega
    simp [ramfs_data_realloc, stays, List.getElem?_range (show i < n by omega),
      List.getElem?_eq_getElem known]
  · rw [if_neg inside, if_neg inside]

theorem round_up (n : Nat) : n < (n ||| 0xfff) + 1 ∧ (n ||| 0xfff) + 1 ≤ n + 4096 := by
  have rounded : (n ||| 0xfff) + 1 = 4096 * (n / 4096 + 1) := or_low_ones 12 n
  omega

theorem fits_nat {n m : Nat} (fits : Fits w n) (le : m ≤ n) : Fits w m := by
  obtain ⟨_,high⟩ := fits
  constructor <;> omega

theorem read_represents (short : data.actual_size ≤ data.data.length)
    (range : Fits w data.data.length) (inside : offset ≤ data.actual_size) :
    ramfs_file_read w size ⟨flags, offset⟩ data =
      .ok (.bytes (slice (data.data.take data.actual_size) offset size),
        ⟨flags, (offset + (slice (data.data.take data.actual_size) offset size).length :
          Nat)⟩) := by
  have fits : Fits w (data.actual_size - offset : Nat) := fits_nat range (by omega)
  have difference : ((data.actual_size : Int) - offset) = (data.actual_size - offset : Nat) := by
    omega
  unfold ramfs_file_read
  simp only [difference, sint_of_fits fits, uint_of_fits (Int.natCast_nonneg _) fits]
  -- The count is the smaller of what is asked and what is there.
  have count : (if (size : Int) < (data.actual_size - offset : Nat) then sint w size
      else ((data.actual_size - offset : Nat) : Int)) =
        (min size (data.actual_size - offset) : Nat) := by
    by_cases less : size < data.actual_size - offset
    · rw [if_pos (by omega), sint_of_fits (fits_nat fits (by omega)), Nat.min_eq_left (by omega)]
    · rw [if_neg (by omega), Nat.min_eq_right (by omega)]
  rw [count, if_neg (by omega), if_pos (by omega), slice_take, slice_length]
  have full : min (min size (data.actual_size - offset)) (data.data.length - offset) =
      min size (data.actual_size - offset) := by omega
  rw [full, ← Int.natCast_add, sint_of_fits (fits_nat range (by omega))]
  simp only [Int.toNat_natCast]

theorem grown (fresh : Realloc) {n : Nat} (kept : fresh.moved = true → data.actual_size = 0)
    (short : data.actual_size ≤ data.data.length)
    (range : Fits w data.data.length) (fits : Fits w (n + 4096 : Nat)) :
    ∃ data', (if sint w n > sint w data.data.length then
        ramfs_data_realloc fresh
          (uint w (((uint w (sint w n)).toNat ||| 0xfff : Nat) + 1)).toNat data
      else data) = data' ∧ data'.actual_size = data.actual_size ∧
      data'.data.take data.actual_size = data.data.take data.actual_size ∧
      n ≤ data'.data.length ∧ data.actual_size ≤ data'.data.length ∧ Fits w data'.data.length := by
  have fitsn : Fits w n := fits_nat fits (by omega)
  rw [sint_of_fits fitsn, sint_of_fits range, uint_of_fits (Int.natCast_nonneg _) fitsn,
    Int.toNat_natCast, ← Int.natCast_one, ← Int.natCast_add]
  obtain ⟨above,below⟩ := round_up n
  have fits' : Fits w ((n ||| 0xfff) + 1 : Nat) := fits_nat fits below
  rw [uint_of_fits (Int.natCast_nonneg _) fits', Int.toNat_natCast]
  by_cases more : (n : Int) > data.data.length
  · rw [if_pos more]
    have length := realloc_length fresh ((n ||| 0xfff) + 1) data
    refine ⟨_,rfl,rfl,realloc_take fresh data kept (by omega) short,?_,?_,?_⟩
    · omega
    · omega
    · rw [length]
      exact fits'
  · rw [if_neg more]
    exact ⟨data,rfl,rfl,rfl,by omega,short,range⟩

theorem write_represents (fresh : Realloc) (flags : Flags) {offset : Nat}
    (kept : fresh.moved = true → data.actual_size = 0)
    (short : data.actual_size ≤ data.data.length) (range : Fits w data.data.length)
    (inside : offset ≤ data.actual_size)
    (fits : Fits w (data.actual_size + buffer.length + 4096 : Nat)) :
    ∃ data', ramfs_file_write w fresh buffer ⟨flags, offset⟩ data =
        .ok (.count buffer.length, ⟨flags, (offset + buffer.length : Nat)⟩, data') ∧
      data'.actual_size ≤ data'.data.length ∧ Fits w data'.data.length ∧
      data'.data.take data'.actual_size =
        patch (data.data.take data.actual_size) offset buffer := by
  have fits_after : Fits w (offset + buffer.length + 4096 : Nat) := fits_nat fits (by omega)
  have fitsn : Fits w (offset + buffer.length : Nat) := fits_nat fits_after (by omega)
  obtain ⟨db,made,size,same,room,short',range'⟩ :=
    grown fresh kept short range fits_after
  have actual : Fits w data.actual_size := fits_nat range short
  unfold ramfs_file_write
  simp only [← Int.natCast_add]
  rw [made, if_pos (by omega), sint_of_fits fitsn, size, sint_of_fits actual,
    uint_of_fits (Int.natCast_nonneg _) fitsn, Int.toNat_natCast, Int.toNat_natCast]
  have grows : (if ((offset + buffer.length : Nat) : Int) > data.actual_size then
      offset + buffer.length else data.actual_size) =
      max data.actual_size (offset + buffer.length) := by
    split <;> omega
  rw [grows]
  have length : (patch db.data offset buffer).length = db.data.length := by
    rw [patch_length (by omega)]
    omega
  refine ⟨_,rfl,?_,?_,?_⟩
  · change max data.actual_size (offset + buffer.length) ≤ (patch db.data offset buffer).length
    omega
  · change Fits w (patch db.data offset buffer).length
    rw [length]
    exact range'
  · rw [← same]
    exact take_patch inside short'

theorem stored_inside (inside : offset ≤ content.length) :
    stored content offset block = patch content offset block := by
  have none : offset - content.length = 0 := by omega
  simp [stored, none]

theorem seek_clamps {offset : Int} (range : Fits w data.data.length)
    (short : data.actual_size ≤ data.data.length) :
    (if (if offset > sint w data.actual_size then sint w data.actual_size else offset) < 0 then 0
      else if offset > sint w data.actual_size then sint w data.actual_size else offset) =
      (clamp data.actual_size offset : Int) := by
  rw [sint_of_fits (fits_nat range short)]
  unfold clamp
  split <;> split <;> omega

section
variable (rep : Represents w s σ)
include rep

theorem seek_represents (given : σ.handle h = some handle)
    (domain : InDomain w σ (.seek h offset whence)) :
    ramfs_file_seek w offset whence ⟨handle.flags, handle.offset⟩ s.data =
      ((specSeek σ handle offset whence : Int),
        ⟨handle.flags, specSeek σ handle offset whence⟩) := by
  have length : σ.content.length = s.data.actual_size := by
    rw [rep.content, List.length_take, Nat.min_eq_left rep.short]
  obtain ⟨handle',same,domain⟩ := domain
  rw [given] at same
  cases same
  cases whence with
  | set =>
    simp [ramfs_file_seek, specSeek, seek_clamps rep.range rep.short, length]
  | cur =>
    simp [ramfs_file_seek, specSeek, sint_of_fits domain, seek_clamps rep.range rep.short, length]
  | end_ =>
    rw [length] at domain
    simp [ramfs_file_seek, specSeek, sint_of_fits domain, seek_clamps rep.range rep.short, length]

theorem represents_update {data' : Data} {content : List UInt8} {flags : Flags} {offset : Nat}
    (short : data'.actual_size ≤ data'.data.length)
    (same : content = data'.data.take data'.actual_size) (range : Fits w data'.data.length)
    (fits : Fits w offset) :
    Represents w ⟨data', update s.file h (some ⟨flags, offset⟩)⟩
      ⟨content, update σ.handle h (some ⟨flags, offset⟩)⟩ := by
  refine ⟨short,same,range,?_,?_⟩
  · intro k
    by_cases here : k = h
    · subst here
      simp
    · simpa [here] using rep.handles k
  intro k handle mem
  by_cases here : k = h
  · subst here
    simp only [update_self, mem_some_iff] at mem
    subst mem
    exact fits
  · simp only [update_of_ne here] at mem
    exact rep.offsets k handle mem

theorem write_step {fresh : Realloc} (kept : fresh.moved = true → σ.content = [])
    (inside : offset ≤ σ.content.length)
    (fits : Fits w ((σ.content.length + buffer.length + 4096 : Nat) : Int)) :
    ∃ s', (do
        let (reply, file, data) ← ramfs_file_write w fresh buffer ⟨handle.flags, offset⟩ s.data
        .ok (reply, (⟨data, update s.file h (some file)⟩ : State))) =
        Except.ok ((specWrite σ h handle offset buffer).1, s') ∧
      Represents w s' (specWrite σ h handle offset buffer).2 := by
  have length : σ.content.length = s.data.actual_size := by
    rw [rep.content, List.length_take, Nat.min_eq_left rep.short]
  have after : Fits w (offset + buffer.length : Nat) := fits_nat fits (by omega)
  have inside' := inside
  rw [length] at inside fits
  have kept' : fresh.moved = true → s.data.actual_size = 0 := by
    intro moved
    rw [← length, kept moved, List.length_nil]
  obtain ⟨data',written,short,range,content⟩ :=
    write_represents fresh handle.flags kept' rep.short rep.range inside fits
  rw [written]
  refine ⟨_,rfl,?_⟩
  refine represents_update rep short ?_ range after
  rw [stored_inside inside', content, rep.content]

theorem exec_represents (domain : InDomain w σ c) :
    ∃ s', exec w s c = .ok ((spec σ c).1, s') ∧ Represents w s' (spec σ c).2 := by
  have length : σ.content.length = s.data.actual_size := by
    rw [rep.content, List.length_take, Nat.min_eq_left rep.short]
  cases c with
  | open_ h flags =>
    have keep : flags.truncate = false := domain
    simp only [exec, ramfs_node_open, spec, keep]
    exact ⟨_,rfl,represents_update rep rep.short rep.content rep.range (fits_zero w)⟩
  | read h size =>
    obtain ⟨handle,given,inside⟩ := domain
    have given : σ.handle h = some handle := given
    have file := rep.handles h
    simp only [exec, spec, file, given, map_some]
    by_cases readable : handle.flags.read = true
    · rw [length] at inside
      simp only [readable]
      rw [read_represents rep.short rep.range inside, ← rep.content]
      refine ⟨_,rfl,?_⟩
      refine represents_update rep rep.short rep.content rep.range ?_
      refine fits_nat rep.range ?_
      rw [slice_length]
      have := rep.short
      omega
    · simp only [readable]
      exact ⟨s,rfl,rep⟩
  | write h fresh buffer =>
    obtain ⟨kept,handle,given,inside,fits⟩ := domain
    have given : σ.handle h = some handle := given
    have file := rep.handles h
    simp only [exec, spec, file, given, map_some]
    by_cases append : handle.flags.append = true
    · simp only [append]
      have end_ : sint w s.data.actual_size = σ.content.length := by
        rw [sint_of_fits (fits_nat rep.range rep.short), length]
      simp only [ramfs_file_append, end_]
      exact write_step rep kept (Nat.le_refl _) fits
    simp only [append]
    by_cases writable : handle.flags.write = true
    · simp only [writable]
      exact write_step rep kept (inside.resolve_left append) fits
    · simp only [writable]
      exact ⟨s,rfl,rep⟩
  | seek h offset whence =>
    have domain' := domain
    obtain ⟨handle,given,_⟩ := domain'
    have given : σ.handle h = some handle := given
    have file := rep.handles h
    simp only [exec, spec, file, given, map_some]
    rw [seek_represents rep given domain]
    refine ⟨_,rfl,?_⟩
    refine represents_update rep rep.short rep.content rep.range ?_
    refine fits_nat rep.range (Nat.le_trans ?_ rep.short)
    rw [← length]
    cases whence <;> exact Nat.min_le_left _ _
  | truncate h fresh new_size =>
    obtain ⟨opened,low,high⟩ := domain
    obtain ⟨handle,given⟩ := isSome_iff_exists.mp opened
    have file := rep.handles h
    simp only [exec, spec, file, given]
    have inside : new_size ≤ s.data.data.length := by
      have := rep.short
      omega
    refine ⟨_,rfl,?_⟩
    have fits : Fits w new_size := fits_between (fits_zero w) rep.range low inside
    have cut : ramfs_file_truncate w fresh new_size s.data =
        { s.data with actual_size := new_size.toNat } := by
      rw [ramfs_file_truncate, if_neg (by rw [sint_of_fits rep.range]; omega),
        uint_of_fits low fits]
    rw [cut]
    refine ⟨?_,?_,rep.range,rep.handles,rep.offsets⟩
    · change new_size.toNat ≤ s.data.data.length
      omega
    · change resized σ.content new_size.toNat = s.data.data.take new_size.toNat
      rw [resized, List.takeD_eq_take _ (by omega), rep.content, List.take_take]
      congr 1
      omega

end

/-- For every file that holds a content, with any files open on it, and every run of calls
    in the domain: the replies are those of the byte array with an offset for each open
    file, and the file goes on to hold its content. -/
theorem ramfs_file_is_byte_array (w : Nat) (calls : List Call) :
    ∀ s σ, Represents w s σ → Within w σ calls →
      ∃ s', run w s calls = .ok ((specRun σ calls).1, s') ∧
        Represents w s' (specRun σ calls).2 := by
  induction calls with
  | nil =>
    intro s σ rep _
    exact ⟨s,rfl,rep⟩
  | cons c rest ih => ?_
  intro s σ rep within
  obtain ⟨s₁,first,rep₁⟩ := exec_represents rep within.1
  obtain ⟨s₂,others,rep₂⟩ := ih s₁ (spec σ c).2 rep₁ within.2
  refine ⟨s₂,?_,rep₂⟩
  rw [run, first]
  change (run w s₁ rest >>= _) = _
  rw [others]
  rfl

end

def newFile : State := ⟨⟨[], 0⟩, fun _ => none⟩

def newArray : ByteArrayFile := ⟨[], fun _ => none⟩

def readWrite : Flags := ⟨true, true, false, false⟩

def zeros : Realloc := ⟨false, fun _ => 0⟩

def elsewhere : Realloc := ⟨true, fun _ => 0⟩

def plainCalls : List Call :=
  [.open_ 0 readWrite, .write 0 elsewhere [7, 8, 9], .open_ 1 readWrite,
    .seek 1 (-1) .end_, .read 1 5,
    .truncate 1 zeros 2, .seek 0 5 .cur]

theorem ramfs_file_is_byte_array_plain : ∃ s', run 32 newFile plainCalls =
      .ok ([.done, .count 3, .done, .offset 2, .bytes [9], .done, .offset 2], s') := by
  obtain ⟨s',done,_⟩ := ramfs_file_is_byte_array 32 plainCalls newFile newArray
    ⟨Nat.le_refl 0,rfl,by decide,fun _ => rfl,fun _ _ given => nomatch given⟩
    ⟨rfl,⟨fun _ => rfl,_,rfl,.inr (by decide),by decide⟩,rfl,⟨_,rfl,by decide⟩,⟨_,rfl,by decide⟩,
      ⟨rfl,by decide,by decide⟩,⟨_,rfl,by decide⟩,trivial⟩
  exact ⟨s',done⟩

def growCalls : List Call := [.open_ 0 readWrite, .truncate 0 zeros 1, .seek 0 0 .end_]

def regrowCalls : List Call :=
  [.open_ 0 readWrite, .write 0 zeros [7, 8], .truncate 0 zeros 1, .truncate 0 zeros 2,
    .seek 0 0 .set, .read 0 2]

def gapCalls : List Call :=
  [.open_ 0 readWrite, .write 0 zeros [7, 8], .truncate 0 zeros 1, .write 0 zeros [9],
    .seek 0 0 .set, .read 0 3]

def beyondCalls : List Call :=
  [.open_ 0 readWrite, .write 0 zeros [7, 8], .truncate 0 zeros 1, .read 0 1]

def movedCalls : List Call :=
  [.open_ 0 readWrite, .write 0 zeros [7], .write 0 elsewhere (List.replicate 4096 1),
    .seek 0 0 .set, .read 0 1]

def emptied : List Call := [.open_ 0 ⟨true, true, false, true⟩]

def repliesOf (calls : List Call) : Except Fault (List Reply) :=
  (run 32 newFile calls).map (fun r => r.1)

theorem truncate_and_gaps_diverge :
    (repliesOf growCalls = .ok [.done, .done, .offset 4096] ∧
      (specRun newArray growCalls).1 = [.done, .done, .offset 1]) ∧
    (repliesOf regrowCalls = .ok [.done, .count 2, .done, .done, .offset 0, .bytes [7, 8]] ∧
      (specRun newArray regrowCalls).1 =
        [.done, .count 2, .done, .done, .offset 0, .bytes [7, 0]]) ∧
    (repliesOf gapCalls = .ok [.done, .count 2, .done, .count 1, .offset 0, .bytes [7, 8, 9]] ∧
      (specRun newArray gapCalls).1 =
        [.done, .count 2, .done, .count 1, .offset 0, .bytes [7, 0, 9]]) ∧
    (repliesOf beyondCalls = .ok [.done, .count 2, .done, .bytes [0]] ∧
      (specRun newArray beyondCalls).1 = [.done, .count 2, .done, .bytes []]) ∧
    (repliesOf movedCalls = .ok [.done, .count 1, .count 4096, .offset 0, .bytes [0]] ∧
      (specRun newArray movedCalls).1 = [.done, .count 1, .count 4096, .offset 0, .bytes [7]]) ∧
    (repliesOf emptied = .error .undefined ∧ (specRun newArray emptied).1 = [.done]) := by
  decide +kernel

end MutekRamfsFile
