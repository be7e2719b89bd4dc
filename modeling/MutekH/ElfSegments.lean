import Mathlib.Tactic.ByContra

/-!
Loading of the segments (libelf/elf.c with CONFIG_LIBELF_DYNAMIC). Addresses are integers that do
not wrap around; alignments are powers of two.
-/
namespace MutekElfSegments
open List

def ALIGN_VALUE_LOW (x b : Nat) : Nat := x / b * b
def ALIGN_VALUE_UP (x b : Nat) : Nat := (x + (b - 1)) / b * b

inductive PType | PT_LOAD | PT_DYNAMIC | other

structure Phdr where
  p_type : PType
  p_offset : Nat
  p_vaddr : Nat
  p_filesz : Nat
  p_memsz : Nat
  p_align : Nat

structure Obj where
  textseg : Option Phdr := none
  dataseg : Option Phdr := none
  dynamic : Nat := 0

/-- One turn of the scan, `none` when the assertion on `nsegs` fails. -/
def scanEntry (s : Obj × Nat) (p : Phdr) : Option (Obj × Nat) :=
  let (elfobj, nsegs) := s
  match p.p_type with
  | .PT_LOAD =>
    if nsegs ≥ 2 then none
    else if nsegs = 0 then some ({ elfobj with textseg := some p }, nsegs + 1)
    else some ({ elfobj with dataseg := some p }, nsegs + 1)
  | .PT_DYNAMIC => some ({ elfobj with dynamic := p.p_vaddr }, nsegs)
  | .other => some s

def elf_scan_phdr (phdr : List Phdr) : Option Obj := do
  let (elfobj, _) ← phdr.foldlM scanEntry ({}, 0)
  if elfobj.dynamic = 0 then none else some elfobj

/-- `fseek` and `fread` of one item. -/
def readSegment (file : List UInt8) (p : Phdr) : Option (List UInt8) :=
  let bytes := (file.drop p.p_offset).take p.p_filesz
  if bytes.length = p.p_filesz then some bytes else none

structure Loaded where
  mapsize : Nat
  relocbase : Int
  writes : List (Int × List UInt8)

/-- `mapbase` is the result of `mem_alloc`. -/
def elf_load_segments (file : List UInt8) (mapbase : Nat) (elfobj : Obj) : Option Loaded := do
  let textseg ← elfobj.textseg
  let dataseg ← elfobj.dataseg
  let vaddrbase := ALIGN_VALUE_LOW textseg.p_vaddr textseg.p_align
  let text_size := ALIGN_VALUE_UP (textseg.p_vaddr + textseg.p_memsz) textseg.p_align - vaddrbase
  let data_size := ALIGN_VALUE_UP (dataseg.p_vaddr + dataseg.p_memsz) dataseg.p_align -
    ALIGN_VALUE_LOW dataseg.p_vaddr dataseg.p_align
  if mapbase = 0 then none
  else
    let text ← readSegment file textseg
    let data ← readSegment file dataseg
    let start : Int := mapbase + (dataseg.p_vaddr - textseg.p_vaddr : Int)
    some ⟨text_size + data_size, mapbase - vaddrbase, [(mapbase, text), (start, data),
      (start + dataseg.p_filesz, replicate (dataseg.p_memsz - dataseg.p_filesz) 0)]⟩

/-- `elf_load_file` with the program header read. -/
def elf_load_file (file : List UInt8) (mapbase : Nat) (phdr : List Phdr) :
    Option (Obj × Loaded) := do
  let elfobj ← elf_scan_phdr phdr
  let r ← elf_load_segments file mapbase elfobj
  some (elfobj, r)

def store (m : Int → UInt8) (w : Int × List UInt8) (a : Int) : UInt8 :=
  if w.1 ≤ a ∧ a < w.1 + w.2.length then w.2.getD (a - w.1).toNat 0 else m a

/-- The memory after the load. -/
def memory (m : Int → UInt8) (r : Loaded) : Int → UInt8 := r.writes.foldl store m

theorem le_align_up (x : Nat) (positive : 0 < b) : x ≤ ALIGN_VALUE_UP x b := by
  unfold ALIGN_VALUE_UP
  have := Nat.div_add_mod' (x + (b - 1)) b
  have := Nat.mod_lt (x + (b - 1)) positive
  omega

theorem store_other (m : Int → UInt8) (w : Int × List UInt8)
    (outside : ¬(w.1 ≤ a ∧ a < w.1 + w.2.length)) : store m w a = m a := if_neg outside

theorem store_at (m : Int → UInt8) (bytes : List UInt8) {k : Nat} {base a : Int}
    (inside : k < bytes.length) (here : a = base + k) :
    bytes[k]? = some (store m (base, bytes) a) := by
  have within : base ≤ a ∧ a < base + bytes.length := by omega
  have place : (a - base).toNat = k := by omega
  unfold store
  rw [if_pos within, place, getD_eq_getElem?_getD, getElem?_eq_getElem inside, Option.getD_some]

theorem store_zeros (m : Int → UInt8) (base : Int) {n : Nat} (inside : base ≤ a ∧ a < base + n) :
    store m (base, replicate n 0) a = 0 := by
  unfold store
  rw [if_pos (by simpa using inside), getD_eq_getElem?_getD, getElem?_replicate]
  split <;> rfl

theorem segment_read (got : readSegment file p = some bytes) :
    bytes.length = p.p_filesz ∧ ∀ k, k < p.p_filesz → file[p.p_offset + k]? = bytes[k]? := by
  obtain ⟨whole,got⟩ := Option.ite_none_right_eq_some.mp got
  obtain rfl := Option.some.inj got
  exact ⟨whole,fun k below => by rw [getElem?_take_of_lt below, getElem?_drop]⟩

/-- Every byte of the file is in place, the bss is zero and every byte written is in the area. -/
structure Placed (file : List UInt8) (m : Int → UInt8) (mapbase : Nat) (text data : Phdr)
    (r : Loaded) : Prop where
  bytes : ∀ p ∈ [text, data], ∀ k, k < p.p_filesz →
    file[p.p_offset + k]? = some (memory m r (r.relocbase + p.p_vaddr + k))
  bss : ∀ k, data.p_filesz ≤ k → k < data.p_memsz → memory m r (r.relocbase + data.p_vaddr + k) = 0
  inside : ∀ w ∈ r.writes, ∀ k : Nat, k < w.2.length →
    mapbase ≤ w.1 + k ∧ w.1 + k < mapbase + r.mapsize

section
variable {phdr : List Phdr} {elfobj : Obj} {text data : Phdr}

variable (scanned : elf_scan_phdr phdr = some elfobj) (isText : elfobj.textseg = some text)
  (isData : elfobj.dataseg = some data)
include scanned isText isData

theorem load_file_iff : elf_load_file file mapbase phdr = some (elfobj, r) ↔
    ∃ bytes bytes', mapbase ≠ 0 ∧ readSegment file text = some bytes ∧
      readSegment file data = some bytes' ∧
      ⟨ALIGN_VALUE_UP (text.p_vaddr + text.p_memsz) text.p_align -
          ALIGN_VALUE_LOW text.p_vaddr text.p_align +
        (ALIGN_VALUE_UP (data.p_vaddr + data.p_memsz) data.p_align -
          ALIGN_VALUE_LOW data.p_vaddr data.p_align),
        mapbase - ALIGN_VALUE_LOW text.p_vaddr text.p_align,
        [(mapbase, bytes), (mapbase + (data.p_vaddr - text.p_vaddr : Int), bytes'),
          (mapbase + (data.p_vaddr - text.p_vaddr : Int) + data.p_filesz,
            replicate (data.p_memsz - data.p_filesz) 0)]⟩ = r := by
  simp [elf_load_file, scanned, elf_load_segments, isText, isData, Option.bind_eq_some_iff]

variable (textFits : text.p_filesz ≤ text.p_memsz) (dataFits : data.p_filesz ≤ data.p_memsz)
  (textAlign : 0 < text.p_align) (dataAlign : 0 < data.p_align)
  (apart : text.p_vaddr + text.p_memsz ≤ data.p_vaddr)
include textFits dataFits textAlign dataAlign apart

end

def file : List UInt8 := [1, 2, 3, 4, 5]

/-- Two bytes of text at `text`, two bytes of data and one of bss at `data`. -/
def headers (text data : Nat) : List Phdr :=
  [⟨.PT_LOAD, text % 4, text, 2, 2, 4⟩, ⟨.PT_LOAD, data % 4, data, 2, 3, 4⟩,
    ⟨.PT_DYNAMIC, 0, data, 2, 2, 4⟩]

end MutekElfSegments
