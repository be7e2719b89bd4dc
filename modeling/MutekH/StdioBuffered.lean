import MutekH.StdioRead
import MutekH.StdioWrite

/-!
A fully buffered stream on a seekable file against a stream without buffers. The
reference has the content of the file, one position, and at most one byte that was
pushed back in front of the unread data. While a stream is read, the file and the read
buffer show the unread data; while it is written, the file with the write buffer stored
at its point shows the content.
-/
namespace MutekStdioBuffered
open Option List LibFifo LibBytes MutekStdio MutekStdioRead MutekStdioWrite

inductive Direction where
  | read
  | write
  deriving DecidableEq

/-- The stream without buffers. The direction used since the last seek, and whether `ungetc` was
    called, are history. -/
structure Ref where
  content : List UInt8
  pos : Nat
  pushed : Option UInt8
  direction : Option Direction
  unget : Bool

inductive Call where
  | fread (size nmemb : Nat)
  | fgetc
  | fgets (size : Nat)
  | ungetc (c : UInt8)
  | fwrite (members : List (List UInt8))
  | fputc (c : UInt8)
  | fflush
  | fseek (offset : Int) (whence : Whence)

inductive Result where
  | data (count : Nat) (bytes : List UInt8)
  | count (n : Nat)
  | value (x : Int)
  | string (str : Option (List UInt8))
  deriving DecidableEq

/- The reference. -/

namespace Ref

def unread (r : Ref) : List UInt8 := r.pushed.toList ++ r.content.drop r.pos

def read (r : Ref) (size : Nat) : Int × List UInt8 × Ref :=
  let data := r.unread.take size
  (if size ≤ r.unread.length then 1 else 0, data,
    { r with
      pushed := if size = 0 then r.pushed else none
      pos := r.pos + (data.length - r.pushed.toList.length) })

def fread (size : Nat) : Nat → Ref → Nat × List UInt8 × Ref
  | 0, r => (0, [], r)
  | nmemb + 1, r =>
    let (res, data, r) := r.read size
    if res ≤ 0 then (0, data, r)
    else
      let (i, more, r) := fread size nmemb r
      (i + 1, data ++ more, r)

def fgetsLoop : Nat → Ref → List UInt8 → List UInt8 × Ref
  | 0, r, str => (str, r)
  | n + 1, r, str =>
    let (res, data, r) := r.read 1
    if res = 0 then (str, r)
    else if data.headD 0 = newline then (str ++ data, r)
    else fgetsLoop n r (str ++ data)

def write (r : Ref) (bytes : List UInt8) : Ref :=
  { r with content := overwrite r.content r.pos bytes, pos := r.pos + bytes.length }

/-- A call on the reference, whose seeks lead where `target` says. -/
def exec (cfg : Build) (target : Nat → Nat → Nat → Whence → Nat) (r : Ref) : Call → Result × Ref
  | .fread size nmemb =>
    let (i, data, r) := fread size nmemb r
    (.data i data, { r with direction := some .read })
  | .fgetc =>
    let (res, data, r) := r.read 1
    (.value (if res ≤ 0 then EOF else (data.headD 0).toNat), { r with direction := some .read })
  | .fgets size =>
    let (str, r) := fgetsLoop (size - 1) r []
    (.string (if str = [] then none else some str), { r with direction := some .read })
  | .ungetc c =>
    (.value c.toNat, { r with pushed := some c, unget := true, direction := some .read })
  | .fwrite members =>
    (.count members.length, { members.foldl write r with direction := some .write })
  | .fputc c => (.value c.toNat, { r.write [c] with direction := some .write })
  | .fflush => (.value 0, r)
  | .fseek offset whence =>
    (.value 0, { r with
      pos := target r.pos r.content.length (toSize cfg offset) whence
      pushed := none
      direction := none })

def run (cfg : Build) (target : Nat → Nat → Nat → Whence → Nat) : List Call → Ref →
    List Result × Ref
  | [], r => ([], r)
  | call :: calls, r =>
    let (result, r) := r.exec cfg target call
    let (results, r) := run cfg target calls r
    (result :: results, r)

end Ref

def Short (cfg : Build) (n : Nat) : Prop := n < 2 ^ 31 ∧ n < 2 ^ cfg.sizeBits

/-- Calls the two streams agree on. Directions change only by a seek; a byte is pushed back only if
    there is none, and the stream is not moved after that; a seek leads to a position that is the
    same as an `error_t`; and the sizes are those of an `ssize_t`. -/
def Permitted (cfg : Build) (target : Nat → Nat → Nat → Whence → Nat) (r : Ref) : Call → Prop
  | .fread _ _ | .fgetc | .fgets _ => r.direction ≠ some .write ∧ Short cfg r.content.length
  | .ungetc _ => r.direction ≠ some .write ∧ r.pushed = none
  | .fwrite members => r.direction ≠ some .read ∧ ∀ bytes ∈ members, Sized cfg bytes.length
  | .fputc _ | .fflush => r.direction ≠ some .read
  | .fseek offset whence => r.unget = false ∧ Short cfg r.content.length ∧
    target r.pos r.content.length (toSize cfg offset) whence < 2 ^ (cfg.errorBits - 1) ∧
    target r.pos r.content.length (toSize cfg offset) whence < 2 ^ 31

def AllPermitted (cfg : Build) (target : Nat → Nat → Nat → Whence → Nat) : Ref → List Call → Prop
  | _, [] => True
  | r, call :: calls =>
    Permitted cfg target r call ∧ AllPermitted cfg target (r.exec cfg target call).2 calls

def Enough (cfg : Build) (fuel : Nat) : Call → Prop
  | .fread size _ => bufferSize cfg < fuel ∧ size < fuel
  | .fwrite members => bufferSize cfg < fuel ∧ ∀ bytes ∈ members, bytes.length < fuel
  | _ => bufferSize cfg < fuel

section
variable {cfg : Build} {D : Type}

/- The stream of the library. -/

def exec (ops : FileOps D) (fuel : Nat) (s : File cfg D) : Call → Option (Result × File cfg D)
  | .fread size nmemb =>
    (fread ops fuel size nmemb s).map fun (i, data, s) => (.data i data, s)
  | .fgetc => (fgetc ops fuel s).map fun (x, s) => (.value x, s)
  | .fgets size => (fgets ops fuel size s).map fun (str, s) => (.string str, s)
  | .ungetc c =>
    let (x, s) := ungetc c.toNat s
    some (.value x, s)
  | .fwrite members => (fwrite ops fuel members s).map fun (i, s) => (.count i, s)
  | .fputc c => (fputc ops fuel c s).map fun (x, s) => (.value x, s)
  | .fflush => (fflush ops fuel s).map fun (x, s) => (.value x, s)
  | .fseek offset whence => (fseek ops fuel s offset whence).map fun (x, s) => (.value x, s)

def run (ops : FileOps D) (fuel : Nat) : List Call → File cfg D → Option (List Result × File cfg D)
  | [], s => some ([], s)
  | call :: calls, s =>
    (exec ops fuel s call).bind fun (result, s) =>
      (run ops fuel calls s).map fun (results, s) => (result :: results, s)

/- The simulation. -/

/-- Without `ungetc` the position is that of the first byte in the read buffer, and the seek to
    `pos` that drops the buffer leads there. -/
structure Clean (disk : Disk D) (s : File cfg D) (r : Ref) : Prop where
  none_pushed : r.pushed = none
  point : r.pos + s.fifo_read.count = disk.point s.hndl
  flush : (s.rwflush = .read ∧ s.pos = r.pos ∧ r.pos ≤ r.content.length) ∨
    (s.rwflush = .no ∧ s.fifo_read.items = [] ∧ (s.pos = r.pos ∨ r.content.length ≤ r.pos))

structure Reading (disk : Disk D) (s : File cfg D) (r : Ref) : Prop where
  mode : s.buf_mode = .IOFBF
  idle : s.fifo_write.items = []
  content : disk.content s.hndl = r.content
  unread : ahead disk s = r.unread
  room : r.pushed = none → s.fifo_read.count < bufferSize cfg
  clean : r.unget = false → Clean disk s r

structure Writing (disk : Disk D) (s : File cfg D) (r : Ref) : Prop where
  mode : s.buf_mode = .IOFBF
  idle : s.fifo_read.items = []
  content : r.content = overwrite (disk.content s.hndl) (disk.point s.hndl) s.fifo_write.items
  point : r.pos = disk.point s.hndl + s.fifo_write.items.length
  flush : s.rwflush = .write ∨ (s.rwflush = .no ∧ s.fifo_write.items = [])
  none_pushed : r.pushed = none ∧ r.unget = false

def Sim (disk : Disk D) (s : File cfg D) (r : Ref) : Prop :=
  (r.direction ≠ some .write → Reading disk s r) ∧ (r.direction ≠ some .read → Writing disk s r)

section
variable {disk : Disk D} {s t : File cfg D} {r : Ref} {fuel size : Nat} {bytes : List UInt8}

/- Reading. -/

theorem read_unread (r : Ref) (size : Nat) : (r.read size).2.2.unread = r.unread.drop size := by
  have beyond : ∀ n, r.content.drop (r.pos + min n (r.content.length - r.pos)) =
      (r.content.drop r.pos).drop n := by
    intro n
    rw [drop_drop]
    rcases Nat.le_total n (r.content.length - r.pos) with inside | outside
    · rw [Nat.min_eq_left inside]
    · rw [drop_of_length_le (by omega), drop_of_length_le (by omega)]
  cases pushed : r.pushed with
  | none =>
    have all : r.unread = r.content.drop r.pos := by rw [Ref.unread, pushed]; rfl
    have next : (r.read size).2.2.unread =
        r.content.drop (r.pos + min size (r.content.length - r.pos)) := by
      simp [Ref.read, Ref.unread, pushed]
    rw [next, beyond, all]
  | some c =>
    have all : r.unread = c :: r.content.drop r.pos := by rw [Ref.unread, pushed]; rfl
    cases size with
    | zero => simp [Ref.read]
    | succ n => ?_
    have next : (r.read (n + 1)).2.2.unread =
        r.content.drop (r.pos + min n (r.content.length - r.pos)) := by
      simp [Ref.read, Ref.unread, pushed]
    rw [next, beyond, all, drop_succ_cons]

theorem read_clean (clean : Clean disk s r) (short : Short cfg r.content.length)
    (held : s.fifo_read.count ≤ r.unread.length) (reads : Reads disk s size res bytes t)
    (stored : bytes = r.unread.take size)
    (success : res = if size ≤ r.unread.length then 1 else 0) : Clean disk t (r.read size).2.2 := by
  have none_pushed := clean.none_pushed
  have start := clean.point
  have moved := reads.point
  have total : r.unread.length = r.content.length - r.pos := by
    rw [Ref.unread, none_pushed]
    simp
  have taken : bytes.length = min size (r.content.length - r.pos) := by
    rw [stored, length_take, total]
  have next : (r.read size).2.2.pos = r.pos + bytes.length := by
    rw [stored]
    simp [Ref.read, none_pushed]
  have same : (r.read size).2.2.content = r.content := rfl
  have below := short.1
  rw [total] at success held
  -- a read that got all its bytes from before the end of the file moves `pos` with the position
  have exact : res = 1 → s.pos = r.pos → r.pos ≤ r.content.length →
      t.pos = r.pos + bytes.length := by
    intro one position inside
    have fits : size ≤ r.content.length - r.pos := by
      by_contra more
      omega
    rw [reads.pos one (by omega) (by omega), taken, position, Nat.min_eq_left fits]
  have position : r.pos < r.content.length → s.pos = r.pos := by
    intro before
    rcases clean.flush with ⟨_,position,_⟩ | ⟨_,_,position⟩
    · exact position
    · exact position.resolve_right (by omega)
  refine ⟨?_,by omega,?_⟩
  · simp [Ref.read, none_pushed]
  rw [next, same]
  rcases reads.flush with ⟨flush,buffered,left⟩ | ⟨flush,more,one⟩ | ⟨flush,empty⟩
  · have one : res = 1 := by rw [success, if_pos (by omega)]
    rcases clean.flush with ⟨reading,position,inside⟩ | ⟨no,none_held,position⟩
    · refine .inl ⟨flush.trans reading,?_,by omega⟩
      rw [exact one position inside, Int.natCast_add]
    have none_left : t.fifo_read.items = [] := by rw [left, none_held, drop_nil]
    refine .inr ⟨flush.trans no,none_left,?_⟩
    by_cases inside : r.content.length ≤ r.pos
    · exact .inr (by omega)
    · have position := position.resolve_right inside
      rw [exact one position (by omega)]
      exact .inl rfl
  · have fits : size ≤ r.content.length - r.pos := by
      by_contra short_of
      omega
    refine .inl ⟨flush,?_,by omega⟩
    rw [exact one (position (by omega)) (by omega), Int.natCast_add]
  · refine .inr ⟨flush,empty,?_⟩
    by_cases inside : r.content.length ≤ r.pos + bytes.length
    · exact .inr inside
    have one : res = 1 := by rw [success, if_pos (by omega)]
    rw [exact one (position (by omega)) (by omega)]
    exact .inl rfl

theorem read_sim (reading : Reading disk s r) (short : Short cfg r.content.length)
    (budget : bufferSize cfg < fuel) (long : size < fuel) :
    ∃ t, stdio_read disk.ops fuel size s = some ((r.read size).1, (r.read size).2.1, t) ∧
      Reading disk t (r.read size).2.2 := by
  obtain ⟨res,data,t,result,reads⟩ := stdio_read_spec disk reading.mode budget long
  have stored := reads.stored
  have success := reads.result
  rw [reading.unread] at stored success
  refine ⟨t,by rw [result, success, stored]; rfl,reads.mode.trans reading.mode,?_,
    reads.content.trans reading.content,?_,?_,?_⟩
  · rw [reads.fifo_write, reading.idle]
  · rw [reads.left, reading.unread, read_unread]
  · intro none_pushed
    apply reads.room
    rcases Nat.eq_zero_or_pos size with zero | positive
    · simp only [Ref.read, if_pos zero] at none_pushed
      exact .inr (reading.room none_pushed)
    · exact .inl positive
  · intro never
    have held : s.fifo_read.count ≤ r.unread.length := by
      rw [← reading.unread, ahead, length_append]
      exact Nat.le_add_right _ _
    exact read_clean (reading.clean never) short held reads stored success

theorem fread_sim (short : Short cfg r.content.length) (budget : bufferSize cfg < fuel)
    (long : size < fuel) (nmemb : Nat) :
    ∀ (s : File cfg D) (q : Ref), q.content = r.content → Reading disk s q →
    ∃ t, fread disk.ops fuel size nmemb s =
        some ((Ref.fread size nmemb q).1, (Ref.fread size nmemb q).2.1, t) ∧
      Reading disk t (Ref.fread size nmemb q).2.2 := by
  induction nmemb with
  | zero =>
    intro s q _ reading
    exact ⟨s,rfl,reading⟩
  | succ nmemb ih => ?_
  intro s q same reading
  obtain ⟨t,result,reading'⟩ := read_sim reading (same ▸ short) budget long
  simp only [fread, result, bind_some, Ref.fread]
  by_cases fails : (q.read size).1 ≤ 0
  · rw [if_pos fails, if_pos fails]
    exact ⟨t,rfl,reading'⟩
  · rw [if_neg fails, if_neg fails]
    obtain ⟨u,more,reading''⟩ := ih t (q.read size).2.2 same reading'
    rw [more]
    exact ⟨u,rfl,reading''⟩

theorem fgets_sim (short : Short cfg r.content.length) (budget : bufferSize cfg < fuel) (n : Nat) :
    ∀ (s : File cfg D) (q : Ref) (str : List UInt8), q.content = r.content → Reading disk s q →
    ∃ t, fgetsLoop disk.ops fuel n s str = some (some (Ref.fgetsLoop n q str).1, t) ∧
      Reading disk t (Ref.fgetsLoop n q str).2 := by
  have one : 1 < fuel := Nat.lt_of_le_of_lt (Nat.two_pow_pos _) budget
  induction n with
  | zero =>
    intro s q str _ reading
    exact ⟨s,rfl,reading⟩
  | succ n ih => ?_
  intro s q str same reading
  obtain ⟨t,result,reading'⟩ := read_sim reading (same ▸ short) budget one
  have never : ¬ (q.read 1).1 < 0 := by
    simp only [Ref.read]
    split <;> decide
  simp only [fgetsLoop, result, bind_some, Ref.fgetsLoop]
  by_cases ended : (q.read 1).1 = 0
  · rw [if_pos ended, if_pos ended]
    exact ⟨t,rfl,reading'⟩
  rw [if_neg ended, if_neg ended, if_neg never]
  by_cases line : (q.read 1).2.1.headD 0 = newline
  · rw [if_pos line, if_pos line]
    exact ⟨t,rfl,reading'⟩
  · rw [if_neg line, if_neg line]
    exact ih t (q.read 1).2.2 _ same reading'

theorem ungetc_sim (reading : Reading disk s r) (none_pushed : r.pushed = none) (c : UInt8) :
    ∃ t, ungetc c.toNat s = ((c.toNat : Int), t) ∧
      Reading disk t { r with pushed := some c, unget := true, direction := some .read } := by
  have room := reading.room none_pushed
  unfold Fifo.count at room
  have byte : UInt8.ofNat ((c.toNat : Int) % 256).toNat = c := by
    have below := c.toNat_lt
    rw [Int.emod_eq_of_lt (by omega) (by omega), Int.toNat_natCast, UInt8.ofNat_toNat]
  simp only [ungetc, Fifo.push, dif_pos room, byte]
  refine ⟨_,rfl,reading.mode,reading.idle,reading.content,?_,?_,?_⟩
  · have unread := reading.unread
    rw [Ref.unread, none_pushed] at unread
    exact congrArg (c :: ·) unread
  · intro impossible
    cases impossible
  · intro impossible
    cases impossible

/- Writing. -/

/-- The file as a device that takes bytes at its point. -/
def diskWriter (disk : Disk D) : Writer D where
  write := disk.write
  took d e part := disk.content e = overwrite (disk.content d) (disk.point d) part ∧
    disk.point e = disk.point d + part.length
  nothing d := ⟨(overwrite_nil _ _).symm, rfl⟩
  further := by
    intro d e f part more ⟨content, point⟩ ⟨content', point'⟩
    constructor
    · rw [content', content, point, overwrite_append]
    · rw [point', point, length_append, Nat.add_assoc]
  law := by
    intro d bytes some_left
    obtain ⟨k, e, result, positive, within, content, point⟩ := disk.write_law d bytes some_left
    left
    rw [result]
    dsimp only
    have size : (bytes.take k).length = k := by
      rw [length_take]
      omega
    rw [Int.toNat_natCast, size]
    exact ⟨by omega, by omega, content, point⟩

theorem disk_never_fails (disk : Disk D) : ¬ Fails disk.write := by
  rintro ⟨d,bytes,some_left,negative⟩
  obtain ⟨k,e,result,_⟩ := disk.write_law d bytes some_left
  rw [result] at negative
  omega

theorem disk_reports (cfg : Build) (disk : Disk D) : Reports cfg (diskWriter disk).write := by
  intro d bytes some_left negative
  exact absurd ⟨d,bytes,some_left,negative⟩ (disk_never_fails disk)

theorem given_content (given : Given (diskWriter disk) s bytes t) :
    overwrite (disk.content t.hndl) (disk.point t.hndl) t.fifo_write.items =
      overwrite (overwrite (disk.content s.hndl) (disk.point s.hndl) s.fifo_write.items)
        (disk.point s.hndl + s.fifo_write.items.length) bytes ∧
    disk.point t.hndl + t.fifo_write.items.length =
      disk.point s.hndl + s.fifo_write.items.length + bytes.length := by
  obtain ⟨out,⟨content,point⟩,split⟩ := given
  have total := congrArg List.length split
  rw [length_append, length_append] at total
  constructor
  · rw [overwrite_append, split, content, point, overwrite_append]
  · omega

theorem write_sim (writing : Writing disk s r) (budget : bufferSize cfg < fuel)
    (long : bytes.length < fuel) (small : Sized cfg bytes.length) :
    ∃ t, stdio_write disk.ops fuel s bytes = some (0, t) ∧ Writing disk t (r.write bytes) := by
  obtain ⟨res,t,result,adds,flush⟩ := block_spec (disk_reports cfg disk) budget long small s
  have zero : res = 0 := adds.cause.resolve_right (disk_never_fails disk)
  subst zero
  obtain ⟨part,_,whole,given⟩ := adds.part
  rw [whole rfl] at given
  obtain ⟨content,point⟩ := given_content given
  refine ⟨t,?_,adds.mode.trans writing.mode,?_,?_,?_,.inl (flush rfl),writing.none_pushed⟩
  · simp only [stdio_write, writing.mode]
    exact result
  · rw [adds.kept, writing.idle]
  · rw [content, ← writing.content, ← writing.point]
    rfl
  · rw [point, ← writing.point]
    rfl

theorem fwrite_sim (budget : bufferSize cfg < fuel) (members : List (List UInt8))
    (long : ∀ bytes ∈ members, bytes.length < fuel)
    (small : ∀ bytes ∈ members, Sized cfg bytes.length) :
    ∀ (s : File cfg D) (r : Ref), Writing disk s r →
    ∃ t, fwrite disk.ops fuel members s = some (members.length, t) ∧
      Writing disk t (members.foldl Ref.write r) := by
  induction members with intro s r writing
  | nil => exact ⟨s,rfl,writing⟩
  | cons bytes members ih =>
    obtain ⟨t,result,writing'⟩ :=
      write_sim writing budget (long bytes (by simp)) (small bytes (by simp))
    obtain ⟨u,more,writing''⟩ := ih (fun b member => long b (by simp [member]))
      (fun b member => small b (by simp [member])) t (r.write bytes) writing'
    refine ⟨u,?_,writing''⟩
    simp [fwrite, result, more]

theorem flush_sim (writing : Writing disk s r) (budget : bufferSize cfg < fuel) :
    ∃ t, stdio_write_flush disk.write fuel s = some (0, t) ∧ Writing disk t r ∧
      disk.content t.hndl = r.content ∧ disk.point t.hndl = r.pos ∧ t.fifo_write.items = [] ∧
      t.rwflush = .no ∧ t.pos = s.pos ∧ t.fifo_read = s.fifo_read := by
  obtain ⟨res,t,result,mode,kept,given,empty,flush,position,cause⟩ := flush_spec
    (disk_reports cfg disk) budget s
  have zero : res = 0 := cause.resolve_right (disk_never_fails disk)
  subst zero
  have none_left := empty (.inl rfl)
  obtain ⟨content,point⟩ := given_content given
  rw [none_left, overwrite_nil, overwrite_nil, ← writing.content] at content
  rw [none_left, length_nil, Nat.add_zero, Nat.add_zero, ← writing.point] at point
  refine ⟨t,result,⟨mode.trans writing.mode,by rw [kept, writing.idle],?_,?_,
    .inr ⟨flush rfl,none_left⟩,
    writing.none_pushed⟩,content,point,none_left,flush rfl,position,kept⟩
  · rw [none_left, overwrite_nil, content]
  · rw [none_left, point]
    rfl

/- Seeks. -/

theorem rwflush_sim (sim : Sim disk s r) (never : r.unget = false)
    (short : Short cfg r.content.length) (budget : bufferSize cfg < fuel) :
    ∃ res t, rwflush disk.ops fuel s = some (res, t) ∧ t.buf_mode = .IOFBF ∧ t.rwflush = .no ∧
      t.fifo_read.items = [] ∧ t.fifo_write.items = [] ∧ disk.content t.hndl = r.content ∧
      disk.point t.hndl = r.pos := by
  by_cases written : r.direction = some .write
  · have writing := sim.2 (by simp [written])
    rcases writing.flush with pending | ⟨no,empty⟩
    · obtain ⟨t,result,after,content,point,empty,no,_,_⟩ := flush_sim writing budget
      exact ⟨0,t,by simp [rwflush, pending, Disk.ops, result],after.mode,no,
        after.idle,empty,content,point⟩
    · have content := writing.content
      have point := writing.point
      rw [empty] at content
      rw [empty] at point
      exact ⟨0,s,by simp [rwflush, no],writing.mode,no,writing.idle,empty,content.symm,point.symm⟩
  have reading := sim.1 written
  have clean := reading.clean never
  have start := clean.point
  rcases clean.flush with ⟨pending,position,inside⟩ | ⟨no,empty,_⟩
  · obtain ⟨e,result,content,point⟩ := disk.lseek_law s.hndl (toSize cfg s.pos) .SEEK_SET
    have below := short.2
    have offset : toSize cfg s.pos = r.pos := by
      rw [position]
      exact toSize_small (by omega)
    have reached : disk.target (disk.point s.hndl) (disk.content s.hndl).length r.pos .SEEK_SET =
        r.pos :=
      disk.target_set _ _ _ (by rw [reading.content]; exact inside)
    refine ⟨0,stdio_read_flush disk.lseek s,?_,reading.mode,rfl,rfl,reading.idle,?_,?_⟩
    · simp [rwflush, pending, Disk.ops]
    · simp only [stdio_read_flush, result]
      rw [content, reading.content]
    · simp only [stdio_read_flush, result]
      rw [point, offset, reached]
  · refine ⟨0,s,by simp [rwflush, no],reading.mode,no,empty,reading.idle,reading.content,?_⟩
    rw [Fifo.count, empty, length_nil] at start
    omega

theorem toError_small {x : Nat} (small : x < 2 ^ (cfg.errorBits - 1)) : toError cfg x = x := by
  have wide := cfg.errorWide
  have bits : cfg.errorBits = cfg.errorBits - 1 + 1 := by omega
  have double : 2 ^ cfg.errorBits = 2 * 2 ^ (cfg.errorBits - 1) := by
    calc 2 ^ cfg.errorBits = 2 ^ (cfg.errorBits - 1 + 1) := by rw [← bits]
      _ = 2 * 2 ^ (cfg.errorBits - 1) := Nat.pow_succ'
  exact Int.bmod_eq_of_le (by omega) (by omega)

theorem sim_fresh (mode : s.buf_mode = .IOFBF) (no : s.rwflush = .no)
    (empty : s.fifo_read.items = []) (idle : s.fifo_write.items = [])
    (content : disk.content s.hndl = r.content) (point : disk.point s.hndl = r.pos)
    (position : s.pos = r.pos ∨ r.content.length ≤ r.pos) (none_pushed : r.pushed = none)
    (never : r.unget = false) :
    Sim disk s r := by
  constructor
  · intro _
    refine ⟨mode,idle,content,?_,?_,?_⟩
    · rw [ahead, empty, Disk.unread, content, point, Ref.unread, none_pushed]
      rfl
    · intro _
      rw [Fifo.count, empty]
      exact Nat.two_pow_pos _
    · intro _
      refine ⟨none_pushed,?_,.inr ⟨no,empty,position⟩⟩
      rw [Fifo.count, empty, point]
      rfl
  · intro _
    refine ⟨mode,empty,?_,?_,.inr ⟨no,idle⟩,none_pushed,never⟩
    · rw [idle, overwrite_nil, content]
    · rw [idle, point]
      rfl

theorem fseek_sim (sim : Sim disk s r) {offset : Int}
    (permitted : Permitted cfg disk.target r (.fseek offset whence))
    (budget : bufferSize cfg < fuel) :
    ∃ t, fseek disk.ops fuel s offset whence = some (0, t) ∧
      Sim disk t (r.exec cfg disk.target (.fseek offset whence)).2 ∧
      disk.content t.hndl = r.content ∧
      disk.point t.hndl = disk.target r.pos r.content.length (toSize cfg offset) whence := by
  obtain ⟨never,short,narrow,small⟩ := permitted
  obtain ⟨res,t,result,mode,no,empty,idle,content,point⟩ := rwflush_sim sim never short budget
  obtain ⟨e,seek,content',point'⟩ := disk.lseek_law t.hndl (toSize cfg offset) whence
  rw [content, point] at seek point'
  have position : toPos (toError cfg
      (disk.target r.pos r.content.length (toSize cfg offset) whence)) =
      disk.target r.pos r.content.length (toSize cfg offset) whence := by
    rw [toError_small narrow, toPos_small (by omega) (by omega)]
  have sign : (0 : Int) ≤ disk.target r.pos r.content.length (toSize cfg offset) whence := by omega
  simp only [fseek, Disk.ops]
  have flushed : rwflush ⟨some disk.read,some disk.write,some disk.lseek⟩ fuel s =
    some (res, t) := result
  simp only [flushed, map_some, seek, position, if_pos sign]
  refine ⟨_,rfl,?_,content'.trans content,point'⟩
  exact sim_fresh mode no empty idle (content'.trans content) point' (.inl rfl) rfl never

/- Runs. -/

theorem reading_direction (reading : Reading disk s r) :
    Reading disk s { r with direction := some .read } :=
  ⟨reading.mode, reading.idle, reading.content, reading.unread, reading.room, fun never =>
    ⟨(reading.clean never).none_pushed, (reading.clean never).point, (reading.clean never).flush⟩⟩

theorem sim_reading (reading : Reading disk s r) : Sim disk s { r with direction := some .read } :=
  ⟨fun _ => reading_direction reading, fun other => absurd rfl other⟩

theorem sim_writing (writing : Writing disk s r) : Sim disk s { r with direction := some .write } :=
  ⟨fun other => absurd rfl other,
    fun _ => ⟨writing.mode, writing.idle, writing.content, writing.point,
    writing.flush, writing.none_pushed⟩⟩

def Settles (disk : Disk D) (call : Call) (t : File cfg D) (r : Ref) : Prop :=
  match call with
  | .fflush => disk.content t.hndl = r.content
  | .fseek _ _ => disk.content t.hndl = r.content ∧ disk.point t.hndl = r.pos
  | _ => True

theorem exec_sim (sim : Sim disk s r) (permitted : Permitted cfg disk.target r call)
    (enough : Enough cfg fuel call) :
    ∃ t, exec disk.ops fuel s call = some ((r.exec cfg disk.target call).1, t) ∧
      Sim disk t (r.exec cfg disk.target call).2 ∧
      Settles disk call t (r.exec cfg disk.target call).2 := by
  cases call with
  | fread size nmemb =>
    obtain ⟨t,result,reading⟩ := fread_sim permitted.2 enough.1 enough.2 nmemb s r rfl
      (sim.1 permitted.1)
    exact ⟨t,by simp only [exec, result]; rfl,sim_reading reading,trivial⟩
  | fgetc =>
    have one : 1 < fuel := Nat.lt_of_le_of_lt (Nat.two_pow_pos _) enough
    obtain ⟨t,result,reading⟩ := read_sim (sim.1 permitted.1) permitted.2 enough one
    exact ⟨t,by simp only [exec, fgetc, result]; rfl,sim_reading reading,trivial⟩
  | fgets size =>
    obtain ⟨t,result,reading⟩ :=
      fgets_sim permitted.2 enough (size - 1) s r [] rfl (sim.1 permitted.1)
    refine ⟨t,?_,sim_reading reading,trivial⟩
    simp only [exec, fgets, result, map_some, some.injEq]
    rfl
  | ungetc c =>
    obtain ⟨t,result,reading⟩ := ungetc_sim (sim.1 permitted.1) permitted.2 c
    exact ⟨t,by simp only [exec, result]; rfl,sim_reading reading,trivial⟩
  | fwrite members =>
    obtain ⟨t,result,writing⟩ :=
      fwrite_sim enough.1 members enough.2 permitted.2 s r (sim.2 permitted.1)
    exact ⟨t,by simp only [exec, result]; rfl,sim_writing writing,trivial⟩
  | fputc c =>
    have one : ([c] : List UInt8).length < fuel := Nat.lt_of_le_of_lt (Nat.two_pow_pos _) enough
    have small : Sized cfg ([c] : List UInt8).length := by
      have wide := cfg.sizeWide
      exact Nat.one_lt_two_pow (by omega)
    obtain ⟨t,result,writing⟩ := write_sim (sim.2 permitted) enough one small
    refine ⟨t,?_,sim_writing writing,trivial⟩
    simp only [exec, fputc, result]
    rfl
  | fflush =>
    obtain ⟨t,result,writing,content,point,empty,no,position,kept⟩ := flush_sim (sim.2 permitted)
      enough
    refine ⟨t,by simp only [exec, fflush, Disk.ops, result]; rfl,⟨?_,fun _ => writing⟩,
      content⟩
    intro other
    have clean := (sim.1 other).clean writing.none_pushed.2
    have place : t.pos = r.pos ∨ r.content.length ≤ r.pos := by
      rw [position]
      rcases clean.flush with ⟨_,same,_⟩ | ⟨_,_,same⟩
      · exact .inl same
      · exact same
    exact (sim_fresh writing.mode no writing.idle empty content point place writing.none_pushed.1
      writing.none_pushed.2).1 other
  | fseek offset whence =>
    obtain ⟨t,result,after,content,point⟩ := fseek_sim sim permitted enough
    exact ⟨t,by simp only [exec, result]; rfl,after,content,point⟩

theorem run_sim (calls : List Call) :
    ∀ (s : File cfg D) (r : Ref), Sim disk s r →
    AllPermitted cfg disk.target r calls → (∀ call ∈ calls, Enough cfg fuel call) →
    ∃ t, run disk.ops fuel calls s = some ((Ref.run cfg disk.target calls r).1, t) ∧
      Sim disk t (Ref.run cfg disk.target calls r).2 ∧
      ∀ call, calls.getLast? = some call →
        Settles disk call t (Ref.run cfg disk.target calls r).2 := by
  induction calls with
  | nil =>
    intro s r sim _ _
    refine ⟨s,rfl,sim,?_⟩
    intro call last
    cases last
  | cons call calls ih =>
    intro s r sim permitted enough
    obtain ⟨t,result,sim',settles⟩ := exec_sim sim permitted.1 (enough call (by simp))
    obtain ⟨u,rest,sim'',last⟩ :=
      ih t _ sim' permitted.2 (fun c member => enough c (by simp [member]))
    refine ⟨u,?_,sim'',?_⟩
    · simp only [run, result, rest, bind_some]
      rfl
    intro c final
    cases calls with
    | nil =>
      cases final
      cases rest
      exact settles
    | cons d calls => exact last c final

end

variable (cfg) in
def opened (disk : Disk D) (d : D) : File cfg D :=
  { stdio_stream_init cfg d with pos := disk.point d, buf_mode := .IOFBF }

def unbuffered (disk : Disk D) (d : D) : Ref := ⟨disk.content d, disk.point d, none, none, false⟩

/-- Permitted calls return the same on both streams, and after a flush or a seek the file and its
    point are the same. -/
theorem buffered_is_unbuffered (disk : Disk D) (d : D) (fuel : Nat) (calls : List Call)
    (permitted : AllPermitted cfg disk.target (unbuffered disk d) calls)
    (enough : ∀ call ∈ calls, Enough cfg fuel call) :
    ∃ t, run disk.ops fuel calls (opened cfg disk d) =
        some ((Ref.run cfg disk.target calls (unbuffered disk d)).1, t) ∧
      ∀ call, calls.getLast? = some call →
        Settles disk call t (Ref.run cfg disk.target calls (unbuffered disk d)).2 := by
  have start : Sim disk (opened cfg disk d) (unbuffered disk d) :=
    sim_fresh rfl rfl rfl rfl rfl rfl (.inl rfl) rfl rfl
  obtain ⟨t,result,_,last⟩ := run_sim calls _ _ start permitted enough
  exact ⟨t,result,last⟩

end

def memory : Disk (List UInt8 × Nat) where
  read d n := (((d.1.drop d.2).take n).length, (d.1.drop d.2).take n,
    (d.1, d.2 + ((d.1.drop d.2).take n).length))
  write d bytes := (bytes.length, (overwrite d.1 d.2 bytes, d.2 + bytes.length))
  lseek d offset whence :=
    let base := match whence with
      | .SEEK_SET => 0
      | .SEEK_END => d.1.length
      | .SEEK_CUR => d.2
    ((min d.1.length (base + offset) : Nat), (d.1, min d.1.length (base + offset)))
  content d := d.1
  point d := d.2
  target p n offset whence :=
    let base := match whence with
      | .SEEK_SET => 0
      | .SEEK_END => n
      | .SEEK_CUR => p
    min n (base + offset)
  read_law := by
    intro d n positive
    refine ⟨((d.1.drop d.2).take n).length, (d.1, d.2 + ((d.1.drop d.2).take n).length),
      ?_, ?_, ?_, ?_,
      rfl, rfl⟩
    · rw [length_take, ← take_eq_take_min]
    · rw [length_take]
      omega
    · rw [length_take, length_drop]
      omega
    · rw [length_take, length_drop]
      omega
  write_law := by
    intro d bytes some_left
    refine ⟨bytes.length, _, rfl, length_pos_iff.mpr some_left, Nat.le_refl _, ?_, rfl⟩
    rw [take_length]
  lseek_law := by
    intro d offset whence
    exact ⟨_, rfl, rfl, rfl⟩
  target_set := by
    intro p n offset inside
    dsimp only
    omega

/-- Calls on a file of three bytes: a line, a seek back, two bytes written, and a seek to read
    them. -/
def plainCalls : List Call :=
  [.fgets 10, .fseek 0 .SEEK_SET, .fwrite [[120], [121]], .fflush, .fseek 1 .SEEK_SET, .fread 2 1,
    .ungetc 122, .fgetc]

theorem buffered_is_unbuffered_plain :
    ∃ t, run memory.ops 300 plainCalls (opened build32 memory ([97, 98, 99], 0)) =
        some ((Ref.run build32 memory.target plainCalls
          (unbuffered memory ([97, 98, 99], 0))).1, t) ∧
      ∀ call, plainCalls.getLast? = some call →
        Settles memory call t (Ref.run build32 memory.target plainCalls
          (unbuffered memory ([97, 98, 99], 0))).2 :=
  buffered_is_unbuffered memory ([97, 98, 99], 0) 300 plainCalls
    (by simp only [plainCalls, AllPermitted, Permitted, Short, Sized]; decide +kernel)
    (by
      simp only [plainCalls, forall_mem_cons, Enough, not_mem_nil, false_implies, implies_true]
      decide)

/-- A byte that is read, pushed back and read again moves the position twice: the seek to the
    current position and the next read are one byte too far. -/
theorem pushed_byte_moves_twice :
    (Ref.run build32 memory.target [.fgetc, .ungetc 97, .fgetc, .fseek 0 .SEEK_CUR, .fgetc]
      (unbuffered memory ([97, 98, 99], 0))).1 =
        [.value 97, .value 97, .value 97, .value 0, .value 98] ∧
    (run memory.ops 300 [.fgetc, .ungetc 97, .fgetc, .fseek 0 .SEEK_CUR, .fgetc]
      (opened build32 memory ([97, 98, 99], 0))).map Prod.fst =
        some [.value 97, .value 97, .value 97, .value 0, .value 99] := by
  constructor
  · decide +kernel
  · decide +kernel

end MutekStdioBuffered
