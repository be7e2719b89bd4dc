import MutekH.Stdio
import MutekH.Lib.Bytes
import Mathlib.Algebra.Order.Group.Nat

/-!
Reads of a fully buffered stream on a seekable file. What a stream has still to give is
the content of its read buffer followed by the file from its point on; a read takes the
first bytes of that, however short the transfers are.
-/
namespace MutekStdioRead
open List LibFifo LibBytes MutekStdio

/-- A file after `bytes` were stored from `p` on; a gap before them is filled with zeros. -/
def overwrite (content : List UInt8) (p : Nat) (bytes : List UInt8) : List UInt8 :=
  if bytes = [] then content
  else patch (content ++ List.replicate (p - content.length) 0) p bytes

theorem overwrite_nil (content : List UInt8) (p : Nat) : overwrite content p [] =
    content := if_pos rfl

theorem overwrite_append (content : List UInt8) (p : Nat) (bytes more : List UInt8) :
    overwrite (overwrite content p bytes) (p + bytes.length) more =
      overwrite content p (bytes ++ more) := by
  by_cases first : bytes = []
  · rw [first, overwrite_nil, length_nil, Nat.add_zero, nil_append]
  by_cases second : more = []
  · rw [second, overwrite_nil, append_nil]
  have padded : p ≤ (content ++ List.replicate (p - content.length) 0).length := by
    rw [length_append, length_replicate]
    omega
  have long : p + bytes.length ≤
      (patch (content ++ List.replicate (p - content.length) 0) p bytes).length := by
    rw [patch_length padded]
    omega
  have both : bytes ++ more ≠ [] := append_ne_nil_of_left_ne_nil first more
  rw [overwrite, overwrite, overwrite, if_neg first, if_neg second, if_neg both,
    Nat.sub_eq_zero_of_le long, replicate_zero, append_nil, patch_patch padded]

/-- A seekable byte array. Transfers may be short, but transfer something unless a read is at the
    end of the file. Where a seek leads to depends on the point, the length and the arguments only,
    and an offset in the file is reached by `SEEK_SET`. -/
structure Disk (D : Type) where
  read : D → Nat → Int × List UInt8 × D
  write : D → List UInt8 → Int × D
  lseek : D → Nat → Whence → Int × D
  content : D → List UInt8
  point : D → Nat
  target : Nat → Nat → Nat → Whence → Nat
  read_law : ∀ d n, 0 < n →
    ∃ (k : Nat) (e : D), read d n = ((k : Int), ((content d).drop (point d)).take k, e) ∧
    k ≤ n ∧ k ≤ (content d).length - point d ∧ (k = 0 → (content d).length ≤ point d) ∧
    content e = content d ∧ point e = point d + k
  write_law : ∀ d bytes, bytes ≠ [] → ∃ (k : Nat) (e : D), write d bytes = ((k : Int), e) ∧ 0 < k ∧
    k ≤ bytes.length ∧ content e = overwrite (content d) (point d) (bytes.take k) ∧
      point e = point d + k
  lseek_law : ∀ d offset whence, ∃ e,
    lseek d offset whence = ((target (point d) (content d).length offset whence : Int), e) ∧
    content e = content d ∧ point e = target (point d) (content d).length offset whence
  target_set : ∀ p n offset, offset ≤ n → target p n offset .SEEK_SET = offset

namespace Disk
variable {D : Type}

def unread (disk : Disk D) (d : D) : List UInt8 := (disk.content d).drop (disk.point d)

def ops (disk : Disk D) : FileOps D := ⟨some disk.read, some disk.write, some disk.lseek⟩

theorem read_step (disk : Disk D) (d : D) (positive : 0 < n) :
    ∃ bytes e, disk.read d n = ((bytes.length : Int), bytes, e) ∧ bytes.length ≤ n ∧
      disk.unread d = bytes ++ disk.unread e ∧ (bytes = [] → disk.unread d = []) ∧
      disk.content e = disk.content d ∧ disk.point e = disk.point d + bytes.length := by
  obtain ⟨k,e,result,most,there,ending,same,moved⟩ := disk.read_law d n positive
  have size : (((disk.content d).drop (disk.point d)).take k).length = k := by
    rw [length_take, length_drop]
    omega
  refine ⟨_,e,by rw [size]; exact result,by omega,?_,?_,same,by omega⟩
  · rw [unread, unread, same, moved, ← drop_drop, take_append_drop]
  · intro empty
    rw [empty] at size
    exact drop_of_length_le (ending size.symm)

end Disk

section
variable {cfg : Build} {D : Type} {disk : Disk D} {s t : File cfg D} {size fuel : Nat}

structure Took (disk : Disk D) (s : File cfg D) (more : List UInt8) (t : File cfg D) : Prop where
  unread : disk.unread s.hndl = more ++ disk.unread t.hndl
  content : disk.content t.hndl = disk.content s.hndl
  point : disk.point t.hndl = disk.point s.hndl + more.length
  fifo_read : t.fifo_read = s.fifo_read
  fifo_write : t.fifo_write = s.fifo_write
  mode : t.buf_mode = s.buf_mode
  flush : t.rwflush = s.rwflush

theorem took_nothing (disk : Disk D) (s : File cfg D) : Took disk s [] s :=
  ⟨rfl, rfl, rfl, rfl, rfl, rfl, rfl⟩

theorem took_then (first : Took disk s more t)
    (second : Took disk t rest u) : Took disk s (more ++ rest) u := by
  refine ⟨?_,second.content.trans first.content,?_,second.fifo_read.trans first.fifo_read,
    second.fifo_write.trans first.fifo_write,second.mode.trans first.mode,
    second.flush.trans first.flush⟩
  · rw [first.unread, second.unread, append_assoc]
  · rw [second.point, first.point, length_append, Nat.add_assoc]

theorem toPos_small (low : 0 ≤ x) (high : x < 2 ^ 31) : toPos x = x :=
  Int.bmod_eq_of_le (by omega) (by omega)

theorem readWhile_spec (disk : Disk D) (clears : Bool) (limit : Nat) (chunk : Nat → Nat)
    (fits : ∀ n, limit < n → 0 < chunk n ∧ chunk n ≤ n) :
    ∀ (fuel : Nat) (s : File cfg D) (data : List UInt8) (size : Nat), size < fuel →
    ∃ res more rest t,
      readWhile disk.read clears limit chunk fuel s data size = some (res, data ++ more, rest, t) ∧
      Took disk s more t ∧ size = more.length + rest ∧
      ((res = 1 ∧ rest ≤ limit) ∨ (res = 0 ∧ limit < rest ∧ disk.unread t.hndl = [])) ∧
      (0 ≤ s.pos → s.pos + size < 2 ^ 31 → t.pos = s.pos + more.length) := by
  intro fuel
  induction fuel with intro s data size budget
  | zero => omega
  | succ fuel ih =>
    unfold readWhile
    by_cases done : size ≤ limit
    · rw [if_pos done]
      refine ⟨1,[],size,s,by rw [append_nil],took_nothing disk s,by simp,.inl ⟨rfl,done⟩,?_⟩
      intro _ _
      simp
    have room := fits size (by omega)
    obtain ⟨bytes,e,result,most,unread,ending,same,moved⟩ := disk.read_step s.hndl room.1
    rw [if_neg done, result]
    dsimp only
    by_cases empty : bytes = []
    · subst empty
      have none_left := ending rfl
      refine ⟨0,[],size,{ s with hndl := e, eof := true },?_,
        ⟨unread,same,moved,rfl,rfl,rfl,rfl⟩,by simp,.inr ⟨rfl,by omega,?_⟩,?_⟩
      · simp
      · rw [none_left] at unread
        exact unread.symm
      · intro _ _
        simp
    have positive := length_pos_iff.mpr empty
    rw [if_neg (by omega), Int.toNat_natCast]
    obtain ⟨res,more,rest,t,later,took,count,stop,position⟩ := ih
      { s with hndl := e, pos := toPos (s.pos + bytes.length), eof := s.eof && !clears }
      (data ++ bytes) (size - bytes.length) (by omega)
    have first : Took disk s bytes
        { s with hndl := e, pos := toPos (s.pos + bytes.length), eof := s.eof && !clears } :=
      ⟨unread,same,moved,rfl,rfl,rfl,rfl⟩
    refine ⟨res,bytes ++ more,rest,t,?_,took_then first took,?_,stop,?_⟩
    · rw [later, append_assoc]
    · rw [length_append]
      omega
    intro low high
    have exact : toPos (s.pos + bytes.length) = s.pos + bytes.length :=
      toPos_small (by omega) (by omega)
    dsimp only at position
    rw [length_append]
    omega

theorem fillLocal_spec (disk : Disk D) (small : size ≤ bufferSize cfg) :
    ∀ (fuel : Nat) (s : File cfg D) (content : List UInt8), content.length ≤ bufferSize cfg →
    bufferSize cfg - content.length < fuel →
    ∃ more t, fillLocal disk.read size fuel s content = some (0, content ++ more, t) ∧
      Took disk s more t ∧ t.pos = s.pos ∧ (content ++ more).length ≤ bufferSize cfg ∧
      (size ≤ (content ++ more).length ∨ disk.unread t.hndl = []) ∧
      (size ≤ content.length → more = []) := by
  intro fuel
  induction fuel with
  | zero =>
    intro s content _ budget
    omega
  | succ fuel ih => ?_
  intro s content bounded budget
  unfold fillLocal
  by_cases more_to_come : content.length < size
  · obtain ⟨bytes,e,result,most,unread,ending,same,moved⟩ := disk.read_step s.hndl
      (by omega : 0 < bufferSize cfg - content.length)
    rw [if_pos more_to_come, result]
    dsimp only
    rw [if_neg (by omega)]
    have first : Took disk s bytes { s with hndl := e } := ⟨unread,same,moved,rfl,rfl,rfl,rfl⟩
    by_cases empty : bytes = []
    · subst empty
      have none_left := ending rfl
      rw [if_pos (by simp)]
      refine ⟨[],_,by rw [append_nil],first,rfl,by simpa using bounded,.inr ?_,fun _ => rfl⟩
      rw [none_left] at unread
      exact unread.symm
    have positive := length_pos_iff.mpr empty
    have longer : (content ++ bytes).length = content.length + bytes.length := length_append
    obtain ⟨more,t,later,took,position,fits,stop,_⟩ := ih { s with hndl := e }
      (content ++ bytes) (by omega) (by omega)
    rw [if_neg (by omega)]
    refine ⟨bytes ++ more,t,?_,took_then first took,position,?_,?_,?_⟩
    · rw [later, append_assoc]
    · rwa [← append_assoc]
    · rwa [← append_assoc]
    · intro full
      omega
  · rw [if_neg more_to_come]
    refine ⟨[],s,by rw [append_nil],took_nothing disk s,rfl,by simpa using bounded,.inl ?_,
      fun _ => rfl⟩
    simpa using more_to_come

def ahead (disk : Disk D) (s : File cfg D) : List UInt8 := s.fifo_read.items ++ disk.unread s.hndl

structure Reads (disk : Disk D) (s : File cfg D) (size : Nat) (res : Int) (data : List UInt8)
    (t : File cfg D) : Prop where
  stored : data = (ahead disk s).take size
  result : res = if size ≤ (ahead disk s).length then 1 else 0
  left : ahead disk t = (ahead disk s).drop size
  content : disk.content t.hndl = disk.content s.hndl
  fifo_write : t.fifo_write = s.fifo_write
  mode : t.buf_mode = s.buf_mode
  point : disk.point t.hndl + s.fifo_read.count =
    disk.point s.hndl + t.fifo_read.count + data.length
  room : 0 < size ∨ s.fifo_read.count < bufferSize cfg → t.fifo_read.count < bufferSize cfg
  flush : (t.rwflush = s.rwflush ∧ size ≤ s.fifo_read.count ∧
      t.fifo_read.items = s.fifo_read.items.drop size) ∨
    (t.rwflush = .read ∧ s.fifo_read.count < size ∧ res = 1) ∨
      (t.rwflush = .no ∧ t.fifo_read.items = [])
  pos : res = 1 → 0 ≤ s.pos → s.pos + size < 2 ^ 31 → t.pos = s.pos + size

theorem read_buffered (enough : size ≤ s.fifo_read.count) :
    Reads disk s size 1 (s.fifo_read.popArray size).1
      { s with fifo_read := (s.fifo_read.popArray size).2, pos := toPos (s.pos + size) } := by
  have bounded := s.fifo_read.bounded
  have total : (ahead disk s).length = s.fifo_read.count + (disk.unread s.hndl).length :=
    length_append
  have size_out : (s.fifo_read.items.take size).length = size := by
    rw [length_take]
    exact Nat.min_eq_left enough
  have size_left : (s.fifo_read.items.drop size).length + size = s.fifo_read.count := by
    rw [length_drop]
    exact Nat.sub_add_cancel enough
  refine ⟨?_,?_,?_,rfl,rfl,rfl,?_,?_,.inl ⟨rfl,enough,rfl⟩,?_⟩
  · exact (take_append_of_le_length enough).symm
  · rw [if_pos (by omega)]
  · exact (drop_append_of_le_length enough).symm
  · simp only [Fifo.popArray, Fifo.count] at size_left size_out ⊢
    omega
  · simp only [Fifo.popArray, Fifo.count] at size_left bounded ⊢
    omega
  · intro _ low high
    exact toPos_small (by omega) high

theorem readTail_spec (disk : Disk D) (small : size ≤ bufferSize cfg)
    (budget : bufferSize cfg < fuel) (empty : s.fifo_read.items = []) (data : List UInt8) :
    ∃ res more t, readTail disk.read fuel s data size = some (res, data ++ more, t) ∧
      more = (disk.unread s.hndl).take size ∧ ahead disk t = (disk.unread s.hndl).drop size ∧
      res = (if size ≤ (disk.unread s.hndl).length then 1 else 0) ∧
      disk.content t.hndl = disk.content s.hndl ∧ t.fifo_write = s.fifo_write ∧
      t.buf_mode = s.buf_mode ∧
      disk.point t.hndl = disk.point s.hndl + t.fifo_read.count + more.length ∧
      t.fifo_read.count < bufferSize cfg ∧
      ((t.rwflush = .read ∧ res = 1) ∨ (t.rwflush = s.rwflush ∧ t.fifo_read.items = [])) ∧
      t.pos = toPos (s.pos + size) := by
  obtain ⟨more,t,filled,took,position,fits,stop,nothing⟩ := fillLocal_spec disk small fuel
    s [] (Nat.zero_le _) (by simpa using budget)
  rw [nil_append] at filled fits stop
  have split := took.unread
  have no_bytes : t.fifo_read.items = [] := by rw [took.fifo_read, empty]
  have none_held : t.fifo_read.count = 0 := by rw [Fifo.count, no_bytes, length_nil]
  simp only [readTail, filled, Option.map_some]
  by_cases enough : size ≤ more.length
  · rw [if_pos enough]
    have front : (disk.unread s.hndl).take size = more.take size := by
      rw [split, take_append_of_le_length enough]
    have behind : (disk.unread s.hndl).drop size = more.drop size ++ disk.unread t.hndl := by
      rw [split, drop_append_of_le_length enough]
    have whole : size ≤ (disk.unread s.hndl).length := by
      rw [split, length_append]
      omega
    have taken : (more.take size).length = size := by
      rw [length_take]
      omega
    by_cases beyond : size < more.length
    · have left : (more.drop size).length = more.length - size := length_drop
      have room : t.fifo_read.count + (more.drop size).length ≤ bufferSize cfg := by
        omega
      have held : (t.fifo_read.pushbackArray (more.drop size)).items = more.drop size := by
        rw [Fifo.pushbackArray_items room, no_bytes, nil_append]
      rw [if_pos beyond]
      refine ⟨_,_,_,rfl,front.symm,?_,by rw [if_pos whole],took.content,took.fifo_write,
        took.mode,?_,?_,.inl ⟨rfl,rfl⟩,by rw [position]⟩
      · rw [behind, ahead, held]
      · rw [took.point, Fifo.count, held]
        omega
      have positive : 0 < size := by
        rcases Nat.eq_zero_or_pos size with zero | positive
        · rw [nothing (by omega)] at beyond
          exact absurd beyond (Nat.not_lt_zero _)
        · exact positive
      rw [Fifo.count, held]
      omega
    · have all : more.length = size := by omega
      rw [if_neg beyond]
      refine ⟨_,_,_,rfl,front.symm,?_,by rw [if_pos whole],took.content,took.fifo_write,
        took.mode,?_,?_,.inr ⟨took.flush,no_bytes⟩,by rw [position]⟩
      · rw [behind, ahead, no_bytes, drop_of_length_le (by omega)]
      · rw [took.point, none_held]
        omega
      · rw [none_held]
        exact Nat.two_pow_pos _
  · have none_left : disk.unread t.hndl = [] := by
      rcases stop with enough' | none_left
      · exact absurd enough' enough
      · exact none_left
    rw [none_left, append_nil] at split
    rw [if_neg enough]
    refine ⟨_,_,_,rfl,?_,?_,?_,took.content,took.fifo_write,took.mode,?_,?_,
      .inr ⟨took.flush,no_bytes⟩,by rw [position]⟩
    · rw [split, take_of_length_le (by omega)]
    · rw [split, drop_of_length_le (by omega), ahead, no_bytes, none_left]
      rfl
    · rw [split, if_neg enough]
    · rw [took.point, none_held]
      omega
    · rw [none_held]
      exact Nat.two_pow_pos _

theorem toError_zero (cfg : Build) : toError cfg 0 = 0 := Int.zero_bmod

theorem chunk_fits (n : Nat) (more : bufferSize cfg < n) :
    0 < n / bufferSize cfg * bufferSize cfg ∧ n / bufferSize cfg * bufferSize cfg ≤ n := by
  have positive : 0 < bufferSize cfg := Nat.two_pow_pos _
  exact ⟨Nat.mul_pos (Nat.div_pos (by omega) positive) positive,Nat.div_mul_le_self _ _⟩

theorem read_direct (budget : bufferSize cfg < fuel) (long : size < fuel)
    (more : s.fifo_read.count < size) :
    ∃ res data t,
      ((readWhile disk.read true (bufferSize cfg)
        (fun n => n / bufferSize cfg * bufferSize cfg) fuel
        { s with
          fifo_read := (s.fifo_read.popArray size).2
          pos := toPos (s.pos + s.fifo_read.count)
          rwflush := .no } s.fifo_read.items (size - s.fifo_read.count)).bind
        fun (res, data, size, stream) =>
          if res ≤ 0 then some (toError cfg res, data, stream)
          else readTail disk.read fuel stream data size) = some (res, data, t) ∧
      Reads disk s size res data t := by
  have emptied : (s.fifo_read.popArray size).2.items = [] := by
    exact drop_of_length_le (Nat.le_of_lt more)
  obtain ⟨res,first,rest,t,result,took,count,stop,position⟩ := readWhile_spec disk true
    (bufferSize cfg) (fun n => n / bufferSize cfg * bufferSize cfg) chunk_fits fuel
    { s with
      fifo_read := (s.fifo_read.popArray size).2
      pos := toPos (s.pos + s.fifo_read.count)
      rwflush := .no } s.fifo_read.items (size - s.fifo_read.count) (by omega)
  have empty : t.fifo_read.items = [] := by rw [took.fifo_read, emptied]
  have unread := took.unread
  have moved := took.point
  have flush := took.flush
  dsimp only at position unread moved flush
  have total : ahead disk s = (s.fifo_read.items ++ first) ++ disk.unread t.hndl := by
    rw [ahead, unread, append_assoc]
  have front : (s.fifo_read.items ++ first).length = s.fifo_read.count + first.length :=
    length_append
  have size_eq : size = (s.fifo_read.items ++ first).length + rest := by omega
  rw [result, Option.bind_some]
  rcases stop with ⟨rfl,few⟩ | ⟨rfl,many,none_left⟩
  · obtain ⟨res,last,u,tail,more_eq,left,success,content,fifo_write,mode,point,room,flush',
      pos⟩ := readTail_spec disk few budget empty (s.fifo_read.items ++ first)
    refine ⟨res,_,u,tail,?_,?_,?_,content.trans took.content,fifo_write.trans took.fifo_write,
      mode.trans took.mode,?_,fun _ => room,?_,?_⟩
    · rw [total, more_eq, size_eq, take_length_add_append]
    · rw [success, total, length_append, size_eq]
      simp
    · rw [left, total, size_eq, drop_length_add_append]
    · rw [length_append]
      omega
    · rcases flush' with ⟨reads,one⟩ | ⟨same,none_held⟩
      · exact .inr (.inl ⟨reads,more,one⟩)
      · exact .inr (.inr ⟨same.trans flush,none_held⟩)
    · intro _ low high
      have exact : toPos (s.pos + s.fifo_read.count) = s.pos + s.fifo_read.count :=
        toPos_small (by omega) (by omega)
      rw [pos, toPos_small (by omega) (by omega)]
      omega
  · dsimp only
    rw [none_left, append_nil] at total
    refine ⟨_,_,t,rfl,?_,?_,?_,took.content,took.fifo_write,took.mode,?_,?_,
      .inr (.inr ⟨flush,empty⟩),?_⟩
    · rw [total, take_of_length_le (by omega)]
    · rw [total, if_neg (by omega), toError_zero]
    · rw [total, drop_of_length_le (by omega), ahead, empty, none_left]
      rfl
    · rw [moved, front, Fifo.count, Fifo.count, empty, length_nil]
      omega
    · intro _
      rw [Fifo.count, empty]
      exact Nat.two_pow_pos _
    · intro one
      rw [toError_zero] at one
      cases one

theorem stdio_read_spec (disk : Disk D) (mode : s.buf_mode = .IOFBF)
    (budget : bufferSize cfg < fuel) (long : size < fuel) :
    ∃ res data t, stdio_read disk.ops fuel size s = some (res, data, t) ∧
      Reads disk s size res data t := by
  simp only [stdio_read, Disk.ops]
  split
  · rename_i unbuffered
    rw [mode] at unbuffered
    cases unbuffered
  · rename_i lines
    rw [mode] at lines
    cases lines
  by_cases enough : size ≤ s.fifo_read.count
  · have taken : (s.fifo_read.popArray size).1.length = size := by
      simp only [Fifo.popArray, length_take]
      exact Nat.min_eq_left enough
    have last : ∀ (u : File cfg D) (data : List UInt8), u.pos = toPos (s.pos + size) →
        readTail disk.read fuel u data 0 = some (1, data, u) := by
      intro u data position
      obtain ⟨n,rfl⟩ : ∃ n, fuel = n + 1 := ⟨fuel - 1,by omega⟩
      have same : toPos u.pos = u.pos := position ▸ Int.bmod_bmod
      simp [readTail, fillLocal, same]
    rw [taken, Nat.sub_self]
    exact ⟨_,_,_,last _ _ rfl,read_buffered enough⟩
  · have all : (s.fifo_read.popArray size).1 = s.fifo_read.items := by
      exact take_of_length_le (by unfold Fifo.count at enough; omega)
    have some_left : size - s.fifo_read.items.length ≠ 0 := by
      unfold Fifo.count at enough
      omega
    rw [all, if_neg some_left]
    exact read_direct budget long (by omega)

end
end MutekStdioRead
