import MutekH.Stdio
import Mathlib.Algebra.Order.Group.Nat
import Mathlib.Tactic.Tauto

/-!
Streams that are only written. What the device has accepted and what the buffer holds
make up, in this order, the bytes of the calls, where a call that failed counts with
the part of its bytes that it got rid of.
-/
namespace MutekStdioWrite
open Option List LibFifo MutekStdio

/-- A device that takes some of the bytes it is given, or fails. `took d e part` is that it took
    `part` between the states `d` and `e`. -/
structure Writer (D : Type) where
  write : D → List UInt8 → Int × D
  took : D → D → List UInt8 → Prop
  nothing : ∀ d, took d d []
  further : ∀ {d e f part more}, took d e part → took e f more → took d f (part ++ more)
  law : ∀ d bytes, bytes ≠ [] →
    (0 < (write d bytes).1 ∧ (write d bytes).1 ≤ bytes.length ∧
      took d (write d bytes).2 (bytes.take (write d bytes).1.toNat)) ∨
    ((write d bytes).1 < 0 ∧ took d (write d bytes).2 [])

def Fails {D : Type} (write : D → List UInt8 → Int × D) : Prop :=
  ∃ d bytes, bytes ≠ [] ∧ (write d bytes).1 < 0

/-- Every error of a device is an error as an `error_t`. -/
def Reports {D : Type} (cfg : Build) (write : D → List UInt8 → Int × D) : Prop :=
  ∀ d bytes, bytes ≠ [] → (write d bytes).1 < 0 → toError cfg (write d bytes).1 ≠ 0

/-- A device whose state tells the bytes it has accepted. -/
structure Sink (D : Type) where
  write : D → List UInt8 → Int × D
  accepted : D → List UInt8
  law : ∀ d bytes, bytes ≠ [] →
    (0 < (write d bytes).1 ∧ (write d bytes).1 ≤ bytes.length ∧
      accepted (write d bytes).2 = accepted d ++ bytes.take (write d bytes).1.toNat) ∨
    ((write d bytes).1 < 0 ∧ accepted (write d bytes).2 = accepted d)

def Sink.writer {D : Type} (sink : Sink D) : Writer D where
  write := sink.write
  took d e part := sink.accepted e = sink.accepted d ++ part
  nothing d := (append_nil _).symm
  further := by
    intro d e f part more first second
    rw [second, first, append_assoc]
  law := by
    intro d bytes some_left
    rw [append_nil]
    exact sink.law d bytes some_left

inductive Call where
  | write (bytes : List UInt8)
  | flush
  deriving DecidableEq

def Call.size : Call → Nat
  | .write bytes => bytes.length
  | .flush => 0

section
variable {cfg : Build} {D : Type}

def exec (ops : FileOps D) (fuel : Nat) (stream : File cfg D) : Call → Option (Int × File cfg D)
  | .write bytes => stdio_write ops fuel stream bytes
  | .flush => fflush ops fuel stream

def run (ops : FileOps D) (fuel : Nat) :
    List Call → File cfg D → Option (List (Call × Int) × File cfg D)
  | [], stream => some ([], stream)
  | call :: calls, stream =>
    (exec ops fuel stream call).bind fun (res, stream) =>
      (run ops fuel calls stream).map fun (results, stream) => ((call, res) :: results, stream)

/-- The bytes that a history of calls stands for: all of a write that returned 0 and a first part of
    one that did not. -/
inductive Written : List (Call × Int) → List UInt8 → Prop where
  | nil : Written [] []
  | wrote {bytes rest : List UInt8} {results : List (Call × Int)} (tail : Written results rest) :
      Written ((.write bytes, 0) :: results) (bytes ++ rest)
  | failed {bytes part rest : List UInt8} {results : List (Call × Int)} {res : Int}
      (error : res ≠ 0)
      (first : part <+: bytes) (tail : Written results rest) :
      Written ((.write bytes, res) :: results) (part ++ rest)
  | flushed {rest : List UInt8} {results : List (Call × Int)} {res : Int}
      (tail : Written results rest) :
      Written ((.flush, res) :: results) rest

def Empties (mode : BufMode) : Call → Prop
  | .write bytes => mode = .IOLBF ∧ bytes.getLast? = some newline
  | .flush => True

/-- Between `s` and `t` the stream was given `part`: what it had in its buffer and `part` are what
    the device took, followed by what is in the buffer. -/
def Given (dev : Writer D) (s : File cfg D) (part : List UInt8) (t : File cfg D) : Prop :=
  ∃ out, dev.took s.hndl t.hndl out ∧ s.fifo_write.items ++ part = out ++ t.fifo_write.items

/-- The effect of a call that adds `bytes` at most, and at least if it returned 0. -/
structure Adds (dev : Writer D) (s : File cfg D) (bytes : List UInt8) (res : Int) (t : File cfg D) :
    Prop where
  mode : t.buf_mode = s.buf_mode
  kept : t.fifo_read = s.fifo_read
  cause : res = 0 ∨ Fails dev.write
  part : ∃ part, part <+: bytes ∧ (res = 0 → part = bytes) ∧ Given dev s part t

section
variable {dev : Writer D} {s t u : File cfg D} {bytes part more : List UInt8} {fuel limit : Nat}
  {moves : Bool} {res : Int}

theorem given_nothing (dev : Writer D) (s : File cfg D) : Given dev s [] s :=
  ⟨[], dev.nothing _, append_nil _⟩

theorem given_then (first : Given dev s part t) (second : Given dev t more u) :
    Given dev s (part ++ more) u := by
  obtain ⟨out,took,same⟩ := first
  obtain ⟨out',took',same'⟩ := second
  refine ⟨out ++ out',dev.further took took',?_⟩
  rw [← append_assoc, same, append_assoc, same', append_assoc]

theorem adds_nothing (mode : t.buf_mode = s.buf_mode) (kept : t.fifo_read = s.fifo_read)
    (cause : res = 0 ∨ Fails dev.write) (same : Given dev s [] t) : Adds dev s [] res t := by
  refine ⟨mode,kept,cause,[],prefix_rfl,?_,same⟩
  intro _
  rfl

theorem adds_failed (adds : Adds dev s bytes res t) (error : res ≠ 0) :
    Adds dev s (bytes ++ more) res t := by
  obtain ⟨part,first,_,same⟩ := adds.part
  refine ⟨adds.mode,adds.kept,adds.cause,part,first.trans (prefix_append _ _),?_,same⟩
  intro zero
  exact absurd zero error

theorem adds_then (first : Adds dev s bytes 0 t) (second : Adds dev t more res u) :
    Adds dev s (bytes ++ more) res u := by
  obtain ⟨all,_,whole,one⟩ := first.part
  obtain ⟨part,before,rest,two⟩ := second.part
  have all_eq := whole rfl
  subst all_eq
  refine ⟨second.mode.trans first.mode,second.kept.trans first.kept,second.cause,all ++ part,
    (prefix_append_right_inj _).mpr before,?_,given_then one two⟩
  intro zero
  rw [rest zero]

/- The loop. -/

theorem writeWhile_spec (reports : Reports cfg dev.write) (moves : Bool) (limit : Nat) :
    ∀ (fuel : Nat) (s : File cfg D) (bytes : List UInt8), bytes.length < fuel →
    ∃ res rest t, writeWhile dev.write moves limit fuel s bytes = some (res, rest, t) ∧
      ∃ part, bytes = part ++ rest ∧ dev.took s.hndl t.hndl part ∧ t.fifo_write = s.fifo_write ∧
        t.buf_mode = s.buf_mode ∧ t.fifo_read = s.fifo_read ∧ (moves = false → t.pos = s.pos) ∧
        ((res = 0 ∧ rest.length ≤ limit) ∨ (res < 0 ∧ toError cfg res ≠ 0 ∧ Fails dev.write)) := by
  intro fuel
  induction fuel with intro s bytes budget
  | zero => omega
  | succ fuel ih =>
    unfold writeWhile
    by_cases done : bytes.length ≤ limit
    · rw [if_pos done]
      exact ⟨_,_,_,rfl,[],rfl,dev.nothing _,rfl,rfl,rfl,fun _ => rfl,.inl ⟨rfl,done⟩⟩
    rw [if_neg done]
    have some_left : bytes ≠ [] := by
      rintro rfl
      simp at done
    rcases dev.law s.hndl bytes some_left with ⟨positive,within,moved⟩ | ⟨negative,same⟩
    · have fewer : (bytes.drop (dev.write s.hndl bytes).1.toNat).length < fuel := by
        rw [length_drop]
        omega
      obtain ⟨res,rest,t,result,part,split,taken,fifo,mode,kept,position,ending⟩ := ih { s with
          hndl := (dev.write s.hndl bytes).2
          pos := if moves then toPos (s.pos + (dev.write s.hndl bytes).1) else s.pos } _ fewer
      refine ⟨res,rest,t,?_,bytes.take (dev.write s.hndl bytes).1.toNat ++ part,?_,
        dev.further moved taken,fifo,mode,kept,?_,ending⟩
      · have going : ¬ (dev.write s.hndl bytes).1 < 0 := by omega
        dsimp only
        rw [if_neg going]
        exact result
      · rw [append_assoc, ← split, take_append_drop]
      · intro stays
        rw [position stays, stays]
        rfl
    · dsimp only
      rw [if_pos negative]
      exact ⟨_,_,_,rfl,[],rfl,same,rfl,rfl,rfl,fun _ => rfl,
        .inr ⟨negative,reports _ _ some_left negative,_,_,some_left,negative⟩⟩

/- The functions. -/

theorem flush_spec (reports : Reports cfg dev.write) (budget : bufferSize cfg < fuel)
    (s : File cfg D) :
    ∃ res t, stdio_write_flush dev.write fuel s = some (res, t) ∧ t.buf_mode = s.buf_mode ∧
      t.fifo_read = s.fifo_read ∧ Given dev s [] t ∧
      (res = 0 ∨ s.fifo_write.items = [] → t.fifo_write.items = []) ∧ (res = 0 → t.rwflush = .no) ∧
      t.pos = s.pos ∧ (res = 0 ∨ Fails dev.write) := by
  have bounded := s.fifo_write.bounded
  obtain ⟨res,rest,t,result,part,split,taken,fifo,mode,kept,position,ending⟩ := writeWhile_spec
    reports false 0 fuel { s with fifo_write := Fifo.empty } s.fifo_write.items (by omega)
  simp only [stdio_write_flush, Fifo.popArray_all, result, map_some]
  rcases ending with ⟨rfl,none_left⟩ | ⟨negative,error,fails⟩
  · have empty : rest = [] := length_eq_zero_iff.mp (by omega)
    subst empty
    refine ⟨_,_,rfl,mode,kept,⟨part,taken,?_⟩,?_,?_,position rfl,.inl rfl⟩
    · simp [fifo, split]
    · intro _
      simp [fifo]
    · intro _
      rfl
  have total := congrArg List.length split
  rw [length_append] at total
  have fits : (Fifo.empty : Fifo UInt8 (bufferSize cfg)).count + rest.length ≤ bufferSize cfg := by
    rw [Fifo.count, Fifo.empty_items, length_nil]
    omega
  rw [if_pos negative, fifo]
  refine ⟨_,_,rfl,mode,kept,⟨part,taken,?_⟩,?_,?_,position rfl,.inr fails⟩
  · simp [Fifo.pushbackArray_items fits, split]
  · rintro (zero | empty)
    · exact absurd zero error
    · rw [empty] at split
      rw [Fifo.pushbackArray_items fits, (append_eq_nil_iff.mp split.symm).2]
      rfl
  · intro zero
    exact absurd zero error

theorem unbuffered_spec (reports : Reports cfg dev.write) (budget : bytes.length < fuel)
    (empty : s.fifo_write.items = []) :
    ∃ res t, unbuffered_write dev.write fuel s bytes = some (res, t) ∧ Adds dev s bytes res t ∧
      t.fifo_write.items = [] := by
  obtain ⟨res,rest,t,result,part,split,taken,fifo,mode,kept,_,ending⟩ := writeWhile_spec reports
    true 0 fuel s bytes budget
  have same : Given dev s part t := by
    refine ⟨part,taken,?_⟩
    rw [fifo, empty, nil_append, append_nil]
  refine ⟨_,t,by rw [unbuffered_write, result]; rfl,⟨mode,kept,?_,part,?_,?_,same⟩,
    by rw [fifo, empty]⟩
  · rcases ending with ⟨rfl,_⟩ | ⟨_,_,fails⟩
    · exact .inl Int.zero_bmod
    · exact .inr fails
  · exact ⟨rest,split.symm⟩
  · intro zero
    rcases ending with ⟨_,none_left⟩ | ⟨_,error,_⟩
    · rw [split, length_eq_zero_iff.mp (by omega : rest.length = 0), append_nil]
    · exact absurd zero error

theorem toSize_small {n : Nat} (small : n < 2 ^ cfg.sizeBits) : toSize cfg n = n := by
  have cast : ((n : Int) % 2 ^ cfg.sizeBits) = ((n % 2 ^ cfg.sizeBits : Nat) : Int) := by
    rfl
  rw [toSize, cast, Int.toNat_natCast, Nat.mod_eq_of_lt small]

theorem size_double (cfg : Build) : 2 ^ cfg.sizeBits = 2 * 2 ^ (cfg.sizeBits - 1) := by
  have wide := cfg.bufferFits
  have bits : cfg.sizeBits = cfg.sizeBits - 1 + 1 := by omega
  calc 2 ^ cfg.sizeBits = 2 ^ (cfg.sizeBits - 1 + 1) := by rw [← bits]
    _ = 2 * 2 ^ (cfg.sizeBits - 1) := Nat.pow_succ'

def Sized (cfg : Build) (n : Nat) : Prop := n < 2 ^ (cfg.sizeBits - 1)

theorem toSsize_small (small : Sized cfg n) : toSsize cfg n = n := by
  have double := size_double cfg
  unfold Sized at small
  apply Int.bmod_eq_of_le
  · omega
  · omega

theorem sum_small (small : Sized cfg n) (q : Fifo UInt8 (bufferSize cfg)) :
    q.count + n < 2 ^ cfg.sizeBits := by
  have wide := cfg.bufferFits
  have bounded := q.bounded
  have double := size_double cfg
  have half : bufferSize cfg ≤ 2 ^ (cfg.sizeBits - 1) :=
    Nat.pow_le_pow_right (by decide) (by omega)
  unfold Sized at small
  unfold Fifo.count
  omega

theorem adds_fill (room : s.fifo_write.count + bytes.length ≤ bufferSize cfg) :
    Adds dev s bytes 0 { s with
      fifo_write := s.fifo_write.pushbackArray bytes
      pos := toPos (s.pos + bytes.length)
      rwflush := .write } := by
  refine ⟨rfl,rfl,.inl rfl,bytes,prefix_rfl,?_,[],dev.nothing _,?_⟩
  · intro _
    rfl
  · rw [Fifo.pushbackArray_items room, nil_append]

theorem block_spec (reports : Reports cfg dev.write) (budget : bufferSize cfg < fuel)
    (long : bytes.length < fuel) (small : Sized cfg bytes.length) (s : File cfg D) :
    ∃ res t, writeBlock dev.write fuel s bytes = some (res, t) ∧ Adds dev s bytes res t ∧
      (res = 0 → t.rwflush = .write) := by
  have exact := toSize_small (sum_small small s.fifo_write)
  rw [Int.natCast_add] at exact
  simp only [writeBlock, exact]
  by_cases full : bufferSize cfg < s.fifo_write.count + bytes.length
  · rw [if_pos full]
    obtain ⟨res,t,result,mode,kept,same,empty,_,_,cause⟩ := flush_spec reports budget s
    rw [result, bind_some]
    by_cases error : res ≠ 0
    · rw [if_pos error]
      refine ⟨_,_,rfl,adds_failed (adds_nothing mode kept cause same) error,?_⟩
      intro zero
      exact absurd zero error
    have zero : res = 0 := by tauto
    subst zero
    rw [if_neg error]
    obtain ⟨res,rest,u,written,part,split,taken,fifo,mode',kept',_,ending⟩ := writeWhile_spec
      reports true (bufferSize cfg) fuel t bytes long
    rw [written, map_some]
    have first : Adds dev s part 0 u := by
      refine ⟨mode'.trans mode,kept'.trans kept,.inl rfl,part,prefix_rfl,?_,given_then same ?_⟩
      · intro _
        rfl
      · refine ⟨part,taken,?_⟩
        rw [fifo, empty (.inl rfl), nil_append, append_nil]
    rw [split]
    rcases ending with ⟨rfl,few⟩ | ⟨negative,error,fails⟩
    · have room : u.fifo_write.count + rest.length ≤ bufferSize cfg := by
        rw [fifo, Fifo.count, empty (.inl rfl)]
        simpa using few
      exact ⟨_,_,rfl,adds_then first (adds_fill room),fun _ => rfl⟩
    · refine ⟨_,_,by rw [if_pos negative],
        adds_then first (adds_failed
          (adds_nothing rfl rfl (.inr fails) (given_nothing dev _)) error),?_⟩
      intro zero
      exact absurd zero error
  · rw [if_neg full]
    exact ⟨_,_,rfl,adds_fill (by omega),fun _ => rfl⟩

theorem block_nil (dev : Writer D) (fuel : Nat) (empty : s.fifo_write.items = []) :
    ∃ t, writeBlock dev.write fuel s [] = some (0, t) ∧ t.fifo_write.items = [] := by
  have none_held : s.fifo_write.count = 0 := by rw [Fifo.count, empty, length_nil]
  have exact : toSize cfg (s.fifo_write.count + ([] : List UInt8).length) = 0 := by
    rw [none_held]
    exact toSize_small (Nat.two_pow_pos _)
  simp only [writeBlock, exact]
  simp [Fifo.pushbackArray, empty]

theorem lineEnd_le (found : lineEnd bytes n = some i) : i ≤ n := by
  induction n with
  | zero => simp [lineEnd] at found
  | succ n ih => ?_
  unfold lineEnd at found
  split at found
  · cases found
    exact Nat.le_refl _
  · exact Nat.le_succ_of_le (ih found)

theorem lineEnd_last (ends : bytes.getLast? = some newline) :
    lineEnd bytes bytes.length = some bytes.length := by
  rw [List.getLast?_eq_getElem?] at ends
  cases size : bytes.length with
  | zero =>
    rw [length_eq_zero_iff] at size
    subst size
    simp at ends
  | succ n =>
    rw [size, Nat.add_sub_cancel] at ends
    rw [lineEnd, if_pos ends]

def Plain (s : File cfg D) : Prop := s.buf_mode = .IONBF → s.fifo_write.items = []

section
variable (reports : Reports cfg dev.write) (budget : bufferSize cfg < fuel)
include reports budget

theorem line_spec (long : bytes.length < fuel) (small : Sized cfg bytes.length)
    (inside : i ≤ bytes.length) (s : File cfg D) :
    ∃ res t, writeLines dev.write fuel s bytes i = some (res, t) ∧ Adds dev s bytes res t ∧
      (i = bytes.length → res = 0 → t.fifo_write.items = []) := by
  obtain ⟨res,t,result,mode,kept,same,empty,_,_,cause⟩ := flush_spec reports budget s
  simp only [writeLines, result, bind_some]
  by_cases error : res ≠ 0
  · rw [if_pos error]
    refine ⟨_,_,rfl,adds_failed (adds_nothing mode kept cause same) error,?_⟩
    intro _ zero
    exact absurd zero error
  rw [if_neg error]
  have flushed : Adds dev s [] 0 t := adds_nothing mode kept (.inl rfl) same
  have front : (bytes.take i).length < fuel := by
    rw [length_take]
    omega
  obtain ⟨res',u,lines,adds,empty'⟩ := unbuffered_spec reports front (empty (.inl (by tauto)))
  have split := take_append_drop i bytes
  simp only [lines, bind_some]
  by_cases error' : res' ≠ 0
  · rw [if_pos error']
    refine ⟨_,_,rfl,?_,?_⟩
    · have cut : Adds dev t (bytes.take i ++ bytes.drop i) res' u := adds_failed adds error'
      have failed := adds_then flushed cut
      rwa [split] at failed
    · intro _ zero
      exact absurd zero error'
  have zero : res' = 0 := by tauto
  subst zero
  have fewer : (bytes.drop i).length ≤ bytes.length := by simp
  have shorter : (bytes.drop i).length < fuel := by omega
  obtain ⟨res,v,rest,after,_⟩ := block_spec reports budget shorter
    (Nat.lt_of_le_of_lt fewer small) u
  rw [rest]
  refine ⟨_,_,rfl,?_,?_⟩
  · have all := adds_then flushed (adds_then adds after)
    rwa [split] at all
  intro last _
  rw [last, drop_length] at rest
  obtain ⟨w,same,none_left⟩ := block_nil dev fuel empty'
  rw [same] at rest
  cases rest
  exact none_left

theorem write_spec (long : bytes.length < fuel) (small : Sized cfg bytes.length)
    (uses : ops.write = some dev.write) (plain : Plain s) :
    ∃ res t, stdio_write ops fuel s bytes = some (res, t) ∧ Adds dev s bytes res t ∧ Plain t ∧
      (Empties s.buf_mode (.write bytes) → res = 0 → t.fifo_write.items = []) := by
  have size : (toSsize cfg bytes.length).toNat = bytes.length := by
    rw [toSsize_small small, Int.toNat_natCast]
  simp only [stdio_write, uses]
  cases mode : s.buf_mode with
  | IONBF =>
    obtain ⟨res,t,result,adds,empty⟩ := unbuffered_spec reports long (plain mode)
    refine ⟨res,t,result,adds,?_,?_⟩
    · intro _
      exact empty
    · intro _ _
      exact empty
  | IOLBF =>
    have keeps : ∀ {res t}, Adds dev s bytes res t → Plain t := by
      intro res t adds unbuffered
      rw [adds.mode, mode] at unbuffered
      cases unbuffered
    rw [size]
    cases found : lineEnd bytes bytes.length with
    | none =>
      obtain ⟨res,t,result,adds,_⟩ := block_spec reports budget long small s
      refine ⟨res,t,result,adds,keeps adds,?_⟩
      intro ⟨_,ends⟩
      rw [lineEnd_last ends] at found
      cases found
    | some i =>
      obtain ⟨res,t,result,adds,empty⟩ := line_spec reports budget long small (lineEnd_le found) s
      refine ⟨res,t,result,adds,keeps adds,?_⟩
      intro ⟨_,ends⟩
      rw [lineEnd_last ends] at found
      cases found
      exact empty rfl
  | IOFBF =>
    obtain ⟨res,t,result,adds,_⟩ := block_spec reports budget long small s
    refine ⟨res,t,result,adds,?_,?_⟩
    · intro unbuffered
      rw [adds.mode, mode] at unbuffered
      cases unbuffered
    · intro ⟨lines,_⟩
      cases lines

theorem exec_spec (long : call.size < fuel) (small : Sized cfg call.size)
    (uses : ops.write = some dev.write) (plain : Plain s) :
    ∃ res t, exec ops fuel s call = some (res, t) ∧ Plain t ∧ t.buf_mode = s.buf_mode ∧
      (Empties s.buf_mode call → res = 0 → t.fifo_write.items = []) ∧
      ∃ part, Given dev s part t ∧ ∀ results rest, Written results rest →
        Written ((call, res) :: results) (part ++ rest) := by
  cases call with
  | write bytes =>
    obtain ⟨res,t,result,adds,plain',empty⟩ := write_spec reports budget long small uses plain
    obtain ⟨part,first,whole,same⟩ := adds.part
    refine ⟨res,t,result,plain',adds.mode,empty,part,same,?_⟩
    intro results rest tail
    by_cases zero : res = 0
    · rw [zero, whole zero]
      exact Written.wrote tail
    · exact Written.failed zero first tail
  | flush =>
    obtain ⟨res,t,result,mode,kept,same,empty,_,_,cause⟩ := flush_spec reports budget s
    refine ⟨res,t,by simp [exec, fflush, uses, result],?_,mode,?_,[],same,?_⟩
    · intro unbuffered
      exact empty (.inr (plain (mode ▸ unbuffered)))
    · intro _ zero
      exact empty (.inl zero)
    · intro results rest tail
      exact Written.flushed tail

/-- Every run of calls returns. The device and the buffer have what the calls stand for, and a last
    call that empties the buffer has done so. -/
theorem run_spec (uses : ops.write = some dev.write) (calls : List Call) :
    ∀ s : File cfg D, Plain s → (∀ call ∈ calls, call.size < fuel ∧ Sized cfg call.size) →
    ∃ results t, run ops fuel calls s = some (results, t) ∧ results.map Prod.fst = calls ∧
      (∃ bytes, Given dev s bytes t ∧ Written results bytes) ∧
      ∀ call, results.getLast? = some (call, 0) → Empties s.buf_mode call →
        t.fifo_write.items = [] := by
  induction calls with
  | nil =>
    intro s _ _
    refine ⟨[],s,rfl,rfl,⟨[],given_nothing dev s,Written.nil⟩,?_⟩
    intro call last
    cases last
  | cons call calls ih =>
    intro s plain sizes
    obtain ⟨res,t,result,plain',mode,empty,part,same,adds⟩ := exec_spec reports budget
      (sizes call (by simp)).1 (sizes call (by simp)).2 uses plain
    obtain ⟨results,u,rest,names,⟨bytes,more,written⟩,last⟩ := ih t plain' (by
      intro c member
      exact sizes c (.tail _ member))
    refine ⟨(call, res) :: results,u,?_,?_,⟨part ++ bytes,given_then same more,adds _ _ written⟩,?_⟩
    · simp [run, result, rest]
    · simp [names]
    intro c final empties
    cases results with
    | nil =>
      simp only [List.getLast?_singleton, some.injEq, Prod.mk.injEq] at final
      obtain ⟨rfl,zero⟩ := final
      cases calls with
      | nil =>
        cases rest
        exact empty empties zero
      | cons d calls => simp at names
    | cons r results => exact last c final (mode ▸ empties)

end

end

/-- Streams that are only written, in each mode. What the device has accepted followed by the
    content of `fifo_write` is what the calls stand for, and after a flush or a line that returned 0
    the buffer is empty. -/
theorem written_in_order (sink : Sink D) (reports : Reports cfg sink.write) (ops : FileOps D)
    (uses : ops.write = some sink.write) (mode : BufMode) (d : D) (fuel : Nat)
    (budget : bufferSize cfg < fuel) (calls : List Call)
    (sizes : ∀ call ∈ calls, call.size < fuel ∧ Sized cfg call.size) :
    ∃ results t, run ops fuel calls { stdio_stream_init cfg d with buf_mode := mode } =
      some (results, t) ∧
      results.map Prod.fst = calls ∧
      (∃ bytes, sink.accepted t.hndl ++ t.fifo_write.items = sink.accepted d ++ bytes ∧
        Written results bytes) ∧
      ∀ call, results.getLast? = some (call, 0) → Empties mode call → t.fifo_write.items = [] := by
  have same_reports : Reports cfg sink.writer.write := reports
  obtain ⟨results,t,result,names,⟨bytes,⟨out,took,same⟩,written⟩,last⟩ :=
    run_spec same_reports budget uses calls
    { stdio_stream_init cfg d with buf_mode := mode } (fun _ => rfl) sizes
  refine ⟨results,t,result,names,⟨bytes,?_,written⟩,last⟩
  rw [took, append_assoc, ← same]
  rfl

end

/-- A device with a list of what it will do: accept so many bytes, or fail with a code. At the end
    of the list it accepts everything. -/
def scripted (code : Int) (negative : code < 0) : Sink (List UInt8 × List (Option Nat)) where
  write d bytes :=
    match d.2 with
    | [] => (bytes.length, d.1 ++ bytes, [])
    | none :: script => (code, d.1, script)
    | some n :: script =>
      let n := min (max 1 n) bytes.length
      (n, d.1 ++ bytes.take n, script)
  accepted d := d.1
  law := by
    intro d bytes some_left
    have positive := length_pos_iff.mpr some_left
    split
    · refine .inl ⟨by omega, by omega, ?_⟩
      simp
    · exact .inr ⟨negative, rfl⟩
    · refine .inl ⟨?_, ?_, rfl⟩
      · dsimp only
        omega
      · dsimp only
        omega

def scriptedOps (code : Int) (negative : code < 0) : FileOps (List UInt8 × List (Option Nat)) :=
  ⟨none, some (scripted code negative).write, none⟩

theorem scripted_reports (cfg : Build) (code : Int) (negative : code < 0)
    (error : toError cfg code ≠ 0) :
    Reports cfg (scripted code negative).write := by
  intro d bytes _
  simp only [scripted]
  split
  · intro impossible
    omega
  · intro _
    exact error
  · intro impossible
    omega

/-- A 32 bits build with an `int_fast8_t` of 8 bits and the default buffer. -/
def build32 : Build where
  errorBits := 8
  sizeBits := 32
  bufferBits := 8
  errorWide := by decide
  sizeWide := by decide
  bufferFits := by decide

theorem written_in_order_retried : ∃ results t,
    run (scriptedOps (-11) (by decide)) 300 [.write [97], .write [98, newline], .flush]
        { stdio_stream_init build32 ([], [none, some 1]) with buf_mode := .IOLBF } =
          some (results, t) ∧
      results.map Prod.fst = [.write [97], .write [98, newline], .flush] ∧
      (∃ bytes, t.hndl.1 ++ t.fifo_write.items = [] ++ bytes ∧ Written results bytes) ∧
      ∀ call, results.getLast? = some (call, 0) → Empties .IOLBF call → t.fifo_write.items = [] :=
  written_in_order (scripted (-11) (by decide)) (scripted_reports _ _ _ (by decide)) _ rfl .IOLBF
    ([], [none, some 1]) 300 (by decide) _ (by unfold Sized; decide)

/-- A line whose length is half of the range of `size_t` is not seen as one: the length is negative
    as an `ssize_t`. -/
theorem long_line_kept (cfg : Build) (front : List UInt8)
    (half : front.length + 1 = 2 ^ (cfg.sizeBits - 1)) (more : bufferSize cfg ≤ front.length) :
    (stdio_write (scriptedOps (-11) (by decide)) 3
      { stdio_stream_init cfg ([], [some front.length]) with buf_mode := .IOLBF }
      (front ++ [newline])).map (fun x => (x.1, x.2.fifo_write.items)) = some (0, [newline]) := by
  have double := size_double cfg
  have positive : 0 < bufferSize cfg := Nat.two_pow_pos _
  have size : (front ++ [newline]).length = front.length + 1 := length_append
  have unseen : (toSsize cfg (front.length + 1 : Nat)).toNat = 0 := by
    have wrapped : toSsize cfg (front.length + 1 : Nat) = -(front.length + 1 : Nat) := by
      rw [toSsize, Int.bmod_def, Int.emod_eq_of_lt (by omega) (by omega)]
      split <;> omega
    omega
  have sum : toSize cfg (((0 : Nat) : Int) + ((front.length + 1 : Nat) : Int)) =
      front.length + 1 := by
    rw [← Int.natCast_add, Nat.zero_add]
    exact toSize_small (by omega)
  have flushed : ∀ s : File cfg (List UInt8 × List (Option Nat)), s.fifo_write = Fifo.empty →
      stdio_write_flush (scripted (-11) (by decide)).write 3 s =
        some (0, { s with rwflush := .no }) := by
    intro s empty
    simp only [stdio_write_flush, Fifo.popArray_all]
    cases s
    cases empty
    rfl
  have wrote : ∀ s : File cfg (List UInt8 × List (Option Nat)), s.hndl = ([], [some front.length]) →
      ∃ t, writeWhile (scripted (-11) (by decide)).write true (bufferSize cfg) 3 s
        (front ++ [newline]) =
        some (0, [newline], t) ∧ t.fifo_write = s.fifo_write := by
    intro s script
    have first : ((scripted (-11) (by decide)).write s.hndl (front ++ [newline])).1 =
        front.length := by
      simp only [scripted, script]
      omega
    have one : ([newline] : List UInt8).length ≤ bufferSize cfg := positive
    rw [writeWhile, if_neg (by omega)]
    dsimp only
    rw [first, Int.toNat_natCast, drop_left, writeWhile, if_pos one]
    exact ⟨_,rfl,rfl⟩
  obtain ⟨t,result,fifo⟩ := wrote { stdio_stream_init cfg ([],
    [some front.length]) with buf_mode := .IOLBF }
    rfl
  simp only [stdio_write, scriptedOps, stdio_stream_init, size, unseen, lineEnd, writeBlock,
    Fifo.count, Fifo.empty_items, length_nil, sum, if_pos (Nat.lt_succ_of_le more), flushed]
    at result ⊢
  have empty : t.fifo_write = Fifo.empty := fifo
  have room : (Fifo.empty : Fifo UInt8 (bufferSize cfg)).count + ([newline] : List UInt8).length ≤
      bufferSize cfg := by
    exact positive
  simp [result, empty, Fifo.pushbackArray_items room]

/-- An error code of -256 is 0 as an `error_t` of 8 bits, so a line goes to the device before the
    bytes that the failed flush has put back; and a line of `2 ^ 31` bytes leaves its end in the
    buffer. -/
theorem lines_reordered_and_kept :
    (∃ results t, run (scriptedOps (-256) (by decide)) 300 [.write [97], .write [98, newline]]
        { stdio_stream_init build32 ([], [none]) with buf_mode := .IOLBF } = some (results, t) ∧
      ¬ ∃ bytes, t.hndl.1 ++ t.fifo_write.items = [] ++ bytes ∧ Written results bytes) ∧
    (∃ t, stdio_write (scriptedOps (-11) (by decide)) 3
        { stdio_stream_init build32 ([], [some (2 ^ 31 - 1)]) with buf_mode := .IOLBF }
        (List.replicate (2 ^ 31 - 1) 97 ++ [newline]) = some (0, t) ∧
          t.fifo_write.items = [newline]) := by
  constructor
  · have value : (run (scriptedOps (-256) (by decide)) 300 [.write [97], .write [98, newline]]
        { stdio_stream_init build32 ([], [none]) with buf_mode := .IOLBF }).map
        (fun x => (x.1, x.2.hndl.1, x.2.fifo_write.items)) =
        some ([(.write [97], 0), (.write [98, newline], 0)], [98, newline], [97]) := by
      decide +kernel
    obtain ⟨⟨results,t⟩,result,parts⟩ := map_eq_some_iff.mp value
    simp only [Prod.mk.injEq] at parts
    obtain ⟨rfl,device,buffer⟩ := parts
    refine ⟨_,t,result,?_⟩
    rintro ⟨bytes,same,written⟩
    rw [device] at same
    cases written with
    | wrote tail =>
      simp at same
    | failed error first tail => exact error rfl
  · have line := long_line_kept build32 (List.replicate (2 ^ 31 - 1) 97)
      (by rw [length_replicate]; decide) (by rw [length_replicate]; decide)
    rw [length_replicate] at line
    obtain ⟨⟨res,t⟩,result,parts⟩ := map_eq_some_iff.mp line
    simp only [Prod.mk.injEq] at parts
    obtain ⟨rfl,buffer⟩ := parts
    exact ⟨t,result,buffer⟩

end MutekStdioWrite
