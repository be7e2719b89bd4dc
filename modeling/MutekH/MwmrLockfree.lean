import MutekH.Lib.Machine
import MutekH.Lib.Tally
import Mathlib.Logic.Function.Basic
import Mathlib.Algebra.Ring.Nat

/-!
The lock-free MWMR FIFO. A read unit takes bytes from the data side of the status
words and gives them back on the free side, a write unit the other way round; both
go through the same five accesses: take from the size, get a place at the tail,
copy, move the head on in order, add to the size of the other side. A load and the
compare-and-swap after it are separate steps, and so is the copy of each byte.
-/
namespace MutekMwmrLockfree
open Function LibMachine LibTally

/-- The words of `struct mwmr_status_s` come in two sides, data and free. -/
inductive Side where
  | data
  | free
  deriving DecidableEq, Repr

def Side.other : Side → Side
  | .data => .free
  | .free => .data

def word (n : Nat) : Nat := n % 2 ^ 32

def sub_minz (oldval tosub : Nat) : Nat := if tosub > oldval then oldval else tosub

def add_wrap (oldval val mod : Nat) : Nat :=
  if word (oldval + val) ≥ mod then word (oldval + val) - mod else word (oldval + val)

def cell (gdepth ptr xfer_size k : Nat) : Nat :=
  if word (ptr + xfer_size) > gdepth then
    if k < gdepth - ptr then ptr + k else k - (gdepth - ptr)
  else ptr + k

def future_ptr (gdepth ptr xfer_size : Nat) : Nat :=
  if word (ptr + xfer_size) > gdepth then xfer_size - (gdepth - ptr)
  else if word (ptr + xfer_size) = gdepth then 0 else word (ptr + xfer_size)

/-- Where a thread is in its unit on the side `d` it takes from. `first` is the
    stream number of the unit's first byte, `copied` the bytes already copied. -/
inductive Pc where
  | idle
  | subLoad (d : Side) (user_len : Nat)
  | subSwap (d : Side) (user_len oldval : Nat)
  | wrapLoad (d : Side) (xfer_size : Nat)
  | wrapSwap (d : Side) (xfer_size oldval : Nat)
  | copy (d : Side) (xfer_size ptr first : Nat) (copied : List Nat)
  | headSwap (d : Side) (xfer_size ptr first : Nat)
  | addLoad (d : Side) (xfer_size first : Nat)
  | addSwap (d : Side) (xfer_size first oldval : Nat)
  deriving DecidableEq, Repr

structure Status where
  size : Side → Nat
  tail : Side → Nat
  head : Side → Nat

/-- The copy of one byte: into the ring by a unit on the free side, out of it by one
    on the data side. -/
structure Copy where
  side : Side
  number : Nat
  cell : Nat
  deriving DecidableEq, Repr

structure Done (B : Type) where
  side : Side
  first : Nat
  bytes : List B

/-- `user` is the buffer of the thread's call. The rest is history: how many bytes
    have got a number on each side, how far the two heads are in stream numbers
    (the free side is ahead by `gdepth`), the stream that the write units make, the
    byte copies, the last first, and the finished units. -/
structure State (T B : Type) where
  status : Status
  buffer : Nat → B
  pc : T → Pc
  user : T → Nat → B
  given : Side → Nat
  heads : Side → Nat
  written : List B
  log : List Copy
  completed : List (Done B)

section
variable {T B : Type} [DecidableEq T] (gdepth : Nat)

variable (s : State T B) (t : T)

def goto (p : Pc) : State T B :=
  { s with pc := update s.pc t p }

def setSize (d : Side) (n : Nat) : State T B :=
  { s with status := { s.status with size := update s.status.size d n } }

def unitBytes (n : Nat) : List B := (List.range n).map (s.user t)

def takePlace (d : Side) (xfer_size oldval : Nat) : State T B :=
  { s with
    status := { s.status with
      tail := update s.status.tail d (add_wrap oldval xfer_size gdepth) }
    given := update s.given d (s.given d + xfer_size)
    written := match d with
      | .free => s.written ++ unitBytes s t xfer_size
      | .data => s.written
    pc := update s.pc t (.copy d xfer_size oldval (s.given d) []) }

def moveHead (d : Side) (xfer_size ptr first : Nat) : State T B :=
  { s with
    status := { s.status with
      head := update s.status.head d.other (future_ptr gdepth ptr xfer_size) }
    heads := update s.heads d.other (s.heads d.other + xfer_size)
    pc := update s.pc t (.addLoad d xfer_size first) }

def finish (d : Side) (xfer_size first oldval : Nat) : State T B :=
  { setSize s d.other (word (oldval + xfer_size)) with
    completed := ⟨d, first, unitBytes s t xfer_size⟩ :: s.completed
    pc := update s.pc t .idle }

/-- The next atomic access of a thread. A compare-and-swap that finds another value
    goes back to the load, the one on the head is simply made again. -/
def step : State T B :=
  match s.pc t with
  | .idle => s
  | .subLoad d user_len =>
    let oldval := s.status.size d
    if sub_minz oldval user_len = 0 then goto s t .idle else goto s t (.subSwap d user_len oldval)
  | .subSwap d user_len oldval =>
    if s.status.size d = oldval then
      goto (setSize s d (oldval - sub_minz oldval user_len)) t
        (.wrapLoad d (sub_minz oldval user_len))
    else goto s t (.subLoad d user_len)
  | .wrapLoad d xfer_size => goto s t (.wrapSwap d xfer_size (s.status.tail d))
  | .wrapSwap d xfer_size oldval =>
    if s.status.tail d = oldval then takePlace gdepth s t d xfer_size oldval
    else goto s t (.wrapLoad d xfer_size)
  | .copy d xfer_size ptr first _ => goto s t (.headSwap d xfer_size ptr first)
  | .headSwap d xfer_size ptr first =>
    if s.status.head d.other = ptr then moveHead gdepth s t d xfer_size ptr first else s
  | .addLoad d xfer_size first => goto s t (.addSwap d xfer_size first (s.status.size d.other))
  | .addSwap d xfer_size first oldval =>
    if s.status.size d.other = oldval then finish s t d xfer_size first oldval
    else goto s t (.addLoad d xfer_size first)

def copyByte (k : Nat) : State T B :=
  match s.pc t with
  | .copy d xfer_size ptr first copied =>
    let c := cell gdepth ptr xfer_size k
    let s := { goto s t (.copy d xfer_size ptr first (k :: copied)) with
      log := ⟨d, first + k, c⟩ :: s.log }
    match d with
    | .free => { s with buffer := update s.buffer c (s.user t k) }
    | .data => { s with user := update s.user t (update (s.user t) k (s.buffer c)) }
  | _ => s

inductive Act (T B : Type) where
  | mwmr_read_unit (t : T) (user_len : Nat)
  | mwmr_write_unit (t : T) (user_buffer : Nat → B) (user_len : Nat)
  | step (t : T)
  | copy (t : T) (k : Nat)

/-- `if ( user_len > gdepth ) user_len = gdepth;` -/
def clip (user_len : Nat) : Nat := if user_len > gdepth then gdepth else user_len

def next : Act T B → State T B
  | .mwmr_read_unit t user_len => goto s t (.subLoad .data (clip gdepth user_len))
  | .mwmr_write_unit t user_buffer user_len =>
    { goto s t (.subLoad .free (clip gdepth user_len)) with
      user := update s.user t user_buffer }
  | .step t => step gdepth s t
  | .copy t k => copyByte gdepth s t k

/-- The bytes of a unit may be copied in any order, each once; the head is moved after
    all of them. -/
def CanCopy : Pc → Nat → Prop
  | .copy _ xfer_size _ _ copied, k => k < xfer_size ∧ k ∉ copied
  | _, _ => False

def CanStep : Pc → Prop
  | .idle => False
  | .copy _ xfer_size _ _ copied => copied.length = xfer_size
  | _ => True

def Enabled : Act T B → Prop
  | .mwmr_read_unit t _ => s.pc t = .idle
  | .mwmr_write_unit t _ _ => s.pc t = .idle
  | .step t => CanStep (s.pc t)
  | .copy t k => CanCopy (s.pc t) k

instance : (p : Pc) → (k : Nat) → Decidable (CanCopy p k)
  | .copy _ _ _ _ _, _ => instDecidableAnd
  | .idle, _ | .subLoad _ _, _ | .subSwap _ _ _, _ | .wrapLoad _ _, _ | .wrapSwap _ _ _, _
  | .headSwap _ _ _ _, _ | .addLoad _ _ _, _ | .addSwap _ _ _ _, _ => isFalse id

instance : (p : Pc) → Decidable (CanStep p)
  | .idle => isFalse id
  | .copy _ _ _ _ _ => inferInstanceAs (Decidable (_ = _))
  | .subLoad _ _ | .subSwap _ _ _ | .wrapLoad _ _ | .wrapSwap _ _ _
  | .headSwap _ _ _ _ | .addLoad _ _ _ | .addSwap _ _ _ _ => isTrue trivial

def Boot : Prop :=
  s.status.size .free = gdepth ∧ s.status.size .data = 0 ∧ (∀ d, s.status.tail d = 0) ∧
  (∀ d, s.status.head d = 0) ∧ (∀ t, s.pc t = .idle) ∧ (∀ d, s.given d = 0) ∧
  s.heads .data = 0 ∧ s.heads .free = gdepth ∧ s.written = [] ∧ s.log = [] ∧ s.completed = []

def machine (T B : Type) [DecidableEq T] : Machine (State T B) (Act T B) where
  start := Boot gdepth
  enabled := Enabled
  next := next gdepth

instance (s : State T B) : (a : Act T B) → Decidable ((machine gdepth T B).enabled s a)
  | .mwmr_read_unit t _ => inferInstanceAs (Decidable (s.pc t = .idle))
  | .mwmr_write_unit t _ _ => inferInstanceAs (Decidable (s.pc t = .idle))
  | .step t => inferInstanceAs (Decidable (CanStep (s.pc t)))
  | .copy t k => inferInstanceAs (Decidable (CanCopy (s.pc t) k))

end

/-- Each copy in the log uses the ring cell of its number, is the only one of its
    kind with that number, and came late enough: a byte is read after its copy into
    the ring, and a cell is written after the read of the byte before. -/
def Ordered (gdepth : Nat) : List Copy → Prop
  | [] => True
  | c :: earlier =>
    c.cell = c.number % gdepth ∧
    (∀ e ∈ earlier, e.side = c.side → e.number ≠ c.number) ∧
    (match c.side with
      | .data => ⟨.free, c.number, c.cell⟩ ∈ earlier
      | .free => gdepth ≤ c.number → ⟨.data, c.number - gdepth, c.cell⟩ ∈ earlier) ∧
    Ordered gdepth earlier

def Apart {B : Type} (u v : Done B) : Prop :=
  u.side = v.side → u.first + u.bytes.length ≤ v.first ∨ v.first + v.bytes.length ≤ u.first

structure Streamed {T B : Type} (gdepth : Nat) (s : State T B) : Prop where
  returned : ∀ u ∈ s.completed, u.first + u.bytes.length ≤ s.written.length ∧
    u.bytes = (s.written.drop u.first).take u.bytes.length
  once : s.completed.Pairwise Apart
  read : ∀ u ∈ s.completed, ∀ k < u.bytes.length,
    ⟨u.side, u.first + k, (u.first + k) % gdepth⟩ ∈ s.log
  copies : Ordered gdepth s.log

end MutekMwmrLockfree
