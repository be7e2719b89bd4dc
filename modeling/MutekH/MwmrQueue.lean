import MutekH.Lib.Ring

/-!
The queue behind the lock-based MWMR FIFOs. Both implementations move blocks
between a caller's memory and a ring by the same four assignments, one item at a
time or in the longest contiguous pieces; here is what such a move does to the
list of bytes that the ring represents.
-/
namespace MutekMwmrQueue
open LibRing

inductive Way where
  | read
  | write
  deriving DecidableEq, Repr

def Way.other : Way → Way
  | .read => .write
  | .write => .read

structure Fifo (B : Type) where
  rptr : Nat
  wptr : Nat
  usage : Nat
  buffer : Nat → B

/-- A try call that returned: what it was asked for and what it returned, the bytes it
    moved, whether it found the lock taken, and the usage it left behind. -/
structure Try (B : Type) where
  way : Way
  len : Nat
  ret : Nat
  moved : List B
  locked : Bool
  usage : Nat

/-- A try call returns the number of bytes it moved, which is less than it was asked for
    only if it found the FIFO locked, empty or full. -/
def Explained {B : Type} (gdepth : Nat) (r : Try B) : Prop :=
  r.ret = r.moved.length ∧
    (r.ret = r.len ∨ r.locked = true ∧ r.ret = 0 ∨ r.way = .read ∧ r.usage = 0 ∨
      r.way = .write ∧ r.usage = gdepth)

section
variable {B : Type} (gdepth : Nat)

def getBlock (f : Fifo B) (len : Nat) : Fifo B × List B :=
  ({ f with rptr := wrap gdepth (f.rptr + len), usage := f.usage - len },
    copyOut f.buffer f.rptr len)

def putBlock (f : Fifo B) (block : List B) : Fifo B :=
  { f with
    buffer := copyIn f.buffer f.wptr block
    wptr := wrap gdepth (f.wptr + block.length)
    usage := f.usage + block.length }

/-- The ring represents the list `q` of whole items. -/
structure Represents (width : Nat) (f : Fifo B) (q : List B) : Prop where
  bytes : q = contents gdepth f.buffer f.rptr f.usage
  bound : f.usage ≤ gdepth
  rptr : f.rptr < gdepth
  wptr : f.wptr = (f.rptr + f.usage) % gdepth
  rptr_items : width ∣ f.rptr
  usage_items : width ∣ f.usage

/-- The bytes inserted are those removed followed by what is in the ring, and the pointers
    and the usage fit. -/
structure IsQueue (width : Nat) (f : Fifo B) (inserted removed : List B) (tries : List (Try B)) :
    Prop where
  kept : inserted = removed ++ contents gdepth f.buffer f.rptr f.usage
  count : inserted.length = removed.length + f.usage
  bound : f.usage ≤ gdepth
  items : width ∣ f.usage
  rptr : f.rptr < gdepth
  wptr : f.wptr < gdepth ∧ f.wptr % gdepth = (f.rptr + f.usage) % gdepth
  tries : ∀ r ∈ tries, Explained gdepth r

end

section
variable {B : Type} {gdepth width : Nat} {f : Fifo B} {q : List B}

theorem wptr_items (items : width ∣ gdepth) (h : Represents gdepth width f q) : width ∣ f.wptr := by
  rw [h.wptr]
  exact (Nat.dvd_mod_iff items).mpr (Nat.dvd_add h.rptr_items h.usage_items)

theorem wptr_lt (h : Represents gdepth width f q) : f.wptr < gdepth := by
  rw [h.wptr]
  have := h.rptr
  exact Nat.mod_lt _ (by omega)

theorem room_for_item {a b : Nat} (less : a < b) (left : width ∣ a) (right : width ∣ b) :
    a + width ≤ b := by
  have gap : width ≤ b - a := Nat.le_of_dvd (by omega) (Nat.dvd_sub right left)
  omega

theorem get_represents (items : width ∣ gdepth) {len : Nat} (h : Represents gdepth width f q)
    (held : len ≤ f.usage) (straight : f.rptr + len ≤ gdepth) (whole : width ∣ len) :
    ∃ rest, q = (getBlock gdepth f len).2 ++ rest ∧
      Represents gdepth width (getBlock gdepth f len).1 rest := by
  have lower := h.rptr
  refine ⟨_,?_,rfl,?_,?_,?_,?_,?_⟩
  · rw [h.bytes]
    exact contents_copyOut held straight
  · exact Nat.le_trans (Nat.sub_le _ _) h.bound
  · exact wrap_lt (by omega) straight
  · simp only [getBlock]
    rw [h.wptr, wrap_eq_mod straight, Nat.mod_add_mod, Nat.add_assoc, Nat.add_sub_cancel' held]
  · simp only [getBlock]
    rw [wrap_eq_mod straight]
    exact (Nat.dvd_mod_iff items).mpr (Nat.dvd_add h.rptr_items whole)
  · exact Nat.dvd_sub h.usage_items whole

theorem put_represents {block : List B} (h : Represents gdepth width f q)
    (room : f.usage + block.length ≤ gdepth) (straight : f.wptr + block.length ≤ gdepth)
    (whole : width ∣ block.length) :
    Represents gdepth width (putBlock gdepth f block) (q ++ block) where
  bytes := by
    rw [h.bytes]
    exact (contents_copyIn h.wptr room straight).symm
  bound := room
  rptr := h.rptr
  wptr := by
    simp only [putBlock]
    rw [wrap_eq_mod straight, h.wptr, Nat.mod_add_mod, Nat.add_assoc]
  rptr_items := h.rptr_items
  usage_items := Nat.dvd_add h.usage_items whole

theorem empty_represents (positive : 0 < gdepth) (rptr : f.rptr = 0) (wptr : f.wptr = 0)
    (usage : f.usage = 0) : Represents gdepth width f [] where
  bytes := by simp [usage, contents]
  bound := by omega
  rptr := by omega
  wptr := by simp [rptr, wptr, usage]
  rptr_items := by simp [rptr]
  usage_items := by simp [usage]

theorem isQueue_of_represents {inserted removed : List B} {tries : List (Try B)}
    (h : Represents gdepth width f q) (kept : inserted = removed ++ q)
    (ended : ∀ r ∈ tries, Explained gdepth r) :
    IsQueue gdepth width f inserted removed tries where
  kept := by rw [kept, h.bytes]
  count := by rw [kept, List.length_append, h.bytes, contents_length]
  bound := h.bound
  items := h.usage_items
  rptr := h.rptr
  wptr := ⟨wptr_lt h, by rw [h.wptr, Nat.mod_mod]⟩
  tries := ended

end

end MutekMwmrQueue
