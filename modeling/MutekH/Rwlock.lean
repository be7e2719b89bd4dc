import MutekH.Lib.Machine
import MutekH.Lib.FixedWidth
import MutekH.WaitQueue
import Mathlib.Data.List.Perm.Basic

/-!
Read/write locks. Unlocking hands the lock directly to one queued writer or to
the whole batch of queued readers, so a context becomes a holder when it is
popped, before it runs again. The counter is an `int_fast8_t` of `w` bits.
-/
namespace MutekRwlock
open List LibMachine LibFixedWidth MutekWaitQueue
variable {T : Type}

structure Rwlock (T : Type) where
  count : Int
  wait_rd : List T
  wait_wr : List T
  deriving DecidableEq, Repr

def rwlock_init : Rwlock T := ⟨0, [], []⟩

variable (w : Nat) (l : Rwlock T)

def rwlock_rdlock (self : T) : Rwlock T × Outcome :=
  -- check write locked or write lock pending
  if l.count < 0 ∨ l.wait_wr ≠ [] then
    ({ l with wait_rd := sched_wait_unlock l.wait_rd self }, .waits)
  else ({ l with count := sint w (l.count + 1) }, .returned 0)

def rwlock_tryrdlock : Rwlock T × Int :=
  if l.count < 0 ∨ l.wait_wr ≠ [] then (l, -EBUSY)
  else ({ l with count := sint w (l.count + 1) }, 0)

def rwlock_wrlock (self : T) : Rwlock T × Outcome :=
  if l.count ≠ 0 then ({ l with wait_wr := sched_wait_unlock l.wait_wr self }, .waits)
  else ({ l with count := sint w (l.count - 1) }, .returned 0)

-- `res` is set to -EBUSY on a busy lock, but the function ends in `return 0`.
def rwlock_trywrlock : Rwlock T × Int :=
  if l.count ≠ 0 then (l, 0)
  else ({ l with count := sint w (l.count - 1) }, 0)

def wakeReaders (w : Nat) : Int → List T → Int
  | count, [] => count
  | count, _ :: rest => wakeReaders w (sint w (count + 1)) rest

theorem wakeReaders_sint (xs : List T) :
    ∀ count, wakeReaders w (sint w count) xs = sint w (count + xs.length) := by
  induction xs with
  | nil => intro count; simp [wakeReaders]
  | cons x xs ih => ?_
  intro count
  unfold wakeReaders
  rw [sint_add_sint, ih, length_cons]
  congr 1
  omega

theorem wakeReaders_zero (xs : List T) : wakeReaders w 0 xs = sint w xs.length := by
  have zero := wakeReaders_sint w xs 0
  rwa [sint_of_fits (fits_zero w), Int.zero_add] at zero

structure Handoff (T : Type) where
  writer : Option T
  readers : List T
  deriving DecidableEq, Repr

def rwlock_unlock (debug : Bool) (l : Rwlock T) : Rwlock T × Int × Handoff T :=
  if l.count = 1 ∨ l.count = -1 then
    match sched_wake l.wait_wr with
    | (some t, rest) => (⟨sint w (0 - 1), l.wait_rd, rest⟩, 0, ⟨some t, []⟩)
    | (none, rest) => (⟨wakeReaders w 0 l.wait_rd, [], rest⟩, 0, ⟨none, l.wait_rd⟩)
  else if debug ∧ l.count = 0 then (l, -EPERM, ⟨none, []⟩)
  else ({ l with count := sint w (l.count - 1) }, 0, ⟨none, []⟩)

/-- The lock and its holders. A reader may hold it several times. -/
structure System (T : Type) where
  lock : Rwlock T
  writers : List T
  readers : List T
  deriving DecidableEq, Repr

inductive Call (T : Type) where
  | rdlock (self : T)
  | tryrdlock (self : T)
  | wrlock (self : T)
  | trywrlock (self : T)
  | unlock (self : T)
  deriving DecidableEq, Repr

def boot : System T := ⟨rwlock_init, [], []⟩

/-- The counter tells who holds the lock, and a free lock has nobody waiting. -/
structure Protocol (s : System T) : Prop where
  counted : (s.writers.length = 1 ∧ s.readers = [] ∧ s.lock.count = -1) ∨
    (s.writers = [] ∧ s.lock.count = s.readers.length)
  served : s.lock.count = 0 → s.lock.wait_rd = [] ∧ s.lock.wait_wr = []

def grantRead (s : System T) (self : T) : System T :=
  { s with
    lock := { s.lock with count := sint w (s.lock.count + 1) }
    readers := self :: s.readers }

def grantWrite (s : System T) (self : T) : System T :=
  { s with
    lock := { s.lock with count := sint w (s.lock.count - 1) }
    writers := self :: s.writers }

theorem grantRead_iff {w : Nat} {s : System T} {self : T} (wide : 1 ≤ w)
    (p : Protocol s) (free : ¬ (s.lock.count < 0 ∨ s.lock.wait_wr ≠ [])) :
    Protocol (grantRead w s self) ↔ Fits w (s.lock.count + 1) := by
  have shared : s.writers = [] ∧ s.lock.count = s.readers.length := by
    rcases p.counted with ⟨_,_,count⟩ | shared
    · exact absurd (.inl (by omega)) free
    · exact shared
  obtain ⟨none,count⟩ := shared
  constructor
  · intro q
    apply (sint_eq_self_iff wide _).mp
    rcases q.counted with ⟨one,_,_⟩ | ⟨_,after⟩
    · simp [grantRead, none] at one
    · simp only [grantRead] at after
      rw [after, count]
      rfl
  intro fits
  constructor
  · apply Or.inr
    simp only [grantRead, none, sint_of_fits fits, length_cons, true_and]
    omega
  · intro zero
    simp only [grantRead, sint_of_fits fits] at zero
    omega

theorem grantWrite_protocol {w : Nat} {s : System T} {self : T} (wide : 1 ≤ w)
    (p : Protocol s) (free : s.lock.count = 0) :
    Protocol (grantWrite w s self) := by
  have down : sint w (-1) = -1 := sint_of_fits (fits_minus_one wide)
  rcases p.counted with ⟨_,_,count⟩ | ⟨none,count⟩
  · omega
  have empty : s.readers = [] := by
    apply eq_nil_of_length_eq_zero
    omega
  constructor
  · apply Or.inl
    simp [grantWrite, none, empty, free, down]
  · intro zero
    simp [grantWrite, free, down] at zero

section machine
variable [DecidableEq T]

def release (s : System T) (self : T) : System T :=
  if self ∈ s.writers then { s with writers := s.writers.erase self }
  else { s with readers := s.readers.erase self }

def call (w : Nat) (debug : Bool) (s : System T) : Call T → System T
  | .rdlock self =>
      let r := rwlock_rdlock w s.lock self
      match r.2 with
      | .waits => { s with lock := r.1 }
      | .returned _ => { s with lock := r.1, readers := self :: s.readers }
  | .tryrdlock self =>
      let r := rwlock_tryrdlock w s.lock
      if r.1.count = s.lock.count then { s with lock := r.1 }
      else { s with lock := r.1, readers := self :: s.readers }
  | .wrlock self =>
      let r := rwlock_wrlock w s.lock self
      match r.2 with
      | .waits => { s with lock := r.1 }
      | .returned _ => { s with lock := r.1, writers := self :: s.writers }
  | .trywrlock self =>
      let r := rwlock_trywrlock w s.lock
      if r.1.count = s.lock.count then { s with lock := r.1 }
      else { s with lock := r.1, writers := self :: s.writers }
  | .unlock self =>
      let r := rwlock_unlock w debug s.lock
      let t := release s self
      ⟨r.1, r.2.2.writer.toList ++ t.writers, r.2.2.readers ++ t.readers⟩

def caller : Call T → T
  | .rdlock self | .tryrdlock self | .wrlock self | .trywrlock self | .unlock self => self

def CanCall (s : System T) (a : Call T) : Prop :=
  caller a ∉ s.lock.wait_rd ∧ caller a ∉ s.lock.wait_wr ∧
    match a with
    | .unlock self => self ∈ s.writers ∨ self ∈ s.readers
    | _ => True

instance (s : System T) (a : Call T) : Decidable (CanCall s a) := by
  cases a <;> exact instDecidableAnd

def machine (T : Type) [DecidableEq T] (w : Nat) (debug : Bool) :
    Machine (System T) (Call T) where
  start s := s = boot
  enabled := CanCall
  next := call w debug

instance (w : Nat) (debug : Bool) (s : System T) (a : Call T) :
    Decidable ((machine T w debug).enabled s a) :=
  inferInstanceAs (Decidable (CanCall s a))

/-- A try call that returns 0 has added its caller to the holders; one that
    returns another value has changed nothing. -/
def Honest (w : Nat) (debug : Bool) (s : System T) : Call T → Prop
  | .tryrdlock self =>
      if (rwlock_tryrdlock w s.lock).2 = 0 then
        (call w debug s (.tryrdlock self)).readers = self :: s.readers
      else call w debug s (.tryrdlock self) = s
  | .trywrlock self =>
      if (rwlock_trywrlock w s.lock).2 = 0 then
        (call w debug s (.trywrlock self)).writers = self :: s.writers
      else call w debug s (.trywrlock self) = s
  | _ => True

/-- `rwlock_trywrlock` meets a free lock only, and no grant to readers takes the
    counter out of its type. -/
def InDomain (w : Nat) (s : System T) : Call T → Prop
  | .rdlock _ | .tryrdlock _ =>
      ¬ s.lock.count < 0 → s.lock.wait_wr = [] → Fits w (s.lock.count + 1)
  | .wrlock _ => True
  | .trywrlock _ => s.lock.count = 0
  | .unlock _ =>
      s.lock.count = 1 ∨ s.lock.count = -1 → s.lock.wait_wr = [] →
        Fits w s.lock.wait_rd.length

instance (w : Nat) (s : System T) (a : Call T) : Decidable (InDomain w s a) := by
  cases a <;> unfold InDomain <;> infer_instance

section calls
variable (w : Nat) (debug : Bool) {s : System T} (self : T)

theorem rdlock_waits (busy : s.lock.count < 0 ∨ s.lock.wait_wr ≠ []) :
    call w debug s (.rdlock self) =
      { s with lock := { s.lock with wait_rd := s.lock.wait_rd ++ [self] } } := by
  simp [call, rwlock_rdlock, if_pos busy, sched_wait_unlock]

theorem rdlock_granted (free : ¬ (s.lock.count < 0 ∨ s.lock.wait_wr ≠ [])) :
    call w debug s (.rdlock self) = grantRead w s self := by
  simp [call, rwlock_rdlock, if_neg free, grantRead]

theorem tryrdlock_refused (busy : s.lock.count < 0 ∨ s.lock.wait_wr ≠ []) :
    (rwlock_tryrdlock w s.lock).2 = -EBUSY ∧ call w debug s (.tryrdlock self) = s := by
  simp [call, rwlock_tryrdlock, if_pos busy]

theorem tryrdlock_granted (wide : 1 ≤ w) (free : ¬ (s.lock.count < 0 ∨ s.lock.wait_wr ≠ [])) :
    (rwlock_tryrdlock w s.lock).2 = 0 ∧ call w debug s (.tryrdlock self) = grantRead w s self := by
  have moved := sint_succ_ne wide s.lock.count
  simp [call, rwlock_tryrdlock, if_neg free, if_neg moved, grantRead]

theorem wrlock_waits (busy : s.lock.count ≠ 0) : call w debug s (.wrlock self) =
      { s with lock := { s.lock with wait_wr := s.lock.wait_wr ++ [self] } } := by
  simp [call, rwlock_wrlock, if_pos busy, sched_wait_unlock]

theorem wrlock_granted (free : s.lock.count = 0) :
    call w debug s (.wrlock self) = grantWrite w s self := by
  simp [call, rwlock_wrlock, free, grantWrite]

theorem trywrlock_ignored (busy : s.lock.count ≠ 0) :
    (rwlock_trywrlock w s.lock).2 = 0 ∧ call w debug s (.trywrlock self) = s := by
  simp [call, rwlock_trywrlock, if_pos busy]

theorem trywrlock_granted (wide : 1 ≤ w) (free : s.lock.count = 0) :
    (rwlock_trywrlock w s.lock).2 = 0 ∧ call w debug s (.trywrlock self) = grantWrite w s self := by
  have moved : ¬ sint w (s.lock.count - 1) = s.lock.count := by
    intro same
    rw [free] at same
    rw [Int.zero_sub, sint_of_fits (fits_minus_one wide)] at same
    omega
  have busy : ¬ s.lock.count ≠ 0 := fun no => no free
  simp [call, rwlock_trywrlock, if_neg busy, if_neg moved, grantWrite]

theorem unlock_to_writer (last : s.lock.count = 1 ∨ s.lock.count = -1)
    (queue : s.lock.wait_wr = t :: rest) :
    call w debug s (.unlock self) =
      ⟨⟨sint w (0 - 1), s.lock.wait_rd, rest⟩, t :: (release s self).writers,
        (release s self).readers⟩ := by
  simp [call, rwlock_unlock, if_pos last, queue]

theorem unlock_to_readers (last : s.lock.count = 1 ∨ s.lock.count = -1)
    (queue : s.lock.wait_wr = []) :
    call w debug s (.unlock self) =
      ⟨⟨sint w s.lock.wait_rd.length, [], []⟩, (release s self).writers,
        s.lock.wait_rd ++ (release s self).readers⟩ := by
  simp [call, rwlock_unlock, if_pos last, queue, wakeReaders_zero]

end calls

section
variable {s : System T} {self : T} (p : Protocol s) (holder : self ∈ s.writers ∨ self ∈ s.readers)
include p holder

theorem release_last (last : s.lock.count = 1 ∨ s.lock.count = -1) :
    (release s self).writers = [] ∧ (release s self).readers = [] := by
  rcases p.counted with ⟨one,none,_⟩ | ⟨none,count⟩
  · obtain ⟨t,only⟩ := length_eq_one_iff.mp one
    have same : self = t := by simpa [none, only] using holder
    simp [release, only, none, same]
  · have one : s.readers.length = 1 := by omega
    obtain ⟨t,only⟩ := length_eq_one_iff.mp one
    have same : self = t := by simpa [none, only] using holder
    simp [release, only, none, same]

theorem release_shared (shared : ¬ (s.lock.count = 1 ∨ s.lock.count = -1)) :
    (release s self).writers = [] ∧ 2 ≤ s.lock.count ∧
      s.lock.count = (release s self).readers.length + 1 := by
  rcases p.counted with ⟨_,_,count⟩ | ⟨none,count⟩
  · exact absurd (.inr count) shared
  have member : self ∈ s.readers := by simpa [none] using holder
  have pos : 0 < s.readers.length := length_pos_of_mem member
  have shrunk := length_erase_of_mem member
  simp only [release, none, not_mem_nil, ↓reduceIte]
  refine ⟨trivial,by omega,by omega⟩

end

section steps
variable {w : Nat} {debug : Bool} {s : System T} {self : T}

section
variable (wide : 1 ≤ w) (p : Protocol s)
include wide p

theorem rdlock_protocol_iff :
    Protocol (call w debug s (.rdlock self)) ↔ InDomain w s (.rdlock self) := by
  by_cases busy : s.lock.count < 0 ∨ s.lock.wait_wr ≠ []
  · rw [rdlock_waits w debug self busy]
    have held : s.lock.count ≠ 0 := by
      intro zero
      have free := (p.served zero).2
      rcases busy with low | queue
      · omega
      · exact queue free
    constructor
    · intro _ low free
      rcases busy with low' | queue
      · exact absurd low' low
      · exact absurd free queue
    · intro _
      exact ⟨p.counted,fun zero => absurd zero held⟩
  · rw [rdlock_granted w debug self busy, grantRead_iff wide p busy]
    simp only [not_or, not_not] at busy
    simp [InDomain, busy.1, busy.2]

theorem wrlock_protocol : Protocol (call w debug s (.wrlock self)) := by
  by_cases free : s.lock.count = 0
  · rw [wrlock_granted w debug self free]
    exact grantWrite_protocol wide p free
  · rw [wrlock_waits w debug self free]
    exact ⟨p.counted,fun zero => absurd zero free⟩

theorem unlock_protocol_iff (range : Fits w s.lock.count)
    (holder : self ∈ s.writers ∨ self ∈ s.readers) :
    Protocol (call w debug s (.unlock self)) ↔ InDomain w s (.unlock self) := by
  have down : sint w (-1) = -1 := sint_of_fits (fits_minus_one wide)
  by_cases last : s.lock.count = 1 ∨ s.lock.count = -1
  · obtain ⟨writers,readers⟩ := release_last p holder last
    cases queue : s.lock.wait_wr with
    | cons t rest =>
      rw [unlock_to_writer w debug self last queue, writers, readers, Int.zero_sub, down]
      constructor
      · intro _ _ empty
        simp [queue] at empty
      · intro _
        constructor
        · exact .inl ⟨rfl,rfl,rfl⟩
        · intro zero
          simp at zero
    | nil =>
      rw [unlock_to_readers w debug self last queue, writers, readers, append_nil]
      have domain : InDomain w s (.unlock self) ↔ Fits w s.lock.wait_rd.length := by
        simp [InDomain, last, queue]
      rw [domain, ← sint_eq_self_iff wide]
      constructor
      · intro q
        rcases q.counted with ⟨one,_,_⟩ | ⟨_,after⟩
        · simp at one
        · exact after
      · intro same
        constructor
        · exact .inr ⟨rfl,same⟩
        · intro _
          exact ⟨rfl,rfl⟩
  · obtain ⟨writers,many,count⟩ := release_shared p holder last
    have low : Fits w (s.lock.count - 1) :=
      fits_between (fits_zero w) range (by omega) (by omega)
    have some_holder : s.lock.count ≠ 0 := by omega
    simp only [call, rwlock_unlock, if_neg last, some_holder, and_false, if_false, writers,
      sint_of_fits low, nil_append]
    constructor
    · intro _ yes
      exact absurd yes last
    intro _
    constructor
    · apply Or.inr
      refine ⟨rfl,?_⟩
      simp only
      omega
    · intro zero
      simp only at zero
      omega

theorem tryrdlock_exact :
    Honest w debug s (.tryrdlock self) ∧ Protocol (call w debug s (.tryrdlock self)) ↔
      InDomain w s (.tryrdlock self) := by
  by_cases busy : s.lock.count < 0 ∨ s.lock.wait_wr ≠ []
  · obtain ⟨res,same⟩ := tryrdlock_refused w debug self busy
    have nonzero : ¬ (-EBUSY : Int) = 0 := by decide
    simp only [Honest, res, if_neg nonzero, same, true_and]
    constructor
    · intro _ low free
      rcases busy with low' | queue
      · exact absurd low' low
      · exact absurd free queue
    · intro _
      exact p
  · obtain ⟨res,same⟩ := tryrdlock_granted w debug self wide busy
    rw [same, grantRead_iff wide p busy]
    simp only [not_or, not_not] at busy
    simp [Honest, res, same, grantRead, InDomain, busy.1, busy.2]

theorem trywrlock_exact :
    Honest w debug s (.trywrlock self) ∧ Protocol (call w debug s (.trywrlock self)) ↔
      InDomain w s (.trywrlock self) := by
  by_cases free : s.lock.count = 0
  · obtain ⟨res,same⟩ := trywrlock_granted w debug self wide free
    rw [same]
    constructor
    · intro _
      exact free
    · intro _
      refine ⟨?_,grantWrite_protocol wide p free⟩
      simp [Honest, res, same, grantWrite]
  · -- The call reports success without having taken the lock.
    obtain ⟨res,same⟩ := trywrlock_ignored w debug self free
    constructor
    · rintro ⟨honest,_⟩
      simp [Honest, res, same] at honest
    · intro zero
      exact absurd zero free

theorem call_exact (range : Fits w s.lock.count) (can : CanCall s a) :
    Honest w debug s a ∧ Protocol (call w debug s a) ↔ InDomain w s a := by
  cases a with
  | rdlock self => simpa [Honest] using rdlock_protocol_iff wide p
  | tryrdlock self => exact tryrdlock_exact wide p
  | wrlock self => simpa [Honest, InDomain] using wrlock_protocol wide p
  | trywrlock self => exact trywrlock_exact wide p
  | unlock self => simpa [Honest] using unlock_protocol_iff wide p range can.2.2

end

theorem call_fits (wide : 1 ≤ w) (range : Fits w s.lock.count) (a : Call T) :
    Fits w (call w debug s a).lock.count := by
  have stored := fits_sint wide
  cases a with
  | rdlock self =>
    by_cases busy : s.lock.count < 0 ∨ s.lock.wait_wr ≠ []
    · rw [rdlock_waits w debug self busy]
      exact range
    · rw [rdlock_granted w debug self busy]
      exact stored _
  | tryrdlock self =>
    by_cases busy : s.lock.count < 0 ∨ s.lock.wait_wr ≠ []
    · rw [(tryrdlock_refused w debug self busy).2]
      exact range
    · rw [(tryrdlock_granted w debug self wide busy).2]
      exact stored _
  | wrlock self =>
    by_cases free : s.lock.count = 0
    · rw [wrlock_granted w debug self free]
      exact stored _
    · rw [wrlock_waits w debug self free]
      exact range
  | trywrlock self =>
    by_cases free : s.lock.count = 0
    · rw [(trywrlock_granted w debug self wide free).2]
      exact stored _
    · rw [(trywrlock_ignored w debug self free).2]
      exact range
  | unlock self =>
    by_cases last : s.lock.count = 1 ∨ s.lock.count = -1
    · cases queue : s.lock.wait_wr with
      | cons t rest =>
        rw [unlock_to_writer w debug self last queue]
        exact stored _
      | nil =>
        rw [unlock_to_readers w debug self last queue]
        exact stored _
    · simp only [call, rwlock_unlock, if_neg last]
      split
      · exact range
      · exact stored _

end steps

theorem protocol_reached {w : Nat} {debug : Bool} (wide : 1 ≤ w) {s : System T}
    (h : Reached (restrict (machine T w debug) (InDomain w)) s) :
    Protocol s ∧ Fits w s.lock.count := by
  refine reached_invariant (fun s => Protocol s ∧ Fits w s.lock.count) ?_ ?_ h
  · rintro s rfl
    exact ⟨⟨.inr ⟨rfl,rfl⟩,fun _ => ⟨rfl,rfl⟩⟩,fits_zero w⟩
  · rintro s a ⟨p,range⟩ ⟨can,domain⟩
    exact ⟨((call_exact wide p range can).mpr domain).2,call_fits wide range a⟩

/-- In every run whose calls are in the domain the protocol holds at every point,
    and a call made there keeps it exactly when it is in the domain too. -/
theorem protocol_exactly_in_domain (w : Nat) (debug : Bool) (wide : 8 ≤ w) {s : System T}
    (h : Reached (restrict (machine T w debug) (InDomain w)) s) :
    Protocol s ∧ ∀ a, CanCall s a →
      (Honest w debug s a ∧ Protocol (call w debug s a) ↔ InDomain w s a) := by
  obtain ⟨p,range⟩ := protocol_reached (by omega) h
  exact ⟨p,fun a can => call_exact (by omega) p range can⟩

/-- A reader and a queued writer: the unlock hands the lock to the writer. -/
theorem protocol_exactly_in_domain_handoff :
    let s := after (machine Nat 8 false) boot [.rdlock 0, .wrlock 1, .unlock 0]
    s.writers = [1] ∧ Protocol s := by
  intro s
  have reached : Reached (restrict (machine Nat 8 false) (InDomain 8)) s :=
    reached_of_allowed (restrict (machine Nat 8 false) (InDomain 8)) boot
      [.rdlock 0, .wrlock 1, .unlock 0] rfl (by decide)
  exact ⟨by decide,(protocol_exactly_in_domain 8 false (by decide) reached).1⟩

/-- While a reader holds the lock, a second context is told that it has the lock for writing. -/
theorem trywrlock_lies :
    let s := after (machine Nat 8 false) boot [.rdlock 0]
    Reached (machine Nat 8 false) s ∧ CanCall s (.trywrlock 1) ∧ (rwlock_trywrlock 8 s.lock).2 = 0 ∧
      1 ∉ (call 8 false s (.trywrlock 1)).writers ∧ ¬ Honest 8 false s (.trywrlock 1) := by
  intro s
  have reached : Reached (machine Nat 8 false) s :=
    reached_of_allowed (machine Nat 8 false) boot [.rdlock 0] rfl (by decide)
  refine ⟨reached,by decide,by decide,by decide,?_⟩
  simp only [Honest]
  decide

end machine

end MutekRwlock
