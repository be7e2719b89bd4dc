import MutekH.Lib.Machine
import MutekH.WaitQueue
import Mathlib.Algebra.Ring.Nat

/-!
The three pthread mutex types. `count` is an `uint_fast8_t` of `w` bits, and
`owner` is a context pointer whose null value is `none`; `pthread_mutex_init`
leaves it as it found it. Unlocking hands the mutex to the head of the wait
queue without going through a free state.
-/
namespace MutekPthreadMutex
open LibMachine MutekWaitQueue
variable {T : Type} [DecidableEq T]

structure Mutex (T : Type) where
  count : Nat
  owner : Option T
  wait : List T
  deriving DecidableEq, Repr

def pthread_mutex_init (stale : Option T) : Mutex T := ⟨0, stale, []⟩

def increment (w count : Nat) : Nat := (count + 1) % 2 ^ w
def decrement (w count : Nat) : Nat := (count + (2 ^ w - 1)) % 2 ^ w

theorem increment_eq {w count : Nat} (room : count + 1 < 2 ^ w) :
    increment w count = count + 1 := by
  exact Nat.mod_eq_of_lt room

theorem decrement_eq {w count : Nat} (pos : 1 ≤ count) (bound : count < 2 ^ w) :
    decrement w count = count - 1 := by
  unfold decrement
  have wraps : count + (2 ^ w - 1) = count - 1 + 2 ^ w := by omega
  rw [wraps, Nat.add_mod_right]
  exact Nat.mod_eq_of_lt (by omega)

inductive Kind where
  | normal
  | errorcheck
  | recursive
  deriving DecidableEq, Repr

variable (kind : Kind) (w : Nat) (m : Mutex T) (self : T)

/- PTHREAD_MUTEX_NORMAL -/

def pthread_mutex_normal_lock : Mutex T × Outcome :=
  if m.count ≠ 0 then ({ m with wait := sched_wait_unlock m.wait self }, .waits)
  else ({ m with count := increment w m.count }, .returned 0)

def pthread_mutex_normal_trylock : Mutex T × Int :=
  if m.count = 0 then ({ m with count := increment w m.count }, 0) else (m, EBUSY)

def pthread_mutex_normal_unlock : Mutex T × Int × Option T :=
  match sched_wake m.wait with
  | (some t, rest) => ({ m with wait := rest }, 0, some t)
  | (none, rest) => ({ m with count := decrement w m.count, wait := rest }, 0, none)

/- PTHREAD_MUTEX_ERRORCHECK -/

def pthread_mutex_errorcheck_lock : Mutex T × Outcome :=
  if m.count ≠ 0 then
    if m.owner = some self then (m, .returned EDEADLK)
    else ({ m with wait := sched_wait_unlock m.wait self }, .waits)
  else ({ m with owner := some self, count := increment w m.count }, .returned 0)

-- The branch that takes the mutex does not write `owner`.
def pthread_mutex_errorcheck_trylock : Mutex T × Int :=
  if m.count ≠ 0 then
    if m.owner = some self then (m, EDEADLK) else (m, EBUSY)
  else ({ m with count := increment w m.count }, 0)

-- `res` is set to EPERM or EBUSY for a caller that is not the owner, but the
-- function ends in `return 0`.
def pthread_mutex_errorcheck_unlock :
    Mutex T × Int × Option T :=
  if m.count ≠ 0 then
    if m.owner = some self then
      match sched_wake m.wait with
      | (some t, rest) => ({ m with owner := some t, wait := rest }, 0, some t)
      | (none, rest) => (⟨decrement w m.count, none, rest⟩, 0, none)
    else (m, 0, none)
  else (m, 0, none)

/- PTHREAD_MUTEX_RECURSIVE -/

def pthread_mutex_recursive_lock : Mutex T × Outcome :=
  if m.count ≠ 0 ∧ m.owner ≠ some self then
    ({ m with wait := sched_wait_unlock m.wait self }, .waits)
  else ({ m with owner := some self, count := increment w m.count }, .returned 0)

def pthread_mutex_recursive_trylock : Mutex T × Int :=
  if m.count ≠ 0 ∧ m.owner ≠ some self then (m, EBUSY)
  else ({ m with count := increment w m.count }, 0)

def pthread_mutex_recursive_unlock : Mutex T × Int × Option T :=
  if decrement w m.count = 0 then
    match sched_wake m.wait with
    | (some t, rest) => (⟨increment w (decrement w m.count), some t, rest⟩, 0, some t)
    | (none, rest) => (⟨decrement w m.count, none, rest⟩, 0, none)
  else ({ m with count := decrement w m.count }, 0, none)

def pthread_mutex_lock : Mutex T × Outcome :=
  match kind with
  | .normal => pthread_mutex_normal_lock w m self
  | .errorcheck => pthread_mutex_errorcheck_lock w m self
  | .recursive => pthread_mutex_recursive_lock w m self

def pthread_mutex_trylock : Mutex T × Int :=
  match kind with
  | .normal => pthread_mutex_normal_trylock w m
  | .errorcheck => pthread_mutex_errorcheck_trylock w m self
  | .recursive => pthread_mutex_recursive_trylock w m self

def pthread_mutex_unlock :
    Mutex T × Int × Option T :=
  match kind with
  | .normal => pthread_mutex_normal_unlock w m
  | .errorcheck => pthread_mutex_errorcheck_unlock w m self
  | .recursive => pthread_mutex_recursive_unlock w m

/-- The mutex with its holders, one entry for each acquisition not yet given
    back, and the contexts that queued and that were handed the mutex, in order. -/
structure System (T : Type) where
  mutex : Mutex T
  holders : List T
  arrivals : List T
  handed : List T
  deriving DecidableEq, Repr

inductive Call (T : Type) where
  | lock (self : T)
  | trylock (self : T)
  | unlock (self : T)
  deriving DecidableEq, Repr

def boot (stale : Option T) : System T := ⟨pthread_mutex_init stale, [], [], []⟩

def call (s : System T) : Call T → System T
  | .lock self =>
      let r := pthread_mutex_lock kind w s.mutex self
      match r.2 with
      | .waits => { s with mutex := r.1, arrivals := s.arrivals ++ [self] }
      | .returned res =>
          if res = 0 then { s with mutex := r.1, holders := self :: s.holders }
          else { s with mutex := r.1 }
  | .trylock self =>
      let r := pthread_mutex_trylock kind w s.mutex self
      if r.2 = 0 then { s with mutex := r.1, holders := self :: s.holders }
      else { s with mutex := r.1 }
  | .unlock self =>
      let r := pthread_mutex_unlock kind w s.mutex self
      { s with
        mutex := r.1
        holders := r.2.2.toList ++ s.holders.erase self
        handed := s.handed ++ r.2.2.toList }

def caller : Call T → T
  | .lock self | .trylock self | .unlock self => self

def Awake (s : System T) (a : Call T) : Prop := caller a ∉ s.mutex.wait

instance (s : System T) (a : Call T) : Decidable (Awake s a) :=
  inferInstanceAs (Decidable (_ ∉ _))

def machine (T : Type) [DecidableEq T] (kind : Kind) (w : Nat) :
    Machine (System T) (Call T) where
  start s := ∃ stale, s = boot stale
  enabled := Awake
  next := call kind w

instance (kind : Kind) (w : Nat) (s : System T) (a : Call T) :
    Decidable ((machine T kind w).enabled s a) :=
  inferInstanceAs (Decidable (Awake s a))

def ByHolder (s : System T) : Call T → Prop
  | .unlock self => self ∈ s.holders
  | _ => True

instance (s : System T) (a : Call T) : Decidable (ByHolder s a) := by
  cases a <;> unfold ByHolder <;> infer_instance

end MutekPthreadMutex
