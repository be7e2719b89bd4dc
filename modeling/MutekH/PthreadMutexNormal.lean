import MutekH.PthreadMutex

/-!
The normal mutex under every interleaving in which only a holder unlocks:
exclusion, first come first served hand-off and no stranded waiter all follow
from the counter being the number of holders.
-/
namespace MutekPthreadMutexNormal
open List LibMachine MutekWaitQueue MutekPthreadMutex
variable {T : Type}

structure Inv (s : System T) : Prop where
  single : s.holders.length ≤ 1
  counted : s.mutex.count = s.holders.length
  served : s.mutex.count = 0 → s.mutex.wait = []
  fifo : s.arrivals = s.handed ++ s.mutex.wait

theorem inv_granted {w : Nat} {s : System T} {self : T} (wide : 1 ≤ w) (inv : Inv s)
    (free : s.mutex.count = 0) :
    Inv { s with
      mutex := { s.mutex with count := increment w s.mutex.count }
      holders := self :: s.holders } := by
  have two : 2 ^ 1 ≤ 2 ^ w := Nat.pow_le_pow_right (by decide) wide
  have one : increment w s.mutex.count = s.mutex.count + 1 := increment_eq (by omega)
  have counted := inv.counted
  have nobody : s.holders.length = 0 := by omega
  constructor
  · simp [nobody]
  · simp only [length_cons]
    omega
  · intro zero
    simp only at zero
    omega
  · exact inv.fifo

variable [DecidableEq T]

def normal (T : Type) [DecidableEq T] (w : Nat) : Machine (System T) (Call T) :=
  restrict (machine T .normal w) ByHolder

instance (w : Nat) (s : System T) (a : Call T) : Decidable ((normal T w).enabled s a) :=
  inferInstanceAs (Decidable ((restrict (machine T .normal w) ByHolder).enabled s a))

section calls
variable {w : Nat} {s : System T} {self : T}

theorem lock_waits (busy : s.mutex.count ≠ 0) : call .normal w s (.lock self) = { s with
      mutex := { s.mutex with wait := s.mutex.wait ++ [self] }
      arrivals := s.arrivals ++ [self] } := by
  simp [call, pthread_mutex_lock, pthread_mutex_normal_lock, if_pos busy, sched_wait_unlock]

theorem lock_granted (free : s.mutex.count = 0) : call .normal w s (.lock self) = { s with
      mutex := { s.mutex with count := increment w s.mutex.count }
      holders := self :: s.holders } := by
  have no : ¬ s.mutex.count ≠ 0 := fun busy => busy free
  simp [call, pthread_mutex_lock, pthread_mutex_normal_lock, if_neg no]

theorem trylock_refused (w : Nat) (self : T) (busy : s.mutex.count ≠ 0) :
    (pthread_mutex_trylock .normal w s.mutex self).2 = EBUSY ∧
      call .normal w s (.trylock self) = s := by
  have nonzero : ¬ EBUSY = 0 := by decide
  simp [call, pthread_mutex_trylock, pthread_mutex_normal_trylock, if_neg busy, if_neg nonzero]

theorem trylock_granted (free : s.mutex.count = 0) : call .normal w s (.trylock self) = { s with
      mutex := { s.mutex with count := increment w s.mutex.count }
      holders := self :: s.holders } := by
  simp [call, pthread_mutex_trylock, pthread_mutex_normal_trylock, if_pos free]

theorem unlock_hands (t : T) (rest : List T) (queue : s.mutex.wait = t :: rest) :
    call .normal w s (.unlock self) = { s with
      mutex := { s.mutex with wait := rest }
      holders := t :: s.holders.erase self
      handed := s.handed ++ [t] } := by
  simp [call, pthread_mutex_unlock, pthread_mutex_normal_unlock, queue]

theorem unlock_frees (queue : s.mutex.wait = []) : call .normal w s (.unlock self) = { s with
      mutex := { s.mutex with count := decrement w s.mutex.count, wait := [] }
      holders := s.holders.erase self } := by
  simp [call, pthread_mutex_unlock, pthread_mutex_normal_unlock, queue]

theorem inv_unlock (wide : 1 ≤ w) (inv : Inv s) (holder : self ∈ s.holders) :
    Inv (call .normal w s (.unlock self)) := by
  have pos : 0 < s.holders.length := length_pos_of_mem holder
  have left := length_erase_of_mem holder
  have single := inv.single
  have counted := inv.counted
  cases queue : s.mutex.wait with
  | cons t rest =>
    rw [unlock_hands t rest queue]
    constructor
    · simp only [length_cons]
      omega
    · simp only [length_cons]
      omega
    · intro zero
      simp only at zero
      omega
    · simp [inv.fifo, queue]
  | nil =>
    have two : 2 ^ 1 ≤ 2 ^ w := Nat.pow_le_pow_right (by decide) wide
    have zero : decrement w s.mutex.count = s.mutex.count - 1 :=
      decrement_eq (by omega) (by omega)
    rw [unlock_frees queue]
    constructor
    · simp only
      omega
    · simp only
      omega
    · intro _
      rfl
    · simp [inv.fifo, queue]

theorem inv_call (wide : 1 ≤ w) (inv : Inv s) {a : Call T} (can : ByHolder s a) :
    Inv (call .normal w s a) := by
  cases a with
  | lock self =>
    by_cases free : s.mutex.count = 0
    · rw [lock_granted free]
      exact inv_granted wide inv free
    · rw [lock_waits free]
      exact ⟨inv.single,inv.counted,fun zero => absurd zero free,by simp [inv.fifo]⟩
  | trylock self =>
    by_cases free : s.mutex.count = 0
    · rw [trylock_granted free]
      exact inv_granted wide inv free
    · rw [(trylock_refused w self free).2]
      exact inv
  | unlock self => exact inv_unlock wide inv can

end calls

theorem inv_next {w : Nat} (wide : 1 ≤ w) (s : System T) (a : Call T) (inv : Inv s)
    (can : (normal T w).enabled s a) : Inv ((normal T w).next s a) :=
  inv_call wide inv can.2

theorem inv_reached {w : Nat} (wide : 1 ≤ w) {s : System T} (h : Reached (normal T w) s) :
    Inv s := by
  apply reached_invariant Inv _ (inv_next wide) h
  rintro s ⟨stale,rfl⟩
  constructor <;> simp [boot, pthread_mutex_init]

theorem logs_grow {w : Nat} {s : System T} {as : List (Call T)} {t : System T}
    (run : Run (normal T w) s as t) :
    ∃ new moved, t.arrivals = s.arrivals ++ new ∧ t.handed = s.handed ++ moved := by
  induction run with
  | nil s => exact ⟨[],[],by simp,by simp⟩
  | @cons s t a as can tail ih => ?_
  obtain ⟨new,moved,arrivals,handed⟩ := ih
  have first : ∃ more given, (call .normal w s a).arrivals = s.arrivals ++ more ∧
      (call .normal w s a).handed = s.handed ++ given := by
    cases a with
    | lock self =>
      by_cases free : s.mutex.count = 0
      · rw [lock_granted free]
        exact ⟨[],[],by simp,by simp⟩
      · rw [lock_waits free]
        exact ⟨[self],[],rfl,by simp⟩
    | trylock self =>
      by_cases free : s.mutex.count = 0
      · rw [trylock_granted free]
        exact ⟨[],[],by simp,by simp⟩
      · rw [(trylock_refused w self free).2]
        exact ⟨[],[],by simp,by simp⟩
    | unlock self => exact ⟨[],_,by simp [call],rfl⟩
  obtain ⟨more,given,arrivals',handed'⟩ := first
  refine ⟨more ++ new,given ++ moved,?_,?_⟩
  · rw [arrivals, ← append_assoc, ← arrivals']
    rfl
  · rw [handed, ← append_assoc, ← handed']
    rfl

/-- In every reachable state there is at most one holder, the counter is nonzero exactly when there
    is one, and a free mutex has no waiter. Along any run on from there the contexts that queue are
    handed the mutex in the order in which they queued, those waiting now first; a trylock made
    while some wait is refused and a lock made then queues behind them. -/
theorem normal_mutex_exclusive_fifo (w : Nat) (wide : 8 ≤ w) {s : System T}
    (h : Reached (normal T w) s) :
    s.holders.length ≤ 1 ∧ (s.mutex.count ≠ 0 ↔ s.holders ≠ []) ∧
    (s.mutex.count = 0 → s.mutex.wait = []) ∧
    s.arrivals = s.handed ++ s.mutex.wait ∧
    (∀ as t, Run (normal T w) s as t → ∃ new moved,
      t.arrivals = s.arrivals ++ new ∧ t.handed = s.handed ++ moved ∧
      moved ++ t.mutex.wait = s.mutex.wait ++ new) ∧
    (s.mutex.wait ≠ [] → ∀ self, (pthread_mutex_lock .normal w s.mutex self).2 = .waits ∧
      (call .normal w s (.lock self)).holders = s.holders ∧
      (call .normal w s (.lock self)).mutex.wait = s.mutex.wait ++ [self] ∧
      (pthread_mutex_trylock .normal w s.mutex self).2 = EBUSY ∧
      call .normal w s (.trylock self) = s) := by
  have inv := inv_reached (by omega) h
  refine ⟨inv.single,?_,inv.served,inv.fifo,?_,?_⟩
  · rw [inv.counted, ne_eq, length_eq_zero_iff]
  · intro as t run
    obtain ⟨new,moved,arrivals,handed⟩ := logs_grow run
    have later : Inv t :=
      run_invariant Inv (inv_next (by omega)) run inv
    refine ⟨new,moved,arrivals,handed,?_⟩
    have both : s.handed ++ (moved ++ t.mutex.wait) = s.handed ++ (s.mutex.wait ++ new) := by
      rw [← append_assoc, ← handed, ← later.fifo, arrivals, inv.fifo, append_assoc]
    exact append_cancel_left both
  · intro queue self
    have busy : s.mutex.count ≠ 0 := fun zero => queue (inv.served zero)
    obtain ⟨refused,same⟩ := trylock_refused w self busy
    refine ⟨?_,?_,?_,refused,same⟩
    · simp [pthread_mutex_lock, pthread_mutex_normal_lock, if_pos busy]
    · rw [lock_waits busy]
    · rw [lock_waits busy]

/-- Two contexts queue behind the holder; the unlock hands the mutex to the first. -/
theorem normal_mutex_exclusive_fifo_handoff :
    let s := after (normal Nat 8) (boot none) [.lock 0, .lock 1, .lock 2, .unlock 0]
    s.holders = [1] ∧ s.mutex.wait = [2] ∧ s.holders.length ≤ 1 := by
  intro s
  have reached : Reached (normal Nat 8) s :=
    reached_of_allowed (normal Nat 8) (boot none) [.lock 0, .lock 1, .lock 2, .unlock 0]
      ⟨none,rfl⟩ (by decide)
  exact ⟨by decide,by decide,(normal_mutex_exclusive_fifo 8 (by decide) reached).1⟩

end MutekPthreadMutexNormal
