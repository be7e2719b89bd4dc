import MutekH.Lib.Machine
import MutekH.Lib.FixedWidth
import MutekH.WaitQueue
import Mathlib.Logic.Function.Basic

/-!
Pthread barriers. The counter is an `int_fast8_t` of `w` bits set from an unsigned
argument; it counts down as contexts block, and the last arrival wakes them all,
which counts it up again. Calls are numbered in the order in which they get the
lock of the queue.
-/
namespace MutekPthreadBarrier
open Function (update update_of_ne update_self)
open List LibMachine LibFixedWidth MutekWaitQueue

def PTHREAD_BARRIER_SERIAL_THREAD : Int := -1

structure Barrier (T : Type) where
  count : Int
  wait : List T
  deriving DecidableEq, Repr

section
variable {T : Type}

def pthread_barrier_init (w count : Nat) : Barrier T := ⟨sint w count, []⟩

def wakeAll (w : Nat) : Int → List T → Int
  | count, [] => count
  | count, _ :: rest => wakeAll w (sint w (count + 1)) rest

theorem wakeAll_sint (w : Nat) (xs : List T) :
    ∀ count, wakeAll w (sint w count) xs = sint w (count + xs.length) := by
  induction xs with
  | nil => intro count; simp [wakeAll]
  | cons x xs ih => ?_
  intro count
  unfold wakeAll
  rw [sint_add_sint, ih, length_cons]
  congr 1
  omega

/-- The barrier, what became of the call and the contexts it woke; no result where
    the assertion of a build with CONFIG_LIBC_ASSERT fails. -/
def pthread_barrier_wait (w : Nat) (asserts : Bool) (b : Barrier T) (self : T) :
    Option (Barrier T × Outcome × List T) :=
  if asserts = true ∧ ¬ 1 ≤ b.count then none
  else if b.count = 1 then
    some (⟨wakeAll w b.count b.wait, []⟩, .returned PTHREAD_BARRIER_SERIAL_THREAD, b.wait)
  else some (⟨sint w (b.count - 1), sched_wait_unlock b.wait self⟩, .waits, [])

/-- What became of a call: blocked in the queue, free to return a result, returned,
    or stopped by the assertion. -/
inductive Status where
  | waiting
  | released (res : Int)
  | returned (res : Int)
  | failed
  deriving DecidableEq, Repr

/-- `inside` is the call a context is in, by its number. A failed assertion keeps
    the queue locked. -/
structure System (T : Type) where
  barrier : Barrier T
  locked : Bool
  started : Nat
  inside : T → Option Nat
  status : Nat → Status

inductive Act (T : Type) where
  | wait (t : T)
  | ret (t : T)
  deriving DecidableEq, Repr

def boot (w n : Nat) : System T :=
  ⟨pthread_barrier_init w n, false, 0, fun _ => none, fun _ => .waiting⟩

def release (status : Nat → Status) (calls : List Nat) (k : Nat) : Status :=
  if k ∈ calls then .released 0 else status k

variable [DecidableEq T]

def arrive (w : Nat) (asserts : Bool) (s : System T) (t : T) : System T :=
  let entered := { s with
    started := s.started + 1
    inside := update s.inside t (some s.started) }
  match pthread_barrier_wait w asserts s.barrier t with
  | none =>
    { entered with locked := true, status := update s.status s.started .failed }
  | some (b, .waits, _) =>
    { entered with barrier := b, status := update s.status s.started .waiting }
  | some (b, .returned res, woken) =>
    { entered with
      barrier := b
      status := update (release s.status (woken.filterMap s.inside)) s.started
        (.released res) }

def leave (s : System T) (t : T) (k : Nat) (res : Int) : System T :=
  { s with
    inside := update s.inside t none
    status := update s.status k (.returned res) }

def next (w : Nat) (asserts : Bool) (s : System T) : Act T → System T
  | .wait t => arrive w asserts s t
  | .ret t =>
    match s.inside t with
    | none => s
    | some k =>
      match s.status k with
      | .released res => leave s t k res
      | _ => s

/-- A context waits at the barrier again only after its last call has returned. -/
def Enabled (s : System T) : Act T → Prop
  | .wait t => s.inside t = none ∧ s.locked = false
  | .ret t => ∃ k res, s.inside t = some k ∧ s.status k = .released res

def machine (T : Type) [DecidableEq T] (w : Nat) (asserts : Bool) (n : Nat) :
    Machine (System T) (Act T) where
  start s := s = boot w n
  enabled := Enabled
  next := next w asserts

end

def result (n k : Nat) : Int :=
  if k % n = n - 1 then PTHREAD_BARRIER_SERIAL_THREAD else 0

/-- The calls of a group wait until the group is complete, and then all are free to
    return their results; the barrier is then as it was after `pthread_barrier_init`. -/
structure Grouped {T : Type} (w n : Nat) (s : System T) : Prop where
  waits : ∀ k < s.started, s.started < (k / n + 1) * n → s.status k = .waiting
  freed : ∀ k < s.started, (k / n + 1) * n ≤ s.started →
    s.status k = .released (result n k) ∨ s.status k = .returned (result n k)
  reusable : n ∣ s.started → s.barrier = pthread_barrier_init w n

/-- The argument of `pthread_barrier_init` is a value of the counter; without
    assertions it may be any residue of it. -/
def InDomain (w : Nat) (asserts : Bool) (n : Nat) : Prop :=
  if asserts = true then n < 2 ^ (w - 1) else n ≤ 2 ^ w

/- The counter of a group with `j` calls so far. -/

theorem half_double {w : Nat} (wide : 1 ≤ w) : 2 ^ w = 2 * 2 ^ (w - 1) := by
  obtain ⟨v,rfl⟩ : ∃ v, w = v + 1 := ⟨w - 1,by omega⟩
  rw [Nat.add_sub_cancel]
  omega

theorem counter_one {w n j : Nat} (wide : 2 ≤ w) (bound : n ≤ 2 ^ w) (low : j < n) :
    sint w ((n : Int) - j) = 1 ↔ n = j + 1 := by
  have four : 2 ^ 2 ≤ 2 ^ w := Nat.pow_le_pow_right (by decide) wide
  constructor
  · intro one
    have divides := sint_dvd w ((n : Int) - j)
    have zero := Int.eq_zero_of_dvd_of_nonneg_of_lt (by omega) (by omega) divides
    omega
  rintro rfl
  have one : (((j + 1 : Nat) : Int) - j) = 1 := by push_cast; omega
  rw [one]
  apply sint_of_fits
  have cast : ((2 ^ w : Nat) : Int) = 2 ^ w := by push_cast; rfl
  constructor <;> omega

theorem counter_positive {w n j : Nat} (wide : 2 ≤ w) (bound : n < 2 ^ (w - 1)) (low : j < n) :
    1 ≤ sint w ((n : Int) - j) := by
  have double := half_double (w := w) (by omega)
  have cast : ((2 ^ w : Nat) : Int) = 2 ^ w := by push_cast; rfl
  rw [sint_of_fits (by constructor <;> omega)]
  omega

theorem counter_down (w : Nat) (n j : Nat) :
    sint w (sint w ((n : Int) - j) - 1) = sint w ((n : Int) - (j + 1 : Nat)) := by
  rw [Int.sub_eq_add_neg, sint_add_sint]
  congr 1
  omega

/- Calls in groups of `n`: the first call of the open group is `m / n * n`. -/

theorem group_open {n m k : Nat} (pos : 1 ≤ n) : m < (k / n + 1) * n ↔ m / n * n ≤ k := by
  rw [← Nat.div_lt_iff_lt_mul (by omega), Nat.lt_succ_iff, Nat.le_div_iff_mul_le (by omega)]

theorem next_in_group {n m : Nat} (pos : 1 ≤ n) (more : m % n + 1 < n) :
    (m + 1) % n = m % n + 1 ∧ (m + 1) / n = m / n := by
  have split := Nat.div_add_mod m n
  constructor
  · rw [Nat.add_mod, Nat.mod_eq_of_lt (a := 1) (by omega), Nat.mod_eq_of_lt more]
  · apply Nat.div_eq_of_lt_le
    · rw [Nat.mul_comm]
      omega
    · rw [Nat.succ_mul, Nat.mul_comm]
      omega

theorem last_in_group {n m : Nat} (last : m % n + 1 = n) :
    (m + 1) % n = 0 ∧ (m + 1) / n * n = m + 1 := by
  have divides : n ∣ m + 1 := by
    refine ⟨m / n + 1,?_⟩
    have split := Nat.div_add_mod m n
    rw [Nat.mul_add]
    omega
  exact ⟨Nat.mod_eq_zero_of_dvd divides,Nat.div_mul_cancel divides⟩

theorem result_in_group {n m k : Nat} (pos : 1 ≤ n) (last : m % n + 1 = n) (low : m / n * n ≤ k)
    (high : k < m) : result n k = 0 := by
  have split := Nat.div_add_mod m n
  rw [Nat.mul_comm] at split
  have residue : k % n = k - m / n * n := by
    have back : k = k - m / n * n + n * (m / n) := by
      rw [Nat.mul_comm n]
      omega
    rw [back, Nat.add_mul_mod_self_left, Nat.mod_eq_of_lt (by omega)]
    omega
  rw [result, if_neg (by omega)]

section
variable {T : Type} {w n : Nat} {asserts : Bool} {s : System T} {t : T}

structure Inv (w n : Nat) (s : System T) : Prop where
  count : s.barrier.count = sint w ((n : Int) - (s.started % n : Nat))
  queue : s.barrier.wait.map s.inside =
    (List.range' (s.started / n * n) (s.started % n)).map some
  unlocked : s.locked = false
  below : ∀ t k, s.inside t = some k → k < s.started
  waits : ∀ k < s.started, s.started / n * n ≤ k → s.status k = .waiting
  freed : ∀ k < s.started / n * n,
    s.status k = .released (result n k) ∨ s.status k = .returned (result n k)

theorem grouped_of_inv (pos : 1 ≤ n) (inv : Inv w n s) : Grouped w n s := by
  constructor
  · intro k below group
    exact inv.waits k below ((group_open pos).mp group)
  · intro k _ group
    rw [← Nat.not_lt, group_open pos, Nat.not_le] at group
    exact inv.freed k group
  intro divides
  have zero : s.started % n = 0 := Nat.mod_eq_zero_of_dvd divides
  have count := inv.count
  have queue := inv.queue
  rw [zero] at count queue
  simp only [range'_zero, map_nil, map_eq_nil_iff] at queue
  cases barrier : s.barrier with
  | mk c xs =>
    rw [barrier] at count queue
    simp only [Nat.cast_zero, Int.sub_zero] at count
    simp only at queue
    rw [count, queue, pthread_barrier_init]

theorem queue_calls (inv : Inv w n s) :
    s.barrier.wait.filterMap s.inside = List.range' (s.started / n * n) (s.started % n) := by
  have mapped : s.barrier.wait.filterMap s.inside = (s.barrier.wait.map s.inside).filterMap id := by
    rw [filterMap_map]
    rfl
  rw [mapped, inv.queue]
  simp

theorem queued_inside (inv : Inv w n s) (member : x ∈ s.barrier.wait) :
    ∃ k, s.inside x = some k ∧ s.started / n * n ≤ k ∧ k < s.started := by
  have mapped : s.inside x ∈ s.barrier.wait.map s.inside := mem_map_of_mem member
  rw [inv.queue, mem_map] at mapped
  obtain ⟨k,range,eq⟩ := mapped
  rw [mem_range'_1] at range
  exact ⟨k,eq.symm,range.1,inv.below x k eq.symm⟩

variable [DecidableEq T]

theorem map_update_of_notMem {β : Type} {f : T → β} {b : β} {xs : List T} (absent : t ∉ xs) :
    xs.map (update f t b) = xs.map f := by
  apply map_congr_left
  intro x member
  have other : x ≠ t := by
    rintro rfl
    exact absent member
  exact update_of_ne other _ _

theorem below_next (inv : Inv w n s) (x : T) (k : Nat)
    (inside : update s.inside t (some s.started) x = some k) : k < s.started + 1 := by
  by_cases same : x = t
  · subst same
    rw [update_self, Option.some.injEq] at inside
    omega
  · rw [update_of_ne same] at inside
    have before := inv.below x k inside
    omega

theorem arrive_waits (asserted : ¬ (asserts = true ∧ ¬ 1 ≤ s.barrier.count))
    (more : s.barrier.count ≠ 1) :
    arrive w asserts s t = { s with
      started := s.started + 1
      inside := update s.inside t (some s.started)
      barrier := ⟨sint w (s.barrier.count - 1), s.barrier.wait ++ [t]⟩
      status := update s.status s.started .waiting } := by
  simp only [arrive, pthread_barrier_wait, if_neg asserted, if_neg more, sched_wait_unlock]

theorem arrive_last (asserted : ¬ (asserts = true ∧ ¬ 1 ≤ s.barrier.count))
    (last : s.barrier.count = 1) :
    arrive w asserts s t = { s with
      started := s.started + 1
      inside := update s.inside t (some s.started)
      barrier := ⟨wakeAll w s.barrier.count s.barrier.wait, []⟩
      status := update (release s.status (s.barrier.wait.filterMap s.inside)) s.started
        (.released PTHREAD_BARRIER_SERIAL_THREAD) } := by
  simp only [arrive, pthread_barrier_wait, if_neg asserted, if_pos last]

theorem arrive_inv (wide : 2 ≤ w) (pos : 1 ≤ n) (domain : InDomain w asserts n) (inv : Inv w n s)
    (outside : s.inside t = none) : Inv w n (arrive w asserts s t) := by
  have double := half_double (w := w) (by omega)
  have low : s.started % n < n := Nat.mod_lt _ (by omega)
  have bound : n ≤ 2 ^ w := by
    unfold InDomain at domain
    split at domain <;> omega
  have asserted : ¬ (asserts = true ∧ ¬ 1 ≤ s.barrier.count) := by
    rintro ⟨on,fails⟩
    rw [InDomain, if_pos on] at domain
    rw [inv.count] at fails
    exact fails (counter_positive wide domain low)
  have one := counter_one wide bound low
  rw [← inv.count] at one
  have absent : t ∉ s.barrier.wait := by
    intro member
    obtain ⟨k,inside,_⟩ := queued_inside inv member
    rw [outside] at inside
    contradiction
  by_cases last : s.started % n + 1 = n
  · obtain ⟨residue,complete⟩ := last_in_group last
    rw [arrive_last asserted (one.mpr last.symm)]
    constructor
    · have length : s.barrier.wait.length = s.started % n := by
        simpa using congrArg List.length inv.queue
      simp only
      rw [inv.count, wakeAll_sint]
      congr 1
      omega
    · simp [residue]
    · exact inv.unlocked
    · exact below_next inv
    · intro k below group
      simp only at group below
      omega
    · intro k below
      simp only at below
      simp only
      by_cases same : k = s.started
      · subst same
        rw [update_self, result, if_pos (by omega)]
        exact .inl rfl
      rw [update_of_ne same, release, queue_calls inv]
      have split := Nat.div_add_mod s.started n
      rw [Nat.mul_comm] at split
      by_cases member : k ∈ List.range' (s.started / n * n) (s.started % n)
      · rw [if_pos member]
        rw [mem_range'_1] at member
        rw [result_in_group pos last member.1 (by omega)]
        exact .inl rfl
      · rw [if_neg member]
        rw [mem_range'_1] at member
        exact inv.freed k (by omega)
  · have more : s.started % n + 1 < n := by omega
    obtain ⟨residue,same_group⟩ := next_in_group pos more
    rw [arrive_waits asserted (fun first => last (one.mp first).symm)]
    constructor
    · simp only [residue]
      rw [inv.count, counter_down]
    · simp only [residue, same_group, map_append, map_cons, map_nil, update_self]
      rw [map_update_of_notMem absent, inv.queue, range'_concat]
      have split := Nat.div_add_mod s.started n
      rw [Nat.mul_comm] at split
      simp [split]
    · exact inv.unlocked
    · exact below_next inv
    · intro k below group
      simp only [same_group] at below group ⊢
      by_cases same : k = s.started
      · subst same
        exact update_self _ _ _
      · rw [update_of_ne same]
        exact inv.waits k (by omega) group
    · intro k below
      simp only [same_group] at below ⊢
      have small := Nat.div_mul_le_self s.started n
      rw [update_of_ne (by omega)]
      exact inv.freed k below

theorem leave_inv (inv : Inv w n s) {k : Nat} {res : Int} (inside : s.inside t = some k)
    (released : s.status k = .released res) : Inv w n (leave s t k res) := by
  have closed : k < s.started / n * n := by
    by_contra still
    have waits := inv.waits k (inv.below t k inside) (by omega)
    rw [released] at waits
    contradiction
  have absent : t ∉ s.barrier.wait := by
    intro member
    obtain ⟨j,same,low,_⟩ := queued_inside inv member
    rw [inside, Option.some.injEq] at same
    omega
  constructor
  · exact inv.count
  · exact (map_update_of_notMem absent).trans inv.queue
  · exact inv.unlocked
  · intro x j in_call
    by_cases same : x = t
    · simp [leave, same] at in_call
    · simp only [leave, update_of_ne same] at in_call
      exact inv.below x j in_call
  · intro j below group
    have other : j ≠ k := by
      rintro rfl
      exact absurd group (by simp only [leave]; omega)
    simp only [leave, update_of_ne other]
    exact inv.waits j below group
  · intro j below
    by_cases same : j = k
    · subst same
      have before := inv.freed j below
      rw [released] at before
      rcases before with res_eq | other
      · rw [Status.released.injEq] at res_eq
        simp [leave, res_eq]
      · contradiction
    · simp only [leave, update_of_ne same]
      exact inv.freed j below

theorem inv_reached (wide : 2 ≤ w) (pos : 1 ≤ n) (domain : InDomain w asserts n)
    (h : Reached (machine T w asserts n) s) : Inv w n s := by
  apply reached_invariant (Inv w n) _ _ h
  · rintro s rfl
    constructor
    · simp [boot, pthread_barrier_init]
    · simp [boot, pthread_barrier_init]
    · rfl
    · simp [boot]
    · intro k below
      simp [boot] at below
    · intro k below
      simp [boot] at below
  · intro s a inv can
    cases a with
    | wait t => exact arrive_inv wide pos domain inv can.1
    | ret t =>
      obtain ⟨k,res,inside,released⟩ := can
      simp only [machine, next, inside, released]
      exact leave_inv inv inside released

end

/- Outside of the domain. If the calls were grouped in all runs, the first calls
   would count down from the argument until one of them breaks its group. -/

structure Counting (w n i : Nat) (s : System Nat) : Prop where
  started : s.started = i
  count : s.barrier.count = sint w ((n : Int) - i)
  unlocked : s.locked = false
  outside : ∀ x, i ≤ x → s.inside x = none

section
variable {w n : Nat} {asserts : Bool}

theorem waits_of_grouped {s : System Nat} (first : i + 1 < n) (counting : Counting w n i s)
    (grouped : Grouped w n (arrive w asserts s i)) :
    ¬ (asserts = true ∧ ¬ 1 ≤ s.barrier.count) ∧ s.barrier.count ≠ 1 := by
  have small : i / n = 0 := Nat.div_eq_of_lt (by omega)
  have started := counting.started
  have in_group : (arrive w asserts s i).started = i + 1 := by
    unfold arrive
    split <;> simp [started]
  have waits := grouped.waits i (by omega) (by rw [small]; omega)
  constructor
  · intro fails
    simp only [arrive, pthread_barrier_wait, if_pos fails] at waits
    simp [started] at waits
  · intro one
    rw [arrive_last (fun fails => fails.2 (by omega)) one] at waits
    simp [started] at waits

section
variable (all : ∀ s, Reached (machine Nat w asserts n) s → Grouped w n s)
include all

theorem counting_reached (i : Nat)
    (first : i < n) : ∃ s, Reached (machine Nat w asserts n) s ∧ Counting w n i s := by
  induction i with
  | zero =>
    refine ⟨boot w n,start_reached rfl,?_⟩
    constructor <;> simp [boot, pthread_barrier_init]
  | succ i ih => ?_
  obtain ⟨s,reached,counting⟩ := ih (by omega)
  have can : (machine Nat w asserts n).enabled s (.wait i) :=
    ⟨counting.outside i (Nat.le_refl i),counting.unlocked⟩
  have later := reached_step reached can
  obtain ⟨asserted,more⟩ := waits_of_grouped first counting (all _ later)
  have after : (machine Nat w asserts n).next s (.wait i) = _ := arrive_waits asserted more
  rw [after] at later
  refine ⟨_,later,?_⟩
  constructor
  · simp [counting.started]
  · simp only
    rw [counting.count, counter_down]
  · exact counting.unlocked
  · intro x above
    have other : x ≠ i := by omega
    simp only [update_of_ne other]
    exact counting.outside x (by omega)

theorem steady (i : Nat)
    (first : i + 1 < n) :
    ¬ (asserts = true ∧ ¬ 1 ≤ sint w ((n : Int) - i)) ∧ sint w ((n : Int) - i) ≠ 1 := by
  obtain ⟨s,reached,counting⟩ := counting_reached all i (by omega)
  have can : (machine Nat w asserts n).enabled s (.wait i) :=
    ⟨counting.outside i (Nat.le_refl i),counting.unlocked⟩
  have both := waits_of_grouped first counting (all _ (reached_step reached can))
  rwa [counting.count] at both

end

theorem counter_wraps (wide : 2 ≤ w) (big : 2 ^ w < n) :
    ∃ i, i + 1 < n ∧ sint w ((n : Int) - i) = 1 := by
  have split := Nat.div_add_mod (n - 1) (2 ^ w)
  refine ⟨(n - 1) % 2 ^ w,by omega,?_⟩
  have value : (n : Int) - ((n - 1) % 2 ^ w : Nat) =
      1 + ((2 ^ w : Nat) : Int) * (((n - 1) / 2 ^ w : Nat) : Int) := by
    omega
  have one := (counter_one wide Nat.one_le_two_pow (by omega)).mpr rfl
  rw [value, sint, Int.add_mul_bmod_self_left]
  simpa [sint] using one

theorem counter_negative (wide : 1 ≤ w) (low : 2 ^ (w - 1) ≤ n) (high : n ≤ 2 ^ w) :
    ¬ 1 ≤ sint w (n : Int) := by
  intro positive
  have double := half_double wide
  have cast : ((2 ^ w : Nat) : Int) = 2 ^ w := by push_cast; rfl
  have range := (fits_sint wide (n : Int)).2
  have zero := Int.eq_zero_of_dvd_of_nonneg_of_lt (by omega) (by omega) (sint_dvd w (n : Int))
  omega

end

/-- The calls of every run with any number of contexts are grouped exactly if the
    argument of `pthread_barrier_init` is one its counter can hold. -/
theorem barrier_groups_exactly (w : Nat) (wide : 8 ≤ w) (asserts : Bool) (n : Nat) (pos : 1 ≤ n) :
    (∀ (T : Type) [DecidableEq T] (s : System T), Reached (machine T w asserts n) s →
      Grouped w n s) ↔ InDomain w asserts n := by
  constructor
  · intro all
    have alone := steady fun s reached => all Nat s reached
    have fits : n ≤ 2 ^ w := by
      by_contra big
      obtain ⟨i,first,one⟩ := counter_wraps (w := w) (n := n) (by omega) (by omega)
      exact (alone i first).2 one
    unfold InDomain
    split
    · rename_i on
      by_contra out
      have two : 2 ^ 1 ≤ 2 ^ (w - 1) := Nat.pow_le_pow_right (by decide) (by omega)
      have negative := counter_negative (by omega) (by omega) fits
      have first := alone 0 (by omega)
      exact first.1 ⟨on,negative⟩
    · exact fits
  · intro domain T _ s reached
    exact grouped_of_inv pos (inv_reached (by omega) pos domain reached)

theorem barrier_groups_exactly_two : 1 ≤ 2 ∧
    (∀ (T : Type) [DecidableEq T] (s : System T), Reached (machine T 8 true 2) s →
      Grouped 8 2 s) :=
  ⟨by decide, (barrier_groups_exactly 8 (by decide) true 2 (by decide)).mpr (by
    rw [InDomain]
    decide)⟩

/-- A counter of 8 bits holds 257 as 1: the first of 257 contexts is released
    alone, with the assertions enabled. -/
theorem first_of_257_released :
    let s := after (machine Nat 8 true 257) (boot 8 257) [.wait 0]
    Reached (machine Nat 8 true 257) s ∧ s.started = 1 ∧
      s.status 0 = .released PTHREAD_BARRIER_SERIAL_THREAD ∧ ¬ Grouped 8 257 s := by
  intro s
  have reached : Reached (machine Nat 8 true 257) s :=
    reached_step (start_reached rfl) ⟨rfl,rfl⟩
  have free : s.status 0 = .released PTHREAD_BARRIER_SERIAL_THREAD := by decide
  have one : s.started = 1 := by decide
  refine ⟨reached,one,free,?_⟩
  intro grouped
  have waits := grouped.waits 0 (by omega) (by rw [one]; decide)
  rw [free] at waits
  contradiction

end MutekPthreadBarrier
