import MutekH.Lib.Machine
import MutekH.Lib.FixedWidth
import MutekH.WaitQueue
import Mathlib.Algebra.BigOperators.Group.List.Basic

/-!
Kernel semaphores. A take that cannot be served leaves its demand minus one
debited from the counter and a give credits one unit for each waiter it wakes,
so the counter alone does not say what is available. What is available is the
counter plus the surplus demand (demand minus one) of every queued take.
-/
namespace MutekSemaphore
open List LibMachine LibFixedWidth MutekWaitQueue
variable {T : Type}

structure Waiter (T : Type) where
  thread : T
  value : Int
  deriving DecidableEq, Repr

structure Semaphore (T : Type) where
  count : Int
  wait : List (Waiter T)
  deriving DecidableEq, Repr

def semaphore_init (value : Int) : Semaphore T := ⟨value, []⟩

/- The width `w` is that of `semaphore_count_t`, an `int_fast8_t`. -/
def semaphore_take (w : Nat) (s : Semaphore T) (self : T) (value : Int) :
    Semaphore T × Outcome :=
  let count := sint w (s.count - value)
  if count < 0 then
    (⟨sint w (count + 1), sched_wait_unlock s.wait ⟨self, value⟩⟩, .waits)
  else (⟨count, s.wait⟩, .returned 0)

-- The test subtracts in the promoted type; only the assignment narrows.
def semaphore_try_take (w : Nat) (s : Semaphore T) (value : Int) : Semaphore T × Int :=
  if s.count - value < 0 then (s, EBUSY)
  else (⟨sint w (s.count - value), s.wait⟩, 0)

/-- The `while` of `semaphore_give`: the semaphore it leaves and the contexts it
    woke, in the order of the `sched_wake` calls. -/
def giveLoop (w : Nat) : Int → List (Waiter T) → Semaphore T × List (Waiter T)
  | count, [] => (⟨count, []⟩, [])
  | count, x :: rest =>
      if 0 < count then
        let r := giveLoop w (sint w (count - 1)) rest
        (r.1, x :: r.2)
      else (⟨count, x :: rest⟩, [])

def semaphore_give (w : Nat) (s : Semaphore T) (value : Int) :
    Semaphore T × List (Waiter T) :=
  giveLoop w (sint w (s.count + value)) s.wait

variable (xs : List (Waiter T))

def demand : Int := (xs.map Waiter.value).sum

/-- What queued takes ask for beyond the unit that wakes them. -/
def surplus : Int := (xs.map fun x => x.value - 1).sum

@[simp] theorem demand_nil : demand ([] : List (Waiter T)) = 0 := rfl
@[simp] theorem surplus_nil : surplus ([] : List (Waiter T)) = 0 := rfl

@[simp] theorem demand_append (xs ys : List (Waiter T)) :
    demand (xs ++ ys) = demand xs + demand ys := by simp [demand]

@[simp] theorem surplus_append (xs ys : List (Waiter T)) :
    surplus (xs ++ ys) = surplus xs + surplus ys := by simp [surplus]

@[simp] theorem demand_cons (x : Waiter T) (xs : List (Waiter T)) :
    demand (x :: xs) = x.value + demand xs := by simp [demand]

@[simp] theorem surplus_cons (x : Waiter T) (xs : List (Waiter T)) :
    surplus (x :: xs) = x.value - 1 + surplus xs := by simp [surplus]

theorem surplus_eq_demand : surplus xs = demand xs - xs.length := by
  induction xs with
  | nil => simp
  | cons x xs ih =>
    simp only [surplus_cons, demand_cons, length_cons]
    omega

theorem surplus_nonneg (positive : ∀ x ∈ xs, 1 ≤ x.value) : 0 ≤ surplus xs := by
  induction xs with
  | nil => simp
  | cons x xs ih => ?_
  have first := positive x (by simp)
  have rest := ih (by intro y hy; exact positive y (by simp [hy]))
  simp only [surplus_cons]
  omega

theorem giveLoop_spec (w : Nat) (xs : List (Waiter T)) : ∀ count, Fits w count →
      xs = (giveLoop w count xs).2 ++ (giveLoop w count xs).1.wait ∧
      (giveLoop w count xs).1.count = count - (giveLoop w count xs).2.length ∧
      Fits w (giveLoop w count xs).1.count ∧
      ((giveLoop w count xs).1.wait = [] ∨ (giveLoop w count xs).1.count ≤ 0) ∧
      ((giveLoop w count xs).2 = [] ∨ 0 ≤ (giveLoop w count xs).1.count) := by
  induction xs with intro count fits
  | nil => simp [giveLoop, fits]
  | cons x xs ih =>
    by_cases positive : 0 < count
    · -- One unit is spent on the head; the counter stays between 0 and `count`.
      have below : Fits w (count - 1) :=
        fits_between (fits_zero w) fits (by omega) (by omega)
      obtain ⟨split,left,range,stop,spent⟩ := ih (count - 1) below
      simp only [giveLoop, positive, ↓reduceIte, sint_of_fits below]
      refine ⟨by simpa using split,?_,range,stop,.inr ?_⟩
      · simp only [length_cons]
        omega
      · rcases spent with none | enough
        · rw [left, none]
          simp only [length_nil]
          omega
        · exact enough
    · simp only [giveLoop, positive, ↓reduceIte]
      refine ⟨rfl,?_,fits,.inr (by omega),by simp⟩
      simp

/-- The semaphore, what was put in it and, in order, the takes that completed,
    the takes that blocked and the blocked takes that were woken. -/
structure System (T : Type) where
  sem : Semaphore T
  initial : Int
  given : Int
  completed : List (Waiter T)
  arrivals : List (Waiter T)
  releases : List (Waiter T)
  deriving DecidableEq, Repr

inductive Call (T : Type) where
  | take (self : T) (value : Int)
  | tryTake (self : T) (value : Int)
  | give (value : Int)
  deriving DecidableEq, Repr

def boot (value : Int) : System T := ⟨semaphore_init value, value, 0, [], [], []⟩

/-- A blocked context makes no call. Amounts are at least one, and no value that
    a call computes leaves the range of the counter's type. -/
def CanCall (w : Nat) (s : System T) : Call T → Prop
  | .take self value => (∀ x ∈ s.sem.wait, x.thread ≠ self) ∧ 1 ≤ value ∧ Fits w value ∧
      Fits w (s.sem.count - value)
  | .tryTake self value => (∀ x ∈ s.sem.wait, x.thread ≠ self) ∧ 1 ≤ value ∧ Fits w value ∧
      Fits w (s.sem.count - value)
  | .give value => 1 ≤ value ∧ Fits w value ∧ Fits w (s.sem.count + value)

instance [DecidableEq T] (w : Nat) (s : System T) (a : Call T) : Decidable (CanCall w s a) := by
  cases a <;> unfold CanCall <;> infer_instance

def call (w : Nat) (s : System T) : Call T → System T
  | .take self value =>
      let r := semaphore_take w s.sem self value
      match r.2 with
      | .waits => { s with sem := r.1, arrivals := s.arrivals ++ [⟨self, value⟩] }
      | .returned _ => { s with sem := r.1, completed := s.completed ++ [⟨self, value⟩] }
  | .tryTake self value =>
      let r := semaphore_try_take w s.sem value
      if r.2 = 0 then { s with sem := r.1, completed := s.completed ++ [⟨self, value⟩] }
      else { s with sem := r.1 }
  | .give value =>
      let r := semaphore_give w s.sem value
      { s with
        sem := r.1
        given := s.given + value
        completed := s.completed ++ r.2
        releases := s.releases ++ r.2 }

def machine (T : Type) (w : Nat) : Machine (System T) (Call T) where
  start s := ∃ value, Fits w value ∧ s = boot value
  enabled := CanCall w
  next := call w

instance [DecidableEq T] (w : Nat) (s : System T) (a : Call T) :
    Decidable ((machine T w).enabled s a) :=
  inferInstanceAs (Decidable (CanCall w s a))

def available (s : System T) : Int := s.initial + s.given - demand s.completed

structure Inv (w : Nat) (s : System T) : Prop where
  fits : Fits w s.sem.count
  balance : available s = s.sem.count + surplus s.sem.wait
  positive : ∀ x ∈ s.sem.wait, 1 ≤ x.value
  debit : s.sem.wait = [] ∨ s.sem.count ≤ 0
  solvent : s.completed = [] ∨ 0 ≤ available s
  fifo : s.arrivals = s.releases ++ s.sem.wait
  supplied : 0 ≤ s.given

variable {w : Nat} {value : Int}

theorem inv_boot (fits : Fits w value) : Inv w (boot value : System T) := by
  refine ⟨fits,?_,?_,.inl rfl,.inl rfl,rfl,Int.le_refl 0⟩
  · simp [available, boot, semaphore_init]
  · simp [boot, semaphore_init]

variable {s : System T}

section
variable (fits : Fits w (s.sem.count - value))
include fits

theorem take_served (enough : 0 ≤ s.sem.count - value) : call w s (.take self value) = { s with
      sem := ⟨s.sem.count - value, s.sem.wait⟩
      completed := s.completed ++ [⟨self, value⟩] } := by
  have no : ¬ s.sem.count - value < 0 := by omega
  simp [call, semaphore_take, sint_of_fits fits, no]

theorem take_blocks (short : s.sem.count - value < 0) : call w s (.take self value) = { s with
      sem := ⟨s.sem.count - value + 1, s.sem.wait ++ [⟨self, value⟩]⟩
      arrivals := s.arrivals ++ [⟨self, value⟩] } := by
  have up : Fits w (s.sem.count - value + 1) :=
    fits_between fits (fits_zero w) (by omega) (by omega)
  simp [call, semaphore_take, sint_of_fits fits, sint_of_fits up, short, sched_wait_unlock]

theorem tryTake_served (enough : 0 ≤ s.sem.count - value) :
    call w s (.tryTake self value) = { s with
      sem := ⟨s.sem.count - value, s.sem.wait⟩
      completed := s.completed ++ [⟨self, value⟩] } := by
  have no : ¬ s.sem.count - value < 0 := by omega
  simp [call, semaphore_try_take, sint_of_fits fits, no]

end

theorem tryTake_refused (short : s.sem.count - value < 0) : call w s (.tryTake self value) = s := by
  simp [call, semaphore_try_take, short, EBUSY]

theorem inv_served (inv : Inv w s) (self : T) (least : 1 ≤ value)
    (fits : Fits w (s.sem.count - value)) (enough : 0 ≤ s.sem.count - value) :
    Inv w { s with
      sem := ⟨s.sem.count - value, s.sem.wait⟩
      completed := s.completed ++ [⟨self, value⟩] } := by
  have balance := inv.balance
  have slack := surplus_nonneg s.sem.wait inv.positive
  have paid : s.initial + s.given - demand (s.completed ++ [⟨self,value⟩]) =
      s.sem.count - value + surplus s.sem.wait := by
    simp only [available] at balance
    simp only [demand_append, demand_cons, demand_nil]
    omega
  refine ⟨fits,paid,inv.positive,?_,.inr ?_,inv.fifo,inv.supplied⟩
  · rcases inv.debit with empty | low
    · exact .inl empty
    · exact .inr (by simp only; omega)
  · simp only [available]
    omega

theorem inv_blocks (inv : Inv w s) (self : T) (least : 1 ≤ value)
    (fits : Fits w (s.sem.count - value)) (short : s.sem.count - value < 0) :
    Inv w { s with
      sem := ⟨s.sem.count - value + 1, s.sem.wait ++ [⟨self, value⟩]⟩
      arrivals := s.arrivals ++ [⟨self, value⟩] } := by
  have balance := inv.balance
  refine ⟨?_,?_,?_,.inr (by simp only; omega),inv.solvent,?_,inv.supplied⟩
  · exact fits_between fits (fits_zero w) (by simp only; omega) (by simp only; omega)
  · simp only [available] at balance ⊢
    simp only [surplus_append, surplus_cons, surplus_nil]
    omega
  · intro x member
    rcases mem_append.mp member with old | new
    · exact inv.positive x old
    · rw [mem_singleton.mp new]
      exact least
  · simp [inv.fifo]

theorem inv_give (inv : Inv w s) (least : 1 ≤ value) (fits : Fits w (s.sem.count + value)) :
    Inv w (call w s (.give value)) := by
  have spec := giveLoop_spec w s.sem.wait (s.sem.count + value) fits
  simp only [call, semaphore_give, sint_of_fits fits]
  generalize giveLoop w (s.sem.count + value) s.sem.wait = r at spec ⊢
  obtain ⟨split,left,range,stop,spent⟩ := spec
  have balance := inv.balance
  have total : surplus s.sem.wait = demand r.2 - r.2.length + surplus r.1.wait := by
    rw [split, surplus_append, surplus_eq_demand r.2]
  have positive : ∀ x ∈ r.1.wait, 1 ≤ x.value := by
    intro x member
    exact inv.positive x (by rw [split]; simp [member])
  have balanced : s.initial + (s.given + value) - demand (s.completed ++ r.2) =
      r.1.count + surplus r.1.wait := by
    simp only [available] at balance
    rw [demand_append]
    omega
  refine ⟨range,balanced,positive,stop,?_,?_,?_⟩
  · -- A give that woke somebody left the counter at zero or above.
    have slack := surplus_nonneg r.1.wait positive
    rcases spent with none | enough
    · rcases inv.solvent with nobody | before
      · exact .inl (by simp [nobody, none])
      · refine .inr ?_
        simp only [available, none, append_nil] at before ⊢
        omega
    · refine .inr ?_
      simp only [available]
      omega
  · simp only [inv.fifo, append_assoc]
    rw [← split]
  · have before := inv.supplied
    simp only
    omega

theorem inv_call (s : System T) (a : Call T) (inv : Inv w s) (can : CanCall w s a) :
    Inv w (call w s a) := by
  cases a with
  | take self value =>
    obtain ⟨_,least,_,fits⟩ := can
    by_cases short : s.sem.count - value < 0
    · rw [take_blocks fits short]
      exact inv_blocks inv self least fits short
    · rw [take_served fits (by omega)]
      exact inv_served inv self least fits (by omega)
  | tryTake self value =>
    obtain ⟨_,least,_,fits⟩ := can
    by_cases short : s.sem.count - value < 0
    · rw [tryTake_refused short]
      exact inv
    · rw [tryTake_served fits (by omega)]
      exact inv_served inv self least fits (by omega)
  | give value => exact inv_give inv can.1 can.2.2

theorem inv_reached (h : Reached (machine T w) s) : Inv w s := by
  refine reached_invariant (Inv w) ?_ inv_call h
  rintro s ⟨value,fits,rfl⟩
  exact inv_boot fits

/-- Grants never exceed what was put in, and blocked takes are served first come
    first served. A semaphore may start in debt; nothing is granted until the
    debt is paid, so there the bound holds from the first grant on. -/
theorem grants_within_supply (w : Nat) {s : System T} (h : Reached (machine T w) s) :
    (0 ≤ s.initial → demand s.completed ≤ s.initial + s.given) ∧
    (s.completed ≠ [] → demand s.completed ≤ s.initial + s.given) ∧
    s.arrivals = s.releases ++ s.sem.wait := by
  have inv := inv_reached h
  have solvent : s.completed ≠ [] → demand s.completed ≤ s.initial + s.given := by
    intro some
    rcases inv.solvent with none | enough
    · exact absurd none some
    · simp only [available] at enough
      omega
  refine ⟨?_,solvent,inv.fifo⟩
  intro credit
  by_cases none : s.completed = []
  · have supplied := inv.supplied
    simp only [none, demand_nil]
    omega
  · exact solvent none

/-- Two units, one taken at once and a take of three served by a give of two. -/
theorem grants_within_supply_run :
    let s := after (machine Nat 8) (boot 2) [.take 0 1, .take 1 3, .give 2]
    demand s.completed = 4 ∧ demand s.completed ≤ s.initial + s.given := by
  intro s
  have reached : Reached (machine Nat 8) s :=
    reached_of_allowed (machine Nat 8) (boot 2) [.take 0 1, .take 1 3, .give 2]
      ⟨2,by decide,rfl⟩ (by decide)
  exact ⟨by decide,(grants_within_supply 8 reached).1 (by decide)⟩

/-- A semaphore initialised to minus one has granted nothing, which is more than
    its initial value. -/
theorem debt_exceeds_supply : ∃ s : System Nat, Reached (machine Nat 8) s ∧
      ¬ demand s.completed ≤ s.initial + s.given := by
  exact ⟨boot (-1),start_reached ⟨-1,by decide,rfl⟩,by decide⟩

def HeadWaitsInNeed (s : System T) : Prop :=
  ∀ x rest, s.sem.wait = x :: rest → available s < x.value

def SingleUnitBehind (s : System T) : Call T → Prop
  | .take _ value => s.sem.wait = [] ∨ value = 1
  | .tryTake _ _ => True
  | .give _ => True

def TailSingle (s : System T) : Prop := ∀ x ∈ s.sem.wait.tail, x.value = 1

theorem surplus_single (single : ∀ x ∈ xs, x.value = 1) : surplus xs = 0 := by
  induction xs with
  | nil => rfl
  | cons x xs ih => ?_
  have first := single x (by simp)
  have rest := ih (by intro y hy; exact single y (by simp [hy]))
  simp only [surplus_cons]
  omega

theorem tailSingle_call (s : System T) (a : Call T) (tail : TailSingle s)
    (can : CanCall w s a) (behind : SingleUnitBehind s a) : TailSingle (call w s a) := by
  cases a with
  | take self value =>
    obtain ⟨_,_,_,fits⟩ := can
    by_cases short : s.sem.count - value < 0
    · rw [take_blocks fits short]
      intro x member
      cases queue : s.sem.wait with
      | nil => simp [queue] at member
      | cons y ys => ?_
      simp only [SingleUnitBehind, queue, cons_ne_nil, false_or] at behind
      simp only [queue, cons_append, tail_cons, mem_append, mem_singleton] at member
      rcases member with old | new
      · exact tail x (by simp [queue, old])
      · rw [new]
        exact behind
    · rw [take_served fits (by omega)]
      exact tail
  | tryTake self value =>
    obtain ⟨_,_,_,fits⟩ := can
    by_cases short : s.sem.count - value < 0
    · rw [tryTake_refused short]
      exact tail
    · rw [tryTake_served fits (by omega)]
      exact tail
  | give value =>
    obtain ⟨split,_⟩ := giveLoop_spec w s.sem.wait (s.sem.count + value) can.2.2
    simp only [call, semaphore_give, sint_of_fits can.2.2]
    generalize giveLoop w (s.sem.count + value) s.sem.wait = r at split ⊢
    intro x member
    cases woken : r.2 with
    | nil =>
      rw [woken] at split
      exact tail x (by rw [split]; exact member)
    | cons y ys =>
      rw [woken] at split
      exact tail x (by rw [split]; simp [mem_of_mem_tail member])

theorem tailSingle_reached (h : Reached (restrict (machine T w) SingleUnitBehind) s) :
    TailSingle s := by
  refine reached_invariant TailSingle ?_ ?_ h
  · rintro s ⟨value,_,rfl⟩
    simp [TailSingle, boot, semaphore_init]
  · intro s a tail can
    exact tailSingle_call s a tail can.1 can.2

theorem head_in_need_of_single (inv : Inv w s) (tail : TailSingle s) : HeadWaitsInNeed s := by
  intro x rest queue
  have flat := surplus_single rest (by intro y hy; exact tail y (by simp [queue, hy]))
  have low : s.sem.count ≤ 0 := by
    rcases inv.debit with empty | low
    · simp [queue] at empty
    · exact low
  have balance := inv.balance
  rw [queue, surplus_cons] at balance
  omega

theorem give_to_zero (s : System T) : call w s (.give (-s.sem.count)) =
      { s with sem := ⟨0, s.sem.wait⟩, given := s.given + -s.sem.count } := by
  have stuck : ∀ queue : List (Waiter T), giveLoop w 0 queue = (⟨0,queue⟩, []) := by
    intro queue
    cases queue <;> simp [giveLoop]
  simp [call, semaphore_give, sint_of_fits (fits_zero w), stuck]

theorem head_served_at_zero (inv : Inv w s) (zero : s.sem.count = 0) (x : Waiter T)
    (rest : List (Waiter T)) (queue : s.sem.wait = x :: rest) (behind : 1 ≤ surplus rest) :
    ¬ HeadWaitsInNeed s := by
  intro need
  have head := need x rest queue
  have balance := inv.balance
  rw [queue, surplus_cons] at balance
  omega

/-- After a take of several units behind a blocked context, a give that brings
    the counter back to zero leaves the head blocked, though it could be served. -/
theorem head_starves_behind_several (inv : Inv w s)
    (can : CanCall w s a) (several : ¬ SingleUnitBehind s a) :
    ∃ value, CanCall w (call w s a) (.give value) ∧
      ¬ HeadWaitsInNeed (call w (call w s a) (.give value)) := by
  cases a with
  | tryTake self value | give value => exact absurd trivial several
  | take self value => ?_
  obtain ⟨_,least,_,fits⟩ := can
  simp only [SingleUnitBehind, not_or] at several
  obtain ⟨busy,more⟩ := several
  have low : s.sem.count ≤ 0 := inv.debit.resolve_left busy
  have short : s.sem.count - value < 0 := by omega
  have next := inv_blocks inv self least fits short
  rw [take_blocks fits short]
  generalize hu : ({ s with
    sem := ⟨s.sem.count - value + 1,s.sem.wait ++ [⟨self,value⟩]⟩
    arrivals := s.arrivals ++ [⟨self,value⟩] } : System T) = u at next ⊢
  have count : u.sem.count = s.sem.count - value + 1 := by rw [← hu]
  have wait : u.sem.wait = s.sem.wait ++ [⟨self,value⟩] := by rw [← hu]
  have least' : 1 ≤ -u.sem.count := by omega
  have back : Fits w (u.sem.count + -u.sem.count) := by
    rw [Int.add_right_neg]
    exact fits_zero w
  refine ⟨-u.sem.count,⟨least',?_,back⟩,?_⟩
  · obtain ⟨bottom,_⟩ := fits
    constructor <;> omega
  obtain ⟨x,rest,queue⟩ := exists_cons_of_ne_nil busy
  have slack := surplus_nonneg rest (by intro y hy; exact inv.positive y (by simp [queue, hy]))
  have after := inv_give next least' back
  rw [give_to_zero] at after ⊢
  refine head_served_at_zero after rfl x (rest ++ [⟨self,value⟩]) ?_ ?_
  · simp [wait, queue]
  · simp only [surplus_append, surplus_cons, surplus_nil]
    omega

/-- The head is woken as soon as it can be in every run in which only takes of
    one unit queue behind another context; any other take that does lets a later
    give leave the head blocked with its demand available. -/
theorem head_waits_in_need_exactly (w : Nat) :
    (∀ s : System T, Reached (restrict (machine T w) SingleUnitBehind) s → HeadWaitsInNeed s) ∧
    (∀ (s : System T) (a : Call T), Reached (machine T w) s → CanCall w s a →
      ¬ SingleUnitBehind s a →
      ∃ value, CanCall w (call w s a) (.give value) ∧
        ¬ HeadWaitsInNeed (call w (call w s a) (.give value))) := by
  constructor
  · intro s h
    exact head_in_need_of_single (inv_reached (reached_of_restrict h)) (tailSingle_reached h)
  · intro s a h can several
    exact head_starves_behind_several (inv_reached h) can several

/-- One unit is given while a take of one unit waits ahead of a take of three. -/
theorem head_starves : ∃ s : System Nat, Reached (machine Nat 8) s ∧ ¬ HeadWaitsInNeed s := by
  refine ⟨after (machine Nat 8) (boot 0) [.take 0 1, .take 1 3, .give 1],?_,?_⟩
  · exact reached_of_allowed (machine Nat 8) (boot 0) [.take 0 1, .take 1 3, .give 1]
      ⟨0,by decide,rfl⟩
      (by decide)
  · intro need
    have head := need ⟨0,1⟩ [⟨1,3⟩] (by decide)
    revert head
    decide

/- Takes and gives of one unit. -/

/-- A semaphore that is taken and given in units: whoever waits has found it empty. -/
structure Unitary (sem : Semaphore T) : Prop where
  nonneg : 0 ≤ sem.count
  waits : sem.wait = [] ∨ sem.count = 0

variable {sem : Semaphore T}

theorem give_one (unitary : Unitary sem) (fits : Fits w (sem.count + 1)) :
    (sem.wait = [] ∧ semaphore_give w sem 1 = (⟨sem.count + 1, []⟩, [])) ∨
      ∃ x rest, sem.wait = x :: rest ∧ sem.count = 0 ∧
        semaphore_give w sem 1 = (⟨0, rest⟩, [x]) := by
  cases wait : sem.wait with
  | nil =>
    left
    simp [semaphore_give, giveLoop, wait, sint_of_fits fits]
  | cons x rest => ?_
  right
  have zero : sem.count = 0 := by simpa [wait] using unitary.waits
  have stop : giveLoop w 0 rest = (⟨0,rest⟩, []) := by
    cases rest with
    | nil => rfl
    | cons y rest => simp [giveLoop]
  rw [zero] at fits
  have up : sint w (0 + 1) = 1 := sint_of_fits fits
  have down : sint w (1 - 1) = 0 := sint_of_fits (fits_zero w)
  refine ⟨x,rest,rfl,zero,?_⟩
  rw [semaphore_give, wait, zero, up, giveLoop, if_pos (by decide), down, stop]

theorem take_one (unitary : Unitary sem) (fits : Fits w (sem.count - 1)) (self : T) :
    (1 ≤ sem.count ∧ semaphore_take w sem self 1 = (⟨sem.count - 1, sem.wait⟩, .returned 0)) ∨
      (sem.count = 0 ∧ semaphore_take w sem self 1 = (⟨0, sem.wait ++ [⟨self, 1⟩]⟩, .waits)) := by
  have nonneg := unitary.nonneg
  by_cases some : 1 ≤ sem.count
  · left
    refine ⟨some,?_⟩
    rw [semaphore_take, sint_of_fits fits]
    exact if_neg (by omega)
  right
  have zero : sem.count = 0 := by omega
  rw [zero] at fits
  have down : sint w (0 - 1) = -1 := sint_of_fits fits
  have up : sint w (-1 + 1) = 0 := sint_of_fits (fits_zero w)
  refine ⟨zero,?_⟩
  rw [semaphore_take, zero, down]
  simp only [up]
  rfl

theorem unitary_up (nonneg : 0 ≤ n) : Unitary (⟨n, []⟩ : Semaphore T) := ⟨nonneg, .inl rfl⟩

theorem unitary_zero (wait : List (Waiter T)) : Unitary ⟨0, wait⟩ := ⟨Int.le_refl 0, .inr rfl⟩

theorem try_take_fails (short : sem.count - 1 < 0) : (semaphore_try_take w sem 1).2 ≠ 0 := by
  simp [semaphore_try_take, short, EBUSY]

theorem try_take_succeeds (enough : ¬ sem.count - 1 < 0) : (semaphore_try_take w sem 1).2 = 0 := by
  rw [semaphore_try_take, if_neg enough]

end MutekSemaphore
