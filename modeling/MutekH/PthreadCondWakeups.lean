import MutekH.PthreadCond
import MutekH.PthreadMutexNormal
import Mathlib.Data.List.Nodup

/-!
No wake-up of a condition is lost. The invariant ties every program point to the
locks, queues and counters it stands for; a context between its release of the
mutex and its push has the lock of the queue, so no waking call can pass it.
-/
namespace MutekPthreadCondWakeups
open Function List LibMachine MutekWaitQueue MutekPthreadMutexNormal MutekPthreadCond
open MutekPthreadMutex hiding machine

section
variable {T C : Type} [DecidableEq T] [DecidableEq C]

/- What a program point says about the shared state. -/

/-- The condition whose queue is locked by a context at this point. -/
def lockOf : Pc C → Option C
  | .waitUnlock c | .waitPush c | .signal c | .signalDone c | .broadcast c | .broadcastDone c =>
    some c
  | _ => none

def queueOf : Pc C → Option C
  | .waiting c => some c
  | _ => none

def Blocked : Pc C → Prop
  | .locking | .relocking _ => True
  | _ => False

def Holding : Pc C → Prop
  | .waitLockQueue _ | .waitUnlock _ | .reacquired _ => True
  | _ => False

def Counted (waits wakes returns : Nat) : Pc C → Prop
  | .waitPush _ | .waiting _ => waits = wakes + 1 ∧ wakes = returns
  | .relock _ | .relocking _ | .reacquired _ => waits = wakes ∧ wakes = returns + 1
  | _ => waits = wakes ∧ wakes = returns

/-- A waking call has woken a first part of what it found, and the rest is queued. -/
def Waking (wait : C → List T) (found woken : List T) : Pc C → Prop
  | .signal c => woken = [] ∧ found = wait c
  | .signalDone c => woken = found.take 1 ∧ wait c = found.drop 1
  | .broadcast c => found = woken ++ wait c
  | .broadcastDone c => found = woken ∧ wait c = []
  | _ => True

structure At (s : State T C) (t : T) (p : Pc C) : Prop where
  held : ∀ c, s.held c = some t ↔ lockOf p = some c
  queued : ∀ c, t ∈ s.wait c ↔ queueOf p = some c
  blocked : t ∈ s.sys.mutex.wait ↔ Blocked p
  holding : Holding p → t ∈ s.sys.holders
  counted : Counted (s.waits t) (s.wakes t) (s.returns t) p
  waking : Waking s.wait (s.found t) (s.woken t) p

structure CondInv (s : State T C) : Prop where
  at_point : ∀ t, At s t (s.pc t)
  once : ∀ c, (s.wait c).Nodup
  single : s.sys.mutex.wait.Nodup

section steps
set_option linter.unusedSectionVars false
variable {w : Nat} {s : State T C} {t : T}

theorem nodup_pushed (once : xs.Nodup) (absent : t ∉ xs) : (xs ++ [t]).Nodup := by
  rw [nodup_append]
  simp only [once, nodup_singleton, mem_singleton, true_and]
  rintro a member b rfl same
  exact absent (same ▸ member)

theorem waking_congr
    (same : ∀ c, lockOf p = some c → wait' c = wait c) (before : Waking wait found woken p) :
    Waking wait' found woken p := by
  cases p with
  | signal c => exact ⟨before.1,(same c rfl).symm ▸ before.2⟩
  | signalDone c | broadcastDone c => exact ⟨before.1,(same c rfl).trans before.2⟩
  | broadcast c =>
    simp only [Waking] at before ⊢
    rw [same c rfl]
    exact before
  | _ => trivial

variable {b : Pc C}

theorem at_update (inv : CondInv s) (moved : s'.pc = update s.pc t b)
    (here : At s' t b) (others : ∀ x, x ≠ t → At s x (s.pc x) → At s' x (s.pc x)) :
    ∀ x, At s' x (s'.pc x) := by
  rw [moved]
  apply (forall_update_iff s.pc (fun x p => At s' x p)).mpr
  exact ⟨here,fun x other => others x other (inv.at_point x)⟩

theorem goto_inv (inv : CondInv s) (here : At s t b) : CondInv (goto s t b) := by
  constructor
  · apply at_update inv rfl
    · exact ⟨here.held,here.queued,here.blocked,here.holding,here.counted,here.waking⟩
    · intro x _ before
      exact ⟨before.held,before.queued,before.blocked,before.holding,before.counted, before.waking⟩
  · exact inv.once
  · exact inv.single

attribute [local simp] queueOf

theorem call_inv (inv : CondInv s) (run : s.pc t = .run) (lock : lockOf b = none)
    (queue : queueOf b = none) (free : ¬ Blocked b) (holds : Holding b → t ∈ s.sys.holders)
    (fresh : ∀ n m k, n = m ∧ m = k → Counted n m k b)
    (calm : ∀ found woken, Waking s.wait found woken b) : CondInv (goto s t b) := by
  have before := inv.at_point t
  rw [run] at before
  apply goto_inv inv
  constructor
  · intro c
    rw [before.held c, lock]
    simp [lockOf]
  · intro c
    rw [before.queued c, queue]
    simp
  · rw [before.blocked]
    exact iff_of_false id free
  · exact holds
  · exact fresh _ _ _ before.counted
  · exact calm _ _

variable {c : C} {x : T}

theorem held_update (inv : CondInv s) (before : s.held c ≠ some x) (after : holder ≠ some x)
    (d : C) :
    update s.held c holder d = some x ↔ lockOf (s.pc x) = some d := by
  rw [← (inv.at_point x).held d]
  by_cases same : d = c
  · subst same
    rw [update_self]
    exact iff_of_false after before
  · rw [update_of_ne same]

theorem update_some_iff (before : ∀ d, held d ≠ some t) (d : C) :
    update held c (some t) d = some t ↔ some c = some d := by
  by_cases same : d = c
  · simp [same]
  · simp [update_of_ne same, before d, Ne.symm same]

attribute [local simp] waitOnQueue

theorem update_none_iff (before : ∀ d, held d = some t ↔ some c = some d)
    (d : C) : update held c none d = some t ↔ (none : Option C) = some d := by
  by_cases same : d = c
  · simp [same]
  · simp [update_of_ne same, before d, Ne.symm same]

section
variable (inv : CondInv s)
include inv

theorem lockQueue_inv (point : s.pc t = .waitLockQueue c) (free : s.held c = none) :
    CondInv (lockQueue s t c (.waitUnlock c)) := by
  have before := inv.at_point t
  rw [point] at before
  constructor
  · apply at_update inv rfl
    · constructor
      · exact update_some_iff fun d => by simp [before.held d, lockOf]
      · exact before.queued
      · exact before.blocked
      · exact before.holding
      · exact before.counted
      · trivial
    · intro x other at_x
      exact ⟨held_update inv (by simp [free]) (by simp [Ne.symm other]),at_x.queued,at_x.blocked,
        at_x.holding,at_x.counted,
        at_x.waking⟩
  · exact inv.once
  · exact inv.single

theorem startWaking_inv
    (point : s.pc t = .signalLockQueue c ∧ b = .signal c ∨ s.pc t = .broadcastLockQueue c ∧
      b = .broadcast c)
    (free : s.held c = none) :
    CondInv (startWaking s t c b) := by
  have before := inv.at_point t
  constructor
  · apply at_update inv rfl
    · rcases point with ⟨point,rfl⟩ | ⟨point,rfl⟩
      all_goals
        rw [point] at before
        constructor
        · exact update_some_iff fun d => by simp [before.held d, lockOf]
        · exact before.queued
        · exact before.blocked
        · exact before.holding
        · exact before.counted
        · simp [startWaking, lockQueue, Waking]
    · intro x other at_x
      constructor
      · exact held_update inv (by simp [free]) (by simp [Ne.symm other])
      · exact at_x.queued
      · exact at_x.blocked
      · exact at_x.holding
      · exact at_x.counted
      · simpa [startWaking, lockQueue, update_of_ne other] using at_x.waking
  · exact inv.once
  · exact inv.single

theorem unlockQueue_inv (point : s.pc t = .signalDone c ∨ s.pc t = .broadcastDone c) :
    CondInv (unlockQueue s t c .run) := by
  have before := inv.at_point t
  have mine : s.held c = some t := by
    rw [before.held c]
    rcases point with point | point <;> simp [point, lockOf]
  constructor
  · apply at_update inv rfl
    · rcases point with point | point
      all_goals
        rw [point] at before
        constructor
        · exact update_none_iff before.held
        · exact before.queued
        · exact before.blocked
        · exact before.holding
        · exact before.counted
        · trivial
    · intro x other at_x
      exact ⟨held_update inv (by simp [mine, Ne.symm other]) (by simp),at_x.queued,at_x.blocked,
        at_x.holding,at_x.counted,
        at_x.waking⟩
  · exact inv.once
  · exact inv.single

theorem alone (mine : lockOf (s.pc t) = some c) (other : x ≠ t) : lockOf (s.pc x) ≠ some c := by
  intro locked
  have first := ((inv.at_point t).held c).mpr mine
  rw [((inv.at_point x).held c).mpr locked] at first
  exact other (Option.some.inj first)

theorem waitOnQueue_inv (point : s.pc t = .waitPush c) : CondInv (waitOnQueue s t c) := by
  have mine : lockOf (s.pc t) = some c := by rw [point]; rfl
  have before := inv.at_point t
  have held := (before.held c).mpr mine
  rw [point] at before
  have absent : t ∉ s.wait c := by
    rw [before.queued c]
    simp
  constructor
  · apply at_update inv rfl
    · constructor
      · exact update_none_iff before.held
      · intro d
        by_cases same : d = c
        · subst same
          simp [sched_wait_unlock]
        · simp only [waitOnQueue, update_of_ne same, before.queued d]
          simp [Ne.symm same]
      · exact before.blocked
      · exact before.holding
      · exact before.counted
      · trivial
    intro x other at_x
    constructor
    · exact held_update inv (by simp [held, Ne.symm other]) (by simp)
    · intro d
      by_cases same : d = c
      · subst same
        simpa [sched_wait_unlock, other] using at_x.queued d
      · simpa [update_of_ne same] using at_x.queued d
    · exact at_x.blocked
    · exact at_x.holding
    · exact at_x.counted
    · apply waking_congr _ at_x.waking
      intro d locked
      have different : d ≠ c := by
        rintro rfl
        exact alone inv mine other locked
      exact update_of_ne different _ _
  · intro d
    by_cases same : d = c
    · subst same
      simp only [waitOnQueue, update_self]
      exact nodup_pushed (inv.once d) absent
    · simpa [update_of_ne same] using inv.once d
  · exact inv.single

theorem at_update_both (different : x ≠ t)
    (moved : s'.pc = update (update s.pc t b) x d) (here : At s' t b)
    (there : At s' x d) (others : ∀ y, y ≠ t → y ≠ x → At s y (s.pc y) → At s' y (s.pc y)) :
    ∀ y, At s' y (s'.pc y) := by
  rw [moved]
  apply (forall_update_iff _ (fun y p => At s' y p)).mpr
  apply And.intro there
  intro y other
  by_cases same : y = t
  · subst same
    simpa using here
  · rw [update_of_ne same]
    exact others y same other (inv.at_point y)

theorem queued_dropped (queue : s.wait c = x :: rest) (other : y ≠ x)
    (d : C) : y ∈ update s.wait c rest d ↔ queueOf (s.pc y) = some d := by
  have before := (inv.at_point y).queued d
  by_cases same : d = c
  · subst same
    rw [← before, queue]
    simp [other]
  · rw [update_of_ne same]
    exact before

theorem wake_inv (queue : s.wait c = x :: rest)
    (point : s.pc t = .signal c ∧ more = .signalDone c ∨ s.pc t = .broadcast c ∧
      more = .broadcast c) :
    CondInv { s with
      wait := update s.wait c rest
      pc := update (update s.pc t more) x (.relock c)
      wakes := update s.wakes x (s.wakes x + 1)
      woken := update s.woken t (s.woken t ++ [x]) } := by
  have mine : lockOf (s.pc t) = some c := by
    rcases point with ⟨point,_⟩ | ⟨point,_⟩ <;> rw [point] <;> rfl
  have before := inv.at_point t
  have head := inv.at_point x
  have waits : s.pc x = .waiting c := by
    have member : x ∈ s.wait c := by simp [queue]
    rw [head.queued c] at member
    cases point_x : s.pc x <;> simp_all
  have different : x ≠ t := by
    rintro rfl
    rw [waits] at mine
    simp [lockOf] at mine
  rw [waits] at head
  have once := inv.once c
  rw [queue, nodup_cons] at once
  constructor
  · apply at_update_both inv different rfl
    · rcases point with ⟨point,rfl⟩ | ⟨point,rfl⟩
      all_goals
        rw [point] at before
        constructor
        · exact before.held
        · intro d
          simp [queued_dropped inv queue (Ne.symm different), point]
        · exact before.blocked
        · exact before.holding
        · simpa [update_of_ne (Ne.symm different), Counted] using before.counted
        · have waking := before.waking
          simp_all [Waking]
    · constructor
      · exact head.held
      · intro d
        by_cases same : d = c
        · subst same
          simpa using once.1
        · simpa [update_of_ne same, Ne.symm same] using head.queued d
      · exact head.blocked
      · exact head.holding
      · have counts := head.counted
        simp only [Counted, update_self] at counts ⊢
        omega
      · trivial
    · intro y not_t not_x at_y
      constructor
      · exact at_y.held
      · exact queued_dropped inv queue not_x
      · exact at_y.blocked
      · exact at_y.holding
      · simpa [update_of_ne not_x] using at_y.counted
      · simp only [update_of_ne not_t]
        apply waking_congr _ at_y.waking
        intro d locked
        have apart : d ≠ c := by
          rintro rfl
          exact alone inv mine not_t locked
        exact update_of_ne apart _ _
  · intro d
    by_cases same : d = c
    · subst same
      simpa using once.2
    · simpa [update_of_ne same] using inv.once d
  · exact inv.single

theorem wakeOne_inv
    (point : s.pc t = .signal c ∧ more = .signalDone c ∧ done = .signalDone c ∨
      s.pc t = .broadcast c ∧ more = .broadcast c ∧ done = .broadcastDone c) :
    CondInv (wakeOne s t c more done) := by
  unfold wakeOne
  cases queue : s.wait c with
  | nil =>
    have before := inv.at_point t
    simp only [wake_empty]
    apply goto_inv inv
    rcases point with ⟨point,_,rfl⟩ | ⟨point,_,rfl⟩
    all_goals
      rw [point] at before
      constructor
      · exact before.held
      · exact before.queued
      · exact before.blocked
      · exact before.holding
      · exact before.counted
      · have waking := before.waking
        simp_all [Waking]
  | cons x rest =>
    simp only [wake_head]
    apply wake_inv inv queue
    rcases point with ⟨point,more,_⟩ | ⟨point,more,_⟩
    · exact .inl ⟨point,more⟩
    · exact .inr ⟨point,more⟩

/- The mutex. Its queue and holders change; the conditions do not. -/

theorem mutexLock_inv
    (point : s.pc t = .run ∧ granted = .run ∧ blocked = .locking ∨ ∃ c,
      s.pc t = .relock c ∧ granted = .reacquired c ∧ blocked = .relocking c) :
    CondInv (mutexLock w s t granted blocked) := by
  have before := inv.at_point t
  have absent : t ∉ s.sys.mutex.wait := by
    rw [before.blocked]
    rcases point with ⟨point,_⟩ | ⟨c,point,_⟩ <;> simp [point, Blocked]
  unfold mutexLock
  by_cases free : s.sys.mutex.count = 0
  · have got : (pthread_mutex_lock .normal w s.sys.mutex t).2 ≠ .waits := by
      simp [pthread_mutex_lock, pthread_mutex_normal_lock, free]
    rw [if_neg got, lock_granted free]
    constructor
    · apply at_update inv rfl
      · rcases point with ⟨point,rfl,_⟩ | ⟨c,point,rfl,_⟩
        all_goals
          rw [point] at before
          exact ⟨before.held,before.queued,before.blocked,by simp,before.counted,
            trivial⟩
      · intro x _ at_x
        exact ⟨at_x.held,at_x.queued,at_x.blocked,
          fun holds => .tail t (at_x.holding holds),at_x.counted,at_x.waking⟩
    · exact inv.once
    · exact inv.single
  · have waits : (pthread_mutex_lock .normal w s.sys.mutex t).2 = .waits := by
      simp [pthread_mutex_lock, pthread_mutex_normal_lock, free]
    rw [if_pos waits, lock_waits free]
    constructor
    · apply at_update inv rfl
      · rcases point with ⟨point,_,rfl⟩ | ⟨c,point,_,rfl⟩
        all_goals
          rw [point] at before
          exact ⟨before.held,before.queued,by simp [Blocked],by simp [Holding],
            before.counted,trivial⟩
      · intro x other at_x
        exact ⟨at_x.held,at_x.queued,by simpa [other] using at_x.blocked,at_x.holding,
          at_x.counted,at_x.waking⟩
    · exact inv.once
    · exact nodup_pushed inv.single absent

theorem mutexTrylock_inv : CondInv (mutexTrylock w s t) := by
  unfold mutexTrylock
  by_cases free : s.sys.mutex.count = 0
  · rw [trylock_granted free]
    constructor
    · intro x
      have at_x := inv.at_point x
      exact ⟨at_x.held,at_x.queued,at_x.blocked,
        fun holds => .tail t (at_x.holding holds),at_x.counted,at_x.waking⟩
    · exact inv.once
    · exact inv.single
  · rw [(trylock_refused w t free).2]
    exact inv

end

theorem unlock_woken :
    (pthread_mutex_unlock .normal w s.sys.mutex t).2.2 = s.sys.mutex.wait.head? := by
  simp only [pthread_mutex_unlock, pthread_mutex_normal_unlock]
  cases s.sys.mutex.wait <;> rfl

theorem erase_holders (other : x ≠ t) (holds : x ∈ s.sys.holders) : x ∈ s.sys.holders.erase t :=
  (mem_erase_of_ne other).mpr holds

section
variable (inv : CondInv s)
include inv

theorem resumed_at (queue : s.sys.mutex.wait = x :: rest) :
    (s.pc x = .locking ∧ resumed (s.pc x) = .run) ∨
      ∃ c, s.pc x = .relocking c ∧ resumed (s.pc x) = .reacquired c := by
  have member : x ∈ s.sys.mutex.wait := by simp [queue]
  rw [(inv.at_point x).blocked] at member
  cases point : s.pc x with
  | locking => exact .inl ⟨rfl,rfl⟩
  | relocking c => exact .inr ⟨c,rfl,rfl⟩
  | _ => simp [point, Blocked] at member

theorem mutexUnlock_inv (waits : T → Nat) (same : ∀ x, x ≠ t → waits x = s.waits x)
    (point : s.pc t = .run ∧ b = .run ∧ waits t = s.waits t ∨
      ∃ c, s.pc t = .waitUnlock c ∧ b = .waitPush c ∧ waits t = s.waits t + 1) :
    CondInv { mutexUnlock w s t b with waits := waits } := by
  have before := inv.at_point t
  have here : ∀ s' : State T C, s'.held = s.held → s'.wait = s.wait → s'.waits = waits →
      s'.wakes = s.wakes → s'.returns = s.returns → t ∉ s'.sys.mutex.wait → At s' t b := by
    intro s' held wait counts wakes returns unblocked
    rcases point with ⟨point,rfl,count⟩ | ⟨c,point,rfl,count⟩
    all_goals
      rw [point] at before
      have counted := before.counted
      constructor
      · rw [held]
        exact before.held
      · rw [wait]
        exact before.queued
      · exact iff_of_false unblocked id
      · simp [Holding]
      · rw [counts, wakes, returns]
        simp only [Counted] at counted ⊢
        omega
      · trivial
  have absent : t ∉ s.sys.mutex.wait := by
    rw [before.blocked]
    rcases point with ⟨point,_⟩ | ⟨c,point,_⟩ <;> simp [point, Blocked]
  unfold mutexUnlock
  cases queue : s.sys.mutex.wait with
  | nil =>
    rw [unlock_woken, queue, unlock_frees queue]
    constructor
    · apply at_update inv rfl
      · exact here _ rfl rfl rfl rfl rfl (by simp)
      · intro x other at_x
        have counted := at_x.counted
        rw [← same x other] at counted
        exact ⟨at_x.held,at_x.queued,by simpa [queue] using at_x.blocked,
          fun holds => erase_holders other (at_x.holding holds),counted,at_x.waking⟩
    · exact inv.once
    · exact nodup_nil
  | cons x rest =>
    have different : x ≠ t := by
      rintro rfl
      exact absent (by simp [queue])
    have single := inv.single
    rw [queue, nodup_cons] at single
    rw [unlock_woken, queue, unlock_hands x rest queue]
    constructor
    · apply at_update_both inv different rfl
      · refine here _ rfl rfl rfl rfl rfl ?_
        intro member
        exact absent (by simp [queue, mem_cons_of_mem x member])
      · have head := inv.at_point x
        have counted := head.counted
        rw [← same x different] at counted
        rcases resumed_at inv queue with ⟨point_x,resumed_x⟩ | ⟨c,point_x,resumed_x⟩
        all_goals
          rw [resumed_x]
          rw [point_x] at head counted
          exact ⟨head.held,head.queued,iff_of_false single.1 id,by simp,counted,
            trivial⟩
      · intro y not_t not_x at_y
        have counted := at_y.counted
        rw [← same y not_t] at counted
        exact ⟨at_y.held,at_y.queued,by simpa [queue, not_x] using at_y.blocked,
          fun holds => .tail x (erase_holders not_t (at_y.holding holds)),
          counted,at_y.waking⟩
    · exact inv.once
    · exact single.2

theorem return_inv (point : s.pc t = .reacquired c) :
    CondInv { goto s t .run with returns := update s.returns t (s.returns t + 1) } := by
  have before := inv.at_point t
  rw [point] at before
  constructor
  · apply at_update inv rfl
    · have counted := before.counted
      constructor
      · exact before.held
      · exact before.queued
      · exact before.blocked
      · simp [Holding]
      · simp only [Counted, goto, update_self] at counted ⊢
        omega
      · trivial
    · intro x other at_x
      exact ⟨at_x.held,at_x.queued,at_x.blocked,at_x.holding,
        by simpa [goto, update_of_ne other] using at_x.counted,at_x.waking⟩
  · exact inv.once
  · exact inv.single

theorem step_inv (can : Ready s.held (s.pc t)) : CondInv (step w s t) := by
  unfold step
  cases point : s.pc t with rw [point] at can
  | waitLockQueue c => exact lockQueue_inv inv point can
  | waitUnlock c =>
    apply mutexUnlock_inv inv
    · intro x other
      exact update_of_ne other _ _
    · exact .inr ⟨c,point,rfl,by simp⟩
  | waitPush c => exact waitOnQueue_inv inv point
  | relock c => exact mutexLock_inv inv (.inr ⟨c,point,rfl,rfl⟩)
  | reacquired c => exact return_inv inv point
  | signalLockQueue c => exact startWaking_inv inv (.inl ⟨point,rfl⟩) can
  | signal c => exact wakeOne_inv inv (.inl ⟨point,rfl,rfl⟩)
  | signalDone c => exact unlockQueue_inv inv (.inl point)
  | broadcastLockQueue c => exact startWaking_inv inv (.inr ⟨point,rfl⟩) can
  | broadcast c => exact wakeOne_inv inv (.inr ⟨point,rfl,rfl⟩)
  | broadcastDone c => exact unlockQueue_inv inv (.inr point)
  | _ => exact inv

theorem next_inv (a : Act T C) (can : Enabled s a) : CondInv (next w s a) := by
  cases a with
  | lock t => exact mutexLock_inv inv (.inl ⟨can,rfl,rfl⟩)
  | trylock t => exact mutexTrylock_inv inv
  | unlock t =>
    have kept := mutexUnlock_inv (w := w) inv s.waits (fun _ _ => rfl) (.inl ⟨can,rfl,rfl⟩)
    exact kept
  | pthread_cond_wait t c =>
    exact call_inv inv can.1 rfl rfl id (fun _ => can.2) (fun _ _ _ => id) (fun _ _ => trivial)
  | pthread_cond_signal t c | pthread_cond_broadcast t c =>
    exact call_inv inv can rfl rfl id (by simp [Holding]) (fun _ _ _ => id) (fun _ _ => trivial)
  | step t => exact step_inv inv can

end

theorem inv_reached (h : Reached (machine T C w) s) : CondInv s := by
  apply reached_invariant CondInv _ (fun s a inv can => next_inv inv a can) h
  rintro s ⟨⟨stale,sys⟩,wait,held,pc,waits,wakes,returns⟩
  constructor
  · intro t
    rw [pc t]
    constructor
    · simp [held, lockOf]
    · simp [wait]
    · simp [sys, boot, pthread_mutex_init, Blocked]
    · simp [Holding]
    · simp [Counted, waits, wakes, returns]
    · trivial
  · simp [wait]
  · simp [sys, boot, pthread_mutex_init]

/- What one step does to a context that does not make it. -/

def mover : Act T C → T
  | .lock t | .trylock t | .unlock t | .pthread_cond_wait t _ | .pthread_cond_signal t _
  | .pthread_cond_broadcast t _ | .step t => t

theorem unlock_untouched (inv : CondInv s) (other : t ≠ u) :
    (mutexUnlock w s u b).pc t = s.pc t ∨ Blocked (s.pc t) := by
  simp only [mutexUnlock, unlock_woken]
  cases queue : s.sys.mutex.wait with
  | nil => exact .inl (update_of_ne other _ _)
  | cons x rest => ?_
  by_cases same : t = x
  · subst same
    have member : t ∈ s.sys.mutex.wait := by simp [queue]
    exact Or.inr ((inv.at_point t).blocked.mp member)
  · apply Or.inl
    simp [update_of_ne same, update_of_ne other]

theorem wakeOne_rest (s : State T C) (u : T) (c : C) (more done : Pc C) :
    (∀ x, (wakeOne s u c more done).wakes x =
      s.wakes x + if (s.wait c).head? = some x then 1 else 0) ∧
    (wakeOne s u c more done).returns = s.returns ∧ (wakeOne s u c more done).sys = s.sys := by
  unfold wakeOne
  cases s.wait c with
  | nil => exact ⟨fun _ => rfl,rfl,rfl⟩
  | cons y rest => ?_
  refine ⟨?_,rfl,rfl⟩
  intro x
  by_cases same : x = y
  · simp [same]
  · simp [update_of_ne same, Ne.symm same]

theorem wake_untouched (other : t ≠ u) :
    (wakeOne s u c more done).pc t = s.pc t ∧ (wakeOne s u c more done).wakes t = s.wakes t ∨
      s.wakes t < (wakeOne s u c more done).wakes t := by
  unfold wakeOne
  cases queue : s.wait c with
  | nil => exact .inl ⟨update_of_ne other _ _,rfl⟩
  | cons x rest => ?_
  by_cases same : t = x
  · subst same
    simp
  · apply Or.inl
    simp [update_of_ne same, update_of_ne other]

theorem untouched (inv : CondInv s) (a : Act T C) (other : t ≠ mover a) :
    (next w s a).pc t = s.pc t ∧ (next w s a).wakes t = s.wakes t ∨ Blocked (s.pc t) ∨
      s.wakes t < (next w s a).wakes t := by
  cases a with
  | trylock u => exact .inl ⟨rfl,rfl⟩
  | unlock u =>
    rcases unlock_untouched inv other with same | blocked
    · exact .inl ⟨same,rfl⟩
    · exact .inr (.inl blocked)
  | step u =>
    simp only [MutekPthreadCond.next, step]
    cases point : s.pc u with
    | waitUnlock c =>
      rcases unlock_untouched inv other with same | blocked
      · exact .inl ⟨same,rfl⟩
      · exact .inr (.inl blocked)
    | signal c | broadcast c =>
      rcases wake_untouched (s := s) other with same | woken
      · exact .inl same
      · exact .inr (.inr woken)
    | run | locking | waiting c | relocking c => exact .inl ⟨rfl,rfl⟩
    | _ => exact .inl ⟨update_of_ne other _ _,rfl⟩
  | _ => exact .inl ⟨update_of_ne other _ _,rfl⟩

theorem wakes_mono (a : Act T C) : s.wakes t ≤ (next w s a).wakes t := by
  have woken : ∀ u c more done, s.wakes t ≤ (wakeOne (C := C) s u c more done).wakes t := by
    intro u c more done
    rw [(wakeOne_rest s u c more done).1]
    exact Nat.le_add_right _ _
  cases a with
  | step u =>
    simp only [MutekPthreadCond.next, step]
    cases s.pc u with
    | signal c | broadcast c => exact woken _ _ _ _
    | _ => exact Nat.le_refl _
  | _ => exact Nat.le_refl _

/-- A context that has given the mutex back in a wait stays in that wait until it is woken. -/
def WaitsOrWoken (t : T) (c : C) (wakes : Nat) (s : State T C) : Prop :=
  (s.pc t = .waitPush c ∨ s.pc t = .waiting c) ∨ wakes < s.wakes t

theorem waits_or_woken (inv : CondInv s) (low : wakes ≤ s.wakes t)
    (before : WaitsOrWoken t c wakes s) (can : Enabled s a) :
    WaitsOrWoken t c wakes (next w s a) := by
  rcases before with point | woken
  · by_cases same : t = mover a
    · -- only its own push on the queue is open to it
      cases a with have eq : t = u := same
      | step u =>
        subst eq
        rcases point with point | point
        · apply Or.inl
          simp [MutekPthreadCond.next, step, point, unlockQueue]
        · simp [Enabled, point, Ready] at can
      | pthread_cond_wait u d =>
        subst eq
        rcases point with point | point <;> simp [Enabled, point] at can
      | _ u =>
        subst eq
        rcases point with point | point <;> simp [Enabled, point] at can
    · rcases untouched inv a same with ⟨stays,_⟩ | blocked | woken
      · apply Or.inl
        rwa [stays]
      · rcases point with point | point <;> simp [point, Blocked] at blocked
      · exact .inr (Nat.lt_of_le_of_lt low woken)
  · exact .inr (Nat.lt_of_lt_of_le woken (wakes_mono a))

theorem run_waits_or_woken (wakes : Nat)
    (run : Run (machine T C w) s as s') (inv : CondInv s) (low : wakes ≤ s.wakes t)
    (before : WaitsOrWoken t c wakes s) : WaitsOrWoken t c wakes s' ∧ CondInv s' := by
  have kept := run_invariant
    (fun r => CondInv r ∧ wakes ≤ r.wakes t ∧ WaitsOrWoken t c wakes r)
    (fun r a good can => ⟨next_inv good.1 a can,Nat.le_trans good.2.1 (wakes_mono a),
      waits_or_woken good.1 good.2.1 good.2.2 can⟩)
    run ⟨inv,low,before⟩
  exact ⟨kept.2.2,kept.1⟩

theorem returns_next (a : Act T C) (more : (next w s a).returns t ≠ s.returns t) :
    a = .step t ∧ ∃ c, s.pc t = .reacquired c := by
  cases a with
  | step u =>
    simp only [MutekPthreadCond.next, step] at more
    cases point : s.pc u with
    | reacquired c =>
      by_cases same : t = u
      · exact ⟨by rw [same],c,by rw [same, point]⟩
      · simp [point, update_of_ne same] at more
    | signal c | broadcast c => simp [point, (wakeOne_rest s u c _ _).2.1] at more
    | _ => simp [point, lockQueue, mutexUnlock, unlockQueue, mutexLock, startWaking] at more
  | _ => exact absurd rfl more

theorem exclusive_next (wide : 1 ≤ w) (inv : CondInv s) (one : Inv s.sys)
    (a : Act T C) (holder : UnlockByHolder s a) :
    Inv (next w s a).sys := by
  cases a with
  | lock u => exact inv_call (a := .lock u) wide one trivial
  | trylock u => exact inv_call (a := .trylock u) wide one trivial
  | unlock u => exact inv_call (a := .unlock u) wide one holder
  | step u =>
    simp only [MutekPthreadCond.next, step]
    cases point : s.pc u with
    | waitUnlock c =>
      apply inv_call (a := .unlock u) wide one
      exact (inv.at_point u).holding (by rw [point]; trivial)
    | relock c => exact inv_call (a := .lock u) wide one trivial
    | signal c | broadcast c => simpa [(wakeOne_rest s u c _ _).2.2] using one
    | _ => exact one
  | _ => exact one

theorem exclusive_reached (wide : 1 ≤ w) (h : Reached (restrict (machine T C w) UnlockByHolder) s) :
    Inv s.sys := by
  have both := reached_invariant (m := restrict (machine T C w) UnlockByHolder)
    (fun r => CondInv r ∧ Inv r.sys)
    (fun r start => by
      obtain ⟨stale,sys⟩ := start.1
      apply And.intro (inv_reached (w := w) (start_reached start))
      rw [sys]
      constructor <;> simp [boot, pthread_mutex_init])
    (fun r a good can => ⟨next_inv good.1 a can.1,exclusive_next wide good.1 good.2 a can.2⟩) h
  exact both.2

theorem wakes_step (point : s.pc u = .signal c ∨ s.pc u = .broadcast c) (x : T) :
    (next w s (.step u)).wakes x = s.wakes x + if (s.wait c).head? = some x then 1 else 0 := by
  rcases point with point | point <;> simp only [MutekPthreadCond.next, step, point,
    (wakeOne_rest s u c _ _).1]

end steps

/-- Take any reachable state in which `t` is about to give the mutex back in a wait on `c`. Whenever
    later a signal or broadcast of `c` is about to wake, `t` is in the queue or has been woken;
    before that, the only other case is that `t` has the lock of the queue, for which such a call
    has to wait. A finished signal has woken the first of the contexts it found queued and a
    finished broadcast all of them, each wake-up being one of the queue's head. Contexts return from
    their waits at most as often as they were woken, as holders of the mutex, and nobody else is one
    if only holders unlock. -/
theorem cond_wakeups_kept (w : Nat) (wide : 8 ≤ w) {s : State T C} (h : Reached (machine T C w) s) :
    (∀ t c, s.pc t = .waitUnlock c → ∀ as s', Run (machine T C w) (next w s (.step t)) as s' →
      (∀ u, s'.pc u = .signal c ∨ s'.pc u = .broadcast c → t ∈ s'.wait c ∨ s.wakes t < s'.wakes t) ∧
      (t ∈ s'.wait c ∨ s.wakes t < s'.wakes t ∨ s'.held c = some t)) ∧
    (∀ u c, s.pc u = .signal c ∨ s.pc u = .broadcast c → ∀ x,
      (next w s (.step u)).wakes x = s.wakes x + if (s.wait c).head? = some x then 1 else 0) ∧
    (∀ u c, s.pc u = .signalDone c →
      s.woken u = (s.found u).take 1 ∧ s.wait c = (s.found u).drop 1) ∧
    (∀ u c, s.pc u = .broadcastDone c → s.woken u = s.found u ∧ s.wait c = []) ∧
    (∀ t, s.returns t ≤ s.wakes t) ∧
    (∀ a t, Enabled s a → (next w s a).returns t ≠ s.returns t →
      (next w s a).returns t ≤ s.wakes t ∧ t ∈ (next w s a).sys.holders) ∧
    (Reached (restrict (machine T C w) UnlockByHolder) s → s.sys.holders.length ≤ 1) := by
  have inv := inv_reached h
  refine ⟨?_,?_,?_,?_,?_,?_,?_⟩
  · intro t c point as s' run
    have can : Enabled s (.step t) := by simp [Enabled, point, Ready]
    have pushes : (next w s (.step t)).pc t = .waitPush c := by
      have absent : t ∉ s.sys.mutex.wait := by
        rw [(inv.at_point t).blocked, point]
        exact id
      simp only [MutekPthreadCond.next, step, point, mutexUnlock, unlock_woken]
      cases queue : s.sys.mutex.wait with
      | nil => simp
      | cons x rest => ?_
      have other : t ≠ x := by
        rintro rfl
        exact absent (by simp [queue])
      simp [update_of_ne other]
    have same : (next w s (.step t)).wakes t = s.wakes t := by
      simp [MutekPthreadCond.next, step, point, mutexUnlock]
    obtain ⟨later,inv'⟩ := run_waits_or_woken (s.wakes t) run (next_inv inv _ can)
      (Nat.le_of_eq same.symm) (.inl (.inl pushes))
    rcases later with (push | queued) | woken
    · have mine : lockOf (s'.pc t) = some c := by rw [push]; rfl
      constructor
      · intro u waking
        have both : lockOf (s'.pc u) = some c := by
          rcases waking with point | point <;> rw [point] <;> rfl
        have not_t : u ≠ t := by
          rintro rfl
          rcases waking with point | point <;> rw [push] at point <;> cases point
        exact absurd both (alone inv' mine not_t)
      · exact .inr (.inr (((inv'.at_point t).held c).mpr mine))
    · have member : t ∈ s'.wait c := by
        rw [(inv'.at_point t).queued c, queued]
        rfl
      exact ⟨fun _ _ => .inl member,.inl member⟩
    · exact ⟨fun _ _ => .inr woken,.inr (.inl woken)⟩
  · intro u c point x
    exact wakes_step point x
  · intro u c point
    have waking := (inv.at_point u).waking
    rw [point] at waking
    exact waking
  · intro u c point
    have waking := (inv.at_point u).waking
    rw [point] at waking
    exact ⟨waking.1.symm,waking.2⟩
  · intro t
    have counted := (inv.at_point t).counted
    cases point : s.pc t <;> rw [point] at counted <;> simp only [Counted] at counted <;> omega
  · intro a t can more
    obtain ⟨rfl,c,point⟩ := returns_next a more
    have before := inv.at_point t
    rw [point] at before
    have counted := before.counted
    have holder := before.holding trivial
    simp only [MutekPthreadCond.next, step, point, update_self]
    simp only [Counted] at counted
    exact ⟨by omega,holder⟩
  · intro orderly
    exact (exclusive_reached (by omega) orderly).single

end

/-- Context 0 waits; context 1 takes the mutex that 0 gave back, calls signal and
    waits for the lock of the queue until 0 is in it. -/
def lateSignal : List (Act Nat Unit) :=
  [.lock 1, .pthread_cond_signal 1 (), .step 0, .step 1]

theorem cond_wakeups_kept_late_signal :
    let start : State Nat Unit := ⟨boot none, fun _ => [], fun _ => none, fun _ => .run,
      fun _ => 0, fun _ => 0, fun _ => 0, fun _ => [], fun _ => []⟩
    let s := after (machine Nat Unit 8) start [.lock 0, .pthread_cond_wait 0 (), .step 0]
    let s' := after (machine Nat Unit 8) (next 8 s (.step 0)) lateSignal
    s'.pc 1 = .signal () ∧ (0 ∈ s'.wait () ∨ s.wakes 0 < s'.wakes 0) := by
  intro start s s'
  have boots : Boot start := by
    refine ⟨⟨none,rfl⟩,?_,?_,?_,?_,?_,?_⟩ <;> intro _ <;> rfl
  have reached : Reached (machine Nat Unit 8) s :=
    reached_of_allowed (machine Nat Unit 8) start _ boots (by decide)
  have run : Run (machine Nat Unit 8) (next 8 s (.step 0)) lateSignal s' :=
    run_of_allowed lateSignal _ (by decide)
  have point : s'.pc 1 = .signal () := by decide
  have kept := (cond_wakeups_kept 8 (by decide) reached).1 0 () (by decide) lateSignal s' run
  exact ⟨point,kept.1 1 (.inl point)⟩

end MutekPthreadCondWakeups
