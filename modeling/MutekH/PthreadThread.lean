import MutekH.Lib.Machine
import Mathlib.Logic.Function.Basic

/-!
Exit, join and detach of threads. The three calls meet under the lock of the
target's descriptor, so each critical section is one step; a thread stops with
that lock released and goes on when its context is handed to
`sched_context_start`. The descriptor's memory is released at the very end of
`pthread_exit`, and no call is made on a thread whose memory is gone.
-/
namespace MutekPthreadThread
open Function LibMachine

def EINVAL : Int := 5

structure Thread (T V : Type) where
  detached : Bool
  joinable : Bool
  joined : Option T
  joined_retval : V
  lock : Bool

/-- What the critical section of an exit leaves to do: jump to the cleanup with the
    lock taken, stop, or start the thread that joined and go to the cleanup. -/
inductive Exit (T : Type) where
  | cleanup
  | stop
  | start (joined : T)

inductive Join (V : Type) where
  | fails (res : Int)
  | takes (value : V)
  | stop

section
variable {T V : Type}

def pthread_exit (this : Thread T V) (retval : V) : Thread T V × Exit T :=
  if this.detached = true then ({ this with lock := true }, .cleanup)
  else
    match this.joined with
    | none => ({ this with joinable := true, joined_retval := retval }, .stop)
    | some joined => (this, .start joined)

def pthread_join (check : Bool) (thread : Thread T V) (self : T) : Thread T V × Join V :=
  if check = true ∧ thread.detached = true then (thread, .fails EINVAL)
  else if thread.joinable = true then (thread, .takes thread.joined_retval)
  else
    match thread.joined with
    | some _ => (thread, .fails EINVAL)
    | none => ({ thread with joined := some self }, .stop)

/-- The result, and whether the thread's context is started. -/
def pthread_detach (thread : Thread T V) : Thread T V × Int × Bool :=
  if thread.detached = true then (thread, EINVAL, false)
  else ({ thread with detached := true }, 0, thread.joinable)

/-- Where a thread is. `joining` and `stopped` are inside `sched_context_stop_unlock`,
    `joined` is after it in `pthread_join`. -/
inductive Pc (T V : Type) where
  | run
  | joining (thread : T)
  | joined (thread : T)
  | exiting (retval : V)
  | stopped
  | cleanup
  | freed

/-- The rest is history: the exit values, how often a join was given the exit value
    of each thread, how often each context stopped, was started and was freed, and
    the joins that returned 0 with the value they stored. -/
structure State (T V : Type) where
  thread : T → Thread T V
  pc : T → Pc T V
  exited : T → Option V
  joins : T → Nat
  stops : T → Nat
  starts : T → Nat
  frees : T → Nat
  returned : List (T × T × V)

def resumed : Pc T V → Pc T V
  | .joining t => .joined t
  | .stopped => .cleanup
  | p => p

inductive Act (T V : Type) where
  | pthread_exit (t : T) (retval : V)
  | exitLocked (t : T)
  | pthread_join (self t : T)
  | joinReturn (self : T)
  | pthread_detach (self t : T)
  | pthread_cleanup (t : T)

variable [DecidableEq T]

def sched_context_start (s : State T V) (x : T) : State T V :=
  { s with
    starts := update s.starts x (s.starts x + 1)
    pc := update s.pc x (resumed (s.pc x)) }

def sched_context_stop (s : State T V) (x : T) (p : Pc T V) : State T V :=
  { s with
    stops := update s.stops x (s.stops x + 1)
    pc := update s.pc x p }

def setThread (s : State T V) (t : T) (d : Thread T V) : State T V :=
  { s with thread := update s.thread t d }

def exitLocked (s : State T V) (t : T) (retval : V) : State T V :=
  let r := pthread_exit (s.thread t) retval
  let s := { setThread s t r.1 with exited := update s.exited t (some retval) }
  match r.2 with
  | .cleanup => { s with pc := update s.pc t .cleanup }
  | .stop => sched_context_stop s t .stopped
  | .start j =>
    -- joined_thread->joined_retval = retval
    let s := setThread s j { s.thread j with joined_retval := retval }
    let s := sched_context_start s j
    { s with
      joins := update s.joins t (s.joins t + 1)
      pc := update s.pc t .cleanup }

def joinLocked (check : Bool) (s : State T V) (self t : T) : State T V :=
  let r := pthread_join check (s.thread t) self
  match r.2 with
  | .fails _ => s
  | .takes v =>
    { sched_context_start s t with
      joins := update s.joins t (s.joins t + 1)
      returned := (self, t, v) :: s.returned }
  | .stop => sched_context_stop (setThread s t r.1) self (.joining t)

def detachLocked (s : State T V) (t : T) : State T V :=
  let r := pthread_detach (s.thread t)
  if r.2.2 = true then sched_context_start (setThread s t r.1) t else setThread s t r.1

def next (check : Bool) (s : State T V) : Act T V → State T V
  | .pthread_exit t retval => { s with pc := update s.pc t (.exiting retval) }
  | .exitLocked t =>
    match s.pc t with
    | .exiting retval => exitLocked s t retval
    | _ => s
  | .pthread_join self t => joinLocked check s self t
  | .joinReturn self =>
    match s.pc self with
    | .joined t =>
      { s with
        pc := update s.pc self .run
        returned := (self, t, (s.thread self).joined_retval) :: s.returned }
    | _ => s
  | .pthread_detach _ t => detachLocked s t
  | .pthread_cleanup t =>
    { s with
      pc := update s.pc t .freed
      frees := update s.frees t (s.frees t + 1) }

/-- The calls are made by other threads than the target, while its descriptor exists
    and once its lock is free. -/
def Enabled (s : State T V) : Act T V → Prop
  | .pthread_exit t _ => s.pc t = .run
  | .exitLocked t => (∃ v, s.pc t = .exiting v) ∧ (s.thread t).lock = false
  | .pthread_join self t | .pthread_detach self t =>
    self ≠ t ∧ s.pc self = .run ∧ s.pc t ≠ .freed ∧ (s.thread t).lock = false
  | .joinReturn self => ∃ t, s.pc self = .joined t
  | .pthread_cleanup t => s.pc t = .cleanup

def Boot (s : State T V) : Prop :=
  (∀ t, (s.thread t).detached = false ∧ (s.thread t).joinable = false ∧
    (s.thread t).joined = none ∧ (s.thread t).lock = false) ∧
  (∀ t, s.pc t = .run) ∧ (∀ t, s.exited t = none) ∧ (∀ t, s.joins t = 0) ∧
  (∀ t, s.stops t = 0) ∧ (∀ t, s.starts t = 0) ∧ (∀ t, s.frees t = 0) ∧ s.returned = []

def machine (T V : Type) [DecidableEq T] (check : Bool) : Machine (State T V) (Act T V) where
  start := Boot
  enabled := Enabled
  next := next check

end

def Gone {T V : Type} : Pc T V → Prop
  | .stopped | .cleanup | .freed => True
  | _ => False

def Leaving {T V : Type} : Pc T V → Prop
  | .cleanup | .freed => True
  | _ => False

/-- What users of the three calls rely on: a join that returned 0 stored the exit value of a thread
    that had exited; nobody is blocked on a thread that has; a context is not started more often
    than it stopped; a thread is freed at most once, after it was joined or exited detached, and it
    is on its way there as soon as it has exited and is joined or detached. -/
structure Protocol {T V : Type} (s : State T V) : Prop where
  stored : ∀ r ∈ s.returned, s.exited r.2.1 = some r.2.2
  resumed : ∀ t, Gone (s.pc t) → ∀ j, s.pc j ≠ .joining t
  started : ∀ x, s.starts x ≤ s.stops x
  freed : ∀ t, s.frees t ≤ 1 ∧ (0 < s.frees t →
    s.exited t ≠ none ∧ (0 < s.joins t ∨ (s.thread t).detached = true))
  leaves : ∀ t, s.exited t ≠ none → 0 < s.joins t ∨ (s.thread t).detached = true →
    Leaving (s.pc t)

/-- A thread that stopped in its exit is joined or detached only while it is still there, so once; a
    thread that has not exited is detached only while nobody has joined it, and, in builds without
    CONFIG_PTHREAD_CHECK, joined only while it is not detached. -/
def InDomain {T V : Type} (check : Bool) (s : State T V) : Act T V → Prop
  | .pthread_join _ t =>
    check = true ∧ (s.thread t).detached = true ∨
    ((s.thread t).joinable = true → s.pc t = .stopped) ∧
      ((s.thread t).joinable = false ∧ (s.thread t).joined = none →
        (s.thread t).detached = false)
  | .pthread_detach _ t =>
    (s.thread t).detached = true ∨
    ((s.thread t).joinable = true → s.pc t = .stopped) ∧
      (¬ Gone (s.pc t) → (s.thread t).joined = none)
  | _ => True

def halted {T V : Type} : Pc T V → Nat
  | .joining _ | .stopped => 1
  | _ => 0

attribute [local simp] setThread sched_context_stop sched_context_start pthread_detach detachLocked

def released {T V : Type} : Pc T V → Nat
  | .freed => 1
  | _ => 0

section
variable {T V : Type} {check : Bool} {s : State T V} {t : T}

structure At (s : State T V) (t : T) (p : Pc T V) : Prop where
  live : ¬ Gone p → s.exited t = none ∧ (s.thread t).joinable = false ∧ s.joins t = 0
  gone : Gone p → s.exited t ≠ none
  value : (s.thread t).joinable = true → s.exited t = some (s.thread t).joined_retval
  stopped : p = .stopped →
    (s.thread t).joinable = true ∧ (s.thread t).detached = false ∧ s.joins t = 0
  leaving : Leaving p → 0 < s.joins t ∨ (s.thread t).detached = true
  settled : p = .cleanup →
    (s.thread t).lock = true ∨ (s.thread t).joinable = true ∨ (s.thread t).joined ≠ none
  counted : s.stops t = s.starts t + halted p
  frees : s.frees t = released p
  given : ∀ x, p = .joined x → s.exited x = some (s.thread t).joined_retval

structure Inv (s : State T V) : Prop where
  at_point : ∀ t, At s t (s.pc t)
  registered : ∀ t j, (s.thread t).joined = some j → ¬ Gone (s.pc t) → s.pc j = .joining t
  blocked : ∀ j t, s.pc j = .joining t →
    (s.thread t).joined = some j ∧ ¬ Gone (s.pc t) ∧ (s.thread t).detached = false
  stored : ∀ r ∈ s.returned, s.exited r.2.1 = some r.2.2

theorem protocol_of_inv (inv : Inv s) : Protocol s := by
  constructor
  · exact inv.stored
  · intro t gone j joining
    exact (inv.blocked j t joining).2.1 gone
  · intro x
    have counted := (inv.at_point x).counted
    omega
  · intro t
    have at_t := inv.at_point t
    have frees := at_t.frees
    cases point : s.pc t with
    | freed =>
      rw [point] at frees at_t
      exact ⟨Nat.le_of_eq frees,fun _ => ⟨at_t.gone trivial,at_t.leaving trivial⟩⟩
    | _ =>
      rw [point, released] at frees
      · exact ⟨by omega,fun some_free => absurd some_free (by omega)⟩
      · simp
  · intro t exited claimed
    have at_t := inv.at_point t
    cases point : s.pc t with
    | stopped =>
      have facts := at_t.stopped point
      rcases claimed with joined | detached
      · omega
      · rw [facts.2.1] at detached
        contradiction
    | cleanup | freed => trivial
    | _ => exact absurd (at_t.live (by rw [point]; exact id)).1 exited

theorem at_frame (old : At s t p) (thread : s'.thread t = s.thread t)
    (joins : s'.joins t = s.joins t) (stops : s'.stops t = s.stops t)
    (starts : s'.starts t = s.starts t) (frees : s'.frees t = s.frees t)
    (exited : s'.exited t = s.exited t)
    (grows : ∀ x v, s.exited x = some v → s'.exited x = some v) : At s' t p := by
  constructor
  · rw [exited, thread, joins]
    exact old.live
  · rw [exited]
    exact old.gone
  · rw [exited, thread]
    exact old.value
  · rw [thread, joins]
    exact old.stopped
  · rw [thread, joins]
    exact old.leaving
  · rw [thread]
    exact old.settled
  · rw [stops, starts]
    exact old.counted
  · rw [frees]
    exact old.frees
  · rw [thread]
    intro x point
    exact grows x _ (old.given x point)

variable [DecidableEq T]

theorem at_update (moved : s'.pc = update s.pc t b)
    (here : At s' t b) (others : ∀ x, x ≠ t → At s' x (s.pc x)) : ∀ x, At s' x (s'.pc x) := by
  rw [moved]
  exact (forall_update_iff s.pc (fun x p => At s' x p)).mpr ⟨here,others⟩

section
variable (inv : Inv s)
include inv

theorem quiet_inv (returned : List (T × T × V))
    (awake : ∀ x, s.pc t ≠ .joining x) (old : ¬ Gone (s.pc t)) (new : ¬ Gone b)
    (apart : ∀ x, b ≠ .joining x) (calm : ∀ x, b ≠ .joined x) (none : halted (s.pc t) = 0)
    (stored : ∀ r ∈ returned, s.exited r.2.1 = some r.2.2) :
    Inv { s with pc := update s.pc t b, returned := returned } := by
  have before := inv.at_point t
  have zero : halted b = 0 := by
    cases b <;> simp_all [Gone, halted]
  have kept : released b = 0 := by
    cases b <;> simp_all [Gone, released]
  have keeps : released (s.pc t) = 0 := by
    cases point : s.pc t <;> simp_all [Gone, released]
  constructor
  · apply at_update rfl
    · constructor
      · exact fun _ => before.live old
      · exact fun gone => absurd gone new
      · exact before.value
      · rintro rfl
        exact absurd trivial new
      · intro leaving
        cases b <;> simp_all [Gone, Leaving]
      · rintro rfl
        exact absurd trivial new
      · rw [zero, ← none]
        exact before.counted
      · rw [kept, ← keeps]
        exact before.frees
      · intro x same
        exact absurd same (calm x)
    · intro x _
      exact at_frame (inv.at_point x) rfl rfl rfl rfl rfl rfl (fun _ _ known => known)
  · intro x j joined live
    have other : j ≠ t := by
      rintro rfl
      by_cases same : x = j
      · subst same
        exact awake x (inv.registered x x joined old)
      · simp only [update_of_ne same] at live
        exact awake x (inv.registered x j joined live)
    simp only [update_of_ne other]
    apply inv.registered x j joined
    by_cases same : x = t
    · rw [same]
      exact old
    · simpa [update_of_ne same] using live
  · intro j x joining
    have other : j ≠ t := by
      rintro rfl
      simp only [update_self] at joining
      exact apart x joining
    simp only [update_of_ne other] at joining
    obtain ⟨joined,live,attached⟩ := inv.blocked j x joining
    refine ⟨joined,?_,attached⟩
    by_cases same : x = t
    · simpa [same] using new
    · simpa [update_of_ne same] using live
  · exact stored

theorem leave_inv (moved : s'.pc = update s.pc t b) (gone : Gone b)
    (awake : ∀ x, s.pc t ≠ .joining x) (nobody : ∀ j, s.pc j ≠ .joining t)
    (others : ∀ x, x ≠ t → s'.thread x = s.thread x)
    (points : ∀ x, At s' x (s'.pc x))
    (stored : ∀ r ∈ s'.returned, s'.exited r.2.1 = some r.2.2) : Inv s' := by
  constructor
  · exact points
  · intro x j joined live
    have other : x ≠ t := by
      rintro rfl
      simp only [moved, update_self] at live
      exact live gone
    rw [others x other] at joined
    simp only [moved, update_of_ne other] at live
    have joining := inv.registered x j joined live
    have apart : j ≠ t := by
      rintro rfl
      exact awake x joining
    rw [moved, update_of_ne apart]
    exact joining
  · intro j x joining
    have apart : j ≠ t := by
      rintro rfl
      simp only [moved, update_self] at joining
      rw [joining] at gone
      exact gone
    rw [moved, update_of_ne apart] at joining
    have other : x ≠ t := by
      rintro rfl
      exact nobody j joining
    rw [others x other, moved, update_of_ne other]
    exact inv.blocked j x joining
  · exact stored

omit inv in
omit [DecidableEq T] in
theorem at_cleanup (exited : s'.exited t ≠ none)
    (value : (s'.thread t).joinable = true → s'.exited t = some (s'.thread t).joined_retval)
    (claimed : 0 < s'.joins t ∨ (s'.thread t).detached = true)
    (settled : (s'.thread t).lock = true ∨ (s'.thread t).joinable = true ∨
      (s'.thread t).joined ≠ none)
    (counted : s'.stops t = s'.starts t) (frees : s'.frees t = 0) : At s' t .cleanup where
  live live := absurd trivial live
  gone _ := exited
  value := value
  stopped := by simp
  leaving _ := claimed
  settled _ := settled
  counted := counted
  frees := frees
  given := by simp

omit inv in
theorem exited_grows (fresh : exited t = none) (x : T) (w : V)
    (known : exited x = some w) : update exited t (some v) x = some w := by
  have other : x ≠ t := by
    rintro rfl
    rw [fresh] at known
    contradiction
  rw [update_of_ne other]
  exact known

theorem exitDetached_inv (point : s.pc t = .exiting v)
    (detached : (s.thread t).detached = true) : Inv (exitLocked s t v) := by
  have before := inv.at_point t
  rw [point] at before
  obtain ⟨fresh,quiet,zero⟩ := before.live id
  have shape : exitLocked s t v = { s with
        thread := update s.thread t { s.thread t with lock := true }
        exited := update s.exited t (some v)
        pc := update s.pc t .cleanup } := by
    simp [exitLocked, pthread_exit, detached]
  rw [shape]
  refine leave_inv inv rfl trivial ?_ ?_ ?_ ?_ ?_
  · simp [point]
  · intro j joining
    have attached := (inv.blocked j t joining).2.2
    rw [detached] at attached
    contradiction
  · intro x other
    simp [update_of_ne other]
  · apply at_update rfl
    · apply at_cleanup
      · simp
      · simp [quiet]
      · simp [detached]
      · simp
      · exact before.counted
      · exact before.frees
    · intro x other
      exact at_frame (inv.at_point x) (by simp [other]) rfl rfl rfl rfl (by simp [other])
        (exited_grows fresh)
  · intro r old
    exact exited_grows fresh _ _ (inv.stored r old)

theorem exitStop_inv (point : s.pc t = .exiting v)
    (attached : (s.thread t).detached = false) (alone : (s.thread t).joined = none) :
    Inv (exitLocked s t v) := by
  have before := inv.at_point t
  rw [point] at before
  obtain ⟨fresh,quiet,zero⟩ := before.live id
  have shape : exitLocked s t v = { s with
        thread := update s.thread t { s.thread t with joinable := true, joined_retval := v }
        exited := update s.exited t (some v)
        stops := update s.stops t (s.stops t + 1)
        pc := update s.pc t .stopped } := by
    simp [exitLocked, pthread_exit, attached, alone]
  rw [shape]
  refine leave_inv inv rfl trivial ?_ ?_ ?_ ?_ ?_
  · simp [point]
  · intro j joining
    have joined := (inv.blocked j t joining).1
    rw [alone] at joined
    contradiction
  · intro x other
    simp [update_of_ne other]
  · apply at_update rfl
    · constructor
      · exact fun live => absurd trivial live
      · simp
      · simp
      · simp [attached, zero]
      · simp [Leaving]
      · simp
      · simpa [halted] using before.counted
      · exact before.frees
      · simp
    · intro x other
      exact at_frame (inv.at_point x) (by simp [other]) rfl (by simp [other]) rfl rfl
        (by simp [other]) (exited_grows fresh)
  · intro r old
    exact exited_grows fresh _ _ (inv.stored r old)

theorem exitStart_inv (point : s.pc t = .exiting v)
    (attached : (s.thread t).detached = false) (joined : (s.thread t).joined = some j) :
    Inv (exitLocked s t v) := by
  have before := inv.at_point t
  rw [point] at before
  obtain ⟨fresh,quiet,zero⟩ := before.live id
  have joining := inv.registered t j joined (by rw [point]; exact id)
  have woken := inv.at_point j
  rw [joining] at woken
  obtain ⟨running,waiting,none⟩ := woken.live id
  have different : j ≠ t := by
    rintro rfl
    rw [point] at joining
    contradiction
  have shape : exitLocked s t v = { s with
        thread := update s.thread j { s.thread j with joined_retval := v }
        exited := update s.exited t (some v)
        starts := update s.starts j (s.starts j + 1)
        joins := update s.joins t (s.joins t + 1)
        pc := update (update s.pc j (.joined t)) t .cleanup } := by
    simp [exitLocked, pthread_exit, attached, joined, joining, resumed]
  rw [shape]
  constructor
  · rw [forall_update_iff _ (fun x p => At _ x p)]
    constructor
    · apply at_cleanup
      · simp
      · simp [update_of_ne different.symm, quiet]
      · simp
      · simp [update_of_ne different.symm, joined]
      · simpa [update_of_ne different.symm, halted] using before.counted
      · exact before.frees
    intro x other
    by_cases same : x = j
    · subst same
      rw [update_self]
      constructor
      · simp [different, running, waiting, none]
      · exact False.elim
      · simp [waiting]
      · simp
      · exact False.elim
      · simp
      · simpa [halted] using woken.counted
      · exact woken.frees
      · rintro y ⟨⟩
        simp
    · rw [update_of_ne same]
      exact at_frame (inv.at_point x) (by simp [same]) (by simp [other]) rfl (by simp [same])
        rfl (by simp [other]) (exited_grows fresh)
  · intro x k registered live
    have other : x ≠ t := by
      rintro rfl
      simp [Gone] at live
    have same : (s.thread x).joined = some k := by
      by_cases is : x = j
      · subst is
        simpa using registered
      · simpa [is] using registered
    have alive : ¬ Gone (s.pc x) := by
      by_cases is : x = j
      · rw [is, joining]
        exact id
      · simpa [is, other] using live
    have blocked := inv.registered x k same alive
    have apart : k ≠ j := by
      rintro rfl
      rw [joining] at blocked
      exact other (Pc.joining.inj blocked).symm
    have away : k ≠ t := by
      rintro rfl
      rw [point] at blocked
      contradiction
    simpa [apart, away] using blocked
  · intro k x blocked
    have away : k ≠ t := by
      rintro rfl
      simp at blocked
    have apart : k ≠ j := by
      rintro rfl
      simp [different] at blocked
    simp only [update_of_ne away, update_of_ne apart] at blocked
    obtain ⟨registered,alive,live⟩ := inv.blocked k x blocked
    have other : x ≠ t := by
      rintro rfl
      rw [joined] at registered
      exact apart (Option.some.inj registered).symm
    by_cases is : x = j
    · subst is
      simp [registered, live, other, Gone]
    · simp [is, other, registered, live, alive]
  · intro r old
    exact exited_grows fresh _ _ (inv.stored r old)

theorem claim_inv (d : Thread T V) (joins : T → Nat) (returned : List (T × T × V))
    (point : s.pc t = .stopped) (joinable : d.joinable = (s.thread t).joinable)
    (value : d.joined_retval = (s.thread t).joined_retval)
    (claimed : 0 < joins t ∨ d.detached = true) (others : ∀ x, x ≠ t → joins x = s.joins x)
    (stored : ∀ r ∈ returned, s.exited r.2.1 = some r.2.2) :
    Inv { s with
      thread := update s.thread t d
      starts := update s.starts t (s.starts t + 1)
      joins := joins
      returned := returned
      pc := update s.pc t .cleanup } := by
  have before := inv.at_point t
  rw [point] at before
  have ready := (before.stopped rfl).1
  refine leave_inv inv rfl trivial ?_ ?_ ?_ ?_ stored
  · simp [point]
  · intro j joining
    have live := (inv.blocked j t joining).2.1
    rw [point] at live
    exact live trivial
  · intro x other
    simp [other]
  apply at_update rfl
  · apply at_cleanup
    · exact before.gone trivial
    · simpa [joinable, value] using before.value
    · simpa using claimed
    · simp [joinable, ready]
    · simpa [halted] using before.counted
    · exact before.frees
  · intro x other
    exact at_frame (inv.at_point x) (by simp [other]) (others x other) rfl (by simp [other])
      rfl rfl (fun _ _ known => known)

theorem cleanup_inv (point : s.pc t = .cleanup) : Inv { s with
      pc := update s.pc t .freed
      frees := update s.frees t (s.frees t + 1) } := by
  have before := inv.at_point t
  rw [point] at before
  refine leave_inv inv rfl trivial ?_ ?_ ?_ ?_ inv.stored
  · simp [point]
  · intro j joining
    have live := (inv.blocked j t joining).2.1
    rw [point] at live
    exact live trivial
  · intro x other
    rfl
  apply at_update rfl
  · constructor
    · exact fun live => absurd trivial live
    · exact fun _ => before.gone trivial
    · exact before.value
    · simp
    · exact fun _ => before.leaving trivial
    · simp
    · exact before.counted
    · simpa [released] using before.frees
    · simp
  · intro x other
    exact at_frame (inv.at_point x) rfl rfl rfl rfl (by simp [other]) rfl (fun _ _ known => known)

theorem joinStop_inv (different : self ≠ t) (run : s.pc self = .run)
    (live : ¬ Gone (s.pc t)) (attached : (s.thread t).detached = false)
    (alone : (s.thread t).joined = none) :
    Inv { s with
      thread := update s.thread t { s.thread t with joined := some self }
      stops := update s.stops self (s.stops self + 1)
      pc := update s.pc self (.joining t) } := by
  have caller := inv.at_point self
  rw [run] at caller
  have target := inv.at_point t
  constructor
  · apply at_update rfl
    · constructor
      · simpa [different] using fun _ => caller.live id
      · exact False.elim
      · simpa [different] using caller.value
      · simp
      · exact False.elim
      · simp
      · simpa [halted] using caller.counted
      · exact caller.frees
      · simp
    intro x other
    by_cases same : x = t
    · subst same
      constructor
      · simpa using target.live
      · exact target.gone
      · simpa using target.value
      · simpa using target.stopped
      · simpa using target.leaving
      · simp
      · simpa [other] using target.counted
      · exact target.frees
      · simpa using target.given
    · exact at_frame (inv.at_point x) (by simp [same]) rfl (by simp [other]) rfl rfl rfl
        (fun _ _ known => known)
  · intro x j registered alive
    by_cases same : x = t
    · subst same
      have is : self = j := by simpa using registered
      simp [is]
    have registered : (s.thread x).joined = some j := by simpa [same] using registered
    have alive : ¬ Gone (s.pc x) := by
      by_cases caller : x = self
      · rw [caller, run]
        exact id
      · simpa [caller] using alive
    have blocked := inv.registered x j registered alive
    have apart : j ≠ self := by
      rintro rfl
      rw [run] at blocked
      contradiction
    simpa [apart] using blocked
  · intro j x blocked
    by_cases caller : j = self
    · subst caller
      have is : t = x := by simpa using blocked
      subst is
      simpa [different.symm, attached] using live
    simp only [update_of_ne caller] at blocked
    obtain ⟨registered,alive,live⟩ := inv.blocked j x blocked
    have other : x ≠ t := by
      rintro rfl
      rw [alone] at registered
      contradiction
    by_cases is : x = self
    · simp [is, different, is ▸ registered, is ▸ live, Gone]
    · simp [other, is, registered, alive, live]
  · exact inv.stored

theorem detachMark_inv (quiet : (s.thread t).joinable = false)
    (alone : ¬ Gone (s.pc t) → (s.thread t).joined = none) :
    Inv { s with thread := update s.thread t { s.thread t with detached := true } } := by
  have target := inv.at_point t
  constructor
  · intro x
    by_cases same : x = t
    · subst same
      constructor
      · simpa using target.live
      · exact target.gone
      · simpa using target.value
      · intro stopped
        have ready := (target.stopped stopped).1
        rw [quiet] at ready
        contradiction
      · simp
      · simpa using target.settled
      · exact target.counted
      · exact target.frees
      · simpa using target.given
    · exact at_frame (inv.at_point x) (by simp [same]) rfl rfl rfl rfl rfl (fun _ _ known => known)
  · intro x j registered live
    apply inv.registered x j _ live
    by_cases same : x = t
    · subst same
      simpa using registered
    · simpa [same] using registered
  · intro j x blocked
    obtain ⟨registered,alive,live⟩ := inv.blocked j x blocked
    have other : x ≠ t := by
      rintro rfl
      rw [alone alive] at registered
      contradiction
    simp [other, registered, alive, live]
  · exact inv.stored

theorem exitLocked_inv (point : s.pc t = .exiting v) : Inv (exitLocked s t v) := by
  cases mode : (s.thread t).detached with
  | true => exact exitDetached_inv inv point mode
  | false =>
    cases joined : (s.thread t).joined with
    | none => exact exitStop_inv inv point mode joined
    | some j => exact exitStart_inv inv point mode joined

omit [DecidableEq T] in
theorem live_or_joined (there : s.pc t ≠ .freed) (free : (s.thread t).lock = false)
    (quiet : (s.thread t).joinable = false) : ¬ Gone (s.pc t) ∨ (s.thread t).joined ≠ none := by
  have target := inv.at_point t
  cases point : s.pc t with
  | stopped =>
    have ready := (target.stopped point).1
    rw [quiet] at ready
    contradiction
  | cleanup =>
    have settled := target.settled point
    rw [free, quiet] at settled
    exact .inr (by simpa using settled)
  | freed => exact absurd point there
  | _ => exact .inl id

theorem joinLocked_inv (can : Enabled s (.pthread_join self t))
    (ok : InDomain check s (.pthread_join self t)) : Inv (joinLocked check s self t) := by
  obtain ⟨different,run,there,free⟩ := can
  unfold joinLocked pthread_join
  by_cases refused : check = true ∧ (s.thread t).detached = true
  · simpa [refused] using inv
  have ok := ok.resolve_left refused
  rw [if_neg refused]
  cases ready : (s.thread t).joinable with
  | true =>
    have point := ok.1 ready
    have value := (inv.at_point t).value ready
    have claimed := claim_inv inv (s.thread t) (update s.joins t (s.joins t + 1))
      ((self, t, (s.thread t).joined_retval) :: s.returned) point rfl rfl (by simp)
      (fun x other => by simp [other]) (by simpa [value] using inv.stored)
    simpa [point, resumed] using claimed
  | false =>
    cases joined : (s.thread t).joined with
    | some j => simpa using inv
    | none =>
      have live := (live_or_joined inv there free ready).resolve_right (by simp [joined])
      simpa [ready] using
        joinStop_inv inv different run live (ok.2 ⟨ready,joined⟩) joined

theorem detachLocked_inv (ok : InDomain check s (.pthread_detach self t)) :
    Inv (detachLocked s t) := by
  unfold detachLocked pthread_detach
  cases mode : (s.thread t).detached with
  | true => simpa using inv
  | false => ?_
  obtain ⟨once,alone⟩ := ok.resolve_left (by simp [mode])
  cases ready : (s.thread t).joinable with
  | true =>
    have point := once ready
    have claimed := claim_inv inv { s.thread t with detached := true } s.joins s.returned point
      rfl rfl (.inr rfl) (fun _ _ => rfl) inv.stored
    simpa [point, resumed, ready] using claimed
  | false => simpa [ready] using detachMark_inv inv ready alone

theorem next_inv (a : Act T V) (can : Enabled s a) (ok : InDomain check s a) :
    Inv (next check s a) := by
  cases a with
  | pthread_exit t v =>
    have run : s.pc t = .run := can
    have moved := quiet_inv inv (t := t) (b := .exiting v) s.returned
    simp only [run] at moved
    exact moved (by simp) id id (by simp) (by simp) rfl inv.stored
  | exitLocked t =>
    obtain ⟨⟨v,point⟩,_⟩ := can
    simp only [next, point]
    exact exitLocked_inv inv point
  | pthread_join self t => exact joinLocked_inv inv can ok
  | joinReturn self =>
    obtain ⟨x,point⟩ := can
    have value := (inv.at_point self).given x point
    have moved := quiet_inv inv (t := self) (b := .run)
      ((self, x, (s.thread self).joined_retval) :: s.returned)
    simp only [next, point] at moved ⊢
    apply moved (by simp) id id (by simp) (by simp) rfl
    simpa [value] using inv.stored
  | pthread_detach self t => exact detachLocked_inv inv ok
  | pthread_cleanup t => exact cleanup_inv inv can

omit inv in
omit [DecidableEq T] in
theorem boot_inv (h : Boot s) : Inv s := by
  obtain ⟨threads,points,exited,joins,stops,starts,frees,returned⟩ := h
  constructor
  · intro t
    have thread := threads t
    constructor <;> simp [points, exited, joins, stops, starts, frees, thread, Gone, Leaving,
      halted, released]
  · intro t j joined
    simp [(threads t).2.2.1] at joined
  · intro j t blocked
    simp [points] at blocked
  · simp [returned]

omit inv in
theorem inv_reached (h : Reached (restrict (machine T V check) (InDomain check)) s) : Inv s := by
  apply reached_invariant Inv _ _ h
  · intro s start
    exact boot_inv start
  · intro s a inv can
    exact next_inv inv a can.1 can.2

omit [DecidableEq T] in
theorem all_starts_used (ready : (s.thread t).joinable = true)
    (elsewhere : s.pc t ≠ .stopped) : s.stops t = s.starts t := by
  have target := inv.at_point t
  have counted := target.counted
  cases point : s.pc t with
  | stopped => exact absurd point elsewhere
  | cleanup | freed => simpa [point, halted] using counted
  | _ =>
    have quiet := (target.live (by rw [point]; exact id)).2.1
    rw [ready] at quiet
    contradiction

omit inv in
/-- A detached thread exits past whoever is blocked on it. -/
theorem exit_passes_joiner (joining : s.pc j = .joining t) (run : s.pc t = .run)
    (detached : (s.thread t).detached = true) :
    ¬ Protocol (after (machine T V check) s [.pthread_exit t v, .exitLocked t]) := by
  have different : j ≠ t := by
    rintro rfl
    rw [run] at joining
    contradiction
  intro protocol
  have resumed := protocol.resumed t
  simp only [after, List.foldl, machine, next, update_self, exitLocked, pthread_exit,
    detached, if_true, setThread] at resumed
  apply resumed trivial j
  simpa [different] using joining

theorem join_breaks (can : Enabled s (.pthread_join self t))
    (bad : ¬ InDomain check s (.pthread_join self t)) :
    (Gone (s.pc t) → ¬ Protocol (joinLocked check s self t)) ∧
    ∀ v, s.pc t = .run → ¬ Protocol
      (after (machine T V check) (joinLocked check s self t) [.pthread_exit t v,
        .exitLocked t]) := by
  obtain ⟨different,run,there,free⟩ := can
  simp only [InDomain, not_or] at bad
  obtain ⟨accepted,bad⟩ := bad
  cases ready : (s.thread t).joinable with
  | true =>
    have elsewhere : s.pc t ≠ .stopped := by
      intro point
      exact bad ⟨fun _ => point,by simp [ready]⟩
    have even := all_starts_used inv ready elsewhere
    constructor
    · intro _ protocol
      have started := protocol.started t
      simp [joinLocked, pthread_join, accepted, ready] at started
      omega
    · intro v point
      have quiet := ((inv.at_point t).live (by rw [point]; exact id)).2.1
      rw [ready] at quiet
      contradiction
  | false =>
    have facts : (s.thread t).joined = none ∧ (s.thread t).detached = true := by
      simpa [ready] using bad
    have live := (live_or_joined inv there free ready).resolve_right (by simp [facts.1])
    constructor
    · intro gone
      exact absurd gone live
    intro v point
    have blocks : joinLocked check s self t = sched_context_stop
        (setThread s t { s.thread t with joined := some self }) self (.joining t) := by
      simp [joinLocked, pthread_join, accepted, ready, facts.1]
    rw [blocks]
    apply exit_passes_joiner (j := self)
    · simp
    · simpa [different.symm] using point
    · simp [facts.2]

theorem detach_breaks (bad : ¬ InDomain check s (.pthread_detach self t)) :
    (Gone (s.pc t) → ¬ Protocol (detachLocked s t)) ∧
    ∀ v, s.pc t = .run → ¬ Protocol
      (after (machine T V check) (detachLocked s t) [.pthread_exit t v, .exitLocked t]) := by
  simp only [InDomain, not_or] at bad
  obtain ⟨attached,bad⟩ := bad
  constructor
  · intro gone protocol
    have twice : (s.thread t).joinable = true ∧ s.pc t ≠ .stopped := by
      simpa [gone] using bad
    have even := all_starts_used inv twice.1 twice.2
    have started := protocol.started t
    simp [attached, twice.1]
      at started
    omega
  intro v point
  have quiet := ((inv.at_point t).live (by rw [point]; exact id)).2.1
  have taken : (s.thread t).joined ≠ none := by
    simpa [quiet, point, Gone] using bad
  obtain ⟨j,joined⟩ := Option.ne_none_iff_exists'.mp taken
  have joining := inv.registered t j joined (by rw [point]; exact id)
  apply exit_passes_joiner
  · simpa [attached, quiet] using joining
  · simpa [attached, quiet] using point
  · simp [attached, quiet]

end

/-- Runs whose calls all meet `InDomain` keep the protocol. A call that does not meet it breaks the
    protocol: at once if its target has exited, and with the exit of a target that still runs. -/
theorem exit_join_detach_protocol (T V : Type) [DecidableEq T] (check : Bool) :
    (∀ s : State T V, Reached (restrict (machine T V check) (InDomain check)) s → Protocol s) ∧
    ∀ s : State T V, Reached (restrict (machine T V check) (InDomain check)) s →
      ∀ self t, ∀ call ∈ [Act.pthread_join self t, Act.pthread_detach self t],
        Enabled s call → ¬ InDomain check s call →
        (Gone (s.pc t) → ¬ Protocol (next check s call)) ∧
        ∀ v, s.pc t = .run → ¬ Protocol
          (after (machine T V check) s [call, .pthread_exit t v, .exitLocked t]) := by
  constructor
  · intro s reached
    exact protocol_of_inv (inv_reached reached)
  intro s reached self t call which can bad
  have inv := inv_reached reached
  simp only [List.mem_cons, List.not_mem_nil, or_false] at which
  rcases which with rfl | rfl
  · exact join_breaks inv can bad
  · exact detach_breaks inv bad

end

def started : State Nat Nat where
  thread _ := ⟨false, false, none, 0, false⟩
  pc _ := .run
  exited _ := none
  joins _ := 0
  stops _ := 0
  starts _ := 0
  frees _ := 0
  returned := []

theorem boot_started : Boot started := by
  simp [Boot, started]

/-- Thread 1 joins thread 0 before it exits with 7, thread 2 detaches it afterwards. -/
theorem exit_join_detach_protocol_joined : Protocol (after (machine Nat Nat true) started
      [.pthread_join 1 0, .pthread_exit 0 7, .exitLocked 0, .pthread_detach 2 0, .joinReturn 1,
        .pthread_cleanup 0]) := by
  apply (exit_join_detach_protocol Nat Nat true).1
  apply reached_of_allowed (restrict (machine Nat Nat true) (InDomain true)) started _ boot_started
  simp [Allowed, restrict, machine, Enabled, InDomain, next, joinLocked, pthread_join, started,
    exitLocked, pthread_exit, resumed, Gone]

/-- Thread 1 is blocked in the join of thread 0 when thread 2 detaches it; thread 0
    exits, is freed, and thread 1 stays where it is. -/
theorem joiner_left_blocked :
    ∃ s, Reached (machine Nat Nat true) s ∧ s.pc 0 = .freed ∧ s.exited 0 = some 7 ∧
      s.pc 1 = .joining 0 ∧ s.starts 1 = 0 ∧ ¬ Protocol s := by
  have reached := reached_of_allowed (machine Nat Nat true) started
    [.pthread_join 1 0, .pthread_detach 2 0, .pthread_exit 0 7, .exitLocked 0, .pthread_cleanup 0]
    boot_started (by
      simp [Allowed, machine, Enabled, next, joinLocked, pthread_join, started, exitLocked,
        pthread_exit])
  refine ⟨_,reached,rfl,rfl,rfl,rfl,?_⟩
  intro protocol
  exact protocol.resumed 0 trivial 1 rfl

end MutekPthreadThread
