import MutekH.PthreadMutex
import Mathlib.Logic.Function.Basic

/-!
Condition variables over one normal mutex. `pthread_cond_wait` takes the lock of
the condition's queue before it gives the mutex back and keeps it until it is in
the queue; signal and broadcast wake under that same lock. Every lock operation,
every mutex call and every single wake-up is a step of its own, so a woken
context may already run while a broadcast goes on.
-/
namespace MutekPthreadCond
open Function LibMachine MutekWaitQueue MutekPthreadMutex

/-- Where a context is in the functions of cond.c, or blocked in a lock of its own. -/
inductive Pc (C : Type) where
  | run
  | locking
  -- pthread_cond_wait: before each of its operations, then blocked in the queue,
  -- woken, blocked in the final lock, holding the mutex again
  | waitLockQueue (c : C)
  | waitUnlock (c : C)
  | waitPush (c : C)
  | waiting (c : C)
  | relock (c : C)
  | relocking (c : C)
  | reacquired (c : C)
  -- pthread_cond_signal and pthread_cond_broadcast
  | signalLockQueue (c : C)
  | signal (c : C)
  | signalDone (c : C)
  | broadcastLockQueue (c : C)
  | broadcast (c : C)
  | broadcastDone (c : C)
  deriving DecidableEq, Repr

/-- `wait` is the queue of each condition and `held` its lock. The rest is history: how often each
    context gave the mutex back in a wait, was woken from one and returned from one, and what its
    latest signal or broadcast found in the queue and has woken. -/
structure State (T C : Type) where
  sys : System T
  wait : C → List T
  held : C → Option T
  pc : T → Pc C
  waits : T → Nat
  wakes : T → Nat
  returns : T → Nat
  found : T → List T
  woken : T → List T

section
variable {T C : Type} [DecidableEq T] [DecidableEq C]

variable (w : Nat) (s : State T C) (t : T)

def goto (b : Pc C) : State T C :=
  { s with pc := update s.pc t b }

def resumed : Pc C → Pc C
  | .locking => .run
  | .relocking c => .reacquired c
  | p => p

def mutexLock (granted blocked : Pc C) : State T C :=
  { s with
    sys := call .normal w s.sys (.lock t)
    pc := update s.pc t
      (if (pthread_mutex_lock .normal w s.sys.mutex t).2 = .waits then blocked else granted) }

def mutexTrylock : State T C :=
  { s with sys := call .normal w s.sys (.trylock t) }

def mutexUnlock (b : Pc C) : State T C :=
  { s with
    sys := call .normal w s.sys (.unlock t)
    pc := match (pthread_mutex_unlock .normal w s.sys.mutex t).2.2 with
      | none => update s.pc t b
      | some x => update (update s.pc t b) x (resumed (s.pc x)) }

def lockQueue (c : C) (b : Pc C) : State T C :=
  { s with held := update s.held c (some t), pc := update s.pc t b }

def unlockQueue (c : C) (b : Pc C) : State T C :=
  { s with held := update s.held c none, pc := update s.pc t b }

def wakeOne (u : T) (c : C) (more done : Pc C) : State T C :=
  match sched_wake (s.wait c) with
  | (none, _) => goto s u done
  | (some x, rest) =>
    { s with
      wait := update s.wait c rest
      pc := update (update s.pc u more) x (.relock c)
      wakes := update s.wakes x (s.wakes x + 1)
      woken := update s.woken u (s.woken u ++ [x]) }

def startWaking (u : T) (c : C) (b : Pc C) : State T C :=
  { lockQueue s u c b with
    found := update s.found u (s.wait c)
    woken := update s.woken u [] }

def waitOnQueue (c : C) : State T C :=
  { unlockQueue s t c (.waiting c) with
    wait := update s.wait c (sched_wait_unlock (s.wait c) t) }

inductive Act (T C : Type) where
  | lock (t : T)
  | trylock (t : T)
  | unlock (t : T)
  | pthread_cond_wait (t : T) (c : C)
  | pthread_cond_signal (t : T) (c : C)
  | pthread_cond_broadcast (t : T) (c : C)
  | step (t : T)
  deriving DecidableEq, Repr

def step : State T C :=
  match s.pc t with
  | .run | .locking | .waiting _ | .relocking _ => s
  | .waitLockQueue c => lockQueue s t c (.waitUnlock c)
  | .waitUnlock c =>
    { mutexUnlock w s t (.waitPush c) with
      waits := update s.waits t (s.waits t + 1) }
  | .waitPush c => waitOnQueue s t c
  | .relock c => mutexLock w s t (.reacquired c) (.relocking c)
  | .reacquired _ =>
    { goto s t .run with returns := update s.returns t (s.returns t + 1) }
  | .signalLockQueue c => startWaking s t c (.signal c)
  | .signal c => wakeOne s t c (.signalDone c) (.signalDone c)
  | .signalDone c => unlockQueue s t c .run
  | .broadcastLockQueue c => startWaking s t c (.broadcast c)
  | .broadcast c => wakeOne s t c (.broadcast c) (.broadcastDone c)
  | .broadcastDone c => unlockQueue s t c .run

def next : Act T C → State T C
  | .lock t => mutexLock w s t .run .locking
  | .trylock t => mutexTrylock w s t
  | .unlock t => mutexUnlock w s t .run
  | .pthread_cond_wait t c => goto s t (.waitLockQueue c)
  | .pthread_cond_signal t c => goto s t (.signalLockQueue c)
  | .pthread_cond_broadcast t c => goto s t (.broadcastLockQueue c)
  | .step t => step w s t

/-- A context that is not blocked can go on, except that it has to wait for the lock of a queue. -/
def Ready (held : C → Option T) : Pc C → Prop
  | .run | .locking | .waiting _ | .relocking _ => False
  | .waitLockQueue c | .signalLockQueue c | .broadcastLockQueue c => held c = none
  | .waitUnlock _ | .waitPush _ | .relock _ | .reacquired _ | .signal _ | .signalDone _
  | .broadcast _ | .broadcastDone _ => True

instance (held : C → Option T) : (p : Pc C) → Decidable (Ready held p)
  | .run | .locking | .waiting _ | .relocking _ => isFalse id
  | .waitLockQueue c | .signalLockQueue c | .broadcastLockQueue c =>
    inferInstanceAs (Decidable (held c = none))
  | .waitUnlock _ | .waitPush _ | .relock _ | .reacquired _ | .signal _ | .signalDone _
  | .broadcast _ | .broadcastDone _ => isTrue trivial

/-- Any context that runs may make any call; it waits only on a condition whose mutex it holds. -/
def Enabled : Act T C → Prop
  | .pthread_cond_wait t _ => s.pc t = .run ∧ t ∈ s.sys.holders
  | .lock t | .trylock t | .unlock t | .pthread_cond_signal t _ | .pthread_cond_broadcast t _ =>
    s.pc t = .run
  | .step t => Ready s.held (s.pc t)

instance (s : State T C) : (a : Act T C) → Decidable (Enabled s a)
  | .pthread_cond_wait _ _ => instDecidableAnd
  | .lock _ | .trylock _ | .unlock _ | .pthread_cond_signal _ _ | .pthread_cond_broadcast _ _ =>
    inferInstanceAs (Decidable (_ = _))
  | .step t => inferInstanceAs (Decidable (Ready s.held (s.pc t)))

def Boot : Prop :=
  (∃ stale, s.sys = boot stale) ∧ (∀ c, s.wait c = []) ∧ (∀ c, s.held c = none) ∧
  (∀ t, s.pc t = .run) ∧ (∀ t, s.waits t = 0) ∧ (∀ t, s.wakes t = 0) ∧ ∀ t, s.returns t = 0

def machine (T C : Type) [DecidableEq T] [DecidableEq C] (w : Nat) :
    Machine (State T C) (Act T C) where
  start := Boot
  enabled := Enabled
  next := next w

instance (w : Nat) (s : State T C) (a : Act T C) : Decidable ((machine T C w).enabled s a) :=
  inferInstanceAs (Decidable (Enabled s a))

def UnlockByHolder : Act T C → Prop
  | .unlock t => t ∈ s.sys.holders
  | _ => True

end

end MutekPthreadCond
