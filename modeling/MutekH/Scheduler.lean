import MutekH.Lib.Machine
import Mathlib.Logic.Function.Basic

/-!
The scheduler with a shared run queue, at the granularity of its queue
operations. A function that leaves the current context takes the lock of the run
queue, chooses the next context and switches to it; the lock is released by the
context that was switched to. Between these points the processor is at one of
the program points below.

Functions that queue the current context are called by scheduler contexts: the
idle context of a processor has no `sched_cur`. Interrupt handlers of an idle
processor may start and wake contexts.
-/
namespace MutekScheduler
open Function LibMachine

/-- A spin lock: the one of a wait queue, or another one. -/
inductive Guard (Queue Lock : Type) where
  | queue (q : Queue)
  | plain (l : Lock)
  deriving DecidableEq, Repr

inductive Pc (Cpu Ctx Queue Lock : Type) where
  /-- A context is executed and holds no lock of the scheduler. -/
  | run
  /-- `sched_lock` has returned. -/
  | locked
  /-- In `sched_wait_unlock` or `sched_wait_callback`: the current context is on
      `q`, the lock of the run queue is not taken yet. -/
  | queued (q : Queue) (unlock : Option (Guard Queue Lock))
  /-- In `context_switch_to` or `context_jump_to`. -/
  | switching (next : Ctx)
  /-- Switched to, with the unlock of the run queue pending. -/
  | resumed
  /-- In `sched_wake`: `x` was popped from `q` and is not pushed yet. -/
  | waking (q : Queue) (x : Ctx)
  /-- In `__sched_context_push`, before `ipi_post`. -/
  | posting (idle : Cpu)
  /-- The idle loop before it looks for a candidate, before it declares the
      processor idle, and when it waits for an interrupt. -/
  | examining
  | declaring
  | sleeping
  deriving DecidableEq, Repr

inductive Status where
  | absent
  | stopped
  | active
  | exited
  deriving DecidableEq, Repr

/-- The state of the scheduler. Three fields record history: whether a processor last found the run
    queue empty and was not taken off the idle list since, which processors were taken off it and
    have not looked at the run queue since, and which of them were sent an interrupt. -/
structure State (Cpu Ctx Queue Lock : Type) where
  root : List Ctx
  idle_cpu : List Cpu
  lock : Option Cpu
  wait : Queue → List Ctx
  held : Guard Queue Lock → Option Cpu
  cur : Cpu → Ctx
  pc : Cpu → Pc Cpu Ctx Queue Lock
  entered : Cpu → Bool
  status : Ctx → Status
  found : Cpu → Bool
  popped : List Cpu
  ipi : Cpu → Bool

variable {Cpu Ctx Queue Lock : Type} [DecidableEq Cpu] [DecidableEq Ctx] [DecidableEq Queue]
  [DecidableEq Lock]

/-- With candidate functions (`fcn`) the first context that is a candidate at that
    moment is removed, otherwise the head is popped. -/
def sched_candidate_noidle (fcn : Bool) (is_candidate : Ctx → Bool) :
    List Ctx → Option Ctx × List Ctx
  | [] => (none, [])
  | x :: root =>
      if fcn = false ∨ is_candidate x then (some x, root)
      else
        let r := sched_candidate_noidle fcn is_candidate root
        (r.1, x :: r.2)

variable (fcn : Bool) (is_candidate : Ctx → Bool) (s : State Cpu Ctx Queue Lock) (c : Cpu)

def lockRun : State Cpu Ctx Queue Lock :=
  { s with lock := some c }

def goto (pc : Pc Cpu Ctx Queue Lock) :
    State Cpu Ctx Queue Lock :=
  { s with pc := update s.pc c pc }

def lock_release :
    Option (Guard Queue Lock) → State Cpu Ctx Queue Lock
  | none => s
  | some g => { s with held := update s.held g none }

def sched_candidate (idle : Cpu → Ctx) (is_candidate : Ctx → Bool)
    (s : State Cpu Ctx Queue Lock) (c : Cpu) : State Cpu Ctx Queue Lock :=
  match sched_candidate_noidle fcn is_candidate s.root with
  | (some next, root) => goto { s with root := root } c (.switching next)
  | (none, _) =>
      goto { s with found := update s.found c s.root.isEmpty } c (.switching (idle c))

def base (idle : Cpu → Ctx) (s : State Cpu Ctx Queue Lock) (c : Cpu) :
    Pc Cpu Ctx Queue Lock :=
  if s.cur c = idle c then .sleeping else .run

/-- `__sched_context_push` up to the release of the lock. -/
def sched_context_push (idle : Cpu → Ctx) (s : State Cpu Ctx Queue Lock) (c : Cpu) (x : Ctx) :
    State Cpu Ctx Queue Lock :=
  match s.idle_cpu with
  | [] => goto { s with root := s.root ++ [x] } c (base idle s c)
  | d :: rest =>
      goto { s with
          root := s.root ++ [x]
          idle_cpu := rest
          popped := d :: s.popped
          found := update s.found d false } c (.posting d)

def sched_context_init (x : Ctx) : State Cpu Ctx Queue Lock :=
  { s with status := update s.status x .stopped }

def sched_context_start (idle : Cpu → Ctx) (s : State Cpu Ctx Queue Lock) (c : Cpu) (x : Ctx) :
    State Cpu Ctx Queue Lock :=
  sched_context_push idle { s with status := update s.status x .active } c x

def sched_context_switch : State Cpu Ctx Queue Lock :=
  match sched_candidate_noidle fcn is_candidate s.root with
  | (some next, root) =>
      goto (lockRun { s with root := root ++ [s.cur c] } c) c (.switching next)
  | (none, _) => s

def sched_context_exit (idle : Cpu → Ctx) (is_candidate : Ctx → Bool)
    (s : State Cpu Ctx Queue Lock) (c : Cpu) : State Cpu Ctx Queue Lock :=
  sched_candidate fcn idle is_candidate
    { s with status := update s.status (s.cur c) .exited } c

/-- `sched_context_stop`, and `sched_context_stop_unlock` with the lock it releases. -/
def sched_context_stop (idle : Cpu → Ctx) (is_candidate : Ctx → Bool)
    (unlock : Option (Guard Queue Lock)) (s : State Cpu Ctx Queue Lock) (c : Cpu) :
    State Cpu Ctx Queue Lock :=
  sched_candidate fcn idle is_candidate
    { lock_release (lockRun s c) unlock with
      status := update s.status (s.cur c) .stopped } c

def waitPush (q : Queue)
    (unlock : Option (Guard Queue Lock)) : State Cpu Ctx Queue Lock :=
  goto { s with wait := update s.wait q (s.wait q ++ [s.cur c]) } c (.queued q unlock)

def sched_wait_unlock (q : Queue) :
    State Cpu Ctx Queue Lock := waitPush s c q (some (.queue q))

def sched_wait_callback (q : Queue)
    (callback : Option (Guard Queue Lock)) : State Cpu Ctx Queue Lock := waitPush s c q callback

def waitSwitch (idle : Cpu → Ctx) (is_candidate : Ctx → Bool)
    (s : State Cpu Ctx Queue Lock) (c : Cpu) : State Cpu Ctx Queue Lock :=
  match s.pc c with
  | .queued _ unlock =>
      sched_candidate fcn idle is_candidate (lock_release (lockRun s c) unlock) c
  | _ => s

def sched_wake (q : Queue) : State Cpu Ctx Queue Lock :=
  match s.wait q with
  | [] => s
  | x :: rest => goto { s with wait := update s.wait q rest } c (.waking q x)

def wakePush (idle : Cpu → Ctx) (s : State Cpu Ctx Queue Lock) (c : Cpu) :
    State Cpu Ctx Queue Lock :=
  match s.pc c with
  | .waking _ x => sched_context_push idle s c x
  | _ => s

def ipi_post (idle : Cpu → Ctx) (s : State Cpu Ctx Queue Lock) (c : Cpu) :
    State Cpu Ctx Queue Lock :=
  match s.pc c with
  | .posting d => goto { s with ipi := update s.ipi d true } c (base idle s c)
  | _ => s

/-- The registers of the next context are loaded. A context continues in the
    function it was switched out in, or at its entry, and the idle context at the
    top of its loop the first time and after `context_switch_to` later. -/
def restore (idle : Cpu → Ctx) (s : State Cpu Ctx Queue Lock) (c : Cpu) :
    State Cpu Ctx Queue Lock :=
  match s.pc c with
  | .switching next =>
      if next = idle c then
        goto { s with
            cur := update s.cur c next
            entered := update s.entered c true } c
          (if s.entered c then .declaring else .examining)
      else goto { s with cur := update s.cur c next } c .resumed
  | _ => s

def sched_unlock : State Cpu Ctx Queue Lock :=
  goto { s with lock := none } c .run

/-- The idle loop after an interrupt: it takes the lock and goes back to sleep if
    the processor is still listed idle. -/
def idleCheck : State Cpu Ctx Queue Lock :=
  if c ∈ s.idle_cpu then s else goto (lockRun s c) c .examining

def idleExamine : State Cpu Ctx Queue Lock :=
  let seen : State Cpu Ctx Queue Lock :=
    { s with popped := s.popped.erase c, ipi := update s.ipi c false }
  match sched_candidate_noidle fcn is_candidate s.root with
  | (some next, root) => goto { seen with root := root } c (.switching next)
  | (none, _) =>
      goto { seen with found := update s.found c s.root.isEmpty } c .declaring

def idleDeclare : State Cpu Ctx Queue Lock :=
  goto { s with idle_cpu := c :: s.idle_cpu, lock := none } c .sleeping

inductive Act (Cpu Ctx Queue Lock : Type) where
  | init (x : Ctx)
  | start (c : Cpu) (x : Ctx)
  | switch (c : Cpu) (is_candidate : Ctx → Bool)
  | lock (c : Cpu)
  | unlock (c : Cpu)
  | exit (c : Cpu) (is_candidate : Ctx → Bool)
  | stop (c : Cpu) (unlock : Option (Guard Queue Lock)) (is_candidate : Ctx → Bool)
  | waitUnlock (c : Cpu) (q : Queue)
  | waitCallback (c : Cpu) (q : Queue) (callback : Option (Guard Queue Lock))
  | waitSwitch (c : Cpu) (is_candidate : Ctx → Bool)
  | acquire (c : Cpu) (g : Guard Queue Lock)
  | release (c : Cpu) (g : Guard Queue Lock)
  | wake (c : Cpu) (q : Queue)
  | wakePush (c : Cpu)
  | post (c : Cpu)
  | restore (c : Cpu)
  | idleCheck (c : Cpu)
  | idleExamine (c : Cpu) (is_candidate : Ctx → Bool)
  | idleDeclare (c : Cpu)

def Interruptible : Prop :=
  s.pc c = .run ∨ s.pc c = .sleeping

/-- Each step that needs the lock of a queue waits for it or holds it, and a
    context is started only if it is new or stopped. -/
def Enabled (idle : Cpu → Ctx) (s : State Cpu Ctx Queue Lock) : Act Cpu Ctx Queue Lock → Prop
  | .init x => s.status x = .absent ∧ ∀ c, x ≠ idle c
  | .start c x => Interruptible s c ∧ s.lock = none ∧ s.status x = .stopped
  | .switch c _ => s.pc c = .run ∧ s.lock = none
  | .lock c => s.pc c = .run ∧ s.lock = none
  | .unlock c => s.pc c = .locked ∨ s.pc c = .resumed
  | .exit c _ => s.pc c = .locked
  | .stop c unlock _ => s.pc c = .run ∧ s.lock = none ∧ ∀ g, unlock = some g → s.held g = some c
  | .waitUnlock c q => s.pc c = .run ∧ s.held (.queue q) = some c
  | .waitCallback c q callback => s.pc c = .run ∧ s.held (.queue q) = some c ∧
      ∀ g, callback = some g → s.held g = some c
  | .waitSwitch c _ => (∃ q unlock, s.pc c = .queued q unlock) ∧ s.lock = none
  | .acquire c g => Interruptible s c ∧ s.held g = none
  | .release c g => Interruptible s c ∧ s.held g = some c
  | .wake c q => Interruptible s c ∧ s.held (.queue q) = some c
  | .wakePush c => (∃ q x, s.pc c = .waking q x) ∧ s.lock = none
  | .post c => ∃ d, s.pc c = .posting d
  | .restore c => ∃ next, s.pc c = .switching next
  | .idleCheck c => s.pc c = .sleeping ∧ s.lock = none
  | .idleExamine c _ => s.pc c = .examining
  | .idleDeclare c => s.pc c = .declaring

def step (idle : Cpu → Ctx) (s : State Cpu Ctx Queue Lock) :
    Act Cpu Ctx Queue Lock → State Cpu Ctx Queue Lock
  | .init x => sched_context_init s x
  | .start c x => sched_context_start idle s c x
  | .switch c is_candidate => sched_context_switch fcn is_candidate s c
  | .lock c => goto (lockRun s c) c .locked
  | .unlock c => sched_unlock s c
  | .exit c is_candidate => sched_context_exit fcn idle is_candidate s c
  | .stop c unlock is_candidate => sched_context_stop fcn idle is_candidate unlock s c
  | .waitUnlock c q => sched_wait_unlock s c q
  | .waitCallback c q callback => sched_wait_callback s c q callback
  | .waitSwitch c is_candidate => waitSwitch fcn idle is_candidate s c
  | .acquire c g => { s with held := update s.held g (some c) }
  | .release _ g => lock_release s (some g)
  | .wake c q => sched_wake s c q
  | .wakePush c => wakePush idle s c
  | .post c => ipi_post idle s c
  | .restore c => restore idle s c
  | .idleCheck c => idleCheck s c
  | .idleExamine c is_candidate => idleExamine fcn is_candidate s c
  | .idleDeclare c => idleDeclare s c

/-- Every processor executes a context of its own, the queues are empty and the locks are free. -/
structure Boot (idle : Cpu → Ctx) (s : State Cpu Ctx Queue Lock) : Prop where
  root : s.root = []
  idle_cpu : s.idle_cpu = []
  lock : s.lock = none
  wait : ∀ q, s.wait q = []
  held : ∀ g, s.held g = none
  pc : ∀ c, s.pc c = .run
  own : Injective s.cur
  cur : ∀ c d, s.cur c ≠ idle d
  entered : ∀ c, s.entered c = false
  status : ∀ x, s.status x = .active ↔ ∃ c, s.cur c = x
  others : ∀ x, s.status x = .active ∨ s.status x = .absent
  popped : s.popped = []

def machine (idle : Cpu → Ctx) :
    Machine (State Cpu Ctx Queue Lock) (Act Cpu Ctx Queue Lock) where
  start := Boot idle
  enabled := Enabled idle
  next := step fcn idle

end MutekScheduler
