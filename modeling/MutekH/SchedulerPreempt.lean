import MutekH.SchedulerPlacement

/-!
Preemption (mutek/main.c). The callback of the timer calls `sched_context_switch` in the
context that the interrupt finds, which may be the idle context of a processor. That has no
`sched_cur`, so NULL is pushed on the run queue. The entry of a context in a queue is its
first field, and what NULL changes of the queue is its tail, which is then NULL too.
-/
namespace MutekSchedulerPreempt
open Function (Injective update)
open LibMachine MutekScheduler MutekSchedulerPlacement

/-- `cut` tells that the tail of the run queue is NULL although contexts are in it, and
    `inside` which idle contexts were left in an interrupt handler. -/
structure Timed (Cpu Ctx Queue Lock : Type) where
  sched : State Cpu Ctx Queue Lock
  cut : Bool
  inside : Cpu → Bool

inductive Event (Cpu Ctx Queue Lock : Type) where
  | act (a : Act Cpu Ctx Queue Lock)
  | timer_callback (c : Cpu) (is_candidate : Ctx → Bool)

section
variable {Cpu Ctx Queue Lock : Type} [DecidableEq Cpu] [DecidableEq Ctx] [DecidableEq Queue]
  [DecidableEq Lock] {idle : Cpu → Ctx}

section
variable (fcn : Bool) (s : Timed Cpu Ctx Queue Lock)

/-- After a context has been removed: the removal of the last one stores the tail. -/
def cutLeft (root : List Ctx) : Bool :=
  s.cut && decide (root.getLast? = s.sched.root.getLast?)

/-- `sched_queue_nolock_pushback`. Without a tail, the context becomes the head. -/
def pushback (cut : Bool) (root : List Ctx) (x : Ctx) : List Ctx :=
  if cut then [x] else root ++ [x]

/-- `t` is the state after a push, as it is with a tail. -/
def pushed (t : State Cpu Ctx Queue Lock) : Timed Cpu Ctx Queue Lock :=
  ⟨if s.cut then { t with root := t.root.getLast?.toList } else t, false, s.inside⟩

/-- `sched_context_switch` in the idle context. -/
def timer_callback (is_candidate : Ctx → Bool) (c : Cpu) : Timed Cpu Ctx Queue Lock :=
  match sched_candidate_noidle fcn is_candidate s.sched.root with
  | (some next, root) =>
    ⟨goto (lockRun { s.sched with root := root } c) c (.switching next), !root.isEmpty,
      update s.inside c true⟩
  | (none, _) => s

def act (idle : Cpu → Ctx) (s : Timed Cpu Ctx Queue Lock) (a : Act Cpu Ctx Queue Lock) :
    Timed Cpu Ctx Queue Lock :=
  match a with
  | .start _ _ => pushed s (step fcn idle s.sched a)
  | .wakePush _ => pushed s (step fcn idle s.sched a)
  | .switch c is_candidate =>
    match sched_candidate_noidle fcn is_candidate s.sched.root with
    | (some next, root) =>
      let root := pushback (cutLeft s root) root (s.sched.cur c)
      ⟨goto (lockRun { s.sched with root := root } c) c (.switching next), false, s.inside⟩
    | (none, _) => s
  | .restore c =>
    -- An idle context that was left in the handler goes on there, and then back to sleep.
    if s.inside c = true ∧ s.sched.pc c = .switching (idle c) then
      ⟨goto { s.sched with cur := update s.sched.cur c (idle c), lock := none } c .sleeping, s.cut,
        update s.inside c false⟩
    else ⟨step fcn idle s.sched a, s.cut, s.inside⟩
  | a =>
    let t := step fcn idle s.sched a
    ⟨t, cutLeft s t.root, s.inside⟩

end

def timedMachine (fcn : Bool) (idle : Cpu → Ctx) :
    Machine (Timed Cpu Ctx Queue Lock) (Event Cpu Ctx Queue Lock) where
  start s := Boot idle s.sched ∧ s.cut = false ∧ ∀ c, s.inside c = false
  enabled s
    | .act a => Enabled idle s.sched a
    | .timer_callback c _ => s.sched.pc c = .sleeping ∧ s.sched.lock = none
  next s
    | .act a => act fcn idle s a
    | .timer_callback c is_candidate => timer_callback fcn s is_candidate c

/-- A processor that is interrupted in its idle context finds no candidate in the run queue. -/
def InDomain (fcn : Bool) (s : Timed Cpu Ctx Queue Lock) : Event Cpu Ctx Queue Lock → Prop
  | .act _ => True
  | .timer_callback _ is_candidate =>
    (sched_candidate_noidle fcn is_candidate s.sched.root).1 = none

theorem act_sched {fcn : Bool} {s : Timed Cpu Ctx Queue Lock} (whole : s.cut = false)
    (outside : ∀ c, s.inside c = false) (a : Act Cpu Ctx Queue Lock) :
    act fcn idle s a = ⟨step fcn idle s.sched a, false, s.inside⟩ := by
  obtain ⟨t,cut,inside⟩ := s
  cases whole
  cases a with
  | switch c is_candidate =>
    cases picked : sched_candidate_noidle fcn is_candidate t.root with
    | mk next root =>
      cases next <;> simp [act, step, sched_context_switch, picked, pushback, cutLeft]
  | restore c =>
    have here : inside c = false := outside c
    simp [act, here]
  | _ => simp [act, pushed, cutLeft]

theorem timed_sched {fcn : Bool} {s : Timed Cpu Ctx Queue Lock}
    (h : Reached (restrict (timedMachine fcn idle) (InDomain fcn)) s) :
    s.cut = false ∧ (∀ c, s.inside c = false) ∧ Reached (machine fcn idle) s.sched := by
  refine reached_invariant (fun s => s.cut = false ∧ (∀ c, s.inside c = false) ∧
    Reached (machine fcn idle) s.sched) ?_ ?_ h
  · rintro s ⟨boot,whole,outside⟩
    exact ⟨whole,outside,start_reached boot⟩
  · rintro s e ⟨whole,outside,reached⟩ ⟨can,domain⟩
    cases e with
    | act a =>
      change _ ∧ _ ∧ Reached (machine fcn idle) (act fcn idle s a).sched
      simp only [restrict, timedMachine, act_sched whole outside]
      exact ⟨trivial,outside,reached_step reached can⟩
    | timer_callback c is_candidate =>
      have stays : timer_callback fcn s is_candidate c = s := by
        unfold timer_callback
        cases picked : sched_candidate_noidle fcn is_candidate s.sched.root with
        | mk next root =>
          have nothing : next = none := by simpa [InDomain, picked] using domain
          rw [nothing]
      simp only [restrict, timedMachine, stays]
      exact ⟨whole,outside,reached⟩

end

def booted : Timed Bool Nat Unit Unit := ⟨twoCpus, false, fun _ => false⟩

theorem booted_start : (timedMachine false idleOf).start booted :=
  ⟨twoCpus_boot,rfl,fun _ => rfl⟩

def anyone : Nat → Bool := fun _ => true

/-- Processor `false` waits, its idle context is restored, and processor `true`
    has taken the waiting context off the queue. -/
def wakingEvents : List (Event Bool Nat Unit Unit) :=
  [.act (.acquire false (.queue ())), .act (.waitUnlock false ()), .act (.waitSwitch false anyone),
    .act (.acquire true (.queue ())), .act (.wake true ()), .act (.restore false)]

/-- Processor `true` sleeps. Processor `false` starts the contexts 4 and 5; the timer interrupts
    the idle processor before it has looked at the run queue, and it switches to 4. Then the
    context 6 is started. -/
def interruptedEvents : List (Event Bool Nat Unit Unit) :=
  [.act (.stop true none anyone), .act (.restore true), .act (.idleExamine true anyone),
    .act (.idleDeclare true), .act (.init 4), .act (.init 5), .act (.init 6), .act (.start false 4),
    .act (.post false), .act (.start false 5), .timer_callback true anyone, .act (.restore true),
    .act (.unlock true), .act (.start false 6)]

def interrupted : Timed Bool Nat Unit Unit :=
  after (timedMachine false idleOf) booted interruptedEvents

end MutekSchedulerPreempt
