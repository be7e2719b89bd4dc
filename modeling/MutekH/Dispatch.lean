import MutekH.Lib.DoublyLinked
import MutekH.Semaphore

/-!
The dispatch thread of an interface. Packets are pushed from any context, the thread pops
and passes them, and `network_dispatch_kill` waits until the thread has started it again.
The queue has no lock: every access to its pointers is a step of its own.
-/
namespace MutekDispatch
open LibMachine LibFixedWidth LibDoublyLinked MutekSemaphore MutekWaitQueue

/-- Where `dispatch_wakeup` is: the pointer to the new packet, the tail and the unit come next. -/
inductive PushStep (Packet : Type) where
  | linking (tail : Option Packet)
  | marking
  | giving
  deriving DecidableEq

structure Push (Packet : Type) where
  packet : Packet
  step : PushStep Packet
  deriving DecidableEq

/-- Where `packet_dispatch_thread` is. From `popping` to `closing` it is in `packet_queue_pop`; from
    `checking` on it has found the queue empty. -/
inductive Thread (Packet : Type) where
  | entering
  | taking
  | waiting
  | popping
  | reading (packet : Packet)
  | unlinking (packet : Packet) (next prev : Option Packet)
  | closing (packet : Packet) (next prev : Option Packet)
  | passing (packet : Packet)
  | dropping (packet : Packet)
  | checking
  | leaving
  | starting
  | locking
  | exited
  | failed
  deriving DecidableEq

/-- Where `network_dispatch_kill` is; `twice` when its context is elected while it runs. -/
inductive Kill where
  | idle
  | flagging
  | giving
  | stopping
  | stopped
  | resumed
  | freeing
  | returned
  | twice
  deriving DecidableEq

/-- `ready` tells whether the context of `network_dispatch_kill` is in the run queue. The references
    are those taken by the functions of this file and by the queue, less those dropped; the packets
    pushed, passed to `if_pushpkt` and dropped are history. -/
structure State (Packet : Type) where
  queue : Dlist Packet
  sem : Semaphore Unit
  must_quit : Bool
  killer : Bool
  pushes : List (Push Packet)
  thread : Thread Packet
  kill : Kill
  ready : Bool
  refs : Packet → Int
  interface_refs : Int
  pushed : List Packet
  passed : List Packet
  dropped : List Packet

section
set_option linter.unusedSectionVars false
variable {Packet : Type} [DecidableEq Packet]

variable (w : Nat) (asserts : Bool) (s : State Packet) (p : Packet)

def refnew : State Packet :=
  { s with refs := Function.update s.refs p (s.refs p + 1) }

def refdrop : State Packet :=
  { s with refs := Function.update s.refs p (s.refs p - 1) }

/-- `packet_queue_pushback` takes a reference and sets the pointers of the packet; nobody else reads
    them yet. -/
def dispatch_wakeup : State Packet :=
  { refnew s p with
    queue := prepare s.queue p
    pushes := ⟨p, .linking s.queue.tail⟩ :: s.pushes
    pushed := s.pushed ++ [p] }

def network_dispatch_packet : State Packet := dispatch_wakeup (refnew s p) p

-- the reference is the one of `packet_obj_new`
def network_dispatch_data : State Packet := dispatch_wakeup (refnew s p) p

def give : State Packet :=
  let (sem, woken) := semaphore_give w s.sem 1
  { s with sem := sem, thread := if woken = [] then s.thread else .popping }

def pushStep (x : Push Packet) : State Packet :=
  match x.step with
  | .linking tail =>
    { s with
      queue := setNext s.queue tail (some x.packet)
      pushes := ⟨x.packet, .marking⟩ :: s.pushes.erase x }
  | .marking =>
    { s with
      queue := setPrev s.queue none (some x.packet)
      pushes := ⟨x.packet, .giving⟩ :: s.pushes.erase x }
  | .giving => give w { s with pushes := s.pushes.erase x }

/-- `packet_dispatch_thread`. It runs with the interrupts enabled, so that with assertions it fails
    in `sched_context_start`. -/
def packet_dispatch_thread : State Packet :=
  match s.thread with
  | .entering => { s with interface_refs := s.interface_refs + 1, thread := .taking }
  | .taking =>
    match semaphore_take w s.sem () 1 with
    | (sem, .waits) => { s with sem := sem, thread := .waiting }
    | (sem, .returned _) => { s with sem := sem, thread := .popping }
  | .popping =>
    match s.queue.head with
    | none => { s with thread := .checking }
    | some p => { s with thread := .reading p }
  | .reading p => { s with thread := .unlinking p (s.queue.next p) (s.queue.prev p) }
  | .unlinking p next prev =>
    { s with queue := setNext s.queue prev next, thread := .closing p next prev }
  | .closing p next prev => { s with queue := setPrev s.queue next prev, thread := .passing p }
  | .passing p => { s with passed := s.passed ++ [p], thread := .dropping p }
  | .dropping p => { refdrop s p with dropped := s.dropped ++ [p], thread := .taking }
  | .checking => { s with thread := if s.must_quit then .leaving else .taking }
  | .leaving => { s with interface_refs := s.interface_refs - 1, thread := .starting }
  | .starting =>
    if asserts then { s with thread := .failed }
    else { s with ready := s.killer, thread := .locking }
  | .locking => { s with thread := .exited }
  | .waiting => s
  | .exited => s
  | .failed => s

def network_dispatch_kill : State Packet :=
  match s.kill with
  | .idle => { s with killer := true, kill := .flagging }
  | .flagging => { s with must_quit := true, kill := .giving }
  | .giving => { give w s with kill := .stopping }
  | .stopping => { s with kill := .stopped }
  | .resumed => { s with interface_refs := s.interface_refs - 1, kill := .freeing }
  | .freeing => { s with kill := .returned }
  | .stopped => s
  | .returned => s
  | .twice => s

def elect : State Packet :=
  { s with ready := false, kill := if s.kill = .stopped then .resumed else .twice }

inductive Act (Packet : Type) where
  | packet (p : Packet)
  | data (p : Packet)
  | push (x : Push Packet)
  | thread
  | kill
  | elect

def next : Act Packet → State Packet
  | .packet p => network_dispatch_packet s p
  | .data p => network_dispatch_data s p
  | .push x => pushStep w s x
  | .thread => packet_dispatch_thread w asserts s
  | .kill => network_dispatch_kill w s
  | .elect => elect s

/-- The packet is not on its way to the thread. -/
def CanPush : Prop := s.kill = .idle ∧ s.pushed.count p = s.dropped.count p

instance (s : State Packet) (p : Packet) : Decidable (CanPush s p) :=
  instDecidableAnd

def enabled : Act Packet → Prop
  | .packet p => CanPush s p
  | .data p => CanPush s p
  | .push x => x ∈ s.pushes
  | .thread => s.thread ≠ .waiting ∧ s.thread ≠ .exited ∧ s.thread ≠ .failed
  | .kill =>
    s.kill ≠ .stopped ∧ s.kill ≠ .returned ∧ s.kill ≠ .twice ∧ (s.kill = .idle → s.pushes = [])
  | .elect => s.ready = true

instance (s : State Packet) (a : Act Packet) : Decidable (enabled s a) :=
  match a with
  | .packet p => inferInstanceAs (Decidable (CanPush s p))
  | .data p => inferInstanceAs (Decidable (CanPush s p))
  | .push x => inferInstanceAs (Decidable (x ∈ s.pushes))
  | .thread => instDecidableAnd
  | .kill => instDecidableAnd
  | .elect => inferInstanceAs (Decidable (s.ready = true))

structure Created (s : State Packet) : Prop where
  head : s.queue.head = none
  tail : s.queue.tail = none
  sem : s.sem = semaphore_init 0
  must_quit : s.must_quit = false
  killer : s.killer = false
  pushes : s.pushes = []
  thread : s.thread = .entering
  kill : s.kill = .idle
  ready : s.ready = false
  refs : ∀ p, s.refs p = 0
  interface_refs : s.interface_refs = 1
  pushed : s.pushed = []
  passed : s.passed = []
  dropped : s.dropped = []

def machine : Machine (State Packet) (Act Packet) where
  start := Created
  enabled := enabled
  next := next w asserts

instance (w : Nat) (asserts : Bool) (s : State Packet) (a : Act Packet) :
    Decidable ((machine w asserts).enabled s a) :=
  inferInstanceAs (Decidable (enabled s a))

/- What the code relies on. -/

def Quiet : Prop := ∀ x ∈ s.pushes, x.step = .giving

def outside : Thread Packet → Bool
  | .reading _ | .unlinking _ _ _ | .closing _ _ _ => false
  | _ => true

/-- The accesses to the queue do not overlap and the counter stays in range. The thread starts the
    context of `network_dispatch_kill` when it has stopped, and this context is elected when the
    thread has left. -/
def Calm : Act Packet → Prop
  | .packet _ => Quiet s ∧ outside s.thread = true
  | .data _ => Quiet s ∧ outside s.thread = true
  | .push x => x.step = .giving → Fits w (s.sem.count + 1)
  | .thread => (s.thread = .popping → Quiet s) ∧ (s.thread = .starting → s.kill = .stopped)
  | .kill => s.kill = .giving → Fits w (s.sem.count + 1)
  | .elect => s.thread = .exited

instance (s : State Packet) : Decidable (Quiet s) :=
  inferInstanceAs (Decidable (∀ x ∈ s.pushes, x.step = .giving))

instance (w : Nat) (s : State Packet) (a : Act Packet) : Decidable (Calm w s a) :=
  match a with
  | .packet _ => instDecidableAnd
  | .data _ => instDecidableAnd
  | .push _ => inferInstanceAs (Decidable (_ → _))
  | .thread => instDecidableAnd
  | .kill => inferInstanceAs (Decidable (_ → _))
  | .elect => inferInstanceAs (Decidable (_ = _))

end

end MutekDispatch
