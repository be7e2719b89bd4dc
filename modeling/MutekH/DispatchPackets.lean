import MutekH.Dispatch

/-!
The packets of a calm run. The queue represents the packets that have been pushed and not
popped once the access that is under way is done; each of them has a unit of the semaphore.
-/
namespace MutekDispatch
open List LibMachine LibFixedWidth LibDoublyLinked MutekSemaphore MutekWaitQueue

section
set_option linter.unusedSectionVars false
variable {Packet : Type} [DecidableEq Packet]

def hand : Thread Packet → List Packet
  | .unlinking p _ _ => [p]
  | .closing p _ _ => [p]
  | .passing p => [p]
  | _ => []

def undropped : Thread Packet → List Packet
  | .dropping p => [p]
  | _ => []

def ended : Thread Packet → Bool
  | .checking | .leaving | .starting | .locking | .exited => true
  | _ => false

def held : Thread Packet → Int
  | .popping | .reading _ => 1
  | thread => if ended thread then 1 else 0

def given : Kill → Bool
  | .idle | .flagging | .giving => false
  | _ => true

def back : Kill → Bool
  | .resumed | .freeing | .returned => true
  | _ => false

def finishPop (d : Dlist Packet) : Thread Packet → Dlist Packet
  | .unlinking _ next prev => setPrev (setNext d prev next) next prev
  | .closing _ next prev => setPrev d next prev
  | _ => d

def finishPush (d : Dlist Packet) (x : Push Packet) : Dlist Packet :=
  match x.step with
  | .linking tail => setPrev (setNext d tail (some x.packet)) none (some x.packet)
  | .marking => setPrev d none (some x.packet)
  | .giving => d

def active (x : Push Packet) : Bool := decide (x.step ≠ .giving)

def Holds (s : State Packet) (xs : List Packet) : Prop :=
  (s.pushes.filter active = [] ∧ Represents (finishPop s.queue s.thread) xs) ∨
    ∃ x, s.pushes.filter active = [x] ∧ outside s.thread = true ∧
      Represents (finishPush s.queue x) xs

structure Packets (s : State Packet) (xs : List Packet) : Prop where
  holds : Holds s xs
  first : ∀ p, s.thread = .reading p → xs.head? = some p
  log : s.pushed = s.passed ++ hand s.thread ++ xs
  drops : s.passed = s.dropped ++ undropped s.thread
  units : Unitary s.sem
  asleep : (s.sem.wait = [] ∧ s.thread ≠ .waiting) ∨ ((∃ x, s.sem.wait = [x]) ∧ s.thread = .waiting)

structure Inv (s : State Packet) (xs : List Packet) : Prop where
  packets : Packets s xs
  tokens : xs.length + (given s.kill).toInt = s.sem.count + held s.thread + s.pushes.length
  empty : ended s.thread = true → xs = [] ∧ given s.kill = true
  called : s.kill ≠ .idle → s.pushes = []
  killer : s.kill ≠ .idle → s.killer = true
  quits : s.kill ≠ .idle ∧ s.kill ≠ .flagging → s.must_quit = true

variable {s : State Packet}

theorem quiet_filter (quiet : Quiet s) : s.pushes.filter active = [] := by
  rw [filter_eq_nil_iff]
  intro x member
  simp [active, quiet x member]

theorem inv_created (created : Created s) : Inv s [] := by
  refine ⟨⟨.inl ⟨?_,?_⟩,?_,?_,?_,?_,.inl ⟨?_,?_⟩⟩,?_,?_,?_,?_,?_⟩
  · rw [created.pushes]
    rfl
  · rw [created.thread]
    exact ⟨created.head,created.tail,trivial,nodup_nil⟩
  · simp [created.thread]
  · rw [created.pushed, created.passed, created.thread]
    rfl
  · rw [created.passed, created.dropped, created.thread]
    rfl
  · rw [created.sem]
    exact unitary_zero []
  · rw [created.sem]
    rfl
  · simp [created.thread]
  · rw [created.kill, created.sem, created.thread, created.pushes]
    rfl
  · simp [created.thread, ended]
  · intro called
    exact created.pushes
  · intro called
    exact absurd created.kill called
  · intro flagged
    exact absurd created.kill flagged.1

theorem given_flagged (told : given kill = true) : kill ≠ .idle ∧ kill ≠ .flagging := by
  refine ⟨?_,?_⟩
  · intro idle
    rw [idle] at told
    cases told
  · intro flagging
    rw [flagging] at told
    cases told

/- The pushes. -/

variable {xs : List Packet}

theorem away_of_count (packets : Packets s xs) (same : s.pushed.count p = s.dropped.count p) :
    p ∉ xs := by
  rw [packets.log, packets.drops, count_append, count_append, count_append] at same
  rw [← count_eq_zero]
  omega

theorem outside_pop {d : Dlist Packet} {thread : Thread Packet} (out : outside thread = true) :
    finishPop d thread = d := by
  cases thread with
  | unlinking p next prev | closing p next prev => cases out
  | _ => rfl

theorem wakeup_inv (inv : Inv s xs) {p : Packet} (can : CanPush s p)
    (quiet : Quiet s) (out : outside s.thread = true) (refs : Packet → Int) :
    Inv (dispatch_wakeup { s with refs := refs } p) (xs ++ [p]) := by
  have packets := inv.packets
  have none := quiet_filter quiet
  have rep : Represents s.queue xs := by
    obtain ⟨_,rep⟩ | ⟨x,some,_⟩ := packets.holds
    · rw [outside_pop out] at rep
      exact rep
    · rw [none] at some
      cases some
  refine ⟨⟨.inr ⟨⟨p,.linking s.queue.tail⟩,?_,out,?_⟩,?_,?_,packets.drops,packets.units,
    packets.asleep⟩,
    ?_,?_,?_,?_,?_⟩
  · simp only [dispatch_wakeup, filter_cons, none]
    rfl
  · exact append_represents rep (away_of_count packets can.2)
  · intro q reading
    simp only [dispatch_wakeup, refnew] at reading
    rw [reading] at out
    cases out
  · simp [dispatch_wakeup, refnew, packets.log]
  · have tokens := inv.tokens
    simp only [dispatch_wakeup, refnew, length_append, length_cons, length_nil] at tokens ⊢
    omega
  · intro finish
    have told := (inv.empty finish).2
    rw [can.1] at told
    cases told
  · intro called
    exact absurd can.1 called
  · exact inv.killer
  · exact inv.quits

variable {x : Push Packet}

theorem filter_erase_active {xs : List (Push Packet)}
    (only : s.pushes.filter active = xs) : (s.pushes.erase x).filter active = xs.erase x := by
  rw [← only]
  exact erase_filter.symm

theorem holds_active (holds : Holds s xs) (member : x ∈ s.pushes) (moving : x.step ≠ .giving) :
    s.pushes.filter active = [x] ∧ outside s.thread = true ∧
      Represents (finishPush s.queue x) xs := by
  have inside : x ∈ s.pushes.filter active := by
    rw [mem_filter]
    exact ⟨member,by simp [active, moving]⟩
  obtain ⟨none,_⟩ | ⟨y,only,rest⟩ := holds
  · rw [none] at inside
    cases inside
  · rw [only, mem_singleton] at inside
    rw [inside]
    exact ⟨only,rest⟩

variable {w : Nat}

theorem link_inv (inv : Inv s xs) (member : x ∈ s.pushes) (moving : x.step ≠ .giving) :
    Inv (pushStep w s x) xs := by
  have packets := inv.packets
  obtain ⟨only,out,rep⟩ := holds_active packets.holds member moving
  have others : (s.pushes.erase x).filter active = [] := by
    rw [filter_erase_active only]
    simp
  have many := length_pos_of_mem member
  have early : s.kill ≠ .idle → False := by
    intro called
    rw [inv.called called] at member
    cases member
  -- the step makes the push `y` and leaves the queue that is represented when `y` is done
  have done : ∀ (queue : Dlist Packet) (y : Push Packet), finishPush queue y =
      finishPush s.queue x →
      Inv { s with queue := queue, pushes := y :: s.pushes.erase x } xs := by
    intro queue y same
    refine ⟨⟨?_,packets.first,packets.log,packets.drops,packets.units,packets.asleep⟩,?_,
      inv.empty,?_,inv.killer,inv.quits⟩
    · by_cases last : y.step = .giving
      · refine .inl ⟨by simp [others, active, last],?_⟩
        rw [← same, finishPush, last] at rep
        rw [outside_pop out]
        exact rep
      · refine .inr ⟨y,by simp [others, active, last],out,?_⟩
        rw [same]
        exact rep
    · have tokens := inv.tokens
      simp only [length_cons, length_erase_of_mem member] at tokens ⊢
      omega
    · intro called
      exact (early called).elim
  cases step : x.step with simp only [pushStep, step]
  | linking tail => exact done _ ⟨x.packet,.marking⟩ (by simp [finishPush, step])
  | marking => exact done _ ⟨x.packet,.giving⟩ (by simp [finishPush, step])
  | giving => exact absurd step moving

theorem give_cases (packets : Packets s xs) (fits : Fits w (s.sem.count + 1)) :
    (s.thread ≠ .waiting ∧ give w s = { s with sem := ⟨s.sem.count + 1, []⟩ }) ∨
      (s.thread = .waiting ∧ s.sem.count = 0 ∧
        give w s = { s with sem := ⟨0, []⟩, thread := .popping }) := by
  obtain ⟨empty,given⟩ | ⟨x,rest,waiting,zero,given⟩ := give_one packets.units fits
  · left
    obtain ⟨_,awake⟩ | ⟨⟨y,some⟩,_⟩ := packets.asleep
    · refine ⟨awake,?_⟩
      rw [give, given]
      rfl
    · rw [empty] at some
      cases some
  right
  obtain ⟨none,_⟩ | ⟨⟨y,only⟩,asleep⟩ := packets.asleep
  · rw [none] at waiting
    cases waiting
  · rw [only] at waiting
    cases waiting
    refine ⟨asleep,zero,?_⟩
    rw [give, given]
    rfl

theorem give_packets (packets : Packets s xs) (fits : Fits w (s.sem.count + 1)) :
    Packets (give w s) xs ∧ (give w s).sem.count + held (give w s).thread =
      s.sem.count + held s.thread + 1 ∧
      (ended (give w s).thread = true → ended s.thread = true) ∧
      ∃ sem thread, give w s = { s with sem := sem, thread := thread } := by
  obtain ⟨awake,given⟩ | ⟨asleep,zero,given⟩ := give_cases packets fits
  · rw [given]
    have nonneg := packets.units.nonneg
    refine ⟨⟨packets.holds,packets.first,packets.log,packets.drops,unitary_up (by omega),
      .inl ⟨rfl,awake⟩⟩,
      ?_,fun finish => finish,_,_,rfl⟩
    simp only
    omega
  rw [given]
  have log := packets.log
  have drops := packets.drops
  have holds := packets.holds
  rw [asleep] at log drops
  rw [Holds, asleep] at holds
  refine ⟨⟨holds,?_,log,drops,unitary_zero [],.inl ⟨rfl,?_⟩⟩,?_,?_,_,_,rfl⟩
  · intro p reading
    cases reading
  · intro waiting
    cases waiting
  · rw [zero, asleep]
    rfl
  · intro finish
    cases finish

theorem push_give_inv (inv : Inv s xs)
    (member : x ∈ s.pushes) (step : x.step = .giving) (fits : Fits w (s.sem.count + 1)) :
    Inv (give w { s with pushes := s.pushes.erase x }) xs := by
  have packets := inv.packets
  have many := length_pos_of_mem member
  have erased : (s.pushes.erase x).filter active = s.pushes.filter active := by
    rw [filter_erase_active rfl]
    apply erase_of_not_mem
    simp [active, step]
  have less : Packets { s with pushes := s.pushes.erase x } xs := by
    refine ⟨?_,packets.first,packets.log,packets.drops,packets.units,packets.asleep⟩
    have holds := packets.holds
    rw [Holds, ← erased] at holds
    exact holds
  have early : s.kill = .idle := by
    by_contra called
    rw [inv.called called] at member
    cases member
  obtain ⟨kept,units,finish,sem,thread,done⟩ := give_packets less fits
  rw [done] at kept units finish ⊢
  refine ⟨kept,?_,?_,?_,inv.killer,inv.quits⟩
  · have tokens := inv.tokens
    simp only [length_erase_of_mem member] at units tokens ⊢
    omega
  · intro past
    exact inv.empty (finish past)
  · intro called
    exact absurd early called

theorem push_inv (inv : Inv s xs) (member : x ∈ s.pushes) (calm : Calm w s (.push x)) :
    Inv (pushStep w s x) xs := by
  by_cases step : x.step = .giving
  · simp only [pushStep, step]
    exact push_give_inv inv member step (calm step)
  · exact link_inv inv member step

/- The thread. -/

variable {t : Thread Packet}

theorem packets_go (packets : Packets s xs) (holds : Holds { s with thread := t } xs)
    (first : ∀ p, t = .reading p → xs.head? = some p)
    (sameHand : hand t = hand s.thread) (sameDrop : undropped t = undropped s.thread)
    (before : s.thread ≠ .waiting) (after : t ≠ .waiting) : Packets { s with thread := t } xs := by
  refine ⟨holds,first,?_,?_,packets.units,?_⟩
  · simp only [sameHand]
    exact packets.log
  · simp only [sameDrop]
    exact packets.drops
  · obtain ⟨none,_⟩ | ⟨_,asleep⟩ := packets.asleep
    · exact .inl ⟨none,after⟩
    · exact absurd asleep before

theorem packets_outside (packets : Packets s xs) (out : outside s.thread = true)
    (out' : outside t = true) (sameHand : hand t = hand s.thread)
    (sameDrop : undropped t = undropped s.thread) (before : s.thread ≠ .waiting)
    (after : t ≠ .waiting) :
    Packets { s with thread := t } xs := by
  refine packets_go packets ?_ ?_ sameHand sameDrop before after
  · have holds := packets.holds
    rw [Holds, outside_pop out] at holds
    obtain quiet | ⟨x,only,_,rep⟩ := holds
    · left
      simp only [outside_pop out']
      exact quiet
    · exact .inr ⟨x,only,out',rep⟩
  · intro p reading
    rw [reading] at out'
    cases out'

theorem holds_inside (holds : Holds s xs) (inside : outside s.thread = false) :
    s.pushes.filter active = [] ∧ Represents (finishPop s.queue s.thread) xs := by
  obtain quiet | ⟨_,_,out,_⟩ := holds
  · exact quiet
  · rw [inside] at out
    cases out

theorem fits_less (wide : 2 ≤ w) (units : Unitary sem) (range : Fits w sem.count) :
    Fits w (sem.count - 1) := by
  have nonneg := units.nonneg
  exact fits_between (fits_minus_one (by omega)) range (by omega) (by omega)

section
variable (inv : Inv s xs)
include inv

theorem take_inv (thread : s.thread = .taking)
    (fits : Fits w (s.sem.count - 1)) : Inv (packet_dispatch_thread w false s) xs := by
  have packets := inv.packets
  have none : s.sem.wait = [] := by
    obtain ⟨none,_⟩ | ⟨_,asleep⟩ := packets.asleep
    · exact none
    · rw [thread] at asleep
      cases asleep
  have holds := packets.holds
  have log := packets.log
  have drops := packets.drops
  have tokens := inv.tokens
  rw [Holds, thread] at holds
  rw [thread] at log drops tokens
  have idle : held (.taking : Thread Packet) = 0 := rfl
  simp only [packet_dispatch_thread, thread]
  obtain ⟨some,taken⟩ | ⟨zero,taken⟩ := take_one packets.units fits ()
  · rw [taken, none]
    refine ⟨⟨holds,?_,log,drops,unitary_up (by omega),.inl ⟨rfl,?_⟩⟩,?_,?_,inv.called,inv.killer,
      inv.quits⟩
    · intro p reading
      cases reading
    · intro waiting
      cases waiting
    · have one : held (.popping : Thread Packet) = 1 := rfl
      simp only
      omega
    · intro finish
      cases finish
  · rw [taken, none]
    refine ⟨⟨holds,?_,log,drops,unitary_zero _,.inr ⟨⟨_,rfl⟩,rfl⟩⟩,?_,?_,inv.called,inv.killer,
      inv.quits⟩
    · intro p reading
      cases reading
    · have rest : held (.waiting : Thread Packet) = 0 := rfl
      simp only
      omega
    · intro finish
      cases finish

theorem last_unit (thread : s.thread = .popping) (empty : xs = []) : given s.kill = true := by
  have tokens := inv.tokens
  have nonneg := inv.packets.units.nonneg
  have one : held (.popping : Thread Packet) = 1 := rfl
  rw [thread, empty] at tokens
  cases told : given s.kill with
  | true => rfl
  | false =>
    simp only [told, length_nil, Bool.toInt_false] at tokens
    omega

theorem pop_inv (thread : s.thread = .popping)
    (quiet : Quiet s) : Inv (packet_dispatch_thread w false s) xs := by
  have packets := inv.packets
  have none := quiet_filter quiet
  have tokens := inv.tokens
  have rep : Represents s.queue xs := by
    obtain ⟨_,rep⟩ | ⟨x,some,_⟩ := packets.holds
    · rw [thread] at rep
      exact rep
    · rw [none] at some
      cases some
  rw [thread] at tokens
  simp only [packet_dispatch_thread, thread]
  cases head : s.queue.head with
  | none =>
    have empty : xs = [] := by
      rw [rep.head] at head
      exact List.head?_eq_none_iff.mp head
    have told := last_unit inv thread empty
    refine ⟨packets_outside packets (by simp [thread, outside]) rfl ?_ ?_ (by simp [thread])
      (by simp),tokens,?_,
      inv.called,inv.killer,inv.quits⟩
    · rw [thread]
      rfl
    · rw [thread]
      rfl
    · intro _
      exact ⟨empty,told⟩
  | some p =>
    refine ⟨packets_go packets (.inl ⟨none,rep⟩) ?_ ?_ ?_ (by simp [thread]) (by simp),tokens,
      ?_,inv.called,
      inv.killer,inv.quits⟩
    · intro q reading
      cases reading
      rw [← rep.head, head]
    · rw [thread]
      rfl
    · rw [thread]
      rfl
    · intro finish
      cases finish

theorem read_inv
    (thread : s.thread = .reading p) : ∃ ys, Inv (packet_dispatch_thread w false s) ys := by
  have packets := inv.packets
  obtain ⟨none,rep⟩ := holds_inside packets.holds (by simp [thread, outside])
  have first := packets.first p thread
  have tokens := inv.tokens
  have log := packets.log
  have drops := packets.drops
  rw [thread] at rep tokens log drops
  simp only [packet_dispatch_thread, thread]
  cases xs with
  | nil => cases first
  | cons q ys => ?_
  cases first
  refine ⟨ys,⟨.inl ⟨none,remove_represents rep⟩,?_,?_,drops,packets.units,?_⟩,?_,?_,inv.called,
    inv.killer,inv.quits⟩
  · intro r reading
    cases reading
  · simpa [hand] using log
  · obtain ⟨empty,_⟩ | ⟨_,asleep⟩ := packets.asleep
    · exact .inl ⟨empty,by simp⟩
    · rw [thread] at asleep
      cases asleep
  · have one : held (.reading p : Thread Packet) = 1 := rfl
    have zero : held (.unlinking p (s.queue.next p) (s.queue.prev p)) = 0 := rfl
    rw [length_cons] at tokens
    simp only
    omega
  · intro finish
    cases finish

theorem unlink_inv (inside : outside s.thread = false)
    (same : finishPop queue t = finishPop s.queue s.thread) (sameHand : hand t = hand s.thread)
    (sameDrop : undropped t = undropped s.thread) (sameHeld : held t = held s.thread)
    (before : s.thread ≠ .waiting) (after : t ≠ .waiting) (other : ∀ p, t ≠ .reading p)
    (going : ended t = false) :
    Inv { s with queue := queue, thread := t } xs := by
  have packets := inv.packets
  obtain ⟨none,rep⟩ := holds_inside packets.holds inside
  rw [← same] at rep
  have moved : Packets { s with queue := queue, thread := t } xs := by
    refine ⟨.inl ⟨none,rep⟩,?_,?_,?_,packets.units,?_⟩
    · intro p reading
      exact absurd reading (other p)
    · simp only [sameHand]
      exact packets.log
    · simp only [sameDrop]
      exact packets.drops
    · obtain ⟨empty,_⟩ | ⟨_,asleep⟩ := packets.asleep
      · exact .inl ⟨empty,after⟩
      · exact absurd asleep before
  refine ⟨moved,?_,?_,inv.called,inv.killer,inv.quits⟩
  · simp only [sameHeld]
    exact inv.tokens
  · intro finish
    rw [going] at finish
    cases finish

theorem pass_inv (thread : s.thread = .passing p ∨ s.thread = .dropping p) :
    Inv (packet_dispatch_thread w false s) xs := by
  have packets := inv.packets
  have holds := packets.holds
  have log := packets.log
  have drops := packets.drops
  have tokens := inv.tokens
  have awake : s.sem.wait = [] := by
    obtain ⟨none,_⟩ | ⟨_,asleep⟩ := packets.asleep
    · exact none
    · simp [asleep] at thread
  obtain passing | dropping := thread
  · rw [Holds, passing] at holds
    rw [passing] at log drops tokens
    simp only [packet_dispatch_thread, passing]
    refine ⟨⟨holds,?_,?_,?_,packets.units,.inl ⟨awake,by simp⟩⟩,tokens,?_,inv.called,
      inv.killer,inv.quits⟩
    · intro q reading
      cases reading
    · simpa [hand] using log
    · simpa [undropped] using drops
    · intro finish
      cases finish
  · rw [Holds, dropping] at holds
    rw [dropping] at log drops tokens
    simp only [packet_dispatch_thread, dropping, refdrop]
    refine ⟨⟨holds,?_,log,?_,packets.units,.inl ⟨awake,by simp⟩⟩,tokens,?_,inv.called,
      inv.killer,inv.quits⟩
    · intro q reading
      cases reading
    · simpa [undropped] using drops
    · intro finish
      cases finish

end

theorem ended_plain (finish : ended t = true) :
    outside t = true ∧ hand t = [] ∧ undropped t = [] ∧ held t = 1 ∧ t ≠ .waiting := by
  cases t with
  | checking | leaving | starting | locking | exited => simp [outside, hand, undropped, held, ended]
  | _ => cases finish

theorem end_inv (inv : Inv s xs)
    (before : ended s.thread = true) (after : ended t = true) (ready : Bool) (refs : Int) :
    Inv { s with thread := t, ready := ready, interface_refs := refs } xs := by
  obtain ⟨out,noHand,noDrop,one,awake⟩ := ended_plain before
  obtain ⟨out',noHand',noDrop',one',awake'⟩ := ended_plain after
  have moved := packets_outside inv.packets out out' (by rw [noHand, noHand'])
    (by rw [noDrop, noDrop']) awake awake'
  refine ⟨⟨moved.holds,moved.first,moved.log,moved.drops,moved.units,moved.asleep⟩,?_,?_,inv.called,
    inv.killer,inv.quits⟩
  · have tokens := inv.tokens
    rw [one] at tokens
    simp only [one']
    exact tokens
  · intro _
    exact inv.empty before

theorem thread_inv (wide : 2 ≤ w) (inv : Inv s xs) (range : Fits w s.sem.count)
    (calm : Calm w s .thread) :
    ∃ ys, Inv (packet_dispatch_thread w false s) ys := by
  obtain ⟨quiet,_⟩ := calm
  cases thread : s.thread with
  | entering =>
    have moved := packets_outside inv.packets (t := .taking) (by simp [thread, outside]) rfl
      (by rw [thread]; rfl)
      (by rw [thread]; rfl) (by simp [thread]) (by simp)
    have tokens := inv.tokens
    rw [thread] at tokens
    simp only [packet_dispatch_thread, thread]
    refine ⟨xs,⟨moved.holds,moved.first,moved.log,moved.drops,moved.units,moved.asleep⟩,tokens,
      ?_,inv.called,
      inv.killer,inv.quits⟩
    intro finish
    cases finish
  | taking => exact ⟨xs,take_inv inv thread (fits_less wide inv.packets.units range)⟩
  | popping => exact ⟨xs,pop_inv inv thread (quiet thread)⟩
  | reading p => exact read_inv inv thread
  | unlinking p next prev | closing p next prev =>
    simp only [packet_dispatch_thread, thread]
    exact ⟨xs,unlink_inv inv (by simp [thread, outside]) (by rw [thread]; rfl) (by rw [thread]; rfl)
      (by rw [thread]; rfl) (by rw [thread]; rfl) (by simp [thread]) (by simp) (by simp) rfl⟩
  | passing p => exact ⟨xs,pass_inv inv (.inl thread)⟩
  | dropping p => exact ⟨xs,pass_inv inv (.inr thread)⟩
  | checking =>
    have finish : ended s.thread = true := by rw [thread]; rfl
    simp only [packet_dispatch_thread, thread]
    rw [if_pos (inv.quits (given_flagged (inv.empty finish).2))]
    exact ⟨xs,end_inv inv finish rfl s.ready s.interface_refs⟩
  | leaving =>
    simp only [packet_dispatch_thread, thread]
    exact ⟨xs,end_inv inv (by rw [thread]; rfl) rfl s.ready (s.interface_refs - 1)⟩
  | starting =>
    simp only [packet_dispatch_thread, thread, Bool.false_eq_true, if_false]
    exact ⟨xs,end_inv inv (by rw [thread]; rfl) rfl s.killer s.interface_refs⟩
  | locking =>
    simp only [packet_dispatch_thread, thread]
    exact ⟨xs,end_inv inv (by rw [thread]; rfl) rfl s.ready s.interface_refs⟩
  | waiting | exited | failed =>
    simp only [packet_dispatch_thread, thread]
    exact ⟨xs,inv⟩

/- The kill. -/

theorem kill_go (inv : Inv s xs) (same : given kill = given s.kill) (called : s.pushes = [])
    (killer must_quit ready : Bool) (refs : Int) (pointer : kill ≠ .idle → killer = true)
    (flag : kill ≠ .idle ∧ kill ≠ .flagging → must_quit = true) :
    Inv { s with
      kill := kill, killer := killer, must_quit := must_quit, ready := ready,
      interface_refs := refs } xs := by
  have packets := inv.packets
  refine ⟨⟨packets.holds,packets.first,packets.log,packets.drops,packets.units,packets.asleep⟩,
    ?_,?_,fun _ => called,pointer,flag⟩
  · simp only [same]
    exact inv.tokens
  · simp only [same]
    exact inv.empty

theorem kill_give_inv (inv : Inv s xs) (kill : s.kill = .giving)
    (fits : Fits w (s.sem.count + 1)) : Inv { give w s with kill := .stopping } xs := by
  obtain ⟨kept,units,finish,sem,thread,done⟩ := give_packets inv.packets fits
  rw [done] at kept units finish ⊢
  refine ⟨⟨kept.holds,kept.first,kept.log,kept.drops,kept.units,kept.asleep⟩,?_,?_,?_,?_,?_⟩
  · have tokens := inv.tokens
    have before : (given Kill.giving).toInt = 0 := rfl
    have after : (given Kill.stopping).toInt = 1 := rfl
    rw [kill] at tokens
    simp only at units ⊢
    omega
  · intro past
    have told := (inv.empty (finish past)).2
    rw [kill] at told
    cases told
  · intro _
    exact inv.called (by simp [kill])
  · intro _
    exact inv.killer (by simp [kill])

  · intro _
    exact inv.quits (by simp [kill])

theorem kill_inv (inv : Inv s xs) (can : enabled s .kill)
    (calm : Calm w s .kill) : Inv (network_dispatch_kill w s) xs := by
  cases kill : s.kill with simp only [network_dispatch_kill, kill]
  | idle =>
    refine kill_go inv (by rw [kill]; rfl)
      (can.2.2.2 kill) true s.must_quit s.ready s.interface_refs (fun _ => rfl) ?_
    intro flagged
    exact absurd rfl flagged.2
  | flagging =>
    exact kill_go inv (by rw [kill]; rfl) (inv.called (by simp [kill])) s.killer true s.ready
      s.interface_refs
      (fun _ => inv.killer (by simp [kill])) (fun _ => rfl)
  | giving => exact kill_give_inv inv kill (calm kill)
  | stopping | freeing =>
    exact kill_go inv (by rw [kill]; rfl) (inv.called (by simp [kill])) s.killer s.must_quit s.ready
      s.interface_refs
      (fun _ => inv.killer (by simp [kill])) (fun _ => inv.quits (by simp [kill]))
  | resumed =>
    exact kill_go inv (by rw [kill]; rfl) (inv.called (by simp [kill])) s.killer s.must_quit s.ready
      (s.interface_refs - 1) (fun _ => inv.killer (by simp [kill]))
        (fun _ => inv.quits (by simp [kill]))
  | stopped => exact absurd kill can.1
  | returned => exact absurd kill can.2.1
  | twice => exact absurd kill can.2.2.1

end

end MutekDispatch
