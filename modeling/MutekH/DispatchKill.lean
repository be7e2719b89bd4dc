import MutekH.DispatchPackets

/-!
The end of the dispatch thread. The thread starts the context of the kill once it has found
the queue empty, and the kill goes on when the thread has left; both always get there.
-/
namespace MutekDispatch
open Function List LibMachine LibFixedWidth LibDoublyLinked MutekSemaphore MutekWaitQueue

section
set_option linter.unusedSectionVars false
variable {Packet : Type} [DecidableEq Packet]

/- The hand-shake. -/

/-- The thread starts the kill when it has stopped, and the kill goes on when the thread has
    left. -/
structure Handshake (s : State Packet) : Prop where
  sane : s.thread ≠ .failed ∧ s.kill ≠ .twice
  ready : s.ready = true → (s.thread = .locking ∨ s.thread = .exited) ∧ s.kill = .stopped
  started : s.thread = .locking ∨ s.thread = .exited → s.ready = true ∨ back s.kill = true
  back : back s.kill = true → s.thread = .exited

variable {s : State Packet}

theorem handshake_created (created : Created s) : Handshake s := by
  refine ⟨?_,?_,?_,?_⟩
  · simp [created.thread, created.kill]
  · simp [created.ready]
  · simp [created.thread]
  · simp [created.kill, back]

theorem handshake_before (shake : Handshake s) (kill : t.kill = s.kill) (ready : t.ready = s.ready)
    (before : s.thread ≠ .locking ∧ s.thread ≠ .exited)
    (after : t.thread ≠ .locking ∧ t.thread ≠ .exited ∧ t.thread ≠ .failed) : Handshake t := by
  have away : back s.kill = true → False := fun past => before.2 (shake.back past)
  refine ⟨⟨after.2.2,by rw [kill]; exact shake.sane.2⟩,?_,?_,?_⟩
  · intro queued
    rw [ready] at queued
    obtain locking | exited := (shake.ready queued).1
    · exact absurd locking before.1
    · exact absurd exited before.2
  · intro started
    obtain locking | exited := started
    · exact absurd locking after.1
    · exact absurd exited after.2.1
  · intro past
    rw [kill] at past
    exact (away past).elim

theorem handshake_same (shake : Handshake s) (thread : t.thread = s.thread)
    (kill : t.kill = s.kill) (ready : t.ready = s.ready) : Handshake t := by
  obtain ⟨sane,queued,started,back⟩ := shake
  rw [← thread, ← kill] at sane back
  rw [← thread, ← kill, ← ready] at queued started
  exact ⟨sane,queued,started,back⟩

variable {w : Nat} {xs : List Packet}

section
variable (shake : Handshake s)
include shake

theorem handshake_give (packets : Packets s xs) (fits : Fits w (s.sem.count + 1)) :
    Handshake (give w s) := by
  obtain ⟨_,given⟩ | ⟨asleep,_,given⟩ := give_cases packets fits
  · rw [given]
    exact handshake_same shake rfl rfl rfl
  · rw [given]
    exact handshake_before shake rfl rfl (by simp [asleep]) (by simp)

theorem handshake_push (packets : Packets s xs) (calm : Calm w s (.push x)) :
    Handshake (pushStep w s x) := by
  cases step : x.step with
  | linking tail | marking =>
    simp only [pushStep, step]
    exact handshake_same shake rfl rfl rfl
  | giving => ?_
  -- the give only reads the semaphore and the thread
  have given := handshake_give shake packets (calm step)
  simp only [pushStep, step]
  exact handshake_same given rfl rfl rfl

theorem handshake_thread (inv : Inv s xs) (can : enabled s .thread) (calm : Calm w s .thread) :
    Handshake (packet_dispatch_thread w false s) := by
  cases thread : s.thread with simp only [packet_dispatch_thread, thread]
  | starting =>
    have stopped := calm.2 thread
    refine ⟨by simp [stopped],fun _ => ⟨.inl rfl,stopped⟩,fun _ => .inl ?_,?_⟩
    · exact inv.killer (by simp [stopped])
    · simp [stopped, back]
  | locking =>
    have started := shake.started (.inl thread)
    refine ⟨⟨by simp,shake.sane.2⟩,?_,fun _ => started,fun _ => rfl⟩
    intro queued
    exact ⟨.inr rfl,(shake.ready queued).2⟩
  | taking | popping | checking =>
    split <;> exact handshake_before shake rfl rfl (by simp [thread]) (by simp)
  | waiting => exact absurd thread can.1
  | exited => exact absurd thread can.2.1
  | failed => exact absurd thread can.2.2
  | entering | reading p | unlinking p next prev | closing p next prev | passing p | dropping p
  | leaving =>
    exact handshake_before shake rfl rfl (by simp [thread]) (by simp)

theorem handshake_kill (running : s.kill ≠ .stopped ∧ back s.kill = false)
    (thread : t.thread = .locking ∨ t.thread = .exited ∨ t.thread = .failed → s.thread = .locking ∨
      s.thread = .exited ∨ s.thread = .failed)
    (ready : t.ready = s.ready) (sane : t.kill ≠ .twice) (before : back t.kill = false) :
    Handshake t := by
  have still : s.ready = false := by
    cases queued : s.ready with
    | false => rfl
    | true => exact absurd (shake.ready queued).2 running.1
  have early : ¬ (s.thread = .locking ∨ s.thread = .exited ∨ s.thread = .failed) := by
    intro late
    have started : s.thread = .locking ∨ s.thread = .exited := by
      obtain locking | exited | failed := late
      · exact .inl locking
      · exact .inr exited
      · exact absurd failed shake.sane.1
    obtain queued | past := shake.started started
    · rw [still] at queued
      cases queued
    · rw [running.2] at past
      cases past
  refine ⟨⟨?_,sane⟩,?_,?_,?_⟩
  · intro failed
    exact early (thread (.inr (.inr failed)))
  · intro queued
    rw [ready, still] at queued
    cases queued
  · intro started
    obtain locking | exited := started
    · exact (early (thread (.inl locking))).elim
    · exact (early (thread (.inr (.inl exited)))).elim
  · intro past
    rw [before] at past
    cases past

theorem handshake_killStep (inv : Inv s xs) (can : enabled s .kill) (calm : Calm w s .kill) :
    Handshake (network_dispatch_kill w s) := by
  cases kill : s.kill with
  | idle | flagging | stopping =>
    simp only [network_dispatch_kill, kill]
    exact handshake_kill shake (by simp [kill, back]) (fun late => late) rfl (by simp) rfl
  | giving =>
    simp only [network_dispatch_kill, kill]
    obtain ⟨_,given⟩ | ⟨asleep,_,given⟩ := give_cases inv.packets (calm kill)
    · rw [given]
      exact handshake_kill shake (by simp [kill, back]) (fun late => late) rfl (by simp) rfl
    · rw [given]
      exact handshake_kill shake (by simp [kill, back]) (by simp) rfl (by simp) rfl
  | resumed | freeing =>
    have exited := shake.back (by rw [kill]; rfl)
    simp only [network_dispatch_kill, kill]
    refine ⟨⟨shake.sane.1,by simp⟩,?_,fun _ => .inr rfl,fun _ => exited⟩
    intro queued
    have stopped := (shake.ready queued).2
    rw [kill] at stopped
    cases stopped
  | stopped => exact absurd kill can.1
  | returned => exact absurd kill can.2.1
  | twice => exact absurd kill can.2.2.1

theorem handshake_elect (queued : s.ready = true) (exited : s.thread = .exited) :
    Handshake (elect s) := by
  have stopped := (shake.ready queued).2
  refine ⟨⟨shake.sane.1,?_⟩,?_,fun _ => .inr ?_,fun _ => exited⟩
  · simp [elect, stopped]
  · simp [elect]
  · simp [elect, stopped, back]

end

theorem elect_inv (inv : Inv s xs) (stopped : s.kill = .stopped) : Inv (elect s) xs := by
  rw [elect, if_pos stopped]
  exact kill_go inv (by rw [stopped]; rfl) (inv.called (by simp [stopped])) s.killer s.must_quit
    false s.interface_refs
    (fun _ => inv.killer (by simp [stopped])) (fun _ => inv.quits (by simp [stopped]))

/- The references. -/

def threadRef : Thread Packet → Int
  | .entering | .starting | .locking | .exited | .failed => 0
  | _ => 1

def killRef : Kill → Int
  | .freeing | .returned => 0
  | _ => 1

structure Accounts (s : State Packet) : Prop where
  packets : ∀ p, s.refs p + s.dropped.count p = 2 * s.pushed.count p
  interface : s.interface_refs = threadRef s.thread + killRef s.kill

section
variable (accounts : Accounts s)
include accounts

theorem accounts_wakeup (p : Packet) : Accounts (dispatch_wakeup (refnew s p) p) := by
  refine ⟨?_,accounts.interface⟩
  intro q
  have before := accounts.packets q
  simp only [dispatch_wakeup, refnew, count_append, update_self, update_idem]
  by_cases same : q = p
  · rw [same] at before ⊢
    rw [update_self, count_singleton_self]
    omega
  · rw [update_of_ne same, count_singleton, if_neg (by simpa using Ne.symm same)]
    exact before

theorem accounts_give
    (packets : Packets s xs) (fits : Fits w (s.sem.count + 1)) : Accounts (give w s) := by
  have interface := accounts.interface
  obtain ⟨_,given⟩ | ⟨asleep,_,given⟩ := give_cases packets fits
  · rw [given]
    exact ⟨accounts.packets,interface⟩
  · rw [given]
    rw [asleep] at interface
    exact ⟨accounts.packets,interface⟩

theorem accounts_thread : Accounts (packet_dispatch_thread w false s) := by
  have packets := accounts.packets
  have interface := accounts.interface
  cases thread : s.thread with simp only [packet_dispatch_thread, thread] at interface ⊢
  | dropping p =>
    refine ⟨?_,interface⟩
    intro q
    have before := packets q
    simp only [refdrop, count_append]
    by_cases same : q = p
    · rw [same] at before ⊢
      rw [update_self, count_singleton_self]
      omega
    · rw [update_of_ne same, count_singleton, if_neg (by simpa using Ne.symm same)]
      exact before
  | taking | popping | checking =>
    split <;> exact ⟨packets,interface⟩
  | entering | leaving =>
    refine ⟨packets,?_⟩
    simp only [threadRef] at interface ⊢
    omega
  | starting =>
    exact ⟨packets,interface⟩
  | reading p | unlinking p next prev | closing p next prev | passing p | locking =>
    exact ⟨packets,interface⟩
  | waiting | exited | failed =>
    exact accounts

theorem accounts_kill (packets : Packets s xs)
    (calm : Calm w s .kill) : Accounts (network_dispatch_kill w s) := by
  have refs := accounts.packets
  have interface := accounts.interface
  cases kill : s.kill with simp only [network_dispatch_kill, kill] at interface ⊢
  | giving =>
    have given := accounts_give accounts packets (calm kill)
    obtain ⟨_,_,_,sem,thread,done⟩ := give_packets packets (calm kill)
    have same := given.interface
    rw [done] at same ⊢
    simp only [kill] at same
    exact ⟨refs,same⟩
  | resumed =>
    refine ⟨refs,?_⟩
    simp only [killRef] at interface ⊢
    omega
  | idle | flagging | stopping | freeing =>
    exact ⟨refs,interface⟩
  | stopped | returned | twice =>
    exact accounts

/- Calm runs. -/

end

structure Good (w : Nat) (s : State Packet) (xs : List Packet) : Prop where
  inv : Inv s xs
  shake : Handshake s
  accounts : Accounts s
  range : Fits w s.sem.count

theorem good_created (created : Created s) : Good w s [] := by
  refine ⟨inv_created created,handshake_created created,⟨?_,?_⟩,?_⟩
  · intro p
    rw [created.refs p, created.dropped, created.pushed]
    rfl
  · rw [created.interface_refs, created.thread, created.kill]
    rfl
  · rw [created.sem]
    exact fits_zero w

theorem range_give (packets : Packets s xs) (fits : Fits w (s.sem.count + 1)) :
    Fits w (give w s).sem.count := by
  obtain ⟨_,given⟩ | ⟨_,_,given⟩ := give_cases packets fits
  · rw [given]
    exact fits
  · rw [given]
    exact fits_zero w

theorem thread_sem (other : s.thread ≠ .taking) :
    (packet_dispatch_thread w false s).sem = s.sem := by
  cases thread : s.thread with simp only [packet_dispatch_thread, thread]
  | taking => exact absurd thread other
  | popping =>
    split <;> rfl
  | _ => rfl

theorem range_thread (wide : 2 ≤ w) (good : Good w s xs) :
    Fits w (packet_dispatch_thread w false s).sem.count := by
  have less := fits_less wide good.inv.packets.units good.range
  by_cases taking : s.thread = .taking
  · simp only [packet_dispatch_thread, taking]
    obtain ⟨_,taken⟩ | ⟨_,taken⟩ := take_one good.inv.packets.units less ()
    · rw [taken]
      exact less
    · rw [taken]
      exact fits_zero w
  · rw [thread_sem taking]
    exact good.range

theorem good_wakeup (good : Good w s xs) (can : CanPush s p)
    (calm : Quiet s ∧ outside s.thread = true) :
    Good w (dispatch_wakeup (refnew s p) p) (xs ++ [p]) :=
  ⟨wakeup_inv good.inv can calm.1 calm.2 _,
    handshake_same good.shake rfl rfl rfl, accounts_wakeup good.accounts p,
    good.range⟩

theorem good_push (good : Good w s xs)
    (member : x ∈ s.pushes) (calm : Calm w s (.push x)) : Good w (pushStep w s x) xs := by
  have kept : Accounts (pushStep w s x) ∧ Fits w (pushStep w s x).sem.count := by
    cases step : x.step with simp only [pushStep, step]
    | linking tail | marking => exact ⟨⟨good.accounts.packets,good.accounts.interface⟩,good.range⟩
    | giving =>
      have given := accounts_give good.accounts good.inv.packets (calm step)
      have range := range_give good.inv.packets (calm step)
      exact ⟨⟨given.packets,given.interface⟩,range⟩
  exact ⟨push_inv good.inv member calm,handshake_push good.shake good.inv.packets calm,
    kept.1,kept.2⟩

theorem kill_sem (other : s.kill ≠ .giving) : (network_dispatch_kill w s).sem = s.sem := by
  cases kill : s.kill with
  | giving => exact absurd kill other
  | _ => simp [network_dispatch_kill, kill]

theorem good_kill (good : Good w s xs) (can : enabled s .kill)
    (calm : Calm w s .kill) : Good w (network_dispatch_kill w s) xs := by
  refine ⟨kill_inv good.inv can calm,handshake_killStep good.shake good.inv can calm,
    accounts_kill good.accounts good.inv.packets calm,?_⟩
  by_cases giving : s.kill = .giving
  · simp only [network_dispatch_kill, giving]
    exact range_give good.inv.packets (calm giving)
  · rw [kill_sem giving]
    exact good.range

theorem good_elect (good : Good w s xs) (ready : s.ready = true)
    (exited : s.thread = .exited) : Good w (elect s) xs := by
  have stopped := (good.shake.ready ready).2
  refine ⟨elect_inv good.inv stopped,handshake_elect good.shake ready exited,
    ⟨good.accounts.packets,?_⟩,good.range⟩
  have interface := good.accounts.interface
  rw [stopped] at interface
  rw [elect, if_pos stopped]
  exact interface

theorem good_next (wide : 2 ≤ w) (good : ∃ xs, Good w s xs) (can : enabled s a)
    (calm : Calm w s a) : ∃ xs, Good w (next w false s a) xs := by
  obtain ⟨xs,good⟩ := good
  cases a with
  | packet p | data p => exact ⟨xs ++ [p],good_wakeup good can calm⟩
  | push x => exact ⟨xs,good_push good can calm⟩
  | thread =>
    obtain ⟨ys,inv⟩ := thread_inv wide good.inv good.range calm
    exact ⟨ys,inv,handshake_thread good.shake good.inv can calm,accounts_thread good.accounts,
      range_thread wide good⟩
  | kill => exact ⟨xs,good_kill good can calm⟩
  | elect => exact ⟨xs,good_elect good can calm⟩

theorem reached_good (wide : 2 ≤ w) (reached : Reached (restrict (machine w false) (Calm w)) s) :
    ∃ xs, Good w s xs := by
  refine reached_invariant (fun s => ∃ xs, Good w s xs)
    (fun _ created => ⟨[],good_created created⟩) ?_ reached
  intro s a good can
  exact good_next wide good can.1 can.2

/- The kill resumes. -/

def threadRank : Thread Packet → Nat
  | .popping => 9
  | .reading _ | .checking => 8
  | .unlinking _ _ _ | .leaving => 7
  | .closing _ _ _ | .starting => 6
  | .passing _ | .locking => 5
  | .dropping _ | .entering => 4
  | .taking => 3
  | .waiting => 2
  | .exited | .failed => 0

def killRank : Kill → Nat
  | .idle => 7
  | .flagging => 6
  | .giving => 5
  | .stopping => 4
  | .stopped => 3
  | .resumed => 2
  | .freeing => 1
  | .returned | .twice => 0

def work (s : State Packet) : Nat :=
  10 * (s.sem.count.toNat + (!given s.kill).toNat) + threadRank s.thread + killRank s.kill

theorem work_thread (wide : 2 ≤ w) (good : Good w s xs)
    (can : enabled s .thread) : work (packet_dispatch_thread w false s) < work s := by
  cases thread : s.thread with
  | taking =>
    simp only [packet_dispatch_thread]
    obtain ⟨some,taken⟩ | ⟨zero,taken⟩ :=
      take_one good.inv.packets.units (fits_less wide good.inv.packets.units good.range) ()
    · rw [taken]
      simp only [work, thread, threadRank]
      omega
    · rw [taken]
      simp only [work, thread, threadRank]
      omega
  | popping | checking =>
    simp only [packet_dispatch_thread, thread]
    split
    · simp only [work, thread, threadRank]
      omega
    · simp only [work, thread, threadRank]
      omega
  | starting =>
    simp only [packet_dispatch_thread, Bool.false_eq_true, if_false]
    simp only [work, thread, threadRank]
    omega
  | waiting => exact absurd thread can.1
  | exited => exact absurd thread can.2.1
  | failed => exact absurd thread can.2.2
  | entering | reading p | unlinking p next prev | closing p next prev | passing p | dropping p
  | leaving | locking =>
    simp only [packet_dispatch_thread, thread, refdrop]
    simp only [work, thread, threadRank]
    omega

theorem work_kill (good : Good w s xs) (called : s.kill ≠ .idle) (can : enabled s .kill)
    (calm : Calm w s .kill) :
    work (network_dispatch_kill w s) < work s := by
  cases kill : s.kill with simp only [network_dispatch_kill]
  | idle => exact absurd kill called
  | giving =>
    obtain ⟨_,done⟩ | ⟨asleep,zero,done⟩ := give_cases good.inv.packets (calm kill)
    · rw [done]
      simp only [work, kill, killRank, given, Bool.not_true, Bool.not_false, Bool.toNat_true,
        Bool.toNat_false]
      omega
    · rw [done]
      simp only [work, kill, killRank, given, threadRank, Bool.not_true, Bool.not_false,
        Bool.toNat_true, Bool.toNat_false]
      omega
  | stopped => exact absurd kill can.1
  | returned => exact absurd kill can.2.1
  | twice => exact absurd kill can.2.2.1
  | flagging | stopping | resumed | freeing =>
    simp only [work, kill, killRank, given]
    omega

theorem work_decreases (wide : 2 ≤ w) (good : Good w s xs) (called : s.kill ≠ .idle)
    (can : enabled s a) (calm : Calm w s a) : work (next w false s a) < work s := by
  cases a with
  | packet p | data p => exact absurd can.1 called
  | push x =>
    rw [enabled, good.inv.called called] at can
    cases can
  | thread => exact work_thread wide good can
  | kill => exact work_kill good called can calm
  | elect =>
    have stopped := (good.shake.ready can).2
    simp only [next, elect, work, stopped, killRank, given, if_true]
    omega

theorem thread_goes (good : Good w s xs) (called : s.kill ≠ .idle)
    (awake : s.thread ≠ .waiting) (inside : s.thread ≠ .exited)
    (early : s.thread = .starting → s.kill = .stopped) : enabled s .thread ∧ Calm w s .thread := by
  refine ⟨⟨awake,inside,good.shake.sane.1⟩,?_,early⟩
  intro popping x member
  rw [good.inv.called called] at member
  cases member

theorem awake_given (good : Good w s xs) (told : given s.kill = true) : s.thread ≠ .waiting := by
  intro waiting
  have tokens := good.inv.tokens
  have none := good.inv.called (given_flagged told).1
  have rest : held (.waiting : Thread Packet) = 0 := rfl
  have zero : s.sem.count = 0 := by
    obtain ⟨_,awake⟩ | ⟨⟨x,some⟩,_⟩ := good.inv.packets.asleep
    · exact absurd waiting awake
    · obtain empty | zero := good.inv.packets.units.waits
      · rw [empty] at some
        cases some
      · exact zero
  rw [told, waiting, none] at tokens
  simp only [Bool.toInt_true, length_nil] at tokens
  omega

theorem giving_goes (wide : 2 ≤ w) (good : Good w s xs) (kill : s.kill = .giving) :
    ∃ a, enabled s a ∧ Calm w s a := by
  by_cases fits : Fits w (s.sem.count + 1)
  · exact ⟨.kill,by simp [enabled, kill],fun _ => fits⟩
  have going : ended s.thread = false := by
    cases finish : ended s.thread with
    | false => rfl
    | true =>
      have told := (good.inv.empty finish).2
      rw [kill] at told
      cases told
  refine ⟨.thread,thread_goes good (by simp [kill]) ?_ ?_ ?_⟩
  · intro waiting
    have one : Fits w ((1 : Nat) : Int) := by
      rw [fits_natCast (by omega)]
      calc 1 < 2 ^ 1 := by decide
        _ ≤ 2 ^ (w - 1) := Nat.pow_le_pow_right (by decide) (by omega)
    obtain ⟨_,awake⟩ | ⟨⟨x,some⟩,_⟩ := good.inv.packets.asleep
    · exact absurd waiting awake
    · obtain empty | zero := good.inv.packets.units.waits
      · rw [empty] at some
        cases some
      · rw [zero] at fits
        exact fits one
  · intro exited
    rw [exited] at going
    cases going
  · intro starting
    rw [starting] at going
    cases going

theorem not_stuck (wide : 2 ≤ w) (good : Good w s xs)
    (called : s.kill ≠ .idle) : s.kill = .returned ∨ ∃ a, enabled s a ∧ Calm w s a := by
  cases kill : s.kill with
  | idle => exact absurd kill called
  | returned => exact .inl rfl
  | twice => exact absurd kill good.shake.sane.2
  | giving => exact .inr (giving_goes wide good kill)
  | stopped =>
    right
    by_cases exited : s.thread = .exited
    · have ready : s.ready = true := by
        obtain ready | past := good.shake.started (.inr exited)
        · exact ready
        · rw [kill] at past
          cases past
      exact ⟨.elect,ready,exited⟩
    · exact ⟨.thread,thread_goes good called (awake_given good (by rw [kill]; rfl)) exited
        (fun _ => kill)⟩
  | flagging | stopping | resumed | freeing =>
    right
    exact ⟨.kill,by simp [enabled, kill],by simp [Calm, kill]⟩

theorem ended_empty (inv : Inv s xs) (finish : ended s.thread = true) :
    s.queue.head = none ∧ s.queue.tail = none ∧ s.passed = s.pushed ∧ s.dropped = s.pushed := by
  have packets := inv.packets
  obtain ⟨empty,told⟩ := inv.empty finish
  obtain ⟨out,noHand,noDrop,_,_⟩ := ended_plain finish
  have none := inv.called (given_flagged told).1
  have rep : Represents s.queue [] := by
    obtain ⟨_,rep⟩ | ⟨x,some,_⟩ := packets.holds
    · rw [outside_pop out, empty] at rep
      exact rep
    · rw [none] at some
      cases some
  have log := packets.log
  have drops := packets.drops
  rw [noHand, empty, append_nil, append_nil] at log
  rw [noDrop, append_nil] at drops
  exact ⟨rep.head,rep.tail,log.symm,(log.trans drops).symm⟩

/-- The thread passes every packet once and in order, drops each of them once, exits when the queue
    is empty, and the kill resumes after that. -/
theorem dispatch_lifecycle {w : Nat} (wide : 2 ≤ w) {s : State Packet}
    (reached : Reached (restrict (machine w false) (Calm w)) s) :
    (∃ rest, s.pushed = s.passed ++ rest) ∧
    (∃ last, s.passed = s.dropped ++ last ∧ last.length ≤ 1) ∧
    (ended s.thread = true →
      s.queue.head = none ∧ s.queue.tail = none ∧ s.passed = s.pushed ∧ s.dropped = s.pushed) ∧
    (back s.kill = true → s.thread = .exited) ∧
    (s.kill ≠ .idle →
      (s.kill = .returned ∨ ∃ a, (restrict (machine w false) (Calm w)).enabled s a) ∧
      ∀ a, (restrict (machine w false) (Calm w)).enabled s a →
        work ((machine w false).next s a) < work s) := by
  obtain ⟨xs,good⟩ := reached_good wide reached
  have packets := good.inv.packets
  refine ⟨⟨hand s.thread ++ xs,?_⟩,⟨undropped s.thread,packets.drops,?_⟩,ended_empty good.inv,
    good.shake.back,?_⟩
  · rw [packets.log, append_assoc]
  · cases s.thread with
    | dropping p => exact Nat.le_refl 1
    | _ => exact Nat.zero_le 1
  · intro called
    exact ⟨not_stuck wide good called,fun a can => work_decreases wide good called can.1 can.2⟩

/-- The queue and the push each take a reference and the thread drops one, so that each push leaves
    one. -/
theorem references_left (wide : 2 ≤ w)
    (reached : Reached (restrict (machine w false) (Calm w)) s) (returned : s.kill = .returned) :
    (∀ p, s.refs p = s.pushed.count p) ∧ s.interface_refs = 0 := by
  obtain ⟨xs,good⟩ := reached_good wide reached
  have exited := good.shake.back (by rw [returned]; rfl)
  obtain ⟨_,_,_,dropped⟩ := ended_empty good.inv (by rw [exited]; rfl)
  refine ⟨?_,?_⟩
  · intro p
    have account := good.accounts.packets p
    rw [dropped] at account
    omega
  · rw [good.accounts.interface, exited, returned]
    rfl

end

def created : State Nat where
  queue := ⟨none, none, fun _ => none, fun _ => none⟩
  sem := semaphore_init 0
  must_quit := false
  killer := false
  pushes := []
  thread := .entering
  kill := .idle
  ready := false
  refs := fun _ => 0
  interface_refs := 1
  pushed := []
  passed := []
  dropped := []

theorem created_start : Created created :=
  ⟨rfl,rfl,rfl,rfl,rfl,rfl,rfl,rfl,rfl,fun _ => rfl,rfl,rfl,rfl,rfl⟩

def inTurn : List (Act Nat) :=
  [.data 1, .push ⟨1, .linking none⟩, .push ⟨1, .marking⟩, .push ⟨1, .giving⟩,
    .thread, .thread, .thread, .thread, .thread, .thread, .thread, .thread, .thread,
    .packet 2, .push ⟨2, .linking none⟩, .push ⟨2, .marking⟩, .push ⟨2, .giving⟩,
    .kill, .kill, .kill, .kill,
    .thread, .thread, .thread, .thread, .thread, .thread, .thread,
    .thread, .thread, .thread, .thread, .thread, .elect, .kill, .kill]

theorem dispatch_lifecycle_two_packets : (after (machine 8 false) created inTurn).kill = .returned ∧
      (after (machine 8 false) created inTurn).passed = [1, 2] ∧
      (after (machine 8 false) created inTurn).thread = .exited := by
  have reached : Reached (restrict (machine 8 false) (Calm 8))
      (after (machine 8 false) created inTurn) :=
    reached_of_allowed (restrict (machine 8 false) (Calm 8)) created inTurn created_start
      (by decide +kernel)
  exact ⟨by decide +kernel,by decide +kernel,
    (dispatch_lifecycle (by decide) reached).2.2.2.1 (by decide +kernel)⟩

theorem references_left_two_packets :
    (after (machine 8 false) created inTurn).refs 1 = [1, 2].count 1 :=
  (references_left (by decide)
    (reached_of_allowed (restrict (machine 8 false) (Calm 8)) created inTurn
    created_start (by decide +kernel)) (by decide +kernel)).1 1

def overlapping : List (Act Nat) :=
  [.data 1, .push ⟨1, .linking none⟩, .push ⟨1, .marking⟩, .push ⟨1, .giving⟩,
    .thread, .thread, .thread, .thread,
    .data 2, .push ⟨2, .linking (some 1)⟩, .push ⟨2, .marking⟩, .push ⟨2, .giving⟩,
    .thread, .thread, .thread, .thread, .thread, .thread, .thread, .thread,
    .kill, .kill, .kill, .kill, .thread, .thread, .thread, .thread, .thread, .elect, .kill, .kill]

def overtaken : List (Act Nat) :=
  [.kill, .kill, .kill, .kill, .thread, .thread, .thread, .thread, .thread, .thread, .elect,
    .kill, .kill]

/-- A packet is lost, and the kill frees the structure while the thread still runs on the stack in
    it. -/
theorem packet_lost_and_stack_freed :
    (∃ s : State Nat, Reached (machine 8 false) s ∧ s.kill = .returned ∧ s.thread = .exited ∧
      s.pushed = [1, 2] ∧ s.passed = [1]) ∧
    ∃ s : State Nat, Reached (machine 8 false) s ∧ s.kill = .returned ∧ s.thread = .locking := by
  refine ⟨⟨after (machine 8 false) created overlapping,
    ?_,by decide +kernel,by decide +kernel,by decide +kernel,
    by decide +kernel⟩,after (machine 8 false) created overtaken,
      ?_,by decide +kernel,by decide +kernel⟩
  · exact reached_of_allowed (machine 8 false) created overlapping created_start (by decide +kernel)
  · exact reached_of_allowed (machine 8 false) created overtaken created_start (by decide +kernel)

end MutekDispatch
