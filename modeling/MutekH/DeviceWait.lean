import MutekH.Lib.Machine
import Mathlib.Algebra.Ring.Int.Defs
import Mathlib.Order.Defs.LinearOrder

/-!
Waiting for a device request. The requester keeps a status record on its stack: a spin
lock, its own context once it is about to stop, and a flag set at the end of the request.
The driver calls the completion callback from inside the request, from an interrupt or on
another processor. The block and the character devices use the same protocol and differ
only in the calls of the callback that end the request and in the value returned.
-/
namespace MutekDeviceWait
open LibMachine

/-- What the driver reports in the request: `struct dev_block_rq_s` or `struct dev_char_rq_s`.
    `whole` tells which of the two callbacks of character devices is used, `asked` is the size at
    first. -/
inductive Rq where
  | block (count : Nat) (progress : Int)
  | char (whole : Bool) (asked size : Nat) (error : Int)
  deriving DecidableEq

def dev_block_sync_request (count : Nat) (progress : Int) : Bool := progress < 0 || count ≤ progress

def dev_char_wait_request_cb : Bool := true

def dev_char_wait_request_whole_cb (size : Nat) (error : Int) : Bool := size == 0 || error != 0

def completes : Rq → Bool
  | .block count progress => dev_block_sync_request count progress
  | .char false _ _ _ => dev_char_wait_request_cb
  | .char true _ size error => dev_char_wait_request_whole_cb size error

def value : Rq → Int
  | .block _ progress => min progress 0
  | .char _ asked size error => if error ≠ 0 then -error else asked - size

def Reports : Rq → Rq → Prop
  | .block count _, .block count' _ => count = count'
  | .char whole asked _ _, .char whole' asked' _ _ => whole = whole' ∧ asked = asked'
  | _, _ => False

instance (rq report : Rq) : Decidable (Reports rq report) :=
  match rq, report with
  | .block count _, .block count' _ => inferInstanceAs (Decidable (count = count'))
  | .char _ _ _ _, .char _ _ _ _ => instDecidableAnd
  | .block _ _, .char _ _ _ _ => isFalse id
  | .char _ _ _ _, .block _ _ => isFalse id

inductive Place where
  | inRequest
  | masking
  | locking
  | testing
  | stopping
  | unlocking
  | switching
  | stopped
  | elected
  | releasing
  | restoring
  | destroying
  | returned
  deriving DecidableEq

inductive Call where
  | waiting
  | locking
  | testing
  | starting
  | pushing
  | marking
  | releasing
  | finished
  deriving DecidableEq

inductive Party where
  | requester
  | callback
  deriving DecidableEq

/-- The status record (`lock`, `ctx`, `done`), the lock of the run queue of the requester's
    scheduler, and whether the requester is in that queue. `cpu` is the processor of the requester,
    `irqs` tells whether it was called with interrupts enabled, `callCpu` is the processor of the
    callback. The places at which the requester has been started, and a use of the record by the
    callback after the return, are history. -/
structure Sync (Cpu : Type) where
  rq : Rq
  place : Place
  cpu : Cpu
  irqs : Bool
  call : Call
  callCpu : Cpu
  lock : Option Party
  ctx : Bool
  done : Bool
  root : Option Party
  queued : Bool
  starts : List Place
  late : Bool
  result : Option Int

section
set_option linter.unusedSectionVars false
variable {Cpu : Type} [DecidableEq Cpu]

def running : Call → Bool
  | .waiting => false
  | .finished => false
  | _ => true

def Busy (s : Sync Cpu) (q : Cpu) : Prop := running s.call = true ∧ s.callCpu = q

instance (s : Sync Cpu) (q : Cpu) : Decidable (Busy s q) := instDecidableAnd

/-- A step of `dev_block_wait_request` or `dev_char_wait_request`, in `sched_context_stop_unlock`
    from `stopping` to `elected`. A lock that is not free is waited for. -/
def requesterStep (s : Sync Cpu) : Option (Sync Cpu) :=
  match s.place with
  | .inRequest => some { s with place := .masking }
  | .masking => some { s with place := .locking }
  | .locking =>
    if s.lock = none then some { s with lock := some .requester, place := .testing } else none
  | .testing =>
    if s.done then some { s with place := .releasing }
      else some { s with ctx := true, place := .stopping }
  | .stopping =>
    if s.root = none then some { s with root := some .requester, place := .unlocking } else none
  | .unlocking => some { s with lock := none, place := .switching }
  -- the context switched to releases the scheduler lock
  | .switching => some { s with root := none, place := .stopped }
  | .stopped => none
  | .elected => some { s with root := none, place := .restoring }
  | .releasing => some { s with lock := none, place := .restoring }
  | .restoring => some { s with place := .destroying }
  | .destroying => some { s with place := .returned, result := some (value s.rq) }
  | .returned => none

def touch (s : Sync Cpu) : Sync Cpu := { s with late := s.late || s.place == .returned }

/-- A step of the callback, in `sched_context_start` from `starting` to `marking`. -/
def callbackStep (s : Sync Cpu) : Option (Sync Cpu) :=
  match s.call with
  | .waiting => none
  | .locking =>
    if s.lock = none then some { touch s with lock := some .callback, call := .testing } else none
  | .testing =>
    if s.ctx then some { touch s with call := .starting }
    else some { touch s with call := .marking }
  | .starting =>
    if s.root = none then some { s with root := some .callback, call := .pushing } else none
  | .pushing =>
    some { s with root := none, queued := true, starts := s.place :: s.starts, call := .marking }
  | .marking => some { touch s with done := true, call := .releasing }
  | .releasing => some { touch s with lock := none, call := .finished }
  | .finished => none

def invoke (s : Sync Cpu) (q : Cpu) (report : Rq) : Sync Cpu :=
  if completes report then { s with rq := report, call := .locking, callCpu := q }
    else { s with rq := report }

def elect (s : Sync Cpu) (q : Cpu) : Sync Cpu :=
  { s with queued := false, root := some .requester, place := .elected, cpu := q }

def Open (s : Sync Cpu) : Prop :=
  s.place = .inRequest ∨ (s.place = .masking ∧ s.irqs = true) ∨ s.place = .stopped

instance (s : Sync Cpu) : Decidable (Open s) := instDecidableOr

inductive Act (Cpu : Type) where
  | requester
  | callback
  | invoke (q : Cpu) (report : Rq)
  | elect (q : Cpu)

def machine : Machine (Sync Cpu) (Act Cpu) where
  start s := s.place = .inRequest ∧ s.call = .waiting ∧ s.lock = none ∧ s.ctx = false ∧
    s.done = false ∧
    s.root = none ∧ s.queued = false ∧ s.starts = [] ∧ s.late = false ∧ s.result = none
  enabled s a :=
    match a with
    | .requester => ¬ Busy s s.cpu ∧ requesterStep s ≠ none
    | .callback => callbackStep s ≠ none
    | .invoke q report => s.call = .waiting ∧ Reports s.rq report ∧ (q = s.cpu → Open s)
    | .elect q => s.place = .stopped ∧ s.queued = true ∧ s.root = none ∧ ¬ Busy s q
  next s a :=
    match a with
    | .requester => (requesterStep s).getD s
    | .callback => (callbackStep s).getD s
    | .invoke q report => invoke s q report
    | .elect q => elect s q

instance (s : Sync Cpu) (a : Act Cpu) : Decidable (machine.enabled s a) :=
  match a with
  | .requester => inferInstanceAs (Decidable (¬ Busy s s.cpu ∧ ¬ requesterStep s = none))
  | .callback => inferInstanceAs (Decidable (¬ callbackStep s = none))
  | .invoke _ _ => instDecidableAnd
  | .elect _ => instDecidableAnd

/- What holds in every run. -/

def holdsLock : Place → Bool
  | .testing | .stopping | .unlocking | .releasing => true
  | _ => false

def holdsRoot : Place → Bool
  | .unlocking | .switching | .elected => true
  | _ => false

def callHoldsLock : Call → Bool
  | .testing | .starting | .pushing | .marking | .releasing => true
  | _ => false

def callHoldsRoot : Call → Bool
  | .pushing => true
  | _ => false

def owner (requester callback : Bool) : Option Party :=
  if requester then some .requester else if callback then some .callback else none

@[simp] theorem owner_none (requester callback : Bool) :
    owner requester callback = none ↔ requester = false ∧ callback = false := by
  cases requester <;> cases callback <;> simp [owner]

theorem excludes {a b : Bool} (once : a = true → b = false) : b = true → a = false := by
  cases a with
  | false => intro _; rfl
  | true => simp [once]

def early : Place → Bool
  | .inRequest | .masking | .locking => true
  | _ => false

def waits : Place → Bool
  | .stopping | .unlocking | .switching | .stopped => true
  | _ => false

def back : Place → Bool
  | .elected | .restoring | .destroying | .returned => true
  | _ => false

def noticed : Place → Bool
  | .testing | .releasing | .restoring | .destroying | .returned => true
  | _ => false

def unseen : Call → Bool
  | .waiting | .locking | .testing => true
  | _ => false

def past : Call → Bool
  | .marking | .releasing | .finished => true
  | _ => false

/-- How far the two are, with the context, the flag, the queue and the starts. -/
inductive Story : Place → Call → Bool → Bool → Bool → List Place → Prop where
  | apart {place : Place} {call : Call} (soon : early place = true ∨
      place = .testing) (before : unseen call = true) :
      Story place call false false false []
  | waiting {place : Place} {call : Call} (sleeping : waits place = true)
      (before : unseen call = true ∨ call = .starting) : Story place call true false false []
  | pushing : Story .stopped .pushing true false false []
  | marking {place : Place} (soon : early place = true) : Story place .marking false false false []
  | releasing {place : Place} (soon : early place = true) :
      Story place .releasing false true false []
  | ended {place : Place} (awake : early place = true ∨ noticed place = true) :
      Story place .finished false true false []
  | started {call : Call} (after : past call = true) :
      Story .stopped call true (call != .marking) true [.stopped]
  | resumed {place : Place} {call : Call} (awake : back place = true) (after : past call = true) :
      Story place call true (call != .marking) false [.stopped]

structure Inv (s : Sync Cpu) : Prop where
  lock : s.lock = owner (holdsLock s.place) (callHoldsLock s.call)
  root : s.root = owner (holdsRoot s.place) (callHoldsRoot s.call)
  lockOnce : holdsLock s.place = true → callHoldsLock s.call = false
  rootOnce : holdsRoot s.place = true → callHoldsRoot s.call = false
  story : Story s.place s.call s.ctx s.done s.queued s.starts
  reported : s.call ≠ .waiting → completes s.rq = true
  nested : Busy s s.cpu → early s.place = true ∨ s.place = .stopped

def follow (done : Bool) : Place → Place
  | .inRequest => .masking
  | .masking => .locking
  | .locking => .testing
  | .testing => if done then .releasing else .stopping
  | .stopping => .unlocking
  | .unlocking => .switching
  | .switching => .stopped
  | .stopped => .stopped
  | .elected => .restoring
  | .releasing => .restoring
  | .restoring => .destroying
  | .destroying => .returned
  | .returned => .returned

structure Followed (s t : Sync Cpu) : Prop where
  moving : s.place ≠ .stopped ∧ s.place ≠ .returned
  free : s.place = .locking → s.lock = none
  freeRoot : s.place = .stopping → s.root = none
  place : t.place = follow s.done s.place
  ctx : t.ctx = (s.ctx || (s.place == .testing && !s.done))
  lock : t.lock = if s.place = .locking then some .requester
    else if s.place = .unlocking ∨ s.place = .releasing then none else s.lock
  root : t.root = if s.place = .stopping then some .requester
    else if s.place = .switching ∨ s.place = .elected then none else s.root
  result : t.result = if s.place = .destroying then some (value s.rq) else s.result
  call : t.call = s.call
  done : t.done = s.done
  queue : t.queued = s.queued ∧ t.starts = s.starts
  rq : t.rq = s.rq
  late : t.late = s.late
  cpus : t.cpu = s.cpu ∧ t.callCpu = s.callCpu

variable {s t : Sync Cpu}

theorem requester_follows (step : requesterStep s = some t) : Followed s t := by
  cases place : s.place <;> simp only [requesterStep, place] at step
  case locking | stopping =>
    split at step
    · rename_i free
      cases step
      constructor <;> simp [place, follow, free]
    · cases step
  case testing =>
    cases done : s.done <;> simp only [done] at step <;> cases step
    all_goals constructor <;> simp [place, follow, done]
  all_goals
    cases step
    try constructor <;> simp [place, follow]

theorem requester_next (can : machine.enabled s (.requester : Act Cpu)) :
    Followed s (machine.next s (.requester : Act Cpu)) := by
  obtain ⟨t,step⟩ := Option.ne_none_iff_exists'.mp can.2
  have next : machine.next s (.requester : Act Cpu) = t := by simp [machine, step]
  rw [next]
  exact requester_follows step

variable {place : Place} {call : Call} {ctx done queued : Bool} {starts : List Place}

theorem story_follow (story : Story place call ctx done queued starts)
    (moving : place ≠ .stopped ∧ place ≠ .returned)
    (free : place = .locking → callHoldsLock call = false) :
    Story (follow done place) call (ctx || (place == .testing && !done)) done queued starts := by
  cases story with
  | apart soon before =>
    cases place <;> simp [early] at soon
    · exact .apart (.inl rfl) before
    · exact .apart (.inl rfl) before
    · exact .apart (.inr rfl) before
    · exact .waiting rfl (.inl before)
  | waiting sleeping before =>
    cases place <;> simp [waits] at sleeping moving
    all_goals exact .waiting rfl before
  | pushing | started after => exact absurd rfl moving.1
  | marking soon =>
    cases place <;> simp [early] at soon
    · exact .marking rfl
    · exact .marking rfl
    · exact absurd (free rfl) (by decide)
  | releasing soon =>
    cases place <;> simp [early] at soon
    · exact .releasing rfl
    · exact .releasing rfl
    · exact absurd (free rfl) (by decide)
  | ended awake =>
    cases place <;> simp [early, noticed] at awake moving
    · exact .ended (.inl rfl)
    · exact .ended (.inl rfl)
    all_goals exact .ended (.inr rfl)
  | resumed awake after =>
    cases place <;> simp [back] at awake moving
    all_goals exact .resumed rfl after

def answer (ctx : Bool) : Call → Call
  | .waiting => .waiting
  | .locking => .testing
  | .testing => if ctx then .starting else .marking
  | .starting => .pushing
  | .pushing => .marking
  | .marking => .releasing
  | .releasing => .finished
  | .finished => .finished

def uses : Call → Bool
  | .locking | .testing | .marking | .releasing => true
  | _ => false

structure Answered (s t : Sync Cpu) : Prop where
  running : running s.call = true
  free : s.call = .locking → s.lock = none
  freeRoot : s.call = .starting → s.root = none
  call : t.call = answer s.ctx s.call
  lock : t.lock = if s.call = .locking then some .callback
    else if s.call = .releasing then none else s.lock
  root : t.root = if s.call = .starting then some .callback
    else if s.call = .pushing then none else s.root
  done : t.done = (s.done || s.call == .marking)
  queued : t.queued = (s.queued || s.call == .pushing)
  starts : t.starts = if s.call = .pushing then s.place :: s.starts else s.starts
  late : t.late = (s.late || (uses s.call && s.place == .returned))
  place : t.place = s.place
  ctx : t.ctx = s.ctx
  rq : t.rq = s.rq
  result : t.result = s.result
  cpus : t.cpu = s.cpu ∧ t.callCpu = s.callCpu

theorem callback_answers (step : callbackStep s = some t) : Answered s t := by
  cases call : s.call <;> simp only [callbackStep, call] at step
  case locking | starting =>
    split at step
    · rename_i free
      cases step
      constructor <;> simp [call, running, answer, uses, touch, free]
    · cases step
  case testing =>
    cases ctx : s.ctx <;> simp only [ctx] at step <;> cases step
    all_goals constructor <;> simp [call, running, answer, uses, touch, ctx]
  all_goals
    cases step
    try constructor <;> simp [call, running, answer, uses, touch]

theorem callback_next (can : machine.enabled s (.callback : Act Cpu)) :
    Answered s (machine.next s (.callback : Act Cpu)) := by
  obtain ⟨t,step⟩ := Option.ne_none_iff_exists'.mp can
  have next : machine.next s (.callback : Act Cpu) = t := by simp [machine, step]
  rw [next]
  exact callback_answers step

theorem story_answer (story : Story place call ctx done queued starts) (going : running call = true)
    (once : callHoldsLock call = true → holdsLock place = false)
    (freeRoot : call = .starting → holdsRoot place = false) :
    Story place (answer ctx call) ctx (done || call == .marking) (queued || call == .pushing)
      (if call = .pushing then place :: starts else starts) := by
  cases story with
  | apart soon before =>
    cases call <;> simp [unseen, running] at before going
    · exact .apart soon rfl
    · have unlocked := once rfl
      obtain soon | inside := soon
      · exact .marking soon
      · rw [inside] at unlocked
        exact absurd unlocked (by decide)
  | waiting sleeping before =>
    cases call <;> simp [unseen, running] at before going
    · exact .waiting sleeping (.inl rfl)
    · exact .waiting sleeping (.inr rfl)
    · have unlocked := once rfl
      have free := freeRoot rfl
      cases place <;> simp [waits, holdsLock, holdsRoot] at sleeping unlocked free
      exact .pushing
  | pushing => exact .started rfl
  | marking soon => exact .releasing soon
  | releasing soon => exact .ended (.inl soon)
  | ended awake => exact absurd going (by decide)
  | started after =>
    cases call <;> simp [past, running] at after going
    · exact .started rfl
    · exact .started rfl
  | resumed awake after =>
    cases call <;> simp [past, running] at after going
    · exact .resumed awake rfl
    · exact .resumed awake rfl

theorem lock_follow (place : Place) (done inside : Bool) (free : place = .locking → inside = false)
    (once : holdsLock place = true → inside = false) :
    (if place = .locking then some .requester
      else if place = .unlocking ∨ place = .releasing then none
        else owner (holdsLock place) inside) =
      owner (holdsLock (follow done place)) inside ∧
    (holdsLock (follow done place) = true → inside = false) := by
  cases place <;> simp [holdsLock, follow, owner] at free once ⊢
  case locking => exact free
  case testing => cases done <;> simp [once]
  all_goals exact once

theorem root_follow (place : Place) (done pushing : Bool)
    (free : place = .stopping → pushing = false) (once : holdsRoot place = true → pushing = false) :
    (if place = .stopping then some .requester
      else if place = .switching ∨ place = .elected then none
        else owner (holdsRoot place) pushing) =
      owner (holdsRoot (follow done place)) pushing ∧
    (holdsRoot (follow done place) = true → pushing = false) := by
  cases place <;> simp [holdsRoot, follow, owner] at free once ⊢
  case testing => cases done <;> simp
  all_goals first | exact free | exact once

theorem lock_answer (call : Call) (ctx inside : Bool) (free : call = .locking → inside = false)
    (once : callHoldsLock call = true → inside = false) :
    (if call = .locking then some .callback
      else if call = .releasing then none else owner inside (callHoldsLock call)) =
      owner inside (callHoldsLock (answer ctx call)) ∧
    (callHoldsLock (answer ctx call) = true → inside = false) := by
  cases call <;> simp [callHoldsLock, answer, owner] at free once ⊢
  case testing => cases ctx <;> simp [once]
  all_goals first | exact once | simp [free]

theorem root_answer (call : Call) (ctx inside : Bool) (free : call = .starting → inside = false)
    (once : callHoldsRoot call = true → inside = false) :
    (if call = .starting then some .callback
      else if call = .pushing then none else owner inside (callHoldsRoot call)) =
      owner inside (callHoldsRoot (answer ctx call)) ∧
    (callHoldsRoot (answer ctx call) = true → inside = false) := by
  cases call <;> simp [callHoldsRoot, answer, owner] at free once ⊢
  case testing => cases ctx <;> simp
  all_goals first | exact once | simp [free]

theorem inv_start (start : machine.start s) : Inv s := by
  obtain ⟨place,call,lock,ctx,done,root,queued,starts,_,_⟩ := start
  constructor
  · rw [lock, place, call]; rfl
  · rw [root, place, call]; rfl
  · rw [call]; intro _; rfl
  · rw [call]; intro _; rfl
  · rw [place, call, ctx, done, queued, starts]
    exact .apart (.inl rfl) rfl
  · intro called
    exact absurd call called
  · intro _
    rw [place]
    exact .inl rfl

theorem requester_inv (inv : Inv s) (followed : Followed s t) (idle : ¬ Busy s s.cpu) : Inv t := by
  have free : s.place = .locking → callHoldsLock s.call = false := by
    intro place
    have free := followed.free place
    rw [inv.lock, owner_none] at free
    exact free.2
  have freeRoot : s.place = .stopping → callHoldsRoot s.call = false := by
    intro place
    have free := followed.freeRoot place
    rw [inv.root, owner_none] at free
    exact free.2
  obtain ⟨lock,lockOnce⟩ := lock_follow s.place s.done _ free inv.lockOnce
  obtain ⟨root,rootOnce⟩ := root_follow s.place s.done _ freeRoot inv.rootOnce
  constructor
  · rw [followed.lock, followed.place, followed.call, ← lock, inv.lock]
  · rw [followed.root, followed.place, followed.call, ← root, inv.root]
  · rw [followed.place, followed.call]
    exact lockOnce
  · rw [followed.place, followed.call]
    exact rootOnce
  · rw [followed.place, followed.call, followed.ctx, followed.done, followed.queue.1,
      followed.queue.2]
    exact story_follow inv.story followed.moving free
  · rw [followed.call, followed.rq]
    exact inv.reported
  · intro busy
    rw [Busy, followed.call, followed.cpus.1, followed.cpus.2] at busy
    exact absurd busy idle

theorem callback_inv (inv : Inv s) (answered : Answered s t) : Inv t := by
  have free : s.call = .locking → holdsLock s.place = false := by
    intro call
    have free := answered.free call
    rw [inv.lock, owner_none] at free
    exact free.1
  have freeRoot : s.call = .starting → holdsRoot s.place = false := by
    intro call
    have free := answered.freeRoot call
    rw [inv.root, owner_none] at free
    exact free.1
  have lockOnce := excludes inv.lockOnce
  obtain ⟨lock,lockNext⟩ := lock_answer s.call s.ctx _ free lockOnce
  obtain ⟨root,rootNext⟩ := root_answer s.call s.ctx _ freeRoot (excludes inv.rootOnce)
  constructor
  · rw [answered.lock, answered.place, answered.call, ← lock, inv.lock]
  · rw [answered.root, answered.place, answered.call, ← root, inv.root]
  · rw [answered.place, answered.call]
    exact excludes lockNext
  · rw [answered.place, answered.call]
    exact excludes rootNext
  · rw [answered.place, answered.call, answered.ctx, answered.done, answered.queued,
      answered.starts]
    exact story_answer inv.story answered.running lockOnce freeRoot
  · intro _
    rw [answered.rq]
    apply inv.reported
    intro waiting
    have going := answered.running
    rw [waiting] at going
    exact absurd going (by decide)
  · intro busy
    rw [answered.place]
    apply inv.nested
    rw [Busy, answered.cpus.1, answered.cpus.2] at busy
    exact ⟨answered.running,busy.2⟩

theorem story_invoke (story : Story place .waiting ctx done queued starts) :
    Story place .locking ctx done queued starts := by
  cases story with
  | apart soon before => exact .apart soon rfl
  | waiting sleeping before => exact .waiting sleeping (.inl rfl)
  | started after | resumed awake after => exact absurd after (by decide)

theorem invoke_inv (inv : Inv s) (waiting : s.call = .waiting)
    (may : q = s.cpu → Open s) : Inv (invoke s q report) := by
  rw [invoke]
  split
  next final =>
    obtain ⟨lock,root,lockOnce,rootOnce,story,_,_⟩ := inv
    rw [waiting] at lock root story
    constructor
    · exact lock
    · exact root
    · intro _; rfl
    · intro _; rfl
    · exact story_invoke story
    · intro _
      exact final
    · intro busy
      obtain called | ⟨between,_⟩ | asleep := may busy.2
      · exact .inl (by simp only [called]; rfl)
      · exact .inl (by simp only [between]; rfl)
      · exact .inr asleep
  next =>
    exact ⟨inv.lock,inv.root,inv.lockOnce,inv.rootOnce,inv.story,
      fun called => absurd waiting called,
      inv.nested⟩

theorem story_elect (story : Story .stopped call ctx done true starts) :
    Story .elected call ctx done false starts ∧ past call = true := by
  cases story with
  | started after => exact ⟨.resumed rfl after,after⟩

theorem elect_inv (inv : Inv s) (stopped : s.place = .stopped) (queued : s.queued = true)
    (free : s.root = none) (idle : ¬ Busy s q) : Inv (elect s q) := by
  obtain ⟨lock,root,lockOnce,rootOnce,story,reported,_⟩ := inv
  rw [stopped, queued] at story
  rw [stopped] at lock
  constructor
  · exact lock
  · rfl
  · intro held
    cases held
  · intro _
    rw [root, owner_none] at free
    exact free.2
  · exact (story_elect story).1
  · exact reported
  · intro busy
    exact absurd busy idle

variable {a : Act Cpu}

theorem step_inv (inv : Inv s) (can : machine.enabled s a) : Inv (machine.next s a) := by
  cases a with
  | requester => exact requester_inv inv (requester_next can) can.1
  | callback => exact callback_inv inv (callback_next can)
  | invoke q report => exact invoke_inv inv can.1 can.2.2
  | elect q => exact elect_inv inv can.1 can.2.1 can.2.2.1 can.2.2.2

/- The requester gets on. -/

def left : Place → Nat
  | .inRequest => 11
  | .masking => 10
  | .locking => 9
  | .testing => 8
  | .stopping => 7
  | .unlocking => 6
  | .switching => 5
  | .stopped => 4
  | .elected => 3
  | .releasing => 3
  | .restoring => 2
  | .destroying => 1
  | .returned => 0

def callLeft : Call → Nat
  | .waiting => 7
  | .locking => 6
  | .testing => 5
  | .starting => 4
  | .pushing => 3
  | .marking => 2
  | .releasing => 1
  | .finished => 0

def work (s : Sync Cpu) : Nat := left s.place + callLeft s.call

theorem left_follow (done : Bool) (moving : place ≠ .stopped ∧ place ≠ .returned) :
    left (follow done place) < left place := by
  cases place <;> simp [left, follow] at moving ⊢
  cases done <;> decide

theorem left_answer (ctx : Bool) (going : running call = true) :
    callLeft (answer ctx call) < callLeft call := by
  cases call <;> simp [callLeft, answer, running] at going ⊢
  cases ctx <;> decide

def Interim (a : Act Cpu) : Prop :=
  match a with
  | .invoke _ report => completes report = false
  | _ => False

theorem work_decreases (can : machine.enabled s a) (final : ¬ Interim a) :
    work (machine.next s a) < work s := by
  cases a with
  | requester =>
    have followed := requester_next can
    have nearer := left_follow s.done followed.moving
    rw [work, work, followed.place, followed.call]
    omega
  | callback =>
    have answered := callback_next can
    have nearer := left_answer s.ctx answered.running
    rw [work, work, answered.place, answered.call]
    omega
  | invoke q report =>
    have done : completes report = true := by simpa [Interim] using final
    have called : machine.next s (.invoke q report) =
        { s with rq := report, call := .locking, callCpu := q } :=
      if_pos done
    have nearer : callLeft .locking < callLeft s.call := by
      rw [can.1]
      decide
    rw [called]
    exact Nat.add_lt_add_left nearer _
  | elect q =>
    change left .elected + callLeft s.call < left s.place + callLeft s.call
    rw [can.1]
    exact Nat.add_lt_add_right (by decide) _

theorem requester_blocked (blocked : requesterStep s = none) :
    s.place = .stopped ∨ s.place = .returned ∨ (s.place = .locking ∧ s.lock ≠ none) ∨
      (s.place = .stopping ∧ s.root ≠ none) := by
  cases place : s.place <;> simp [requesterStep, place] at blocked ⊢
  · exact blocked
  · split at blocked <;> cases blocked
  · exact blocked

theorem callback_blocked (blocked : callbackStep s = none) (going : running s.call = true) :
    (s.call = .locking ∧ s.lock ≠ none) ∨ (s.call = .starting ∧ s.root ≠ none) := by
  cases call : s.call <;> simp [callbackStep, running, call] at blocked going ⊢
  · exact blocked
  · split at blocked <;> cases blocked
  · exact blocked

def lastReport : Rq → Rq
  | .block count _ => .block count count
  | .char whole asked _ error => .char whole asked 0 error

theorem lastReport_reports (rq : Rq) :
    Reports rq (lastReport rq) ∧ completes (lastReport rq) = true := by
  cases rq with
  | block count progress => simp [Reports, lastReport, completes, dev_block_sync_request]
  | char whole asked size error =>
    cases whole <;> simp [Reports, lastReport, completes, dev_char_wait_request_cb,
      dev_char_wait_request_whole_cb]

theorem story_stopped (story : Story .stopped call ctx done queued starts)
    (finished : call = .finished) :
    queued = true := by
  cases story with
  | apart soon before => simp [early] at soon
  | waiting sleeping before => simp [finished, unseen] at before
  | pushing => cases finished
  | marking soon | releasing soon => cases soon
  | ended awake => simp [early, noticed] at awake
  | started after => rfl
  | resumed awake after => cases awake

theorem holder_goes_on (inv : Inv s) (holds : holdsLock s.place = true ∨ holdsRoot s.place = true)
    (quiet : callHoldsRoot s.call = false) : machine.enabled s (.requester : Act Cpu) := by
  refine ⟨?_,?_⟩
  · intro busy
    have nested := inv.nested busy
    cases place : s.place <;> simp [place, early, holdsLock, holdsRoot] at nested holds
  intro blocked
  have root := inv.root
  obtain stopped | returned | ⟨locking,_⟩ | ⟨stopping,held⟩ := requester_blocked blocked
  · simp [stopped, holdsLock, holdsRoot] at holds
  · simp [returned, holdsLock, holdsRoot] at holds
  · simp [locking, holdsLock, holdsRoot] at holds
  · apply held
    rw [root, owner_none, stopping]
    exact ⟨rfl,quiet⟩

theorem not_stuck (inv : Inv s) (inside : s.place ≠ .returned) :
    ∃ a, machine.enabled s a ∧ ¬ Interim a := by
  have lock := inv.lock
  have root := inv.root
  cases going : running s.call with
  | true =>
    by_cases blocked : callbackStep s = none
    · refine ⟨.requester,?_,id⟩
      obtain ⟨locking,held⟩ | ⟨starting,held⟩ := callback_blocked blocked going
      · apply holder_goes_on inv
        · left
          cases has : holdsLock s.place with
          | true => rfl
          | false => exact absurd (by rw [lock, has, locking]; rfl) held
        · rw [locking]
          rfl
      apply holder_goes_on inv
      · right
        cases has : holdsRoot s.place with
        | true => rfl
        | false => exact absurd (by rw [root, has, starting]; rfl) held
      · rw [starting]
        rfl
    · exact ⟨.callback,blocked,id⟩
  | false =>
    have idle : ∀ q, ¬ Busy s q := fun q busy => absurd busy.1 (by simp [going])
    have outside : callHoldsLock s.call = false ∧ callHoldsRoot s.call = false := by
      cases call : s.call <;> simp [call, running] at going <;> exact ⟨rfl,rfl⟩
    rw [outside.1] at lock
    rw [outside.2] at root
    by_cases blocked : requesterStep s = none
    · obtain stopped | returned | ⟨locking,held⟩ | ⟨stopping,held⟩ := requester_blocked blocked
      · cases call : s.call <;> simp [call, running] at going
        · obtain ⟨reports,completes⟩ := lastReport_reports s.rq
          exact ⟨.invoke s.cpu (lastReport s.rq),
            ⟨call,reports,fun _ => .inr (.inr stopped)⟩,by simp [Interim, completes]⟩
        · have story := inv.story
          rw [stopped] at story root
          exact ⟨.elect s.cpu,⟨stopped,story_stopped story call,root,idle s.cpu⟩,id⟩
      · exact absurd returned inside
      · rw [locking] at lock
        exact absurd lock held
      · rw [stopping] at root
        exact absurd root held
    · exact ⟨.requester,⟨idle s.cpu,blocked⟩,id⟩

/- The end of the wait. -/

def away : Place → Bool
  | .elected | .releasing | .restoring | .destroying | .returned => true
  | _ => false

theorem story_away (story : Story place call ctx done queued starts) (gone : away place = true) :
    call ≠ .waiting := by
  intro waiting
  cases story with
  | apart soon before => cases place <;> simp [early, away] at soon gone
  | waiting sleeping before => cases place <;> simp [waits, away] at sleeping gone
  | pushing | started after => cases gone
  | marking soon | releasing soon | ended awake => cases waiting
  | resumed awake after => rw [waiting] at after; cases after

theorem story_starts (story : Story place call ctx done queued starts) :
    starts = [] ∨ starts = [.stopped] := by
  cases story with
  | started after | resumed awake after => exact .inr rfl
  | _ => exact .inl rfl

theorem reached_result (reached : Reached machine s) :
    s.place = .returned → s.result = some (value s.rq) := by
  have both : Inv s ∧ (s.place = .returned → s.result = some (value s.rq)) := by
    refine reached_invariant (fun s => Inv s ∧
      (s.place = .returned → s.result = some (value s.rq))) ?_ ?_ reached
    · intro s start
      refine ⟨inv_start start,?_⟩
      intro returned
      rw [start.1] at returned
      cases returned
    intro s a holds can
    refine ⟨step_inv holds.1 can,?_⟩
    cases a with
    | requester =>
      have followed := requester_next can
      rw [followed.place, followed.result, followed.rq]
      intro returned
      have moving := followed.moving
      cases place : s.place <;> cases done :
        s.done <;> simp [place, done, follow] at returned moving ⊢
    | callback =>
      have answered := callback_next can
      rw [answered.place, answered.result, answered.rq]
      exact holds.2
    | invoke q report =>
      intro returned
      have before : s.place = .returned := by
        simp only [machine, invoke] at returned
        split at returned <;> exact returned
      have called := story_away holds.1.story (by rw [before]; rfl)
      exact absurd can.1 called
    | elect q =>
      intro returned
      cases returned
  exact both.2

def Settled (s : Sync Cpu) (a : Act Cpu) : Prop :=
  match a with
  | .elect _ => s.call = .finished
  | _ => True

/-- On one processor nobody can be elected before the callback has ended. -/
theorem settled_single [Subsingleton Cpu] (inv : Inv s) (can : machine.enabled s a) :
    Settled s a := by
  cases a with
  | requester | callback | invoke q report => trivial
  | elect q => ?_
  obtain ⟨stopped,queued,_,idle⟩ := can
  have story := inv.story
  rw [stopped, queued] at story
  have after := (story_elect story).2
  have quiet : running s.call = false := by
    cases going : running s.call with
    | false => rfl
    | true => exact absurd ⟨going,Subsingleton.elim _ _⟩ idle
  change s.call = .finished
  cases call : s.call <;> simp [call, past, running] at after quiet ⊢

theorem run_single [Subsingleton Cpu] (run : Run machine s as t)
    (inv : Inv s) : Run (restrict machine Settled) s as t := by
  induction run with
  | nil s => exact Run.nil s
  | cons can tail ih => exact Run.cons ⟨can,settled_single inv can⟩ (ih (step_inv inv can))

theorem reached_single [Subsingleton Cpu] (reached : Reached machine s) :
    Reached (restrict machine Settled) s := by
  obtain ⟨first,start,as,run⟩ := reached
  exact ⟨first,start,as,run_single run (inv_start start)⟩

structure Untouched (s : Sync Cpu) : Prop where
  inv : Inv s
  ended : away s.place = true → s.call = .finished
  late : s.late = false

theorem story_noticed (story : Story place call ctx done queued starts) (testing : place = .testing)
    (flag : done = true) :
    call = .finished := by
  cases story with
  | apart soon before | waiting sleeping before | pushing | marking soon => cases flag
  | releasing soon => rw [testing] at soon; cases soon
  | ended awake => rfl
  | started after => cases testing
  | resumed awake after => rw [testing] at awake; cases awake

theorem away_follow (gone : away (follow done place) = true) :
    away place = true ∨ (place = .testing ∧ done = true) := by
  cases place <;> simp [away, follow] at gone ⊢
  cases done with
  | false => cases gone
  | true => rfl

theorem untouched_step (holds : Untouched s)
    (can : (restrict machine Settled).enabled s a) : Untouched (machine.next s a) := by
  have inv := step_inv holds.inv can.1
  cases a with
  | requester =>
    have followed := requester_next can.1
    refine ⟨inv,?_,?_⟩
    · rw [followed.place, followed.call]
      intro gone
      obtain before | ⟨testing,done⟩ := away_follow gone
      · exact holds.ended before
      · exact story_noticed holds.inv.story testing done
    · rw [followed.late]
      exact holds.late
  | callback =>
    have answered := callback_next can.1
    have inside : away s.place = false := by
      cases gone : away s.place with
      | false => rfl
      | true =>
        have going := answered.running
        rw [holds.ended gone] at going
        cases going
    refine ⟨inv,?_,?_⟩
    · rw [answered.place]
      intro gone
      rw [inside] at gone
      cases gone
    · have present : (s.place == .returned) = false := by
        cases place : s.place <;> simp [place, away] at inside ⊢
      rw [answered.late, holds.late, present, Bool.and_false]
      rfl
  | invoke q report =>
    have same : (machine.next s (.invoke q report)).place = s.place ∧
        (machine.next s (.invoke q report)).late = s.late := by
      simp only [machine, invoke]
      split <;> exact ⟨rfl,rfl⟩
    refine ⟨inv,?_,?_⟩
    · rw [same.1]
      intro gone
      exact absurd can.1.1 (story_away holds.inv.story gone)
    · rw [same.2]
      exact holds.late
  | elect q => exact ⟨inv,fun _ => can.2,holds.late⟩

theorem reached_untouched (reached : Reached (restrict machine Settled) s) : s.late = false := by
  have untouched : Untouched s := by
    refine reached_invariant Untouched ?_ ?_ reached
    · intro s start
      refine ⟨inv_start start,?_,start.2.2.2.2.2.2.2.2.1⟩
      intro gone
      rw [start.1] at gone
      cases gone
    · intro s a holds can
      exact untouched_step holds can
  exact untouched.late

/-- The synchronous request, on any number of processors: the requester gets back, after the end of
    the request and with its value; it is started at most once, while it is stopped; and if it is
    not elected before the callback has ended, the callback does not use the record after the
    return. -/
theorem request_synchronised {s : Sync Cpu} (reached : Reached machine s) :
    (s.place ≠ .returned → ∃ a, machine.enabled s a ∧ ¬ Interim a) ∧
    (∀ a, machine.enabled s a → ¬ Interim a → work (machine.next s a) < work s) ∧
    (away s.place = true → s.call ≠ .waiting ∧ completes s.rq = true) ∧
    (s.place = .returned → s.result = some (value s.rq)) ∧
    (s.starts.length ≤ 1 ∧ ∀ place ∈ s.starts, place = .stopped) ∧
    (Reached (restrict machine Settled) s → s.late = false) := by
  have inv := reached_invariant Inv (fun _ start => inv_start start)
    (fun _ _ inv can => step_inv inv can) reached
  refine ⟨not_stuck inv,fun a can final => work_decreases can final,?_,reached_result reached,?_,
    reached_untouched⟩
  · intro gone
    have called := story_away inv.story gone
    exact ⟨called,inv.reported called⟩
  · obtain none | once := story_starts inv.story
    · rw [none]
      simp
    · rw [once]
      simp

end

/- A read of a block. -/

def readBlock (Cpu : Type) (cpu : Cpu) : Sync Cpu where
  rq := .block 1 0
  place := .inRequest
  cpu := cpu
  irqs := true
  call := .waiting
  callCpu := cpu
  lock := none
  ctx := false
  done := false
  root := none
  queued := false
  starts := []
  late := false
  result := none

def interrupted : List (Act Unit) :=
  List.replicate 7 .requester ++ .invoke () (.block 1 1) :: List.replicate 6 .callback ++
    .elect () ::
    List.replicate 3 .requester

theorem request_synchronised_interrupted :
    let s := after machine (readBlock Unit ()) interrupted
    Reached machine s ∧ s.place = .returned ∧ s.result = some 0 ∧ s.starts = [.stopped] ∧
      s.late = false := by
  have reached : Reached machine (after machine (readBlock Unit ()) interrupted) :=
    reached_of_allowed machine (readBlock Unit ()) interrupted
      ⟨rfl,rfl,rfl,rfl,rfl,rfl,rfl,rfl,rfl,rfl⟩ (by decide +kernel)
  obtain ⟨_,_,_,result,_,untouched⟩ := request_synchronised reached
  have returned : (after machine (readBlock Unit ()) interrupted).place = .returned := by
    decide +kernel
  have value : (after machine (readBlock Unit ()) interrupted).rq = .block 1 1 := by decide +kernel
  refine ⟨reached,returned,?_,by decide +kernel,untouched (reached_single reached)⟩
  rw [result returned]
  rfl

/-- The callback runs on another processor. The requester is elected as soon as it is in the run
    queue, and returns before the callback has set the flag and released the lock. -/
def overtaken : List (Act Bool) :=
  List.replicate 7 .requester ++ .invoke true (.block 1 1) :: List.replicate 4 .callback ++
    .elect false ::
    List.replicate 3 .requester ++ List.replicate 2 .callback

theorem record_used_after_return :
    let s := after machine (readBlock Bool false) overtaken
    Reached machine s ∧ s.call = .finished ∧ s.late = true := by
  refine ⟨?_,by decide +kernel,by decide +kernel⟩
  exact reached_of_allowed machine (readBlock Bool false) overtaken
    ⟨rfl,rfl,rfl,rfl,rfl,rfl,rfl,rfl,rfl,rfl⟩ (by decide +kernel)

end MutekDeviceWait
