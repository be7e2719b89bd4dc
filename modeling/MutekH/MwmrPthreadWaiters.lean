import MutekH.MwmrPthread
import MutekH.Lib.Tally

/-!
Waiters of the pthread MWMR FIFO. For each direction the threads queued on its
condition are weighed against the items (or free places) they could use, the threads
that are on their way to look at them, and the signals still to come. A blocking call
signals after every item, so the signals keep up; a try call signals once, however
many items it moved.
-/
namespace MutekMwmrPthreadWaiters
open Function List LibMachine LibTally MutekMwmrQueue MutekMwmrPthread

/-- 1 for a thread that will look whether it can move an item of `d`. -/
def active {B : Type} (d : Way) : Pc B → Nat
  | .lock job | .loop job | .signal job => if job.way = d ∧ job.done < job.len then 1 else 0
  | _ => 0

/-- 1 for a thread that will signal the condition of `d`. -/
def pending {B : Type} (d : Way) : Pc B → Nat
  | .signal job => if job.way.other = d then 1 else 0
  | .last way => if way.other = d then 1 else 0
  | .tryLoop job moved => if job.way.other = d ∧ moved ≠ [] then 1 else 0
  | .tryLast job _ _ => if job.way.other = d then 1 else 0
  | _ => 0

def level {B : Type} (width gdepth : Nat) (f : Fifo B) : Way → Nat
  | .read => f.usage / width
  | .write => (gdepth - f.usage) / width

section
variable {T B : Type} {width gdepth : Nat} {s : State T B} {t : T} {d : Way}

def resting : Pc B → Bool
  | .out | .waiting _ => true
  | _ => false

def Quiet (s : State T B) : Prop := ∀ t, resting (s.pc t) = true

/-- No thread waits for room while there is some, or for items while there are some. -/
def NoneStranded (gdepth : Nat) (s : State T B) : Prop :=
  ∀ t job, s.pc t = .waiting job →
    (job.way = .write → ¬ s.fifo.usage < gdepth) ∧ (job.way = .read → ¬ 0 < s.fifo.usage)

/-- A try call moves a second item only while at most one thread waits for the signal
    that the call will make. -/
def TryShort (gdepth : Nat) (s : State T B) : Pc B → Prop
  | .tryLoop job moved =>
    job.done < job.len → ¬ Blocked gdepth s.fifo job.way → moved ≠ [] →
      (s.wait job.way.other).length ≤ 1
  | _ => True

instance (s : State T B) [DecidableEq B] : (p : Pc B) → Decidable (TryShort gdepth s p)
  | .tryLoop _ _ => inferInstanceAs (Decidable (_ → _ → _ → _))
  | .out | .lock _ | .loop _ | .signal _ | .waiting _ | .last _ | .tryLast _ _ _ => isTrue trivial

def InDomain (gdepth : Nat) (s : State T B) : Act T B → Prop
  | .step t => TryShort gdepth s (s.pc t)
  | _ => True

instance (s : State T B) [DecidableEq B] : (a : Act T B) → Decidable (InDomain gdepth s a)
  | .step t => inferInstanceAs (Decidable (TryShort gdepth s (s.pc t)))
  | .mwmr_read _ _ | .mwmr_write _ _ | .mwmr_try_read _ _ | .mwmr_try_write _ _ => isTrue trivial

def Counted (width gdepth : Nat) (d : Way) (s : State T B) : Prop :=
  ∃ a p, Tally (fun t => active d (s.pc t)) a ∧ Tally (fun t => pending d (s.pc t)) p ∧
    ((s.wait d).length ≤ p ∨ level width gdepth s.fifo d ≤ a + p)

/-- A thread is in the queue of a condition exactly while it waits there. -/
structure Queued (s : State T B) : Prop where
  waits : ∀ t cond, t ∈ s.wait cond → ∃ job, s.pc t = .waiting job ∧ job.way = cond
  queued : ∀ t job, s.pc t = .waiting job → t ∈ s.wait job.way
  once : ∀ cond, (s.wait cond).Nodup

attribute [local simp] active pending

theorem quiet_counted (quiet : Quiet s) (h : Counted width gdepth d s) :
    s.wait d = [] ∨ level width gdepth s.fifo d = 0 := by
  obtain ⟨a,p,actives,pendings,enough⟩ := h
  have no_active : a = 0 := by
    apply tally_eq_zero actives
    intro t
    have rests := quiet t
    cases point : s.pc t <;> simp_all [resting]
  have no_pending : p = 0 := by
    apply tally_eq_zero pendings
    intro t
    have rests := quiet t
    cases point : s.pc t <;> simp_all [resting]
  subst no_active no_pending
  rcases enough with few | low
  · exact .inl (length_eq_zero_iff.mp (Nat.le_zero.mp few))
  · exact .inr (Nat.le_zero.mp low)

theorem level_read_eq_zero (positive : 0 < width) (items : width ∣ f.usage)
    (zero : level width gdepth f .read = 0) : f.usage = 0 := by
  have few : f.usage < width := (Nat.div_eq_zero_iff_lt positive).mp zero
  by_contra some_bytes
  have := Nat.le_of_dvd (Nat.pos_of_ne_zero some_bytes) items
  omega

theorem level_write_eq_zero (positive : 0 < width) (items : width ∣ f.usage)
    (depth : width ∣ gdepth) (zero : level width gdepth f .write = 0) : ¬ f.usage < gdepth := by
  intro room
  have few : gdepth - f.usage < width := (Nat.div_eq_zero_iff_lt positive).mp zero
  have := room_for_item room items depth
  omega

theorem noneStranded_of_counted (positive : 0 < width) (depth : width ∣ gdepth) (quiet : Quiet s)
    (items : width ∣ s.fifo.usage) (queued : Queued s)
    (counted : ∀ d, Counted width gdepth d s) : NoneStranded gdepth s := by
  intro t job waiting
  have member := queued.queued t job waiting
  constructor
  · intro way
    rw [way] at member
    rcases quiet_counted quiet (counted .write) with none | zero
    · rw [none] at member
      contradiction
    · exact level_write_eq_zero positive items depth zero
  intro way
  rw [way] at member
  rcases quiet_counted quiet (counted .read) with none | zero
  · rw [none] at member
    contradiction
  · have := level_read_eq_zero positive items zero
    omega

theorem level_moved (positive : 0 < width) (items : width ∣ gdepth)
    (h : Represents gdepth width f q) (ok : JobOk width job)
    (more : job.done < job.len) (free : ¬ Blocked gdepth f job.way) :
    level width gdepth (moveItem width gdepth f job).1 job.way + 1 = level width gdepth f job.way ∧
    level width gdepth (moveItem width gdepth f job).1 job.way.other =
      level width gdepth f job.way.other + 1 := by
  have bound := h.bound
  cases way : job.way with rw [way] at free
  | read =>
    have held : width ≤ f.usage := Nat.le_of_dvd (Nat.pos_of_ne_zero free) h.usage_items
    have less : (f.usage - width) / width + 1 = f.usage / width := by
      rw [← Nat.add_div_right _ positive, Nat.sub_add_cancel held]
    have more : (gdepth - (f.usage - width)) / width = (gdepth - f.usage) / width + 1 := by
      rw [← Nat.add_div_right _ positive]
      congr 1
      omega
    simp only [moveItem, way]
    exact ⟨less,more⟩
  | write =>
    have room : f.usage + width ≤ gdepth :=
      room_for_item (Nat.lt_of_le_of_ne h.bound free) h.usage_items items
    have block : ((job.mem.drop job.done).take width).length = width := by
      have source := ok.source way
      have step := room_for_item more ok.done ok.len
      rw [length_take, length_drop]
      omega
    have less : (gdepth - (f.usage + width)) / width + 1 = (gdepth - f.usage) / width := by
      rw [← Nat.add_div_right _ positive]
      congr 1
      omega
    have more : (f.usage + width) / width = f.usage / width + 1 := Nat.add_div_right _ positive
    simp only [moveItem, way, putBlock, block]
    exact ⟨less,more⟩

theorem head_waits (inv : Inv width gdepth s) (h : Queued s) {cond : Way} {x : T} {rest : List T}
    (queue : s.wait cond = x :: rest) :
    ∃ job, s.pc x = .waiting job ∧ job.way = cond ∧ job.done < job.len := by
  obtain ⟨job,waiting,way⟩ := h.waits x cond (by simp [queue])
  have here := inv.at_point x
  rw [waiting] at here
  exact ⟨job,waiting,way,here.2⟩

variable [DecidableEq T]

/-- A step in which one thread moves: what it does to the weights must keep up with what
    it does to the queue and the level. -/
theorem counted_move (h : Counted width gdepth d s) (moved : s'.pc = update s.pc t b)
    (change : ∀ a p, (s.wait d).length ≤ p + pending d (s.pc t) ∨
        level width gdepth s.fifo d ≤ a + active d (s.pc t) + (p + pending d (s.pc t)) →
      (s'.wait d).length ≤ p + pending d b ∨
        level width gdepth s'.fifo d ≤ a + active d b + (p + pending d b)) :
    Counted width gdepth d s' := by
  obtain ⟨a,p,actives,pendings,enough⟩ := h
  have active_here := tally_le actives t
  have pending_here := tally_le pendings t
  refine ⟨a - active d (s.pc t) + active d b,p - pending d (s.pc t) + pending d b,?_,?_,?_⟩
  · rw [moved]
    exact tally_move actives t (by omega)
  · rw [moved]
    exact tally_move pendings t (by omega)
  · apply change
    rw [Nat.sub_add_cancel active_here, Nat.sub_add_cancel pending_here]
    exact enough

theorem queued_goto (h : Queued s) (same : s'.wait = s.wait)
    (moved : s'.pc = update s.pc t b) (before : ∀ job, s.pc t ≠ .waiting job)
    (after : ∀ job, b ≠ .waiting job) : Queued s' := by
  constructor
  · intro x cond member
    rw [same] at member
    obtain ⟨job,waiting,way⟩ := h.waits x cond member
    have other : x ≠ t := by
      rintro rfl
      exact before job waiting
    exact ⟨job,by rw [moved, update_of_ne other, waiting],way⟩
  · intro x job waiting
    rw [moved] at waiting
    have other : x ≠ t := by
      rintro rfl
      rw [update_self] at waiting
      exact after job waiting
    rw [update_of_ne other] at waiting
    rw [same]
    exact h.queued x job waiting
  · rw [same]
    exact h.once

attribute [local simp] pthread_cond_wait

theorem queued_wait (h : Queued s) (before : ∀ job, s.pc t ≠ .waiting job) :
    Queued (pthread_cond_wait s t job) := by
  have absent : ∀ cond, t ∉ s.wait cond := by
    intro cond member
    obtain ⟨other,waiting,_⟩ := h.waits t cond member
    exact before other waiting
  constructor
  · intro x cond member
    by_cases same : x = t
    · subst same
      refine ⟨job,by simp,?_⟩
      by_contra differs
      simp only [pthread_cond_wait, update_of_ne (Ne.symm differs)] at member
      exact absent cond member
    have old : x ∈ s.wait cond := by
      by_cases cond_same : cond = job.way
      · subst cond_same
        simpa [same] using member
      · simpa [cond_same] using member
    obtain ⟨other,waiting,way⟩ := h.waits x cond old
    exact ⟨other,by simpa [same] using waiting,way⟩
  · intro x other waiting
    by_cases same : x = t
    · subst same
      have is : job = other := by simpa using waiting
      simp [← is]
    · have old := h.queued x other (by simpa [same] using waiting)
      by_cases cond_same : other.way = job.way
      · rw [cond_same] at old ⊢
        simp [old]
      · simpa [cond_same] using old
  · intro cond
    by_cases same : cond = job.way
    · subst same
      simp only [pthread_cond_wait, update_self]
      rw [nodup_append]
      refine ⟨h.once _,nodup_singleton t,?_⟩
      rintro x member y last rfl
      rw [mem_singleton] at last
      exact absent _ (last ▸ member)
    · simpa [same] using h.once cond

theorem queued_signal (h : Queued s) (cond : Way) : Queued (pthread_cond_signal s cond) := by
  unfold pthread_cond_signal
  split
  · exact h
  rename_i x rest queue
  obtain ⟨own,waiting,way⟩ := h.waits x cond (by simp [queue])
  have once := h.once cond
  rw [queue, nodup_cons] at once
  constructor
  · intro y c member
    have old : y ∈ s.wait c ∧ y ≠ x := by
      by_cases same : c = cond
      · subst same
        have inside : y ∈ rest := by simpa using member
        refine ⟨by simp [queue, inside],?_⟩
        rintro rfl
        exact once.1 inside
      have inside : y ∈ s.wait c := by simpa [same] using member
      refine ⟨inside,?_⟩
      rintro rfl
      obtain ⟨job,other,its⟩ := h.waits y c inside
      have is : own = job := by simpa [waiting] using other
      exact same (by rw [← its, ← is, way])
    obtain ⟨job,other,its⟩ := h.waits y c old.1
    exact ⟨job,by simpa [old.2] using other,its⟩
  · intro y job other
    have apart : y ≠ x := by
      rintro rfl
      simp [waiting, woken] at other
    have member := h.queued y job (by simpa [apart] using other)
    by_cases same : job.way = cond
    · rw [same, queue] at member
      simpa [same] using mem_of_ne_of_mem apart member
    · simpa [same] using member
  · intro c
    by_cases same : c = cond
    · subst same
      simpa using once.2
    · simpa [same] using h.once c

/-- A signal, after which the thread that made it goes on: the waiter that is woken
    takes the place of the signal. -/
theorem counted_signal (inv : Inv width gdepth s) (queued : Queued s) (cond : Way) {b : Pc B}
    {s' : State T B} (h : Counted width gdepth d s)
    (fifo : s'.fifo = s.fifo) (wait : s'.wait = (pthread_cond_signal s cond).wait)
    (moved : s'.pc = update (pthread_cond_signal s cond).pc t b)
    (awake : ∀ job, s.pc t ≠ .waiting job) (actives : active d b = active d (s.pc t))
    (pendings : pending d b + (if d = cond then 1 else 0) = pending d (s.pc t)) :
    Counted width gdepth d s' := by
  cases queue : s.wait cond with
  | nil =>
    have none : pthread_cond_signal s cond = s := by simp [pthread_cond_signal, queue]
    rw [none] at wait moved
    apply counted_move h moved
    intro a p enough
    rw [fifo, wait]
    by_cases same : d = cond
    · subst same
      exact .inl (by simp [queue])
    · rw [if_neg same, Nat.add_zero] at pendings
      rw [actives, pendings]
      exact enough
  | cons x rest =>
    obtain ⟨job,waiting,way,more⟩ := head_waits inv queued queue
    have shape : pthread_cond_signal s cond = { s with
          wait := update s.wait cond rest
          pc := update s.pc x (.lock job) } := by
      simp [pthread_cond_signal, queue, waiting, woken]
    have apart : t ≠ x := by
      rintro rfl
      exact awake job waiting
    have here : (pthread_cond_signal s cond).pc t = s.pc t := by
      simp [shape, apart]
    obtain ⟨a,p,act,pend,enough⟩ := h
    -- the woken thread
    have act' : Tally (fun u => active d ((pthread_cond_signal s cond).pc u))
        (a + active d (.lock job)) := by
      rw [shape]
      exact tally_move act x (by simp [waiting])
    have pend' : Tally (fun u => pending d ((pthread_cond_signal s cond).pc u)) p := by
      rw [shape]
      exact tally_move pend x (by simp [waiting])
    have pending_here := tally_le pend' t
    rw [here] at pending_here
    refine ⟨a + active d (.lock job),p - pending d (s.pc t) + pending d b,?_,?_,?_⟩
    · rw [moved]
      exact tally_move act' t (by rw [here, actives])
    · rw [moved]
      exact tally_move pend' t (by rw [here]; omega)
    rw [fifo, wait, shape]
    by_cases same : d = cond
    · subst same
      have counts : active d (.lock job) = 1 := by simp [way, more]
      simp only [update_self]
      rw [queue, length_cons] at enough
      rw [if_pos rfl] at pendings
      rcases enough with few | low
      · exact .inl (by omega)
      · exact .inr (by omega)
    · simp only [update_of_ne same]
      rw [if_neg same] at pendings
      rcases enough with few | low
      · exact .inl (by omega)
      · exact .inr (by omega)

theorem counted_wait (h : Counted width gdepth d s)
    (point : s.pc t = .loop job) (blocked : Blocked gdepth s.fifo job.way) :
    Counted width gdepth d (pthread_cond_wait s t job) := by
  apply counted_move h rfl
  intro a p enough
  by_cases same : d = job.way
  · subst same
    have zero : level width gdepth s.fifo job.way = 0 := by
      cases way : job.way with rw [way] at blocked
      | read =>
        have none : s.fifo.usage = 0 := blocked
        simp [level, none]
      | write =>
        have full : s.fifo.usage = gdepth := blocked
        simp [level, full]
    exact .inr (by simp only [pthread_cond_wait]; omega)
  · have inactive : active d (s.pc t) = 0 := by simp [point, Ne.symm same]
    have none : pending d (s.pc t) = 0 := by simp [point]
    simp only [pthread_cond_wait, update_of_ne same]
    rw [inactive, none] at enough
    exact enough

theorem counted_transfer (positive : 0 < width) (items : width ∣ gdepth) (inv : Inv width gdepth s)
    (h : Counted width gdepth d s) (ok : JobOk width job) (more : job.done < job.len)
    (free : ¬ Blocked gdepth s.fifo job.way)
    (actives : active d (s.pc t) ≤ active d (point (moveItem width gdepth s.fifo job).2.1
      (moveItem width gdepth s.fifo job).2.2) + (if d = job.way then 1 else 0))
    (pendings : pending d (s.pc t) ≤ pending d (point (moveItem width gdepth s.fifo job).2.1
      (moveItem width gdepth s.fifo job).2.2))
    (signals : d = job.way.other →
      pending d (s.pc t) + 1 ≤ pending d (point (moveItem width gdepth s.fifo job).2.1
        (moveItem width gdepth s.fifo job).2.2) ∨
      (s.wait d).length ≤ pending d (point (moveItem width gdepth s.fifo job).2.1
        (moveItem width gdepth s.fifo job).2.2)) :
    Counted width gdepth d (transfer width gdepth s t job point) := by
  obtain ⟨q,_,represents⟩ := inv.kept
  obtain ⟨less,greater⟩ := level_moved positive items represents ok more free
  apply counted_move h rfl
  intro a p enough
  have wait : (transfer width gdepth s t job point).wait = s.wait := rfl
  have fifo : (transfer width gdepth s t job point).fifo = (moveItem width gdepth s.fifo job).1 :=
    rfl
  rw [wait, fifo]
  by_cases same : d = job.way
  · subst same
    rw [if_pos rfl] at actives
    rcases enough with few | low
    · exact .inl (by omega)
    · exact .inr (by omega)
  have other : d = job.way.other := by
    cases d <;> cases way : job.way <;> simp_all [Way.other]
  rw [← other] at greater
  rw [if_neg same] at actives
  rcases signals other with one_more | short
  · rcases enough with few | low
    · exact .inl (by omega)
    · exact .inr (by omega)
  · exact .inl (by omega)

theorem signal_awake (cond : Way) (awake : ∀ job, s.pc t ≠ .waiting job) (job : Job B) :
    (pthread_cond_signal s cond).pc t ≠ .waiting job := by
  unfold pthread_cond_signal
  split
  · exact awake job
  rename_i x rest _
  by_cases same : t = x
  · subst same
    cases point : s.pc t with
    | waiting own => exact absurd point (awake own)
    | _ => simp [woken]
  · simpa [same] using awake job

structure WaitInv (width gdepth : Nat) (s : State T B) : Prop where
  base : Inv width gdepth s
  queued : Queued s
  counted : ∀ d, Counted width gdepth d s

/-- A thread goes on to a point where it weighs no less. -/
theorem goto_kept (inv : WaitInv width gdepth s) (t : T) (b : Pc B) (fifo : s'.fifo = s.fifo)
    (wait : s'.wait = s.wait) (moved : s'.pc = update s.pc t b)
    (awake : ∀ job, s.pc t ≠ .waiting job ∧ b ≠ .waiting job)
    (weights : ∀ d, active d (s.pc t) ≤ active d b ∧ pending d (s.pc t) ≤ pending d b) :
    Queued s' ∧ ∀ d, Counted width gdepth d s' := by
  refine ⟨queued_goto inv.queued wait moved (fun job => (awake job).1) (fun job => (awake job).2),
    ?_⟩
  intro d
  obtain ⟨actives,pendings⟩ := weights d
  apply counted_move (inv.counted d) moved
  intro a p enough
  rw [fifo, wait]
  rcases enough with few | low
  · exact .inl (by omega)
  · exact .inr (by omega)

theorem signal_kept (inv : WaitInv width gdepth s) (t : T) (cond : Way) (b : Pc B)
    (fifo : s'.fifo = s.fifo) (wait : s'.wait = (pthread_cond_signal s cond).wait)
    (moved : s'.pc = update (pthread_cond_signal s cond).pc t b)
    (awake : ∀ job, s.pc t ≠ .waiting job ∧ b ≠ .waiting job)
    (weights : ∀ d, active d b = active d (s.pc t) ∧ pending d b = 0 ∧
      pending d (s.pc t) = if cond = d then 1 else 0) :
    Queued s' ∧ ∀ d, Counted width gdepth d s' := by
  constructor
  · exact queued_goto (queued_signal inv.queued cond) wait moved
      (signal_awake cond fun job => (awake job).1) (fun job => (awake job).2)
  intro d
  obtain ⟨actives,none,one⟩ := weights d
  refine counted_signal inv.base inv.queued cond (inv.counted d) fifo wait moved
    (fun job => (awake job).1) actives ?_
  rw [none, one]
  simp [eq_comm]

theorem queued_counted_step (positive : 0 < width) (items : width ∣ gdepth)
    (inv : WaitInv width gdepth s) (ok : InDomain gdepth s (.step t)) :
    Queued (step width gdepth s t) ∧ ∀ d, Counted width gdepth d (step width gdepth s t) := by
  have here := inv.base.at_point t
  unfold step
  cases point : s.pc t with rw [point] at here
  | out | waiting job => exact ⟨inv.queued,inv.counted⟩
  | lock job =>
    exact goto_kept inv t (.loop job) rfl rfl rfl (by simp [point])
      (by simp [point])
  | loop job =>
    simp only
    split
    · rename_i more
      split
      · rename_i blocked
        exact ⟨queued_wait inv.queued (by simp [point]),
          fun d => counted_wait (inv.counted d) point blocked⟩
      rename_i free
      refine ⟨queued_goto inv.queued rfl rfl (by simp [point]) (by simp),
        fun d => ?_⟩
      obtain ⟨q,_,represents⟩ := inv.base.kept
      obtain ⟨q',_,moved⟩ := moveItem_moved items represents here more free
      apply counted_transfer positive items inv.base (inv.counted d) here more free
      · by_cases same : d = job.way
        · subst same
          simp [point, more]
        · simp [point, Ne.symm same]
      · simp [point]
      · intro other
        simp [point, moved.way, other]
    · rename_i served
      exact goto_kept inv t (.last job.way) rfl rfl rfl (by simp [point])
        (by simp [point, served])
  | signal job =>
    exact signal_kept inv t job.way.other (.loop job) (signal_rest _).1 rfl rfl
      (by simp [point]) (by simp [point])
  | last way =>
    exact signal_kept inv t way.other .out (signal_rest _).1 rfl rfl
      (by simp [point]) (by simp [point])
  | tryLoop job moved =>
    simp only [InDomain, point] at ok
    obtain ⟨fine,_⟩ := here
    simp only
    split
    · rename_i go
      refine ⟨queued_goto inv.queued rfl rfl (by simp [point]) (by simp),
        fun d => ?_⟩
      obtain ⟨q,_,represents⟩ := inv.base.kept
      obtain ⟨q',_,item⟩ := moveItem_moved items represents fine go.1 go.2
      have some_bytes : (moveItem width gdepth s.fifo job).2.2 ≠ [] := by
        intro none
        have size := item.size
        rw [none] at size
        exact absurd size (by simp only [length_nil]; omega)
      apply counted_transfer positive items inv.base (inv.counted d) fine go.1 go.2
      · simp [point]
      · simp only [point, pending, item.way]
        split <;> simp_all
      intro other
      simp only [point, pending, item.way, ← other]
      by_cases first : moved = []
      · exact .inl (by simp [first, some_bytes])
      · have short := ok go.1 go.2 first
        rw [← other] at short
        exact .inr (by simpa [first] using short)
    · refine goto_kept inv t (.tryLast job moved s.fifo.usage) rfl rfl rfl (by simp [point]) ?_
      intro d
      simp only [point, active, pending]
      split <;> simp_all
  | tryLast job moved usage =>
    exact signal_kept inv t job.way.other .out (signal_rest _).1 rfl rfl
      (by simp [point]) (by simp [point])

theorem queued_counted_tryLock (inv : WaitInv width gdepth s) (out : s.pc t = .out) (job : Job B) :
    Queued (tryLock s t job) ∧ ∀ d, Counted width gdepth d (tryLock s t job) := by
  unfold tryLock
  split
  · exact ⟨⟨inv.queued.waits,inv.queued.queued,inv.queued.once⟩,inv.counted⟩
  · exact goto_kept inv t (.tryLoop job []) rfl rfl rfl (by simp [out]) (by simp [out])

theorem queued_counted_call (inv : WaitInv width gdepth s) (out : s.pc t = .out) (job : Job B) :
    Queued (goto s t (.lock job)) ∧ ∀ d, Counted width gdepth d (goto s t (.lock job)) :=
  goto_kept inv t (.lock job) rfl rfl rfl (by simp [out]) (by simp [out])

theorem next_waitInv (positive : 0 < width) (items : width ∣ gdepth) (inv : WaitInv width gdepth s)
    (a : Act T B) (can : Enabled width s a) (ok : InDomain gdepth s a) :
    WaitInv width gdepth (next width gdepth s a) := by
  have base := next_inv items inv.base a can
  have rest : Queued (next width gdepth s a) ∧
      ∀ d, Counted width gdepth d (next width gdepth s a) := by
    cases a with
    | mwmr_read t len | mwmr_write t mem => exact queued_counted_call inv can.1 _
    | mwmr_try_read t len | mwmr_try_write t mem => exact queued_counted_tryLock inv can.1 _
    | step t => exact queued_counted_step positive items inv ok
  exact ⟨base,rest.1,rest.2⟩

theorem waitInv_reached (depth : 0 < gdepth) (items : width ∣ gdepth)
    (h : Reached (restrict (machine width gdepth T B) (InDomain gdepth)) s) :
    WaitInv width gdepth s := by
  have positive : 0 < width := Nat.pos_of_dvd_of_pos items depth
  apply reached_invariant (WaitInv width gdepth) _ _ h
  · intro s start
    have base := inv_reached depth items (start_reached start)
    obtain ⟨_,_,_,_,wait,out,_,_,_⟩ := start
    refine ⟨base,⟨?_,?_,?_⟩,?_⟩
    · intro t cond member
      rw [wait cond] at member
      contradiction
    · intro t job waiting
      rw [out t] at waiting
      contradiction
    · intro cond
      rw [wait cond]
      exact nodup_nil
    intro d
    refine ⟨0,0,tally_zero ?_,tally_zero ?_,.inl ?_⟩
    · intro t
      rw [out t]
      rfl
    · intro t
      rw [out t]
      rfl
    · rw [wait d]
      exact Nat.le_refl 0
  · intro s a inv can
    exact next_waitInv positive items inv a can.1 can.2

/-- While no try call moves several items past several waiters, no waiter is left behind
    when everything is at rest. -/
theorem no_waiter_stranded (T B : Type) [DecidableEq T] (width gdepth : Nat) (depth : 0 < gdepth)
    (items : width ∣ gdepth) (s : State T B)
    (h : Reached (restrict (machine width gdepth T B) (InDomain gdepth)) s) (quiet : Quiet s) :
    NoneStranded gdepth s := by
  have inv := waitInv_reached depth items h
  obtain ⟨q,_,represents⟩ := inv.base.kept
  exact noneStranded_of_counted (Nat.pos_of_dvd_of_pos items depth) items quiet
    represents.usage_items inv.queued inv.counted

end

/-- A writer fills a FIFO of two items; threads 1 and 2 wait to write one item each. -/
def twoWriters : List (Act (Fin 4) Nat) :=
  [.mwmr_write 0 [1, 2], .step 0, .step 0, .step 0, .step 0, .step 0, .step 0, .step 0,
    .mwmr_write 1 [5], .step 1, .step 1, .mwmr_write 2 [6], .step 2, .step 2]

/-- Thread 3 tries to read both items and thread 1, which is woken, writes its own. -/
def tryTwo : List (Act (Fin 4) Nat) :=
  [.mwmr_try_read 3 2, .step 3, .step 3, .step 3, .step 3, .step 1, .step 1, .step 1, .step 1,
    .step 1]

theorem no_waiter_stranded_two_writers :
    NoneStranded 2 (after (machine 1 2 (Fin 4) Nat) empty twoWriters) := by
  apply no_waiter_stranded (Fin 4) Nat 1 2 (by decide) (by decide)
  · apply reached_of_allowed (restrict (machine 1 2 (Fin 4) Nat) (InDomain 2)) empty twoWriters
    · exact boot_empty
    · decide
  · exact (by decide : ∀ t,
      resting ((after (machine 1 2 (Fin 4) Nat) empty twoWriters).pc t) = true)

/-- Two items are taken and one signal is made: thread 2 goes on waiting to write into a
    FIFO with room. -/
theorem try_read_strands_writer : ∃ s, Reached (machine 1 2 (Fin 4) Nat) s ∧ Quiet s ∧
      s.pc 2 = .waiting ⟨.write, 1, 0, [6]⟩ ∧ s.fifo.usage < 2 := by
  have reached := reached_of_allowed (machine 1 2 (Fin 4) Nat) empty (twoWriters ++ tryTwo)
    boot_empty (by decide)
  refine ⟨_,reached,?_,by decide,by decide⟩
  exact (by decide : ∀ t,
    resting ((after (machine 1 2 (Fin 4) Nat) empty (twoWriters ++ tryTwo)).pc t) = true)

end MutekMwmrPthreadWaiters
