import MutekH.Lib.Machine
import MutekH.MwmrQueue
import Mathlib.Logic.Function.Basic

/-!
The MWMR FIFO on pthread mutexes and conditions. The mutex is a holder, a condition
is the queue of its waiters: a wait releases the mutex and joins the queue, a signal
takes the first waiter off it, which then has to get the mutex again. Readers wait on
`nempty` and signal `nfull`, writers the other way round.
-/
namespace MutekMwmrPthread
open Function LibMachine LibRing MutekMwmrQueue

/-- A call: `done` is `got` or `put`, `mem` the bytes to write or those read so far. -/
structure Job (B : Type) where
  way : Way
  len : Nat
  done : Nat
  mem : List B
  deriving DecidableEq

/-- Where a thread is: in `pthread_mutex_lock` or on its way back out of a wait, at the
    head of the loop, at the signal after an item, in the wait, at the signal after the
    unlock, and the same for try calls, with the bytes they have moved. -/
inductive Pc (B : Type) where
  | out
  | lock (job : Job B)
  | loop (job : Job B)
  | signal (job : Job B)
  | waiting (job : Job B)
  | last (way : Way)
  | tryLoop (job : Job B) (moved : List B)
  | tryLast (job : Job B) (moved : List B) (usage : Nat)
  deriving DecidableEq

/-- `wait .read` is the queue of `nempty`, `wait .write` that of `nfull`. The bytes
    inserted and removed, in order, and the try calls that returned are history. -/
structure State (T B : Type) where
  fifo : Fifo B
  holder : Option T
  wait : Way → List T
  pc : T → Pc B
  inserted : List B
  removed : List B
  tries : List (Try B)

section
variable {T B : Type} (width gdepth : Nat)

def Blocked (f : Fifo B) : Way → Prop
  | .read => f.usage = 0
  | .write => f.usage = gdepth

instance (f : Fifo B) : (way : Way) → Decidable (Blocked gdepth f way)
  | .read => inferInstanceAs (Decidable (f.usage = 0))
  | .write => inferInstanceAs (Decidable (f.usage = gdepth))

def moveItem (f : Fifo B) (job : Job B) : Fifo B × Job B × List B :=
  match job.way with
  | .read =>
    let r := getBlock gdepth f width
    (r.1, { job with done := job.done + width, mem := job.mem ++ r.2 }, r.2)
  | .write =>
    let block := (job.mem.drop job.done).take width
    (putBlock gdepth f block, { job with done := job.done + width }, block)

def woken : Pc B → Pc B
  | .waiting job => .lock job
  | p => p

variable [DecidableEq T]

variable (s : State T B)

def goto (t : T) (p : Pc B) : State T B :=
  { s with pc := update s.pc t p }

def pthread_cond_signal (cond : Way) : State T B :=
  match s.wait cond with
  | [] => s
  | x :: rest =>
    { s with
      wait := update s.wait cond rest
      pc := update s.pc x (woken (s.pc x)) }

def pthread_cond_wait (t : T) (job : Job B) : State T B :=
  { s with
    holder := none
    wait := update s.wait job.way (s.wait job.way ++ [t])
    pc := update s.pc t (.waiting job) }

def transfer (t : T) (job : Job B) (point : Job B → List B → Pc B) : State T B :=
  let r := moveItem width gdepth s.fifo job
  { s with
    fifo := r.1
    inserted := if job.way = .write then s.inserted ++ r.2.2 else s.inserted
    removed := if job.way = .read then s.removed ++ r.2.2 else s.removed
    pc := update s.pc t (point r.2.1 r.2.2) }

def step (t : T) : State T B :=
  match s.pc t with
  | .out => s
  | .lock job => { goto s t (.loop job) with holder := some t }
  | .loop job =>
    if job.done < job.len then
      if Blocked gdepth s.fifo job.way then pthread_cond_wait s t job
      else transfer width gdepth s t job (fun job _ => .signal job)
    else { goto s t (.last job.way) with holder := none }
  | .signal job => goto (pthread_cond_signal s job.way.other) t (.loop job)
  | .waiting _ => s
  | .last way => goto (pthread_cond_signal s way.other) t .out
  | .tryLoop job moved =>
    if job.done < job.len ∧ ¬ Blocked gdepth s.fifo job.way then
      transfer width gdepth s t job (fun job block => .tryLoop job (moved ++ block))
    else { goto s t (.tryLast job moved s.fifo.usage) with holder := none }
  | .tryLast job moved usage =>
    { goto (pthread_cond_signal s job.way.other) t .out with
      tries := ⟨job.way, job.len, job.done, moved, false, usage⟩ :: s.tries }

def tryLock (t : T) (job : Job B) : State T B :=
  if s.holder.isSome then
    { s with tries := ⟨job.way, job.len, 0, [], true, s.fifo.usage⟩ :: s.tries }
  else { goto s t (.tryLoop job []) with holder := some t }

inductive Act (T B : Type) where
  | mwmr_read (t : T) (len : Nat)
  | mwmr_write (t : T) (mem : List B)
  | mwmr_try_read (t : T) (len : Nat)
  | mwmr_try_write (t : T) (mem : List B)
  | step (t : T)

def next : Act T B → State T B
  | .mwmr_read t len => goto s t (.lock ⟨.read, len, 0, []⟩)
  | .mwmr_write t mem => goto s t (.lock ⟨.write, mem.length, 0, mem⟩)
  | .mwmr_try_read t len => tryLock s t ⟨.read, len, 0, []⟩
  | .mwmr_try_write t mem => tryLock s t ⟨.write, mem.length, 0, mem⟩
  | .step t => step width gdepth s t

def Ready : Pc B → Prop
  | .out | .waiting _ => False
  | .lock _ => s.holder = none
  | _ => True

/-- `assert ( len % fifo->width == 0 )` -/
def Enabled : Act T B → Prop
  | .mwmr_read t len | .mwmr_try_read t len => s.pc t = .out ∧ width ∣ len
  | .mwmr_write t mem | .mwmr_try_write t mem => s.pc t = .out ∧ width ∣ mem.length
  | .step t => Ready s (s.pc t)

def Boot : Prop :=
  s.fifo.rptr = 0 ∧ s.fifo.wptr = 0 ∧ s.fifo.usage = 0 ∧ s.holder = none ∧
  (∀ cond, s.wait cond = []) ∧ (∀ t, s.pc t = .out) ∧ s.inserted = [] ∧ s.removed = [] ∧
  s.tries = []

def machine (T B : Type) [DecidableEq T] : Machine (State T B) (Act T B) where
  start := Boot
  enabled := Enabled width
  next := next width gdepth

instance (s : State T B) : (p : Pc B) → Decidable (Ready s p)
  | .out | .waiting _ => isFalse id
  | .lock _ => inferInstanceAs (Decidable (s.holder = none))
  | .loop _ | .signal _ | .last _ | .tryLoop _ _ | .tryLast _ _ _ => isTrue trivial

instance [DecidableEq B] (s : State T B) : (a : Act T B) →
    Decidable ((machine width gdepth T B).enabled s a)
  | .mwmr_read _ _ | .mwmr_try_read _ _ => instDecidableAnd
  | .mwmr_write _ _ | .mwmr_try_write _ _ => instDecidableAnd
  | .step t => inferInstanceAs (Decidable (Ready s (s.pc t)))

end

def empty {T : Type} : State T Nat where
  fifo := ⟨0, 0, 0, fun _ => 0⟩
  holder := none
  wait _ := []
  pc _ := .out
  inserted := []
  removed := []
  tries := []

theorem boot_empty {T : Type} : Boot (empty : State T Nat) := by
  simp [Boot, empty]

section
variable {T B : Type} {width gdepth : Nat} {s : State T B} {t : T}

structure JobOk (width : Nat) (job : Job B) : Prop where
  len : width ∣ job.len
  done : width ∣ job.done
  bound : job.done ≤ job.len
  source : job.way = .write → job.mem.length = job.len

def At (width gdepth : Nat) : Pc B → Prop
  | .out | .last _ => True
  | .lock job | .loop job | .signal job => JobOk width job
  | .waiting job => JobOk width job ∧ job.done < job.len
  | .tryLoop job moved => JobOk width job ∧ moved.length = job.done
  | .tryLast job moved usage =>
    Explained gdepth ⟨job.way, job.len, job.done, moved, false, usage⟩

structure Inv (width gdepth : Nat) (s : State T B) : Prop where
  at_point : ∀ t, At width gdepth (s.pc t)
  kept : ∃ q, s.inserted = s.removed ++ q ∧ Represents gdepth width s.fifo q
  tries : ∀ r ∈ s.tries, Explained gdepth r

theorem start_ok (way : Way) (whole : width ∣ len)
    (source : way = .write → mem.length = len) : JobOk width ⟨way, len, 0, mem⟩ :=
  ⟨whole, Nat.dvd_zero width, Nat.zero_le len, source⟩

structure Moved (width : Nat) (job job' : Job B) (q q' block : List B) : Prop where
  ok : JobOk width job'
  way : job'.way = job.way
  len : job'.len = job.len
  done : job'.done = job.done + width
  size : block.length = width
  front : job.way = .read → q = block ++ q'
  back : job.way = .write → q' = q ++ block

theorem moveItem_moved (items : width ∣ gdepth)
    (h : Represents gdepth width f q) (ok : JobOk width job) (more : job.done < job.len)
    (free : ¬ Blocked gdepth f job.way) :
    ∃ q', Represents gdepth width (moveItem width gdepth f job).1 q' ∧
      Moved width job (moveItem width gdepth f job).2.1 q q' (moveItem width gdepth f job).2.2 := by
  have step := room_for_item more ok.done ok.len
  have after : width ∣ job.done + width := Nat.dvd_add ok.done (Nat.dvd_refl width)
  cases way : job.way with rw [way] at free
  | read =>
    have held : width ≤ f.usage := Nat.le_of_dvd (Nat.pos_of_ne_zero free) h.usage_items
    obtain ⟨rest,front,represents⟩ := get_represents items h held
      (room_for_item h.rptr h.rptr_items items) (Nat.dvd_refl width)
    simp only [moveItem, way]
    refine ⟨rest,represents,⟨ok.len,after,step,by simp⟩,way.symm,rfl,rfl,?_,?_,?_⟩
    · exact copyOut_length ..
    · intro _
      exact front
    · intro write
      simp [way] at write
  | write =>
    have room : f.usage + width ≤ gdepth :=
      room_for_item (Nat.lt_of_le_of_ne h.bound free) h.usage_items items
    have source := ok.source way
    have block : ((job.mem.drop job.done).take width).length = width := by
      rw [List.length_take, List.length_drop]
      omega
    have straight := room_for_item (wptr_lt h) (wptr_items items h) items
    simp only [moveItem, way]
    refine ⟨_,put_represents h (by rwa [block]) (by rwa [block])
      (by simp [block]),⟨ok.len,after,step,fun _ => source⟩,way.symm,rfl,rfl,block,?_,?_⟩
    · intro read
      simp [way] at read
    · intro _
      rfl

variable [DecidableEq T]

theorem signal_points (cond : Way) (old : ∀ t, At width gdepth (s.pc t)) :
    ∀ t, At width gdepth ((pthread_cond_signal s cond).pc t) := by
  unfold pthread_cond_signal
  split
  · exact old
  rename_i x rest _
  apply (forall_update_iff s.pc (fun _ p => At width gdepth p)).mpr
  constructor
  · have here := old x
    cases point : s.pc x with rw [point] at here
    | waiting job => exact here.1
    | _ => exact here
  · intro y _
    exact old y

theorem goto_points {b : Pc B} {s' : State T B} (old : ∀ t, At width gdepth (s.pc t))
    (here : At width gdepth b) (moved : s'.pc = update s.pc t b) :
    ∀ t, At width gdepth (s'.pc t) := by
  rw [moved]
  exact (forall_update_iff s.pc (fun _ p => At width gdepth p)).mpr ⟨here,fun y _ => old y⟩

theorem signal_rest (cond : Way) : (pthread_cond_signal s cond).fifo = s.fifo ∧
    (pthread_cond_signal s cond).inserted = s.inserted ∧
    (pthread_cond_signal s cond).removed = s.removed ∧
    (pthread_cond_signal s cond).tries = s.tries := by
  unfold pthread_cond_signal
  split <;> exact ⟨rfl,rfl,rfl,rfl⟩

theorem signal_inv (inv : Inv width gdepth s) (cond : Way) :
    Inv width gdepth (pthread_cond_signal s cond) := by
  obtain ⟨fifo,inserted,removed,tries⟩ := signal_rest (s := s) cond
  constructor
  · exact signal_points cond inv.at_point
  · rw [fifo, inserted, removed]
    exact inv.kept
  · rw [tries]
    exact inv.tries

theorem goto_inv (inv : Inv width gdepth s) (here : At width gdepth b) :
    Inv width gdepth (goto s t b) :=
  ⟨goto_points inv.at_point here rfl, inv.kept, inv.tries⟩

theorem transfer_inv (items : width ∣ gdepth) (inv : Inv width gdepth s)
    (ok : JobOk width job) (more : job.done < job.len)
    (free : ¬ Blocked gdepth s.fifo job.way)
    (here : ∀ job' block, JobOk width job' → job'.done = job.done + width →
      block.length = width → At width gdepth (point job' block)) :
    Inv width gdepth (transfer width gdepth s t job point) := by
  obtain ⟨q,kept,represents⟩ := inv.kept
  obtain ⟨q',after,moved⟩ := moveItem_moved items represents ok more free
  constructor
  · exact goto_points inv.at_point (here _ _ moved.ok moved.done moved.size) rfl
  · refine ⟨q',?_,after⟩
    cases way : job.way with
    | read => simp [transfer, way, kept, moved.front way]
    | write => simp [transfer, way, kept, moved.back way]
  · exact inv.tries

theorem step_inv (items : width ∣ gdepth) (inv : Inv width gdepth s) :
    Inv width gdepth (step width gdepth s t) := by
  have here := inv.at_point t
  unfold step
  cases point : s.pc t with rw [point] at here
  | out | waiting job => exact inv
  | lock job => exact ⟨goto_points inv.at_point (b := .loop job) here rfl,inv.kept,inv.tries⟩
  | loop job =>
    simp only
    split
    · rename_i more
      split
      · exact ⟨goto_points inv.at_point (b := .waiting job) ⟨here,more⟩ rfl,inv.kept,inv.tries⟩
      · rename_i free
        apply transfer_inv items inv here more free
        intro job' block ok _ _
        exact ok
    · exact ⟨goto_points inv.at_point (b := .last job.way) trivial rfl,inv.kept,inv.tries⟩
  | signal job => exact goto_inv (signal_inv inv job.way.other) here
  | last way => exact goto_inv (signal_inv inv way.other) trivial
  | tryLoop job moved =>
    obtain ⟨ok,counted⟩ := here
    simp only
    split
    · rename_i go
      apply transfer_inv items inv ok go.1 go.2
      intro job' block ok' done length
      refine ⟨ok',?_⟩
      rw [List.length_append, counted, length, done]
    rename_i stop
    refine ⟨goto_points inv.at_point ?_ rfl,inv.kept,
      inv.tries⟩
    refine ⟨counted.symm,?_⟩
    by_cases more : job.done < job.len
    · have blocked : Blocked gdepth s.fifo job.way := by
        by_contra free
        exact stop ⟨more,free⟩
      cases way : job.way with rw [way] at blocked
      | read => exact .inr (.inr (.inl ⟨rfl,blocked⟩))
      | write => exact .inr (.inr (.inr ⟨rfl,blocked⟩))
    · have := ok.bound
      exact .inl (by simp only; omega)
  | tryLast job moved usage =>
    have after := goto_inv (t := t) (signal_inv inv job.way.other) (b := .out) trivial
    refine ⟨after.at_point,after.kept,?_⟩
    intro r member
    rcases List.mem_cons.mp member with rfl | old
    · exact here
    · exact inv.tries r old

theorem tryLock_inv (inv : Inv width gdepth s) (ok : JobOk width job)
    (start : job.done = 0) : Inv width gdepth (tryLock s t job) := by
  unfold tryLock
  split
  · refine ⟨inv.at_point,inv.kept,?_⟩
    intro r member
    rcases List.mem_cons.mp member with rfl | old
    · exact ⟨rfl,.inr (.inl ⟨rfl,rfl⟩)⟩
    · exact inv.tries r old
  · exact ⟨goto_points inv.at_point (b := .tryLoop job []) ⟨ok,start.symm⟩ rfl,inv.kept, inv.tries⟩

theorem next_inv (items : width ∣ gdepth) (inv : Inv width gdepth s) (a : Act T B)
    (can : Enabled width s a) : Inv width gdepth (next width gdepth s a) := by
  cases a with
  | mwmr_read t len => exact goto_inv inv (start_ok .read can.2 (by simp))
  | mwmr_write t mem => exact goto_inv inv (start_ok .write can.2 (fun _ => rfl))
  | mwmr_try_read t len => exact tryLock_inv inv (start_ok .read can.2 (by simp)) rfl
  | mwmr_try_write t mem => exact tryLock_inv inv (start_ok .write can.2 (fun _ => rfl)) rfl
  | step t => exact step_inv items inv

theorem inv_reached (positive : 0 < gdepth) (items : width ∣ gdepth)
    (h : Reached (machine width gdepth T B) s) : Inv width gdepth s := by
  apply reached_invariant (Inv width gdepth) _ _ h
  · rintro s ⟨rptr,wptr,usage,_,_,out,inserted,removed,tries⟩
    constructor
    · intro t
      rw [out t]
      trivial
    · exact ⟨[],by rw [inserted, removed]; rfl,empty_represents positive rptr wptr usage⟩
    · simp [tries]
  · intro s a inv can
    exact next_inv items inv a can

theorem pthread_isQueue (positive : 0 < gdepth) (items : width ∣ gdepth)
    (h : Reached (machine width gdepth T B) s) :
    IsQueue gdepth width s.fifo s.inserted s.removed s.tries := by
  have inv := inv_reached positive items h
  obtain ⟨q,kept,represents⟩ := inv.kept
  exact isQueue_of_represents represents kept inv.tries

end

end MutekMwmrPthread
