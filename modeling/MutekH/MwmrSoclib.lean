import MutekH.MwmrPthread

/-!
The MWMR FIFO shared with hardware. A critical section works on a copy of the status
words: it moves the longest contiguous pieces until the call is served or the FIFO is
empty or full, writes the words back and releases the lock; a blocking call that is
not served then comes back for the lock. A critical section is one step here, the
lock is taken in another.
-/
namespace MutekMwmrSoclib
open Function List LibMachine LibRing MutekMwmrQueue

/-- A call: `lensw` is what is left of its length, `mem` the bytes read so far or those
    still to write, `done` the count of the try calls. -/
structure Job (B : Type) where
  way : Way
  lensw : Nat
  mem : List B
  done : Nat
  deriving DecidableEq

/-- The local copy of the status words, with the buffer, which is used in place. -/
structure Local (B : Type) where
  view : Fifo B
  modified : Bool

inductive Pc (B : Type) where
  | out
  | lock (job : Job B)
  | inside (job : Job B)
  | tryInside (len : Nat) (job : Job B)
  deriving DecidableEq

structure State (T B : Type) where
  fifo : Fifo B
  lock : Bool
  pc : T → Pc B
  inserted : List B
  removed : List B
  tries : List (Try B)

section
variable {T B : Type} (width gdepth : Nat)

def rehash_status (f : Fifo B) : Local B := ⟨f, false⟩

def writeback_status (f : Fifo B) (status : Local B) : Fifo B :=
  if status.modified = true then status.view else { f with buffer := status.view.buffer }

def CanMove (f : Fifo B) : Way → Prop
  | .read => width ≤ f.usage
  | .write => f.usage < gdepth

instance (f : Fifo B) : (way : Way) → Decidable (CanMove width gdepth f way)
  | .read => inferInstanceAs (Decidable (width ≤ f.usage))
  | .write => inferInstanceAs (Decidable (f.usage < gdepth))

def chunkLen (f : Fifo B) : Way → Nat
  | .read => if f.rptr < f.wptr then f.usage else gdepth - f.rptr
  | .write => if f.rptr ≤ f.wptr then gdepth - f.wptr else gdepth - f.usage

def moveChunk (f : Fifo B) (job : Job B) : Fifo B × Job B × List B :=
  let len := min (chunkLen gdepth f job.way) job.lensw
  match job.way with
  | .read =>
    let r := getBlock gdepth f len
    (r.1, { job with lensw := job.lensw - len, mem := job.mem ++ r.2, done := job.done + len },
      r.2)
  | .write =>
    let block := job.mem.take len
    (putBlock gdepth f block,
      { job with lensw := job.lensw - len, mem := job.mem.drop len, done := job.done + len }, block)

def chunks : Nat → Local B → Job B → Local B × Job B × List B
  | 0, status, job => (status, job, [])
  | fuel + 1, status, job =>
    if job.lensw ≠ 0 ∧ CanMove width gdepth status.view job.way then
      let r := moveChunk gdepth status.view job
      let rest := chunks fuel ⟨r.1, true⟩ r.2.1
      (rest.1, rest.2.1, r.2.2 ++ rest.2.2)
    else (status, job, [])

def critical (f : Fifo B) (job : Job B) : Fifo B × Job B × List B :=
  let r := chunks width gdepth job.lensw (rehash_status f) job
  (writeback_status f r.1, r.2)

variable [DecidableEq T]

def goto (s : State T B) (t : T) (p : Pc B) : State T B :=
  { s with pc := update s.pc t p }

def runSection (s : State T B) (t : T) (job : Job B) (point : Job B → Pc B) : State T B :=
  let r := critical width gdepth s.fifo job
  { s with
    fifo := r.1
    lock := false
    inserted := if job.way = .write then s.inserted ++ r.2.2 else s.inserted
    removed := if job.way = .read then s.removed ++ r.2.2 else s.removed
    pc := update s.pc t (point r.2.1) }

def step (s : State T B) (t : T) : State T B :=
  match s.pc t with
  | .out => s
  | .lock job => { goto s t (.inside job) with lock := true }
  | .inside job =>
    runSection width gdepth s t job (fun job => if job.lensw ≠ 0 then .lock job else .out)
  | .tryInside len job =>
    let s' := runSection width gdepth s t job (fun _ => .out)
    let r := critical width gdepth s.fifo job
    { s' with tries := ⟨job.way, len, r.2.1.done, r.2.2, false, s'.fifo.usage⟩ :: s.tries }

def tryLock (s : State T B) (t : T) (job : Job B) : State T B :=
  if s.lock = true then
    { s with tries := ⟨job.way, job.lensw, 0, [], true, s.fifo.usage⟩ :: s.tries }
  else { goto s t (.tryInside job.lensw job) with lock := true }

inductive Act (T B : Type) where
  | mwmr_read (t : T) (lensw : Nat)
  | mwmr_write (t : T) (mem : List B)
  | mwmr_try_read (t : T) (lensw : Nat)
  | mwmr_try_write (t : T) (mem : List B)
  | step (t : T)

def next (s : State T B) : Act T B → State T B
  | .mwmr_read t lensw => goto s t (.lock ⟨.read, lensw, [], 0⟩)
  | .mwmr_write t mem => goto s t (.lock ⟨.write, mem.length, mem, 0⟩)
  | .mwmr_try_read t lensw => tryLock s t ⟨.read, lensw, [], 0⟩
  | .mwmr_try_write t mem => tryLock s t ⟨.write, mem.length, mem, 0⟩
  | .step t => step width gdepth s t

def Ready (s : State T B) : Pc B → Prop
  | .out => False
  | .lock _ => s.lock = false
  | _ => True

def Enabled (s : State T B) : Act T B → Prop
  | .mwmr_read t len | .mwmr_try_read t len => s.pc t = .out ∧ width ∣ len
  | .mwmr_write t mem | .mwmr_try_write t mem => s.pc t = .out ∧ width ∣ mem.length
  | .step t => Ready s (s.pc t)

def Boot (s : State T B) : Prop :=
  s.fifo.rptr = 0 ∧ s.fifo.wptr = 0 ∧ s.fifo.usage = 0 ∧ s.lock = false ∧
  (∀ t, s.pc t = .out) ∧ s.inserted = [] ∧ s.removed = [] ∧ s.tries = []

def machine (T B : Type) [DecidableEq T] : Machine (State T B) (Act T B) where
  start := Boot
  enabled := Enabled width
  next := next width gdepth

omit [DecidableEq T] in
instance (s : State T B) : (p : Pc B) → Decidable (Ready s p)
  | .out => isFalse id
  | .lock _ => inferInstanceAs (Decidable (s.lock = false))
  | .inside _ | .tryInside _ _ => isTrue trivial

instance [DecidableEq B] (s : State T B) : (a : Act T B) →
    Decidable ((machine width gdepth T B).enabled s a)
  | .mwmr_read _ _ | .mwmr_try_read _ _ => instDecidableAnd
  | .mwmr_write _ _ | .mwmr_try_write _ _ => instDecidableAnd
  | .step t => inferInstanceAs (Decidable (Ready s (s.pc t)))

end

section
variable {T B : Type} {width gdepth : Nat} {f : Fifo B} {q : List B} {job : Job B}

structure JobOk (width : Nat) (job : Job B) : Prop where
  len : width ∣ job.lensw
  source : job.way = .write → job.mem.length = job.lensw

section
variable (h : Represents gdepth width f q)
include h

theorem wptr_place : f.wptr = f.rptr + f.usage ∧ f.rptr + f.usage < gdepth ∨
      f.wptr + gdepth = f.rptr + f.usage := by
  have low := h.rptr
  have bound := h.bound
  rw [h.wptr]
  by_cases inside : f.rptr + f.usage < gdepth
  · exact .inl ⟨Nat.mod_eq_of_lt inside,inside⟩
  · apply Or.inr
    rw [Nat.mod_eq_sub_mod (by omega), Nat.mod_eq_of_lt (by omega)]
    omega

theorem readLen_fits (some_bytes : 0 < f.usage) :
    0 < chunkLen gdepth f .read ∧ chunkLen gdepth f .read ≤ f.usage ∧
      f.rptr + chunkLen gdepth f .read ≤ gdepth := by
  have low := h.rptr
  have bound := h.bound
  have place := wptr_place h
  simp only [chunkLen]
  split <;> omega

theorem writeLen_fits (some_room : f.usage < gdepth) :
    0 < chunkLen gdepth f .write ∧ f.usage + chunkLen gdepth f .write ≤ gdepth ∧
      f.wptr + chunkLen gdepth f .write ≤ gdepth := by
  have low := h.rptr
  have place := wptr_place h
  simp only [chunkLen]
  split <;> omega

end

theorem chunkLen_items (items : width ∣ gdepth) (h : Represents gdepth width f q) (way : Way) :
    width ∣ chunkLen gdepth f way := by
  cases way with simp only [chunkLen]
  | read =>
    split
    · exact h.usage_items
    · exact Nat.dvd_sub items h.rptr_items
  | write =>
    split
    · exact Nat.dvd_sub items (wptr_items items h)
    · exact Nat.dvd_sub items h.usage_items

structure Moved (width : Nat) (job job' : Job B) (q q' block : List B) : Prop where
  ok : JobOk width job'
  way : job'.way = job.way
  left : job'.lensw + block.length = job.lensw
  done : job'.done = job.done + block.length
  front : job.way = .read → q = block ++ q'
  back : job.way = .write → q' = q ++ block

theorem moved_nothing (ok : JobOk width job) : Moved width job job q q [] :=
  ⟨ok, rfl, rfl, rfl, fun _ => rfl, fun _ => (append_nil q).symm⟩

theorem moved_append
    (first : Moved width job job₁ q q₁ block₁) (second : Moved width job₁ job₂ q₁ q₂ block₂) :
    Moved width job job₂ q q₂ (block₁ ++ block₂) where
  ok := second.ok
  way := second.way.trans first.way
  left := by
    have := first.left
    have := second.left
    rw [length_append]
    omega
  done := by
    have := first.done
    have := second.done
    rw [length_append]
    omega
  front := by
    intro way
    rw [first.front way, second.front (first.way.trans way), append_assoc]
  back := by
    intro way
    rw [second.back (first.way.trans way), first.back way, append_assoc]

theorem moveChunk_moved (items : width ∣ gdepth) (positive : 0 < width)
    (h : Represents gdepth width f q) (ok : JobOk width job) (more : job.lensw ≠ 0)
    (can : CanMove width gdepth f job.way) :
    ∃ q', Represents gdepth width (moveChunk gdepth f job).1 q' ∧
      Moved width job (moveChunk gdepth f job).2.1 q q' (moveChunk gdepth f job).2.2 ∧
      0 < (moveChunk gdepth f job).2.2.length := by
  have whole : width ∣ min (chunkLen gdepth f job.way) job.lensw := by
    rcases Nat.le_total (chunkLen gdepth f job.way) job.lensw with less | more
    · rw [Nat.min_eq_left less]
      exact chunkLen_items items h job.way
    · rw [Nat.min_eq_right more]
      exact ok.len
  have left : width ∣ job.lensw - min (chunkLen gdepth f job.way) job.lensw :=
    Nat.dvd_sub ok.len whole
  cases way : job.way with rw [way] at can whole left
  | read =>
    obtain ⟨some_cells,held,straight⟩ := readLen_fits h (Nat.lt_of_lt_of_le positive can)
    obtain ⟨rest,front,represents⟩ := get_represents items h
      (Nat.le_trans (Nat.min_le_left _ _) held) (by omega) whole
    have size : (getBlock gdepth f (min (chunkLen gdepth f .read) job.lensw)).2.length =
        min (chunkLen gdepth f .read) job.lensw := copyOut_length ..
    simp only [moveChunk, way]
    refine ⟨rest,represents,⟨⟨left,by simp⟩,way.symm,?_,?_,fun _ => front,?_⟩,?_⟩
    · rw [size]
      simp only
      omega
    · rw [size]
    · intro write
      simp [way] at write
    · rw [size]
      omega
  | write =>
    obtain ⟨some_room,room,straight⟩ := writeLen_fits h can
    have source := ok.source way
    have size : (job.mem.take (min (chunkLen gdepth f .write) job.lensw)).length =
        min (chunkLen gdepth f .write) job.lensw := by
      rw [length_take]
      omega
    simp only [moveChunk, way]
    refine ⟨_,put_represents h (by omega) (by omega) (by rwa [size]),
      ⟨⟨left,?_⟩,way.symm,?_,?_,?_,fun _ => rfl⟩,?_⟩
    · intro _
      simp [source]
    · rw [size]
      simp only
      omega
    · rw [size]
    · intro read
      simp [way] at read
    · rw [size]
      omega

theorem chunks_moved (items : width ∣ gdepth) (positive : 0 < width) (fuel : Nat) :
    ∀ (status : Local B) {job : Job B} {q : List B}, Represents gdepth width status.view q →
      JobOk width job → job.lensw ≤ fuel →
      ∃ q', Represents gdepth width (chunks width gdepth fuel status job).1.view q' ∧
        Moved width job (chunks width gdepth fuel status job).2.1 q q'
          (chunks width gdepth fuel status job).2.2 ∧
        ((chunks width gdepth fuel status job).2.1.lensw = 0 ∨
          ¬ CanMove width gdepth (chunks width gdepth fuel status job).1.view job.way) := by
  induction fuel with intro status job q h ok enough
  | zero => exact ⟨q,h,moved_nothing ok,.inl (Nat.le_zero.mp enough)⟩
  | succ fuel ih =>
    unfold chunks
    split
    · rename_i go
      obtain ⟨q₁,after,moved,some_bytes⟩ := moveChunk_moved items positive h ok go.1 go.2
      have left := moved.left
      obtain ⟨q₂,final,rest,ended⟩ := ih ⟨(moveChunk gdepth status.view job).1,true⟩
        after moved.ok (by omega)
      rw [moved.way] at ended
      exact ⟨q₂,final,moved_append moved rest,ended⟩
    · rename_i stop
      refine ⟨q,h,moved_nothing ok,?_⟩
      by_cases served : job.lensw = 0
      · exact .inl served
      · exact .inr (fun can => stop ⟨served,can⟩)

theorem chunks_modified (fuel : Nat) : ∀ {status : Local B} {job : Job B}, status.modified = true →
      (chunks width gdepth fuel status job).1.modified = true := by
  induction fuel with intro status job marked
  | zero => exact marked
  | succ fuel ih =>
    unfold chunks
    split
    · exact ih rfl
    · exact marked

theorem writeback_view (fuel : Nat) (f : Fifo B) (job : Job B) :
    writeback_status f (chunks width gdepth fuel (rehash_status f) job).1 =
      (chunks width gdepth fuel (rehash_status f) job).1.view := by
  cases fuel with
  | zero => rfl
  | succ fuel => ?_
  unfold chunks
  split
  · rw [writeback_status, if_pos (chunks_modified fuel rfl)]
  · rfl

theorem critical_moved (items : width ∣ gdepth) (positive : 0 < width)
    (h : Represents gdepth width f q) (ok : JobOk width job) :
    ∃ q', Represents gdepth width (critical width gdepth f job).1 q' ∧
      Moved width job (critical width gdepth f job).2.1 q q' (critical width gdepth f job).2.2 ∧
      ((critical width gdepth f job).2.1.lensw = 0 ∨
        ¬ CanMove width gdepth (critical width gdepth f job).1 job.way) := by
  simp only [critical, writeback_view]
  exact chunks_moved items positive job.lensw (rehash_status f) h ok (Nat.le_refl _)

def At (width : Nat) : Pc B → Prop
  | .out => True
  | .lock job | .inside job => JobOk width job
  | .tryInside len job => JobOk width job ∧ job.lensw = len ∧ job.done = 0

structure Inv (width gdepth : Nat) (s : State T B) : Prop where
  at_point : ∀ t, At width (s.pc t)
  kept : ∃ q, s.inserted = s.removed ++ q ∧ Represents gdepth width s.fifo q
  tries : ∀ r ∈ s.tries, Explained gdepth r

variable [DecidableEq T] {s : State T B} {t : T}

theorem goto_points {b : Pc B} {s' : State T B} (old : ∀ t, At width (s.pc t))
    (here : At width b) (moved : s'.pc = update s.pc t b) : ∀ t, At width (s'.pc t) := by
  rw [moved]
  exact (forall_update_iff s.pc (fun _ p => At width p)).mpr ⟨here,fun y _ => old y⟩

section
variable (items : width ∣ gdepth) (positive : 0 < width)
include items positive

theorem runSection_inv (inv : Inv width gdepth s) (ok : JobOk width job) (point : Job B → Pc B)
    (here : ∀ job', JobOk width job' → At width (point job')) :
    Inv width gdepth (runSection width gdepth s t job point) := by
  obtain ⟨q,kept,represents⟩ := inv.kept
  obtain ⟨q',after,moved,_⟩ := critical_moved items positive represents ok
  constructor
  · exact goto_points inv.at_point (here _ moved.ok) rfl
  · refine ⟨q',?_,after⟩
    cases way : job.way with
    | read => simp [runSection, way, kept, moved.front way]
    | write => simp [runSection, way, kept, moved.back way]
  · exact inv.tries

theorem critical_explained
    (h : Represents gdepth width f q) (ok : JobOk width job) (start : job.done = 0) :
    Explained gdepth ⟨job.way, job.lensw, (critical width gdepth f job).2.1.done,
      (critical width gdepth f job).2.2, false, (critical width gdepth f job).1.usage⟩ := by
  obtain ⟨q',after,moved,ended⟩ := critical_moved items positive h ok
  have done := moved.done
  have left := moved.left
  refine ⟨by simp only; omega,?_⟩
  rcases ended with served | stuck
  · exact .inl (by simp only; omega)
  apply Or.inr
  apply Or.inr
  cases way : job.way with rw [way] at stuck
  | read =>
    have few : ¬ width ≤ (critical width gdepth f job).1.usage := stuck
    refine .inl ⟨rfl,?_⟩
    by_contra some_bytes
    exact few (Nat.le_of_dvd (Nat.pos_of_ne_zero some_bytes) after.usage_items)
  | write =>
    have full : ¬ (critical width gdepth f job).1.usage < gdepth := stuck
    exact .inr ⟨rfl,Nat.le_antisymm after.bound (Nat.le_of_not_lt full)⟩

theorem step_inv (inv : Inv width gdepth s) : Inv width gdepth (step width gdepth s t) := by
  have here := inv.at_point t
  unfold step
  cases point : s.pc t with rw [point] at here
  | out => exact inv
  | lock job => exact ⟨goto_points inv.at_point (b := .inside job) here rfl,inv.kept,inv.tries⟩
  | inside job =>
    apply runSection_inv items positive inv here
    intro job' ok
    split
    · exact ok
    · trivial
  | tryInside len job =>
    obtain ⟨ok,rfl,start⟩ := here
    have after := runSection_inv (t := t) items positive inv ok (fun _ => .out) (fun _ _ => trivial)
    refine ⟨after.at_point,after.kept,?_⟩
    intro r member
    rcases mem_cons.mp member with rfl | old
    · obtain ⟨q,_,represents⟩ := inv.kept
      exact critical_explained items positive represents ok start
    · exact inv.tries r old

omit items positive in
theorem tryLock_inv (inv : Inv width gdepth s) (ok : JobOk width job) (start : job.done = 0) :
    Inv width gdepth (tryLock s t job) := by
  unfold tryLock
  split
  · refine ⟨inv.at_point,inv.kept,?_⟩
    intro r member
    rcases mem_cons.mp member with rfl | old
    · exact ⟨rfl,.inr (.inl ⟨rfl,rfl⟩)⟩
    · exact inv.tries r old
  · exact ⟨goto_points inv.at_point (b := .tryInside job.lensw job) ⟨ok,rfl,start⟩ rfl,
      inv.kept,inv.tries⟩

theorem next_inv (inv : Inv width gdepth s)
    (a : Act T B) (can : Enabled width s a) : Inv width gdepth (next width gdepth s a) := by
  have call : ∀ {t job}, JobOk width job → Inv width gdepth (goto s t (.lock job)) :=
    fun {t job} ok => ⟨goto_points inv.at_point (b := .lock job) ok rfl,inv.kept,inv.tries⟩
  cases a with
  | mwmr_read t len => exact call ⟨can.2,by simp⟩
  | mwmr_write t mem => exact call ⟨can.2,fun _ => rfl⟩
  | mwmr_try_read t len => exact tryLock_inv inv ⟨can.2,by simp⟩ rfl
  | mwmr_try_write t mem => exact tryLock_inv inv ⟨can.2,fun _ => rfl⟩ rfl
  | step t => exact step_inv items positive inv

end

theorem soclib_isQueue (positive : 0 < gdepth) (items : width ∣ gdepth)
    (h : Reached (machine width gdepth T B) s) :
    IsQueue gdepth width s.fifo s.inserted s.removed s.tries := by
  have some_width : 0 < width := Nat.pos_of_dvd_of_pos items positive
  have inv : Inv width gdepth s := by
    apply reached_invariant (Inv width gdepth) _ _ h
    · rintro s ⟨rptr,wptr,usage,_,out,inserted,removed,tries⟩
      constructor
      · intro t
        rw [out t]
        trivial
      · exact ⟨[],by rw [inserted, removed]; rfl,empty_represents positive rptr wptr usage⟩
      · simp [tries]
    · intro s a inv can
      exact next_inv items some_width inv a can
  obtain ⟨q,kept,represents⟩ := inv.kept
  exact isQueue_of_represents represents kept inv.tries

end

def empty : State Nat Nat where
  fifo := ⟨0, 0, 0, fun _ => 0⟩
  lock := false
  pc _ := .out
  inserted := []
  removed := []
  tries := []

def pthreadRun : MutekMwmrPthread.State Nat Nat :=
  after (MutekMwmrPthread.machine 2 4 Nat Nat) MutekMwmrPthread.empty
    [.mwmr_write 0 [1, 2, 3, 4, 5, 6], .step 0, .step 0, .step 0, .step 0, .step 0, .step 0,
      .mwmr_try_read 1 2, .step 1, .step 1, .step 1]

def soclibRun : State Nat Nat :=
  after (machine 2 4 Nat Nat) empty
    [.mwmr_write 0 [1, 2, 3, 4, 5, 6], .step 0, .step 0, .mwmr_try_read 1 2, .step 1]

end MutekMwmrSoclib
