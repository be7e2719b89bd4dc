import MutekH.SchedulerPlacement

/-!
Idle processors. A processor that finds nothing to run declares itself idle and
sleeps until an interrupt; a context pushed on the run queue takes one processor
off the idle list and sends it an interrupt. While a processor is listed idle,
every context of the run queue is accounted for by a processor that was taken
off the list and has not looked at the run queue since.
-/
namespace MutekSchedulerIdle
open Function (Injective update update_apply update_of_ne)
open List LibMachine MutekScheduler MutekSchedulerPlacement
variable {Cpu Ctx Queue Lock : Type}

structure IdleInv (idle : Cpu → Ctx) (s : State Cpu Ctx Queue Lock) : Prop where
  listed : s.idle_cpu.Nodup
  asleep : ∀ c ∈ s.idle_cpu, s.cur c = idle c ∧ ¬ HoldsRun (s.pc c)
  found : ∀ c ∈ s.idle_cpu, s.found c = true
  apart : ∀ c ∈ s.idle_cpu, c ∉ s.popped
  once : s.popped.Nodup
  woken : ∀ c ∈ s.popped, s.cur c = idle c ∧ s.pc c ≠ .declaring ∧ ∀ n, s.pc c ≠ .switching n
  declaring : ∀ c, s.pc c = .declaring → s.root = [] ∧ s.found c = true
  leaving : ∀ c, s.pc c = .switching (idle c) → s.root = [] ∧ s.found c = true
  count : s.idle_cpu ≠ [] → s.root.length ≤ s.popped.length
  sent : ∀ d ∈ s.popped, s.ipi d = true ∨ ∃ c, s.pc c = .posting d

attribute [local grind =] update_apply
attribute [local grind] HoldsRun

theorem candidate_length
    (h : sched_candidate_noidle fcn p root = (some n, rest)) : root.length = rest.length + 1 := by
  induction root generalizing rest with
  | nil => simp [sched_candidate_noidle] at h
  | cons y root ih => ?_
  simp only [sched_candidate_noidle] at h
  split at h
  · cases h
    rfl
  · cases found : sched_candidate_noidle fcn p root with
    | mk picked left =>
      simp only [found] at h
      obtain ⟨rfl,rfl⟩ := h
      simp [ih found]

section
variable [DecidableEq Cpu] {idle : Cpu → Ctx} {s : State Cpu Ctx Queue Lock}

omit [DecidableEq Cpu] in
theorem sent_of_posting (h : IdleInv idle s) {pc : Cpu → Pc Cpu Ctx Queue Lock}
    (kept : ∀ e d, s.pc e = .posting d → pc e = .posting d) (d : Cpu) (member : d ∈ s.popped) :
    s.ipi d = true ∨ ∃ c, pc c = .posting d := by
  rcases h.sent d member with ipi | ⟨e,posting⟩
  · exact .inl ipi
  · exact .inr ⟨e,kept e d posting⟩

omit [DecidableEq Cpu] in
theorem not_listed (h : IdleInv idle s) (holds : HoldsRun (s.pc c)) : c ∉ s.idle_cpu :=
  fun member => (h.asleep c member).2 holds

theorem posting_update (old : ∀ d, s.pc c ≠ .posting d)
    (e d : Cpu) (posting : s.pc e = .posting d) : update s.pc c b e = .posting d := by
  have other : e ≠ c := by
    intro same
    exact old d (same ▸ posting)
  simpa [update_of_ne other] using posting

section
variable (h : IdleInv idle s)
include h

theorem goto_idle (lock : Option Cpu)
    (wait : Queue → List Ctx) (old : ∀ d, s.pc c ≠ .posting d) (new : b ≠ .declaring)
    (stays : ∀ n, b ≠ .switching n) (calm : c ∈ s.idle_cpu → ¬ HoldsRun b) :
    IdleInv idle { s with lock := lock, wait := wait, pc := update s.pc c b } := by
  constructor
  · exact h.listed
  · intro d member
    have before := h.asleep d member
    grind
  · exact h.found
  · exact h.apart
  · exact h.once
  · intro d member
    have before := h.woken d member
    grind
  · intro d
    have before := h.declaring d
    grind
  · intro d
    have before := h.leaving d
    grind
  · exact h.count
  · exact sent_of_posting h (posting_update old)

theorem leave_idle (held : Guard Queue Lock → Option Cpu)
    (status : Ctx → Status) (off : c ∉ s.idle_cpu) (unpopped : c ∉ s.popped)
    (old : ∀ d, s.pc c ≠ .posting d) (alone : ∀ d, d ≠ c → ¬ HoldsRun (s.pc d))
    (shorter : rest.length ≤ s.root.length) (other : n ≠ idle c) :
    IdleInv idle { s with
      root := rest, lock := some c, held := held, status := status,
      pc := update s.pc c (.switching n) } := by
  constructor
  · exact h.listed
  · intro d member
    have before := h.asleep d member
    grind
  · exact h.found
  · exact h.apart
  · exact h.once
  · intro d member
    have before := h.woken d member
    grind
  · intro d
    grind
  · intro d
    grind
  · intro some_idle
    have before := h.count some_idle
    simp only
    omega
  · exact sent_of_posting h (posting_update old)

theorem rest_idle (held : Guard Queue Lock → Option Cpu) (status : Ctx → Status)
    (off : c ∉ s.idle_cpu) (unpopped : c ∉ s.popped) (old : ∀ d, s.pc c ≠ .posting d)
    (alone : ∀ d, d ≠ c → ¬ HoldsRun (s.pc d)) (empty : s.root = []) :
    IdleInv idle { s with
      lock := some c, held := held, status := status, found := update s.found c true,
      pc := update s.pc c (.switching (idle c)) } := by
  constructor
  · exact h.listed
  · intro d member
    have before := h.asleep d member
    grind
  · intro d member
    have before := h.found d member
    grind
  · exact h.apart
  · exact h.once
  · intro d member
    have before := h.woken d member
    grind
  · intro d
    grind
  · intro d
    grind
  · exact h.count
  · exact sent_of_posting h (posting_update old)

theorem push_idle [DecidableEq Ctx] {c : Cpu} {x : Ctx} (status : Ctx → Status)
    (free : ∀ d, ¬ HoldsRun (s.pc d)) (old : ∀ d, s.pc c ≠ .posting d) :
    IdleInv idle (sched_context_push idle { s with status := status } c x) := by
  unfold sched_context_push
  cases listed : s.idle_cpu with
  | nil =>
    simp only [goto]
    constructor
    · exact nodup_nil
    · simp
    · simp
    · simp
    · exact h.once
    · intro d member
      have before := h.woken d member
      grind [base]
    · intro d
      grind [base]
    · intro d
      have none_holds := free d
      grind [base]
    · simp
    · exact sent_of_posting h (posting_update old)
  | cons d rest =>
    have nodup := h.listed
    rw [listed] at nodup
    obtain ⟨out,nodup⟩ := nodup_cons.mp nodup
    have member : d ∈ s.idle_cpu := by simp [listed]
    have stays : ∀ e ∈ rest, e ∈ s.idle_cpu := by
      intro e later
      simp [listed, later]
    simp only [goto]
    constructor
    · exact nodup
    · intro e later
      have before := h.asleep e (stays e later)
      grind
    · intro e later
      have before := h.found e (stays e later)
      have other : e ≠ d := by
        intro same
        exact out (same ▸ later)
      simpa [update_of_ne other] using before
    · intro e later
      have before := h.apart e (stays e later)
      have other : e ≠ d := by
        intro same
        exact out (same ▸ later)
      simp [other, before]
    · exact nodup_cons.mpr ⟨h.apart d member,h.once⟩
    · intro e popped
      rcases mem_cons.mp popped with same | old_popped
      · have before := h.asleep d member
        grind
      · have before := h.woken e old_popped
        grind
    · intro e
      grind
    · intro e
      grind
    · intro _
      have before := h.count (by simp [listed])
      simp only [length_append, length_cons, length_nil]
      omega
    · intro e popped
      rcases mem_cons.mp popped with same | old_popped
      · exact .inr ⟨c,by simp [same]⟩
      · exact sent_of_posting h (posting_update old) e old_popped

theorem restore_idle (entered : Cpu → Bool)
    (switching : s.pc c = .switching n) (stays : ∀ m, b ≠ .switching m)
    (home : b = .declaring → n = idle c) :
    IdleInv idle { s with
      cur := update s.cur c n, entered := entered,
      pc := update s.pc c b } := by
  constructor
  · exact h.listed
  · intro d member
    have before := h.asleep d member
    grind
  · exact h.found
  · exact h.apart
  · exact h.once
  · intro d member
    have before := h.woken d member
    grind
  · intro d
    have before := h.declaring d
    have leaving := h.leaving c
    grind
  · intro d
    have before := h.leaving d
    grind
  · exact h.count
  · exact sent_of_posting h (posting_update (by simp [switching]))

theorem examine_idle [DecidableEq Ctx] {fcn : Bool}
    (plain : fcn = false) (examining : s.pc c = .examining)
    (alone : ∀ d, d ≠ c → ¬ HoldsRun (s.pc d)) (live : ∀ x ∈ s.root, x ≠ idle c) :
    IdleInv idle (idleExamine fcn p s c) := by
  have kept : ∀ d ∈ s.popped.erase c, d ∈ s.popped ∧ d ≠ c := by
    intro d member
    exact ⟨mem_of_mem_erase member,((h.once.mem_erase_iff).mp member).1⟩
  have fewer : s.popped.length ≤ (s.popped.erase c).length + 1 := by
    rw [length_erase]
    split <;> omega
  have sent : ∀ b : Pc Cpu Ctx Queue Lock, ∀ d ∈ s.popped.erase c, update s.ipi c false d = true ∨
        ∃ e, update s.pc c b e = .posting d := by
    intro b d member
    obtain ⟨popped,other⟩ := kept d member
    rw [update_of_ne other]
    exact sent_of_posting h (posting_update (by simp [examining])) d popped
  unfold idleExamine
  cases picked : sched_candidate_noidle fcn p s.root with
  | mk next rest =>
    cases next with
    | some n =>
      have length := candidate_length picked
      have other : n ≠ idle c := live n (candidate_mem picked)
      simp only [goto]
      constructor
      · exact h.listed
      · intro d member
        have before := h.asleep d member
        grind
      · exact h.found
      · intro d member popped
        exact h.apart d member (kept d popped).1
      · exact h.once.erase c
      · intro d member
        have before := h.woken d (kept d member).1
        grind
      · intro d
        grind
      · intro d
        have free := alone d
        grind
      · intro some_idle
        have before := h.count some_idle
        simp only
        omega
      · exact sent _
    | none =>
      have empty := candidate_none picked plain
      simp only [goto, empty]
      constructor
      · exact h.listed
      · intro d member
        have before := h.asleep d member
        grind
      · intro d member
        have before := h.found d member
        grind
      · intro d member popped
        exact h.apart d member (kept d popped).1
      · exact h.once.erase c
      · intro d member
        have before := h.woken d (kept d member).1
        grind
      · intro d
        grind
      · intro d
        grind
      · simp
      · exact sent _

theorem declare_idle (declaring : s.pc c = .declaring) (idles : s.cur c = idle c)
    (alone : ∀ d, d ≠ c → ¬ HoldsRun (s.pc d)) :
    IdleInv idle (idleDeclare s c) := by
  obtain ⟨empty,found⟩ := h.declaring c declaring
  have off := not_listed h (by rw [declaring]; trivial)
  have unpopped : c ∉ s.popped := fun member => (h.woken c member).2.1 declaring
  simp only [idleDeclare, goto]
  constructor
  · exact nodup_cons.mpr ⟨off,h.listed⟩
  · intro d member
    rcases mem_cons.mp member with same | old
    · simp [same, idles, HoldsRun]
    · have before := h.asleep d old
      grind
  · intro d member
    rcases mem_cons.mp member with same | old
    · exact same ▸ found
    · exact h.found d old
  · intro d member
    rcases mem_cons.mp member with same | old
    · exact same ▸ unpopped
    · exact h.apart d old
  · exact h.once
  · intro d member
    have before := h.woken d member
    grind
  · intro d
    grind
  · intro d
    grind
  · simp [empty]
  · exact sent_of_posting h (posting_update (by simp [declaring]))

theorem post_idle [DecidableEq Ctx] (posting : s.pc c = .posting d) :
    IdleInv idle (ipi_post idle s c) := by
  have free : ¬ HoldsRun (base idle s c) := (base_plain idle s c).2.1
  simp only [ipi_post, posting, goto]
  constructor
  · exact h.listed
  · intro e member
    have before := h.asleep e member
    grind
  · exact h.found
  · exact h.apart
  · exact h.once
  · intro e member
    have before := h.woken e member
    grind
  · intro e
    have before := h.declaring e
    grind
  · intro e
    have before := h.leaving e
    grind
  · exact h.count
  · intro e member
    by_cases same : e = d
    · exact .inl (by simp [same])
    rcases h.sent e member with ipi | ⟨f,there⟩
    · exact .inl (by simpa [update_of_ne same] using ipi)
    refine .inr ⟨f,?_⟩
    have other : f ≠ c := by
      intro self
      rw [self, posting, Pc.posting.injEq] at there
      exact same there.symm
    simpa [update_of_ne other] using there

end

end

section
variable [DecidableEq Cpu] [DecidableEq Ctx] [DecidableEq Queue] {idle : Cpu → Ctx}
  {s : State Cpu Ctx Queue Lock} {slot : Ctx → Slot Cpu Queue} {on : Ctx → Option Cpu}

section
variable (inv : Inv idle s slot on)
include inv

theorem alone_of_lock (mine : ∀ d, s.lock = some d → d = c) (d : Cpu) (other : d ≠ c) :
    ¬ HoldsRun (s.pc d) :=
  fun holds => other (mine d ((inv.lock_iff d).mpr holds))

theorem free_of_lock (free : s.lock = none) (d : Cpu) : ¬ HoldsRun (s.pc d) := by
  intro holds
  have lock := (inv.lock_iff d).mpr holds
  rw [free] at lock
  contradiction

theorem root_ne_idle (member : x ∈ s.root) (c : Cpu) : x ≠ idle c := by
  intro same
  exact ((placed_of_inv inv).idle_off c).1 (same ▸ member)

theorem candidate_idle (h : IdleInv idle s) (p : Ctx → Bool)
    (held : Guard Queue Lock → Option Cpu) (status : Ctx → Status)
    (mine : ∀ d, s.lock = some d → d = c) (live : s.cur c ≠ idle c)
    (old : ∀ d, s.pc c ≠ .posting d) :
    IdleInv idle (sched_candidate false idle p
      { s with lock := some c, held := held, status := status } c) := by
  have off : c ∉ s.idle_cpu := fun member => live (h.asleep c member).1
  have unpopped : c ∉ s.popped := fun member => live (h.woken c member).1
  have alone := alone_of_lock inv mine
  unfold sched_candidate
  cases picked : sched_candidate_noidle false p s.root with
  | mk next rest =>
    cases next with
    | some n =>
      have length := candidate_length picked
      have member := candidate_mem picked
      have shorter : rest.length ≤ s.root.length := by omega
      exact leave_idle h held status off unpopped old alone shorter (root_ne_idle inv member c)
    | none =>
      have empty := candidate_none picked rfl
      have left := rest_idle h held status off unpopped old alone empty
      simpa only [goto, empty, isEmpty_nil] using left

theorem switch_idle (h : IdleInv idle s) (p : Ctx → Bool) (running : s.pc c = .run)
    (free : s.lock = none) :
    IdleInv idle (sched_context_switch false p s c) := by
  have live : s.cur c ≠ idle c := inv.awake c (by rw [running]; trivial)
  unfold sched_context_switch
  cases picked : sched_candidate_noidle false p s.root with
  | mk next rest =>
    cases next with
    | none => exact h
    | some n => ?_
    have length := candidate_length picked
    have member := candidate_mem picked
    have same_length : (rest ++ [s.cur c]).length ≤ s.root.length := by simp [length]
    exact leave_idle h s.held s.status (fun member => live (h.asleep c member).1)
      (fun member => live (h.woken c member).1) (by simp [running])
      (alone_of_lock inv (by simp [free])) same_length (root_ne_idle inv member c)

end

omit [DecidableEq Cpu] [DecidableEq Ctx] in
theorem held_eq_release [DecidableEq Lock] (u : Option (Guard Queue Lock)) (c : Cpu) :
    lock_release (lockRun s c) u = { s with lock := some c, held := (lock_release s u).held } := by
  cases u <;> rfl

theorem step_idle [DecidableEq Lock] (inv : Inv idle s slot on) (h : IdleInv idle s)
    (can : Enabled idle s a) :
    IdleInv idle (step false idle s a) := by
  have unlisted : ∀ c, s.cur c ≠ idle c → c ∉ s.idle_cpu :=
    fun c live member => live (h.asleep c member).1
  cases a with
  | init x | acquire c g | release c g =>
    exact ⟨h.listed,h.asleep,h.found,h.apart,h.once,h.woken,h.declaring,h.leaving,h.count, h.sent⟩
  | start c x =>
    obtain ⟨calm,free,_⟩ := can
    exact push_idle h _ (free_of_lock inv free) (by
      rcases calm with run | sleeping
      · simp [run]
      · simp [sleeping])
  | switch c p => exact switch_idle inv h p can.1 can.2
  | lock c =>
    obtain ⟨running,free⟩ := can
    have live := inv.awake c (by rw [running]; trivial)
    exact goto_idle h (some c) s.wait (by simp [running]) (by simp) (by simp)
      (fun member => absurd member (unlisted c live))
  | unlock c =>
    have old : ∀ d, s.pc c ≠ .posting d := by
      rcases can with locked | resumed
      · simp [locked]
      · simp [resumed]
    exact goto_idle h none s.wait old (by simp) (by simp) (fun _ => id)
  | exit c p =>
    have locked : s.pc c = .locked := can
    have lock : s.lock = some c := (inv.lock_iff c).mpr (by rw [locked]; trivial)
    have live := inv.awake c (by rw [locked]; trivial)
    have left := candidate_idle inv h p s.held (update s.status (s.cur c) .exited)
      (alone_of_holds inv (by rw [locked]; trivial)) live
      (by simp [locked])
    rw [← lock] at left
    exact left
  | stop c u p =>
    obtain ⟨running,free,_⟩ := can
    have live := inv.awake c (by rw [running]; trivial)
    simp only [step, sched_context_stop, held_eq_release]
    exact candidate_idle inv h p _ _ (by simp [free]) live (by simp [running])
  | waitUnlock c q | waitCallback c q callback =>
    exact goto_idle h s.lock _ (by simp [can.1]) (by simp) (by simp) (fun _ => id)
  | waitSwitch c p =>
    obtain ⟨⟨q,u,queued⟩,free⟩ := can
    have live := inv.awake c (by rw [queued]; trivial)
    simp only [step, waitSwitch, queued, held_eq_release]
    exact candidate_idle inv h p _ s.status (by simp [free]) live (by simp [queued])
  | wake c q =>
    simp only [step, sched_wake]
    cases queue : s.wait q with
    | nil => exact h
    | cons x rest => ?_
    exact goto_idle h s.lock _ (by
      rcases can.1 with run | sleeping
      · simp [run]
      · simp [sleeping]) (by simp) (by simp) (fun _ => id)
  | wakePush c =>
    obtain ⟨⟨q,x,waking⟩,free⟩ := can
    simp only [step, wakePush, waking]
    exact push_idle h s.status (free_of_lock inv free) (by simp [waking])
  | post c =>
    obtain ⟨d,posting⟩ := can
    exact post_idle h posting
  | restore c =>
    obtain ⟨n,switching⟩ := can
    simp only [step, restore, switching]
    by_cases idles : n = idle c
    · simp only [idles]
      rw [idles] at switching
      exact restore_idle h _ switching (by split <;> simp) (fun _ => rfl)
    · simp only [idles]
      exact restore_idle h s.entered switching (by simp) (by simp)
  | idleCheck c =>
    obtain ⟨sleeping,_⟩ := can
    simp only [step, idleCheck]
    by_cases listed : c ∈ s.idle_cpu
    · simp only [listed]
      exact h
    · simp only [listed]
      exact goto_idle h (some c) s.wait (by simp [sleeping]) (by simp) (by simp)
        (fun member => absurd member listed)
  | idleExamine c p =>
    have examining : s.pc c = .examining := can
    exact examine_idle h rfl examining
      (alone_of_lock inv (alone_of_holds inv (by rw [examining]; trivial)))
      (fun x member => root_ne_idle inv member c)
  | idleDeclare c =>
    have declaring : s.pc c = .declaring := can
    exact declare_idle h declaring (inv.asleep c (by rw [declaring]; trivial))
      (alone_of_lock inv (alone_of_holds inv (by rw [declaring]; trivial)))

omit [DecidableEq Cpu] [DecidableEq Ctx] [DecidableEq Queue] in
theorem boot_idle (boot : Boot idle s) : IdleInv idle s := by
  constructor <;> simp [boot.idle_cpu, boot.popped, boot.pc]

theorem idle_reached [DecidableEq Lock] (inj : Injective idle)
    (h : Reached (machine false idle) s) : IdleInv idle s := by
  have keep : ∀ (t : State Cpu Ctx Queue Lock) (a : Act Cpu Ctx Queue Lock),
      ((∃ slot on, Inv idle t slot on) ∧ IdleInv idle t) → Enabled idle t a →
        (∃ slot on, Inv idle (step false idle t a) slot on) ∧
          IdleInv idle (step false idle t a) := by
    intro t a ⟨⟨slot,on,inv⟩,idles⟩ can
    exact ⟨step_inv inj inv can,step_idle inv idles can⟩
  exact (reached_invariant
    (fun t => (∃ slot on, Inv idle t slot on) ∧ IdleInv idle t)
    (fun t boot => ⟨boot_inv boot,boot_idle boot⟩) keep h).2

/-- Without candidate functions: a processor listed idle found the run queue empty and was not taken
    off the list since; while one is listed, the run queue is no longer than the list of processors
    taken off and not back yet, each of which was sent an interrupt or is about to be; so a queued
    context is never left with every other processor asleep. -/
theorem no_lost_wakeup [DecidableEq Lock] (inj : Injective idle)
    (h : Reached (machine false idle) s) :
    (∀ c ∈ s.idle_cpu, s.found c = true ∧ c ∉ s.popped) ∧
    (s.idle_cpu ≠ [] → s.root.length ≤ s.popped.length) ∧ s.popped.Nodup ∧
    (∀ d ∈ s.popped, s.ipi d = true ∨ ∃ c, s.pc c = .posting d) ∧
    ∀ c, (∃ d, d ≠ c) → (∀ d, d ≠ c → d ∈ s.idle_cpu) → s.root ≠ [] → s.popped ≠ [] := by
  have idles := idle_reached inj h
  refine ⟨fun c member => ⟨idles.found c member,idles.apart c member⟩,idles.count,idles.once,
    idles.sent,?_⟩
  intro c ⟨d,other⟩ asleep queued none_popped
  have some_idle : s.idle_cpu ≠ [] := ne_nil_of_mem (asleep d other)
  have count := idles.count some_idle
  rw [none_popped, length_nil, Nat.le_zero, length_eq_zero_iff] at count
  exact queued count

end

/-- A processor goes to sleep and is taken off the idle list by a push. -/
theorem no_lost_wakeup_push :
    let s := after (machine false idleOf) twoCpus
      [.lock true, .exit true (fun _ => true), .restore true, .idleExamine true (fun _ => true),
        .idleDeclare true, .init 7, .start false 7]
    s.root = [7] ∧ s.popped = [true] ∧
      (∀ d ∈ s.popped, s.ipi d = true ∨ ∃ c, s.pc c = .posting d) := by
  intro s
  have run : Run (machine false idleOf) twoCpus
      [.lock true, .exit true (fun _ => true), .restore true, .idleExamine true (fun _ => true),
        .idleDeclare true, .init 7, .start false 7] s := by
    refine Run.cons ⟨rfl,rfl⟩ (Run.cons rfl (Run.cons ⟨_,rfl⟩ (Run.cons rfl (Run.cons rfl ?_))))
    exact Run.cons ⟨rfl,by decide⟩ (Run.cons ⟨.inl rfl,rfl,rfl⟩ (Run.nil _))
  exact ⟨rfl,rfl,(no_lost_wakeup idleOf_injective ⟨twoCpus,twoCpus_boot,_,run⟩).2.2.2.1⟩

/-- With candidate functions a processor is listed idle although the run queue
    holds a context, which is not a candidate, and no interrupt is outstanding. -/
theorem idle_with_context_queued :
    let s := after (machine true idleOf) twoCpus
      [.init 7, .start false 7, .lock true, .exit true (fun _ => false), .restore true,
        .idleExamine true (fun _ => false), .idleDeclare true]
    Reached (machine true idleOf) s ∧ s.lock = none ∧ true ∈ s.idle_cpu ∧ s.found true = false ∧
      ¬ s.root.length ≤ s.popped.length := by
  intro s
  have run : Run (machine true idleOf) twoCpus
      [.init 7, .start false 7, .lock true, .exit true (fun _ => false), .restore true,
        .idleExamine true (fun _ => false), .idleDeclare true] s := by
    refine Run.cons ⟨rfl,by decide⟩ (Run.cons ⟨.inl rfl,rfl,rfl⟩ ?_)
    exact Run.cons ⟨rfl,rfl⟩ (Run.cons rfl (Run.cons ⟨_,rfl⟩ (Run.cons rfl (Run.cons rfl
      (Run.nil _)))))
  exact ⟨⟨twoCpus,twoCpus_boot,_,run⟩,rfl,by decide,rfl,by decide⟩

end MutekSchedulerIdle
