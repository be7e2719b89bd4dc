import MutekH.Scheduler

/-!
Where a context is. A context is queued before its registers are saved, and the
lock that protects it is released only after the switch, by the context switched
to. So a context has two coordinates: the queue that lists it and the processor
that has it; it has both only while the processor holds a lock that keeps the
others off the queue.
-/
namespace MutekSchedulerPlacement
open Function (Injective update update_apply update_eq_self update_of_ne update_self)
open Option List LibMachine MutekScheduler
variable {Cpu Ctx Queue Lock : Type} [DecidableEq Cpu] [DecidableEq Ctx] [DecidableEq Queue]

def OnCpu (s : State Cpu Ctx Queue Lock) (c : Cpu) (x : Ctx) : Prop :=
  s.cur c = x ∨ s.pc c = .switching x

inductive Place (Cpu Queue : Type) where
  | cpu (c : Cpu)
  | run
  | wait (q : Queue)
  | stopped

/-- A context that no processor has any more is where it is listed. What `sched_wake` has popped and
    not pushed yet is still with the wait queue, whose lock the caller holds. -/
def At (s : State Cpu Ctx Queue Lock) (x : Ctx) : Place Cpu Queue → Prop
  | .cpu c => OnCpu s c x
  | .run => (∀ c, ¬ OnCpu s c x) ∧ s.root.count x = 1
  | .wait q => (∀ c, ¬ OnCpu s c x) ∧
      ((s.wait q).count x = 1 ∨ ∃ c, s.pc c = .waking q x ∧ s.held (.queue q) = some c)
  | .stopped => (∀ c, ¬ OnCpu s c x) ∧ s.status x = .stopped

structure Placed (idle : Cpu → Ctx) (s : State Cpu Ctx Queue Lock) : Prop where
  place : ∀ x, s.status x = .stopped ∨ s.status x = .active → ∃! p, At s x p
  single : ∀ c d x, OnCpu s c x → OnCpu s d x → c = d
  once : ∀ x, s.root.count x ≤ 1 ∧ ∀ q, (s.wait q).count x ≤ 1
  apart : ∀ x q, x ∈ s.wait q → x ∉ s.root ∧ ∀ q', x ∈ s.wait q' → q' = q
  idle_off : ∀ c, idle c ∉ s.root ∧ ∀ q, idle c ∉ s.wait q
  leaving : ∀ c x, OnCpu s c x → (x ∈ s.root → s.lock = some c) ∧
    ∀ q, x ∈ s.wait q → s.lock = some c ∨ s.held (.queue q) = some c

inductive Slot (Cpu Queue : Type) where
  | none
  | run
  | wait (q : Queue)
  | hand (c : Cpu) (q : Queue)
  deriving DecidableEq

def HoldsRun : Pc Cpu Ctx Queue Lock → Prop
  | .locked => True
  | .switching _ => True
  | .resumed => True
  | .examining => True
  | .declaring => True
  | _ => False

def InIdle : Pc Cpu Ctx Queue Lock → Prop
  | .examining => True
  | .declaring => True
  | .sleeping => True
  | _ => False

def InContext : Pc Cpu Ctx Queue Lock → Prop
  | .run => True
  | .locked => True
  | .resumed => True
  | .queued _ _ => True
  | _ => False

structure Inv (idle : Cpu → Ctx) (s : State Cpu Ctx Queue Lock) (slot : Ctx → Slot Cpu Queue)
    (on : Ctx → Option Cpu) : Prop where
  root : ∀ x, s.root.count x = if slot x = .run then 1 else 0
  wait : ∀ q x, (s.wait q).count x = if slot x = .wait q then 1 else 0
  hand : ∀ c q x, s.pc c = .waking q x ↔ slot x = .hand c q
  on_iff : ∀ c x, OnCpu s c x ↔ on x = some c
  next : ∀ c n, s.pc c = .switching n →
    s.cur c ≠ n ∧ slot n = .none ∧ (s.status n = .active ∨ n = idle c)
  leaving : ∀ c, slot (s.cur c) ≠ .none →
    (∃ q u, s.pc c = .queued q u ∧ slot (s.cur c) = .wait q) ∨ ∃ n, s.pc c = .switching n
  queued : ∀ c q u, s.pc c = .queued q u → slot (s.cur c) = .wait q ∧
    s.held (.queue q) = some c ∧ ∀ g, u = some g → s.held g = some c
  waker : ∀ c q x, s.pc c = .waking q x → s.held (.queue q) = some c
  placed : ∀ x, s.status x = .active → slot x ≠ .none ∨ on x ≠ none
  alive : ∀ x, slot x ≠ .none → s.status x = .active
  current : ∀ c, s.status (s.cur c) = .active ∨ s.cur c = idle c ∨ ∃ n, s.pc c = .switching n
  gone : ∀ c n, s.pc c = .switching n → s.status (s.cur c) = .active → slot (s.cur c) ≠ .none
  absent : ∀ c, s.status (idle c) = .absent
  home : ∀ c d, on (idle c) = some d → d = c
  lock_iff : ∀ c, s.lock = some c ↔ HoldsRun (s.pc c)
  asleep : ∀ c, InIdle (s.pc c) → s.cur c = idle c
  awake : ∀ c, InContext (s.pc c) → s.cur c ≠ idle c

attribute [local grind =] update_apply
attribute [local grind] OnCpu HoldsRun InIdle InContext

section
variable {rest root : List Ctx} {fcn : Bool} {p : Ctx → Bool} {n : Ctx}
  (h : sched_candidate_noidle fcn p root = (some n, rest))
include h

theorem candidate_some : ∀ x, root.count x = rest.count x + if n = x then 1 else 0 := by
  induction root generalizing rest with
  | nil => simp [sched_candidate_noidle] at h
  | cons y root ih => ?_
  intro x
  simp only [sched_candidate_noidle] at h
  split at h
  · cases h
    rw [count_cons]
    simp
  cases found : sched_candidate_noidle fcn p root with
  | mk picked left =>
    simp only [found] at h
    obtain ⟨rfl,rfl⟩ := h
    rw [count_cons, count_cons, ih found x]
    omega

theorem candidate_mem : n ∈ root := by
  have counts := candidate_some h n
  simp only [↓reduceIte] at counts
  exact count_pos_iff.mp (by omega)

end

omit [DecidableEq Ctx] in
theorem candidate_none {fcn : Bool} {p : Ctx → Bool} {root rest : List Ctx}
    (h : sched_candidate_noidle fcn p root = (none, rest)) : fcn = false → root = [] := by
  intro plain
  cases root with
  | nil => rfl
  | cons y root => simp [sched_candidate_noidle, plain] at h

section
variable {idle : Cpu → Ctx} {s : State Cpu Ctx Queue Lock} {slot : Ctx → Slot Cpu Queue}
  {on : Ctx → Option Cpu}

theorem history_inv (inv : Inv idle s slot on) (idle_cpu : List Cpu) (entered found : Cpu → Bool)
    (popped : List Cpu) (ipi : Cpu → Bool) :
    Inv idle { s with idle_cpu := idle_cpu, entered := entered, found := found, popped := popped,
                      ipi := ipi } slot on :=
  ⟨inv.root, inv.wait, inv.hand, inv.on_iff, inv.next, inv.leaving, inv.queued, inv.waker,
    inv.placed, inv.alive, inv.current, inv.gone, inv.absent, inv.home, inv.lock_iff, inv.asleep,
    inv.awake⟩

variable {c : Cpu}

theorem no_switch (inv : Inv idle s slot on) (alone : ∀ d, s.lock = some d → d = c)
    (here : ∀ n, s.pc c ≠ .switching n) (d : Cpu) (n : Ctx) : s.pc d ≠ .switching n := by
  intro there
  have holds : s.lock = some d := (inv.lock_iff d).mpr (by rw [there]; trivial)
  exact here n (alone d holds ▸ there)

theorem still_of_free (inv : Inv idle s slot on) (free : s.lock = none) (d : Cpu) (n : Ctx) :
    s.pc d ≠ .switching n := by
  intro there
  have holds := (inv.lock_iff d).mpr (by rw [there]; trivial)
  rw [free] at holds
  contradiction

theorem alone_of_holds (inv : Inv idle s slot on) (holds : HoldsRun (s.pc c)) (d : Cpu)
    (held : s.lock = some d) :
    d = c := by
  rw [(inv.lock_iff c).mpr holds, some.injEq] at held
  exact held.symm

variable {x : Ctx}

section
variable (inv : Inv idle s slot on)
include inv

theorem ne_idle_of_status (present : s.status x ≠ .absent) (d : Cpu) : x ≠ idle d := by
  rintro rfl
  exact present (inv.absent d)

theorem listed_off (still : ∀ d n, s.pc d ≠ .switching n) (listed : slot x ≠ .none)
    (not_wait : ∀ q, slot x ≠ .wait q) : on x = none := by
  by_contra some_cpu
  obtain ⟨d,here⟩ := ne_none_iff_exists'.mp some_cpu
  rcases (inv.on_iff d x).mpr here with cur | next
  · subst cur
    rcases inv.leaving d listed with ⟨q,u,_,waits⟩ | ⟨n,switching⟩
    · exact not_wait q waits
    · exact still d n switching
  · exact still d x next

theorem cur_on (c : Cpu) : on (s.cur c) = some c :=
  (inv.on_iff c _).mp (.inl rfl)

theorem cur_inj (same : s.cur c = s.cur d) : c = d := by
  have first := cur_on inv c
  rw [same, cur_on inv d] at first
  exact (some.inj first).symm

theorem slot_ne_run_of_cur (here : ∀ n, s.pc c ≠ .switching n) : slot (s.cur c) ≠ .run := by
  intro listed
  rcases inv.leaving c (by simp [listed]) with ⟨q,u,_,waits⟩ | ⟨n,switching⟩
  · rw [listed] at waits
    contradiction
  · exact here n switching

theorem active_of_run (live : s.cur c ≠ idle c) (here : ∀ n, s.pc c ≠ .switching n) :
    s.status (s.cur c) = .active := by
  rcases inv.current c with active | idles | ⟨n,switching⟩
  · exact active
  · exact absurd idles live
  · exact absurd switching (here n)

theorem unlisted_of_run (here : ∀ n, s.pc c ≠ .switching n) (away : ∀ q u, s.pc c ≠ .queued q u) :
    slot (s.cur c) = .none := by
  by_contra listed
  rcases inv.leaving c listed with ⟨q,u,queued,_⟩ | ⟨n,switching⟩
  · exact away q u queued
  · exact here n switching

omit [DecidableEq Ctx] inv in
theorem slot_of_count (count : k = if slot x = y then 1 else 0)
    (positive : 0 < k) : slot x = y := by
  by_contra other
  rw [count, if_neg other] at positive
  contradiction

theorem slot_of_root (member : x ∈ s.root) : slot x = .run :=
  slot_of_count (inv.root x) (count_pos_iff.mpr member)

theorem slot_of_wait {q : Queue} (member : x ∈ s.wait q) : slot x = .wait q :=
  slot_of_count (inv.wait q x) (count_pos_iff.mpr member)

/-- The processor leaves its current context for `n`, with the lock of the run queue. The context it
    leaves gets the queue coordinate `dest` and the status `st`. -/
theorem leave_inv {n : Ctx} (root : List Ctx) (dest : Slot Cpu Queue) (st : Status)
    (alone : ∀ d, s.lock = some d → d = c) (here : ∀ n, s.pc c ≠ .switching n)
    (busy : ∀ q x, s.pc c ≠ .waking q x) (off : on n = none)
    (fit : s.status n = .active ∨ n = idle c) (home : ∀ d, n = idle d → d = c)
    (settled : st = .active ↔ dest ≠ .none) (own : s.cur c = idle c → st = .absent)
    (to_wait : ∀ q, slot (s.cur c) = .wait q ↔ dest = .wait q) (to_hand : ∀ d q, dest ≠ .hand d q)
    (away : ∀ q, slot n ≠ .wait q) (free : ∀ d q, slot n ≠ .hand d q)
    (counts : ∀ x, root.count x = if update (update slot n .none) (s.cur c) dest x =
      .run then 1 else 0) :
    Inv idle { s with
        root := root
        lock := some c
        pc := update s.pc c (.switching n)
        status := update s.status (s.cur c) st }
      (update (update slot n .none) (s.cur c) dest)
      (update on n (some c)) := by
  have still := no_switch inv alone here
  have on_cur := cur_on inv c
  have slot_cur : ∀ d q, slot (s.cur c) ≠ .hand d q := by
    intro d q held
    rcases inv.leaving c (by simp [held]) with ⟨_,_,_,waits⟩ | ⟨m,switching⟩
    · rw [held] at waits
      contradiction
    · exact here m switching
  constructor
  · exact counts
  · intro q x
    have old := inv.wait q x
    grind
  · intro d q x
    have old := inv.hand d q x
    grind
  · intro d x
    have old := inv.on_iff d x
    grind
  · intro d m
    grind
  · intro d listed
    by_cases same : d = c
    · exact .inr ⟨n,by simp [same]⟩
    · have distinct : s.cur d ≠ s.cur c := fun h => same (cur_inj inv h)
      have old := inv.leaving d
      grind
  · intro d q u
    have old := inv.queued d q u
    grind
  · intro d q x
    have old := inv.waker d q x
    grind
  · intro x
    have old := inv.placed x
    grind
  · intro x
    have old := inv.alive x
    grind
  · intro d
    by_cases same : d = c
    · exact .inr (.inr ⟨n,by simp [same]⟩)
    · have distinct : s.cur d ≠ s.cur c := fun h => same (cur_inj inv h)
      have old := inv.current d
      grind
  · intro d m
    grind
  · intro d
    have old := inv.absent d
    have at_home := inv.home d c
    grind
  · intro d e
    have old := inv.home d e
    grind
  · intro d
    have old := inv.lock_iff d
    grind
  · intro d
    have old := inv.asleep d
    grind
  · intro d
    have old := inv.awake d
    grind

end

def Plain : Pc Cpu Ctx Queue Lock → Prop
  | .queued _ _ => False
  | .switching _ => False
  | .waking _ _ => False
  | _ => True

attribute [local grind] Plain

omit [DecidableEq Cpu] [DecidableEq Ctx] [DecidableEq Queue] in
theorem plain_of_calm (calm : Interruptible s c) : Plain (s.pc c) ∧ ¬ HoldsRun (s.pc c) := by
  rcases calm with run | sleeping
  · simp [run, Plain, HoldsRun]
  · simp [sleeping, Plain, HoldsRun]

variable {b : Pc Cpu Ctx Queue Lock}

theorem goto_inv (inv : Inv idle s slot on) (lock : Option Cpu) (old : Plain (s.pc c))
    (new : Plain b) (locks : ∀ d, lock = some d ↔ HoldsRun (update s.pc c b d))
    (idles : InIdle b → s.cur c = idle c) (runs : InContext b → s.cur c ≠ idle c) :
    Inv idle { s with lock := lock, pc := update s.pc c b } slot on := by
  constructor
  · exact inv.root
  · exact inv.wait
  · intro d q x
    have before := inv.hand d q x
    grind
  · intro d x
    have before := inv.on_iff d x
    grind
  · intro d n
    have before := inv.next d n
    grind
  · intro d
    have before := inv.leaving d
    grind
  · intro d q u
    have before := inv.queued d q u
    grind
  · intro d q x
    have before := inv.waker d q x
    grind
  · exact inv.placed
  · exact inv.alive
  · intro d
    have before := inv.current d
    grind
  · intro d n
    have before := inv.gone d n
    grind
  · exact inv.absent
  · exact inv.home
  · exact locks
  · intro d
    have before := inv.asleep d
    grind
  · intro d
    have before := inv.awake d
    grind

theorem push_inv (inv : Inv idle s slot on) (free : s.lock = none) (off : on x = none)
    (new : Plain b) (drops : ¬ HoldsRun b)
    (from_hand : (Plain (s.pc c) ∧ slot x = .none) ∨ ∃ q, s.pc c = .waking q x)
    (mine : ∀ d, x ≠ idle d) (idles : InIdle b → s.cur c = idle c)
    (runs : InContext b → s.cur c ≠ idle c) :
    Inv idle { s with
        root := s.root ++ [x]
        status := update s.status x .active
        pc := update s.pc c b } (update slot x .run) on := by
  have still := still_of_free inv free
  have apart : ∀ d, s.cur d ≠ x := by
    intro d same
    have here := cur_on inv d
    rw [same, off] at here
    contradiction
  have place : slot x ≠ .run ∧ ∀ q, slot x ≠ .wait q := by
    rcases from_hand with ⟨_,none⟩ | ⟨q,waking⟩
    · simp [none]
    · simp [(inv.hand c q x).mp waking]
  constructor
  · intro y
    have before := inv.root y
    grind
  · intro q y
    have before := inv.wait q y
    grind
  · intro d q y
    have before := inv.hand d q y
    have own := fun q => inv.hand c q x
    grind
  · intro d y
    have before := inv.on_iff d y
    grind
  · intro d n
    grind
  · intro d
    have before := inv.leaving d
    grind
  · intro d q u
    have before := inv.queued d q u
    grind
  · intro d q y
    have before := inv.waker d q y
    grind
  · intro y
    have before := inv.placed y
    grind
  · intro y
    have before := inv.alive y
    grind
  · intro d
    have before := inv.current d
    have none_next := still d
    grind
  · intro d n
    grind
  · intro d
    have before := inv.absent d
    grind
  · exact inv.home
  · intro d
    have before := inv.lock_iff d
    grind
  · intro d
    have before := inv.asleep d
    grind
  · intro d
    have before := inv.awake d
    grind

variable {q : Queue} {u : Option (Guard Queue Lock)}

section
variable (inv : Inv idle s slot on)
include inv

theorem waitPush_inv (running : s.pc c = .run) (locked : s.held (.queue q) = some c)
    (guards : ∀ g, u = some g → s.held g = some c) :
    Inv idle (waitPush s c q u) (update slot (s.cur c) (.wait q)) on := by
  have here : ∀ n, s.pc c ≠ .switching n := by simp [running]
  have unlisted := unlisted_of_run inv here (by simp [running])
  have live : s.cur c ≠ idle c := inv.awake c (by rw [running]; trivial)
  have active := active_of_run inv live here
  simp only [waitPush, goto]
  constructor
  · intro y
    have before := inv.root y
    grind
  · intro p y
    have before := inv.wait p y
    by_cases same : p = q
    · subst same
      grind
    · grind
  · intro d p y
    have before := inv.hand d p y
    grind
  · intro d y
    have before := inv.on_iff d y
    grind
  · intro d n
    have before := inv.next d n
    have there := inv.on_iff d n
    have here := cur_on inv c
    grind
  · intro d
    have before := inv.leaving d
    have distinct : s.cur d = s.cur c → d = c := cur_inj inv
    by_cases same : d = c
    · intro _
      exact .inl ⟨q,u,by simp [same],by simp [same]⟩
    · grind
  · intro d p v
    have before := inv.queued d p v
    grind
  · intro d p y
    have before := inv.waker d p y
    grind
  · intro y
    have before := inv.placed y
    grind
  · intro y
    have before := inv.alive y
    grind
  · intro d
    have before := inv.current d
    grind
  · intro d n
    have before := inv.gone d n
    grind
  · exact inv.absent
  · exact inv.home
  · intro d
    have before := inv.lock_iff d
    grind
  · intro d
    have before := inv.asleep d
    grind
  · intro d
    have before := inv.awake d
    grind

theorem wakePop_inv {rest : List Ctx} (calm : Interruptible s c)
    (locked : s.held (.queue q) = some c) (head : s.wait q = x :: rest) :
    Inv idle { s with
        wait := update s.wait q rest
        pc := update s.pc c (.waking q x) } (update slot x (.hand c q)) on := by
  have listed : slot x = .wait q := slot_of_wait inv (by simp [head])
  obtain ⟨plain,drops⟩ := plain_of_calm calm
  have not_queued : ∀ v u, s.pc c ≠ .queued v u := by
    intro v u queued
    rw [queued] at plain
    exact plain
  constructor
  · intro y
    have before := inv.root y
    grind
  · intro p y
    have before := inv.wait p y
    by_cases same : p = q
    · subst same
      grind
    · grind
  · intro d p y
    have before := inv.hand d p y
    grind
  · intro d y
    have before := inv.on_iff d y
    grind
  · intro d n
    have before := inv.next d n
    grind
  · -- A context that its own processor still has on `q` holds the lock of `q` or is
    -- past the point where it needs it.
    intro d
    have before := inv.leaving d
    have owner := inv.queued d q
    by_cases same : s.cur d = x
    · intro _
      rcases before (by simp [same, listed]) with ⟨v,u,queued,waits⟩ | ⟨n,switching⟩
      · rw [same, listed, Slot.wait.injEq] at waits
        subst waits
        have held := (owner u queued).2.1
        rw [locked, some.injEq] at held
        subst held
        exact absurd queued (not_queued q u)
      have other : d ≠ c := by
        intro same
        subst same
        rw [switching] at plain
        exact plain
      exact .inr ⟨n,by simp [other, switching]⟩
    · grind
  · intro d p u
    have before := inv.queued d p u
    grind
  · intro d p y
    have before := inv.waker d p y
    grind
  · intro y
    have before := inv.placed y
    grind
  · intro y
    have before := inv.alive y
    grind
  · intro d
    have before := inv.current d
    grind
  · intro d n
    have before := inv.gone d n
    grind
  · exact inv.absent
  · exact inv.home
  · intro d
    have before := inv.lock_iff d
    grind
  · intro d
    have before := inv.asleep d
    grind
  · intro d
    have before := inv.awake d
    grind

theorem restore_inv {n : Ctx} (switching : s.pc c = .switching n) (new : Plain b)
    (holds : HoldsRun b) (idles : InIdle b → n = idle c) (runs : InContext b → n ≠ idle c) :
    Inv idle { s with
        cur := update s.cur c n
        pc := update s.pc c b } slot (update on (s.cur c) none) := by
  obtain ⟨other,unlisted,fit⟩ := inv.next c n switching
  have alone : ∀ d m, s.pc d = .switching m → d = c := by
    intro d m there
    have held : s.lock = some d := (inv.lock_iff d).mpr (by rw [there]; trivial)
    exact alone_of_holds inv (by rw [switching]; trivial) d held
  constructor
  · exact inv.root
  · exact inv.wait
  · intro d q x
    have before := inv.hand d q x
    grind
  · intro d x
    have before := inv.on_iff d x
    have own := cur_inj inv (c := c) (d := d)
    grind
  · intro d m
    grind
  · intro d
    have before := inv.leaving d
    grind
  · intro d q u
    have before := inv.queued d q u
    grind
  · intro d q x
    have before := inv.waker d q x
    grind
  · intro x
    have before := inv.placed x
    have left := inv.gone c n switching
    grind
  · exact inv.alive
  · intro d
    have before := inv.current d
    have only := alone d
    grind
  · intro d m
    grind
  · exact inv.absent
  · intro d e
    have before := inv.home d e
    grind
  · intro d
    have before := inv.lock_iff d
    grind
  · intro d
    have before := inv.asleep d
    grind
  · intro d
    have before := inv.awake d
    grind

theorem init_inv (fresh : s.status x = .absent) (mine : ∀ c, x ≠ idle c) :
    Inv idle (sched_context_init s x) slot on := by
  simp only [sched_context_init]
  refine ⟨inv.root,inv.wait,inv.hand,inv.on_iff,?_,inv.leaving,inv.queued,inv.waker,?_,?_,
    ?_,?_,?_,inv.home,inv.lock_iff,inv.asleep,inv.awake⟩
  · intro d n
    have before := inv.next d n
    grind
  · intro y
    have before := inv.placed y
    grind
  · intro y
    have before := inv.alive y
    grind
  · intro d
    have before := inv.current d
    grind
  · intro d n
    have before := inv.gone d n
    grind
  · intro d
    have before := inv.absent d
    grind

theorem held_inv
    (kept : ∀ d g, s.held g = some d → (∀ q u, s.pc d ≠ .queued q u) ∧
      (∀ q x, s.pc d ≠ .waking q x) ∨ held g = some d) :
    Inv idle { s with held := held } slot on := by
  refine ⟨inv.root,inv.wait,inv.hand,inv.on_iff,inv.next,inv.leaving,?_,?_,inv.placed,
    inv.alive,inv.current,inv.gone,inv.absent,inv.home,inv.lock_iff,inv.asleep,inv.awake⟩
  · intro d q u queued
    obtain ⟨waits,locked,guards⟩ := inv.queued d q u queued
    refine ⟨waits,?_,?_⟩
    · rcases kept d _ locked with ⟨idle_here,_⟩ | still
      · exact absurd queued (idle_here q u)
      · exact still
    · intro g same
      rcases kept d g (guards g same) with ⟨idle_here,_⟩ | still
      · exact absurd queued (idle_here q u)
      · exact still
  · intro d q x waking
    rcases kept d _ (inv.waker d q x waking) with ⟨_,idle_here⟩ | still
    · exact absurd waking (idle_here q x)
    · exact still

end

variable {fcn : Bool} {p : Ctx → Bool}

/-- It leaves for `n`, the first candidate of the run queue; `root` is what is left of the
    queue, with the context it leaves pushed if that goes there. -/
theorem leave_picked_inv (inv : Inv idle s slot on) {n : Ctx} {rest : List Ctx}
    (picked : sched_candidate_noidle fcn p s.root = (some n, rest)) (root : List Ctx)
    (dest : Slot Cpu Queue) (st : Status) (alone : ∀ d, s.lock = some d → d = c)
    (here : ∀ n, s.pc c ≠ .switching n) (busy : ∀ q x, s.pc c ≠ .waking q x)
    (settled : st = .active ↔ dest ≠ .none) (own : s.cur c = idle c → st = .absent)
    (to_wait : ∀ q, slot (s.cur c) = .wait q ↔ dest = .wait q) (to_hand : ∀ d q, dest ≠ .hand d q)
    (pushed : ∀ x, root.count x = rest.count x + if dest = .run ∧ s.cur c = x then 1 else 0) :
    Inv idle { s with
        root := root
        lock := some c
        pc := update s.pc c (.switching n)
        status := update s.status (s.cur c) st }
      (update (update slot n .none) (s.cur c) dest)
      (update on n (some c)) := by
  have on_run := slot_of_root inv (candidate_mem picked)
  have active : s.status n = .active := inv.alive n (by simp [on_run])
  have off := listed_off inv (no_switch inv alone here) (x := n) (by simp [on_run])
    (by simp [on_run])
  have foreign := ne_idle_of_status inv (x := n) (by simp [active])
  have unlisted := slot_ne_run_of_cur inv here
  refine leave_inv inv root dest st alone here busy off (.inl active)
    (fun d same => absurd same (foreign d)) settled own to_wait to_hand (by simp [on_run])
      (by simp [on_run]) ?_
  intro x
  have total := inv.root x
  have split := candidate_some picked x
  grind

theorem candidate_inv (inv : Inv idle s slot on) (inj : Injective idle) (fcn : Bool)
    (p : Ctx → Bool) (dest : Slot Cpu Queue) (st : Status)
    (alone : ∀ d, s.lock = some d → d = c) (here : ∀ n, s.pc c ≠ .switching n)
    (busy : ∀ q x, s.pc c ≠ .waking q x) (live : s.cur c ≠ idle c)
    (settled : st = .active ↔ dest ≠ .none) (listed : dest ≠ .run)
    (to_wait : ∀ q, slot (s.cur c) = .wait q ↔ dest = .wait q) (to_hand : ∀ d q, dest ≠ .hand d q) :
    ∃ slot on, Inv idle (sched_candidate fcn idle p
      { s with lock := some c, status := update s.status (s.cur c) st } c) slot on := by
  have unlisted := slot_ne_run_of_cur inv here
  unfold sched_candidate
  cases picked : sched_candidate_noidle fcn p s.root with
  | mk next rest =>
    cases next with
    | some n =>
      exact ⟨_,_,leave_picked_inv inv picked rest dest st alone here busy settled
        (fun same => absurd same live) to_wait to_hand (by simp [listed])⟩
    | none => ?_
    have off : on (idle c) = none := by
      by_contra some_cpu
      obtain ⟨d,there⟩ := ne_none_iff_exists'.mp some_cpu
      have home := inv.home c d there
      subst home
      rcases (inv.on_iff d _).mpr there with cur | next
      · exact live cur
      · exact here _ next
    have slot_idle : slot (idle c) = .none := by
      by_contra listed
      have active := inv.alive _ listed
      rw [inv.absent c] at active
      contradiction
    refine ⟨_,_,history_inv (leave_inv inv s.root dest st alone
      here busy off (.inr rfl) (fun d same => (inj same).symm) settled ?_ to_wait to_hand
      (by simp [slot_idle]) (by simp [slot_idle]) ?_) s.idle_cpu s.entered _ s.popped s.ipi⟩
    · intro same
      exact absurd same live
    · intro x
      have total := inv.root x
      grind

omit [DecidableEq Ctx] [DecidableEq Queue] in
theorem candidate_fields (idle : Cpu → Ctx) (fcn : Bool) (p : Ctx → Bool)
    (t : State Cpu Ctx Queue Lock) (c : Cpu) :
    (∃ n, (sched_candidate fcn idle p t c).pc = update t.pc c (.switching n)) ∧
      (sched_candidate fcn idle p t c).held = t.held ∧
      ∀ held, sched_candidate fcn idle p { t with held := held } c =
        { sched_candidate fcn idle p t c with held := held } := by
  cases picked : sched_candidate_noidle fcn p t.root with
  | mk next rest =>
    cases next with
    | none | some n =>
      simp only [sched_candidate, picked, goto]
      exact ⟨⟨_,rfl⟩,trivial,fun _ => trivial⟩

theorem candidate_release_inv (held : Guard Queue Lock → Option Cpu)
    (inv : ∃ slot on, Inv idle (sched_candidate fcn idle p s c) slot on)
    (kept : ∀ d g, s.held g = some d → d ≠ c → held g = some d) :
    ∃ slot on, Inv idle (sched_candidate fcn idle p { s with held := held } c) slot on := by
  obtain ⟨slot,on,inv⟩ := inv
  obtain ⟨⟨n,pc⟩,same,commutes⟩ := candidate_fields idle fcn p s c
  rw [commutes]
  refine ⟨slot,on,held_inv inv ?_⟩
  intro d g owns
  rw [same] at owns
  rw [pc]
  by_cases self : d = c
  · simp [self]
  · exact .inr (kept d g owns self)

omit [DecidableEq Cpu] [DecidableEq Queue] in
theorem base_plain (idle : Cpu → Ctx) (s : State Cpu Ctx Queue Lock) (c : Cpu) :
    Plain (base idle s c) ∧ ¬ HoldsRun (base idle s c) ∧
    (InIdle (base idle s c) → s.cur c = idle c) ∧
    (InContext (base idle s c) → s.cur c ≠ idle c) := by
  unfold base
  by_cases sleeping : s.cur c = idle c
  · simp [sleeping, Plain, HoldsRun, InContext]
  · simp [sleeping, Plain, HoldsRun, InIdle]

theorem context_push_inv (inv : Inv idle s slot on) (free : s.lock = none) (off : on x = none)
    (from_hand : (Plain (s.pc c) ∧ slot x = .none) ∨ ∃ q, s.pc c = .waking q x)
    (mine : ∀ d, x ≠ idle d) :
    ∃ slot on, Inv idle (sched_context_push idle
      { s with status := update s.status x .active } c x) slot on := by
  obtain ⟨plain,drops,idles,runs⟩ := base_plain idle s c
  cases listed : s.idle_cpu with
  | nil =>
    exact ⟨_,_,history_inv (push_inv inv free off plain drops from_hand mine idles runs) []
      s.entered s.found s.popped s.ipi⟩
  | cons d rest =>
    exact ⟨_,_,history_inv (push_inv (b := .posting d) inv free off trivial id from_hand mine
      False.elim False.elim) rest s.entered _ _ s.ipi⟩

omit [DecidableEq Cpu] [DecidableEq Ctx] in
theorem release_held [DecidableEq Lock] (d : Cpu) (g : Guard Queue Lock)
    (guards : ∀ g, u = some g → s.held g = some c) (held : s.held g = some d) (other : d ≠ c) :
    (lock_release s u).held g = some d := by
  cases u with
  | none => exact held
  | some h => ?_
  have distinct : g ≠ h := by
    intro same
    have mine := guards h rfl
    rw [← same, held, some.injEq] at mine
    exact other mine
  simpa [lock_release, update_of_ne distinct] using held

section
variable (inv : Inv idle s slot on)
include inv

theorem drop_inv (inj : Injective idle) (fcn : Bool) (p : Ctx → Bool)
    (dropped : st ≠ .active) (alone : ∀ d, s.lock = some d → d = c)
    (runs : s.pc c = .run ∨ s.pc c = .locked) :
    ∃ slot on, Inv idle (sched_candidate fcn idle p
      { s with lock := some c, status := update s.status (s.cur c) st } c) slot on := by
  have calm : (∀ n, s.pc c ≠ .switching n) ∧ (∀ q u, s.pc c ≠ .queued q u) ∧
      ∀ q x, s.pc c ≠ .waking q x := by
    rcases runs with run | locked
    · simp [run]
    · simp [locked]
  obtain ⟨here,away,busy⟩ := calm
  have live : s.cur c ≠ idle c := by
    apply inv.awake c
    rcases runs with run | locked
    · rw [run]
      trivial
    · rw [locked]
      trivial
  have unlisted := unlisted_of_run inv here away
  exact candidate_inv inv inj fcn p .none st alone here busy live (by simp [dropped]) (by simp)
    (by simp [unlisted]) (by simp)

theorem switch_inv (running : s.pc c = .run) (free : s.lock = none) :
    ∃ slot on, Inv idle (sched_context_switch fcn p s c) slot on := by
  have here : ∀ n, s.pc c ≠ .switching n := by simp [running]
  have alone : ∀ d, s.lock = some d → d = c := by simp [free]
  have live : s.cur c ≠ idle c := inv.awake c (by rw [running]; trivial)
  have active := active_of_run inv live here
  have unlisted := unlisted_of_run inv here (by simp [running])
  unfold sched_context_switch
  cases picked : sched_candidate_noidle fcn p s.root with
  | mk next rest =>
    cases next with
    | none => exact ⟨slot,on,inv⟩
    | some n => ?_
    have left := leave_picked_inv inv picked (rest ++ [s.cur c]) .run .active alone here
      (by simp [running]) (by simp) (fun same => absurd same live) (by simp [unlisted]) (by simp)
      (by simp [count_singleton])
    rw [← active, update_eq_self] at left
    exact ⟨_,_,left⟩

theorem waitSwitch_inv [DecidableEq Lock] (inj : Injective idle)
    (queued : s.pc c = .queued q u) (free : s.lock = none) :
    ∃ slot on, Inv idle (waitSwitch fcn idle p s c) slot on := by
  obtain ⟨waits,_,guards⟩ := inv.queued c q u queued
  have here : ∀ n, s.pc c ≠ .switching n := by simp [queued]
  have live : s.cur c ≠ idle c := inv.awake c (by rw [queued]; trivial)
  have active := active_of_run inv live here
  have left := candidate_inv inv inj fcn p (.wait q) .active (by simp [free]) here
    (by simp [queued])
    live (by simp) (by simp) (by simp [waits]) (by simp)
  rw [← active, update_eq_self] at left
  have result := candidate_release_inv (lock_release s u).held left
    (fun d g held other => release_held d g guards held other)
  simp only [waitSwitch, queued]
  cases u with
  | none => exact left
  | some g => exact result

theorem stop_inv [DecidableEq Lock] (inj : Injective idle) (running : s.pc c = .run)
    (free : s.lock = none) (guards : ∀ g, u = some g → s.held g = some c) :
    ∃ slot on, Inv idle (sched_context_stop fcn idle p u s c) slot on := by
  have left := drop_inv inv inj fcn p (by simp : Status.stopped ≠ .active) (by simp [free])
    (.inl running)
  have result := candidate_release_inv (lock_release s u).held left
    (fun d g held other => release_held d g guards held other)
  cases u with
  | none => exact left
  | some g => exact result

theorem start_inv (calm : Interruptible s c) (free : s.lock = none)
    (stopped : s.status x = .stopped) :
    ∃ slot on, Inv idle (sched_context_start idle s c x) slot on := by
  have still := still_of_free inv free
  have unlisted : slot x = .none := by
    by_contra listed
    have active := inv.alive x listed
    rw [stopped] at active
    contradiction
  have mine := ne_idle_of_status inv (x := x) (by simp [stopped])
  have off : on x = none := by
    by_contra some_cpu
    obtain ⟨d,there⟩ := ne_none_iff_exists'.mp some_cpu
    rcases (inv.on_iff d x).mpr there with cur | next
    · subst cur
      rcases inv.current d with active | idles | ⟨n,switching⟩
      · rw [stopped] at active
        contradiction
      · exact mine d idles
      · exact still d n switching
    · exact still d x next
  exact context_push_inv inv free off (.inl ⟨(plain_of_calm calm).1,unlisted⟩) mine

theorem wakePush_inv (waking : s.pc c = .waking q x) (free : s.lock = none) :
    ∃ slot on, Inv idle (wakePush idle s c) slot on := by
  have still := still_of_free inv free
  have in_hand := (inv.hand c q x).mp waking
  have active : s.status x = .active := inv.alive x (by simp [in_hand])
  have off := listed_off inv still (x := x) (by simp [in_hand]) (by simp [in_hand])
  have mine := ne_idle_of_status inv (x := x) (by simp [active])
  have pushed := context_push_inv inv free off (.inr ⟨q,waking⟩) mine
  rw [← active, update_eq_self] at pushed
  simpa only [wakePush, waking] using pushed

theorem take_lock_inv (old : Plain (s.pc c)) (new : Plain b) (idles : InIdle b → s.cur c = idle c)
    (runs : InContext b → s.cur c ≠ idle c) (free : s.lock = none) (holds : HoldsRun b) :
    Inv idle (goto (lockRun s c) c b) slot on := by
  apply goto_inv inv (some c) old new _ idles runs
  intro d
  have before := inv.lock_iff d
  grind

theorem drop_lock_inv (old : Plain (s.pc c)) (new : Plain b) (idles : InIdle b → s.cur c = idle c)
    (runs : InContext b → s.cur c ≠ idle c) (holds : HoldsRun (s.pc c)) (drops : ¬ HoldsRun b) :
    Inv idle (goto { s with lock := none } c b) slot on := by
  apply goto_inv inv none old new _ idles runs
  intro d
  have before := inv.lock_iff d
  have own := (inv.lock_iff c).mpr holds
  grind

theorem post_inv (posting : s.pc c = .posting d) : Inv idle (ipi_post idle s c) slot on := by
  obtain ⟨plain,drops,idles,runs⟩ := base_plain idle s c
  simp only [ipi_post, posting]
  apply history_inv (goto_inv inv s.lock (by rw [posting]; trivial) plain _ idles runs)
    s.idle_cpu s.entered s.found s.popped
  intro e
  have before := inv.lock_iff e
  grind

theorem restore_step_inv {n : Ctx} (switching : s.pc c = .switching n) :
    ∃ slot on, Inv idle (restore idle s c) slot on := by
  simp only [restore, switching]
  by_cases idles : n = idle c
  · simp only [idles]
    rw [idles] at switching
    by_cases again : s.entered c
    · simp only [again]
      exact ⟨_,_,history_inv (restore_inv (b := .declaring) inv switching trivial trivial
        (fun _ => rfl) False.elim) s.idle_cpu _ s.found s.popped s.ipi⟩
    · simp only [again]
      exact ⟨_,_,history_inv (restore_inv (b := .examining) inv switching trivial trivial
        (fun _ => rfl) False.elim) s.idle_cpu _ s.found s.popped s.ipi⟩
  · simp only [idles]
    exact ⟨_,_,restore_inv inv switching trivial trivial False.elim
      (fun _ => idles)⟩

theorem examine_inv (examining : s.pc c = .examining) :
    ∃ slot on, Inv idle (idleExamine fcn p s c) slot on := by
  have idles : s.cur c = idle c := inv.asleep c (by rw [examining]; trivial)
  have here : ∀ n, s.pc c ≠ .switching n := by simp [examining]
  have lock : s.lock = some c := (inv.lock_iff c).mpr (by rw [examining]; trivial)
  have alone := alone_of_holds inv (by rw [examining]; trivial : HoldsRun (s.pc c))
  have unlisted := unlisted_of_run inv here (by simp [examining])
  have absent := inv.absent c
  unfold idleExamine
  cases picked : sched_candidate_noidle fcn p s.root with
  | mk next rest =>
    cases next with
    | some n =>
      have left := leave_picked_inv inv picked rest .none .absent alone here (by simp [examining])
        (by simp) (fun _ => rfl) (by simp [unlisted]) (by simp) (by simp)
      rw [idles, ← absent, update_eq_self, ← lock] at left
      exact ⟨_,_,history_inv left s.idle_cpu s.entered s.found _ _⟩
    | none =>
      have moved := goto_inv (b := .declaring) inv s.lock (by rw [examining]; trivial) trivial (by
          intro d
          have before := inv.lock_iff d
          grind)
        (fun _ => idles) False.elim
      exact ⟨_,_,history_inv moved s.idle_cpu s.entered _ _ _⟩

end

theorem step_inv [DecidableEq Lock] (inj : Injective idle)
    (inv : Inv idle s slot on) (can : Enabled idle s a) :
    ∃ slot on, Inv idle (step fcn idle s a) slot on := by
  cases a with
  | init x => exact ⟨_,_,init_inv inv can.1 can.2⟩
  | start c x => exact start_inv inv can.1 can.2.1 can.2.2
  | switch c p => exact switch_inv inv can.1 can.2
  | lock c =>
    obtain ⟨running,free⟩ := can
    have live := inv.awake c (by rw [running]; trivial)
    exact ⟨_,_,take_lock_inv inv (by rw [running]; trivial) trivial False.elim
      (fun _ => live) free trivial⟩
  | unlock c =>
    rcases can with locked | resumed
    · have live := inv.awake c (by rw [locked]; trivial)
      exact ⟨_,_,drop_lock_inv inv (by rw [locked]; trivial) trivial False.elim
        (fun _ => live) (by rw [locked]; trivial) id⟩
    · have live := inv.awake c (by rw [resumed]; trivial)
      exact ⟨_,_,drop_lock_inv inv (by rw [resumed]; trivial) trivial False.elim
        (fun _ => live) (by rw [resumed]; trivial) id⟩
  | exit c p =>
    have locked : s.pc c = .locked := can
    have lock : s.lock = some c := (inv.lock_iff c).mpr (by rw [locked]; trivial)
    have left := drop_inv inv inj fcn p (by simp : Status.exited ≠ .active)
      (alone_of_holds inv (by rw [locked]; trivial)) (.inr locked)
    rw [← lock] at left
    exact left
  | stop c u p => exact stop_inv inv inj can.1 can.2.1 can.2.2
  | waitUnlock c q =>
    exact ⟨_,_,waitPush_inv inv can.1 can.2 (by
      intro g same
      cases same
      exact can.2)⟩
  | waitCallback c q callback => exact ⟨_,_,waitPush_inv inv can.1 can.2.1 can.2.2⟩
  | waitSwitch c p =>
    obtain ⟨⟨q,u,queued⟩,free⟩ := can
    exact waitSwitch_inv inv inj queued free
  | acquire c g =>
    refine ⟨_,_,held_inv inv ?_⟩
    intro d h owned
    have other : h ≠ g := by
      intro same
      rw [same, can.2] at owned
      contradiction
    exact .inr (by simpa [update_of_ne other] using owned)
  | release c g =>
    refine ⟨_,_,held_inv inv ?_⟩
    intro d h owned
    by_cases self : d = c
    · subst self
      rcases can.1 with run | sleeping
      · simp [run]
      · simp [sleeping]
    · exact .inr (release_held d h (u := some g) (by
        intro k same
        cases same
        exact can.2) owned self)
  | wake c q =>
    simp only [step, sched_wake]
    cases queue : s.wait q with
    | nil => exact ⟨_,_,inv⟩
    | cons x rest => exact ⟨_,_,wakePop_inv inv can.1 can.2 queue⟩
  | wakePush c =>
    obtain ⟨⟨q,x,waking⟩,free⟩ := can
    exact wakePush_inv inv waking free
  | post c =>
    obtain ⟨d,posting⟩ := can
    exact ⟨_,_,post_inv inv posting⟩
  | restore c =>
    obtain ⟨n,switching⟩ := can
    exact restore_step_inv inv switching
  | idleCheck c =>
    obtain ⟨sleeping,free⟩ := can
    have idles := inv.asleep c (by rw [sleeping]; trivial)
    simp only [step, idleCheck]
    by_cases listed : c ∈ s.idle_cpu
    · simp only [listed]
      exact ⟨_,_,inv⟩
    · simp only [listed]
      exact ⟨_,_,take_lock_inv inv (by rw [sleeping]; trivial) trivial
        (fun _ => idles) False.elim free trivial⟩
  | idleExamine c p => exact examine_inv inv can
  | idleDeclare c =>
    have declaring : s.pc c = .declaring := can
    have idles := inv.asleep c (by rw [declaring]; trivial)
    exact ⟨_,_,history_inv (drop_lock_inv (b := .sleeping) inv (by rw [declaring]; trivial) trivial
      (fun _ => idles) False.elim (by rw [declaring]; trivial) id) _ s.entered s.found s.popped
      s.ipi⟩

open Classical in
theorem boot_inv (boot : Boot idle s) : ∃ slot on, Inv idle s slot on := by
  have cur_status : ∀ c, s.status (s.cur c) = .active := fun c => (boot.status _).mpr ⟨c,rfl⟩
  refine ⟨fun _ => .none,fun x => if h : ∃ c,s.cur c = x then some h.choose else none,?_⟩
  have chosen : ∀ c x, (if h : ∃ c, s.cur c = x then some h.choose else none) = some c ↔
      s.cur c = x := by
    intro c x
    by_cases h : ∃ c, s.cur c = x
    · simp only [h, ↓reduceDIte, some.injEq]
      constructor
      · intro same
        exact same ▸ h.choose_spec
      · intro same
        exact boot.own (h.choose_spec.trans same.symm)
    · simp only [h, ↓reduceDIte, reduceCtorEq, false_iff]
      exact fun same => h ⟨c,same⟩
  constructor
  · simp [boot.root]
  · simp [boot.wait]
  · simp [boot.pc]
  · intro c x
    rw [chosen c x]
    simp [OnCpu, boot.pc]
  · simp [boot.pc]
  · simp
  · simp [boot.pc]
  · simp [boot.pc]
  · intro x active
    exact .inr (by simp [(boot.status x).mp active])
  · simp
  · exact fun c => .inl (cur_status c)
  · simp [boot.pc]
  · intro c
    rcases boot.others (idle c) with active | absent
    · obtain ⟨d,same⟩ := (boot.status _).mp active
      exact absurd same (boot.cur d c)
    · exact absent
  · intro c d there
    exact absurd ((chosen d _).mp there) (boot.cur d c)
  · simp [boot.lock, boot.pc, HoldsRun]
  · simp [boot.pc, InIdle]
  · intro c _
    exact boot.cur c c

theorem off_place (inv : Inv idle s slot on) (off : on x = none)
    (live : s.status x = .stopped ∨ s.status x = .active) : ∃! p, At s x p := by
  have nowhere : ∀ c, ¬ OnCpu s c x := by
    intro c here
    rw [inv.on_iff c x, off] at here
    contradiction
  have root := inv.root x
  have wait := fun q => inv.wait q x
  have hand := fun c q => inv.hand c q x
  have alive := inv.alive x
  cases place : slot x with
  | none =>
    have stopped : s.status x = .stopped := by
      rcases live with stopped | active
      · exact stopped
      · rcases inv.placed x active with listed | there
        · exact absurd place listed
        · exact absurd off there
    refine ⟨.stopped,⟨nowhere,stopped⟩,?_⟩
    intro p there
    cases p <;> grind [At]
  | run =>
    refine ⟨.run,⟨nowhere,by simp [root, place]⟩,?_⟩
    intro p there
    cases p <;> grind [At]
  | wait q =>
    refine ⟨.wait q,⟨nowhere,.inl (by simp [wait, place])⟩,?_⟩
    intro p there
    cases p <;> grind [At]
  | hand c q =>
    have waking := (hand c q).mpr place
    refine ⟨.wait q,⟨nowhere,.inr ⟨c,waking,inv.waker c q x waking⟩⟩,?_⟩
    intro p there
    cases p <;> grind [At]

theorem placed_of_inv (inv : Inv idle s slot on) : Placed idle s := by
  have single : ∀ c d x, OnCpu s c x → OnCpu s d x → c = d := by
    intro c d x first second
    rw [inv.on_iff] at first second
    rw [first, some.injEq] at second
    exact second
  constructor
  · intro x live
    cases here : on x with
    | none => exact off_place inv here live
    | some c => ?_
    have on_c : OnCpu s c x := (inv.on_iff c x).mpr here
    refine ⟨.cpu c,on_c,?_⟩
    intro p there
    cases p with
    | cpu d => rw [single d c x there on_c]
    | run | wait q | stopped => exact absurd on_c (there.1 c)
  · exact single
  · intro x
    constructor
    · rw [inv.root x]
      split <;> omega
    · intro q
      rw [inv.wait q x]
      split <;> omega
  · intro x q member
    have place := slot_of_wait inv member
    constructor
    · intro listed
      rw [slot_of_root inv listed] at place
      contradiction
    · intro q' member'
      rw [slot_of_wait inv member', Slot.wait.injEq] at place
      exact place
  · intro c
    have unlisted : slot (idle c) = .none := by
      by_contra listed
      have active := inv.alive _ listed
      rw [inv.absent c] at active
      contradiction
    constructor
    · intro member
      rw [slot_of_root inv member] at unlisted
      contradiction
    · intro q member
      rw [slot_of_wait inv member] at unlisted
      contradiction
  · intro c x here
    have locked : ∀ n, s.pc c = .switching n → s.lock = some c :=
      fun n switching => (inv.lock_iff c).mpr (by rw [switching]; trivial)
    rcases here with cur | next
    · subst cur
      constructor
      · intro member
        have place := slot_of_root inv member
        rcases inv.leaving c (by simp [place]) with ⟨q,u,_,waits⟩ | ⟨n,switching⟩
        · rw [place] at waits
          contradiction
        · exact locked n switching
      intro q member
      have place := slot_of_wait inv member
      rcases inv.leaving c (by simp [place]) with ⟨v,u,queued,waits⟩ | ⟨n,switching⟩
      · rw [place, Slot.wait.injEq] at waits
        subst waits
        exact .inr (inv.queued c q u queued).2.1
      · exact .inl (locked n switching)
    · exact ⟨fun _ => locked x next,fun _ _ => .inl (locked x next)⟩

theorem placed_of_reached [DecidableEq Lock] (inj : Injective idle) {fcn : Bool}
    (h : Reached (machine fcn idle) s) : Placed idle s := by
  have keep : ∀ (t : State Cpu Ctx Queue Lock) (a : Act Cpu Ctx Queue Lock),
      (∃ slot on, Inv idle t slot on) → Enabled idle t a →
        ∃ slot on, Inv idle (step fcn idle t a) slot on := by
    intro t a ⟨slot,on,inv⟩ can
    exact step_inv inj inv can
  obtain ⟨slot,on,inv⟩ := reached_invariant
    (fun t => ∃ slot on, Inv idle t slot on) (fun t boot => boot_inv boot) keep h
  exact placed_of_inv inv

end

def twoCpus : State Bool Nat Unit Unit where
  root := []
  idle_cpu := []
  lock := none
  wait _ := []
  held _ := none
  cur c := c.toNat
  pc _ := .run
  entered _ := false
  status x := if x < 2 then .active else .absent
  found _ := false
  popped := []
  ipi _ := false

def idleOf (c : Bool) : Nat := 2 + c.toNat

theorem idleOf_injective : Injective idleOf := by
  unfold Injective
  decide

theorem twoCpus_boot : Boot idleOf twoCpus := by
  refine ⟨rfl,rfl,rfl,fun _ => rfl,fun _ => rfl,fun _ => rfl,?_,by decide,
    fun _ => rfl,?_,?_,rfl⟩
  · unfold Injective
    decide
  · intro x
    by_cases small : x < 2
    · have either : x = 0 ∨ x = 1 := by omega
      rcases either with rfl | rfl
      · exact ⟨fun _ => ⟨false,rfl⟩,fun _ => rfl⟩
      · exact ⟨fun _ => ⟨true,rfl⟩,fun _ => rfl⟩
    · simp only [twoCpus, small, ↓reduceIte, reduceCtorEq, false_iff]
      rintro ⟨c,same⟩
      cases c <;> simp at same <;> omega
  · intro x
    by_cases small : x < 2
    · exact .inl (if_pos small)
    · exact .inr (if_neg small)

end MutekSchedulerPlacement
