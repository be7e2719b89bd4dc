import MutekH.Lib.Machine
import MutekH.WaitQueue
import Mathlib.Algebra.Ring.Nat
import Mathlib.Data.List.Induction
import Mathlib.Data.List.Sort

/-!
Software timers. A timer keeps its pending events in a list sorted by expiry,
and an expiry is computed and compared in the width of the tick counter. The
list is compared with a clock that never wraps: each pending event against the
unbounded instant at which it is due.
-/
namespace MutekTimer
open Function LibMachine MutekWaitQueue
open List hiding after
variable {E : Type}

structure Event (E : Type) where
  id : E
  start : Nat
  delay : Nat
  deriving DecidableEq, Repr

structure Timer (E : Type) where
  root : List (Event E)
  ticks : Nat
  deriving DecidableEq, Repr

/- The width `w` is that of `timer_delay_t`; every sum is taken in that type. -/
def expiry (w : Nat) (e : Event E) : Nat := (e.start + e.delay) % 2 ^ w

/-- The scan of `timer_add_event` stops at the first event `e` that the new one
    does not expire after, and inserts before it. -/
def NotAfter (w : Nat) (event e : Event E) : Prop := ¬ expiry w event > expiry w e

instance (w : Nat) (event e : Event E) : Decidable (NotAfter w event e) :=
  inferInstanceAs (Decidable (¬ _))

def timer_add_event (w : Nat) (t : Timer E) (event : E) (delay : Nat) : Timer E × Int :=
  (⟨t.root.orderedInsert (NotAfter w) ⟨event, t.ticks, delay⟩, t.ticks⟩, 0)

def Pending (t : Timer E) (event : E) : Prop := event ∈ t.root.map Event.id

instance [DecidableEq E] (t : Timer E) (event : E) : Decidable (Pending t event) :=
  inferInstanceAs (Decidable (_ ∈ _))

def timer_cancel_event [DecidableEq E] (t : Timer E) (event : E) (callback : Bool) :
    Timer E × Int × Bool :=
  if Pending t event then
    (⟨t.root.eraseP fun e => e.id = event, t.ticks⟩, 0, callback)
  else (t, -ENOENT, false)

/-- The timer and the events whose callback was run, in order: the loop takes
    the head of the list off as long as it has expired. -/
def timer_inc_ticks (w : Nat) (t : Timer E) (ticks : Nat) : Timer E × List E :=
  let now := (t.ticks + ticks) % 2 ^ w
  (⟨t.root.dropWhile fun e => expiry w e ≤ now, now⟩,
    (t.root.takeWhile fun e => expiry w e ≤ now).map Event.id)

inductive Op (E : Type) where
  | add (event : E) (delay : Nat)
  | cancel (event : E) (callback : Bool)
  | inc (ticks : Nat)
  deriving DecidableEq, Repr

def apply [DecidableEq E] (w : Nat) (t : Timer E) : Op E → Timer E
  | .add event delay => (timer_add_event w t event delay).1
  | .cancel event callback => (timer_cancel_event t event callback).1
  | .inc ticks => (timer_inc_ticks w t ticks).1

/-- Delays are below half the range and an event is added only when it is not already pending. -/
def CanApply (w : Nat) (t : Timer E) : Op E → Prop
  | .add event delay => 2 * delay < 2 ^ w ∧ ¬ Pending t event
  | .cancel _ _ => True
  | .inc ticks => ticks < 2 ^ w

instance [DecidableEq E] (w : Nat) (t : Timer E) : (op : Op E) → Decidable (CanApply w t op)
  | .add _ _ => instDecidableAnd
  | .cancel _ _ => inferInstanceAs (Decidable True)
  | .inc _ => inferInstanceAs (Decidable (_ < _))

def machine (E : Type) [DecidableEq E] (w : Nat) : Machine (Timer E) (Op E) where
  start t := t.root = [] ∧ t.ticks < 2 ^ w
  enabled := CanApply w
  next := apply w

instance [DecidableEq E] (w : Nat) (t : Timer E) (op : Op E) :
    Decidable ((machine E w).enabled t op) := inferInstanceAs (Decidable (CanApply w t op))

/- What the timer is for, read off the calls alone. -/

def elapsed : List (Op E) → Nat
  | [] => 0
  | .inc ticks :: ops => ticks + elapsed ops
  | _ :: ops => elapsed ops

/-- The last time `event` is added in `ops` is right after `before`, with
    `delay`, and `since` is what was called after that. -/
def LastAdded (ops : List (Op E)) (event : E) (before : List (Op E)) (delay : Nat)
    (since : List (Op E)) : Prop :=
  ops = before ++ .add event delay :: since ∧ ∀ d, Op.add event d ∉ since

def Cancelled (event : E) (since : List (Op E)) : Prop := ∃ c, Op.cancel event c ∈ since

def CameDue (delay : Nat) (since : List (Op E)) : Prop :=
  ∃ part ticks, part ++ [Op.inc ticks] <+: since ∧ delay ≤ elapsed part + ticks

/-- What is asked of a call `timer_inc_ticks ticks` that runs the callbacks of
    `fired` after the calls `ops`. -/
structure RunsOnTime [DecidableEq E] (ops : List (Op E)) (ticks : Nat) (fired : List E) : Prop where
  once : ∀ event before delay since, LastAdded ops event before delay since →
    ¬ Cancelled event since → ¬ CameDue delay since → delay ≤ elapsed since + ticks →
      fired.count event = 1
  early : ∀ event before delay since, LastAdded ops event before delay since →
    elapsed since + ticks < delay → event ∉ fired
  again : ∀ event before delay since, LastAdded ops event before delay since →
    CameDue delay since → event ∉ fired
  cancelled : ∀ event before delay since, LastAdded ops event before delay since →
    Cancelled event since → event ∉ fired
  added : ∀ event, event ∈ fired → ∃ before delay since, LastAdded ops event before delay since
  ordered : fired.Pairwise fun a b => ∀ before delay since before' delay' since',
    LastAdded ops a before delay since → LastAdded ops b before' delay' since' →
      elapsed before + delay ≤ elapsed before' + delay'

def OnTime [DecidableEq E] (w : Nat) (t : Timer E) (ops : List (Op E)) : Prop :=
  ∀ part ticks, part ++ [Op.inc ticks] <+: ops →
    RunsOnTime part ticks (timer_inc_ticks w (after (machine E w) t part) ticks).2

/- The unbounded clock: it never wraps and knows when each event is due. -/

structure Clock (E : Type) where
  now : Nat
  due : E → Option Nat

section
variable [DecidableEq E]

def Clock.step (c : Clock E) : Op E → Clock E
  | .add event delay => ⟨c.now, update c.due event (some (c.now + delay))⟩
  | .cancel event _ => ⟨c.now, update c.due event none⟩
  | .inc ticks => ⟨c.now + ticks, fun event => (c.due event).filter (c.now + ticks < ·)⟩

def clock (first : Nat) (ops : List (Op E)) : Clock E :=
  ops.foldl Clock.step ⟨first, fun _ => none⟩

omit [DecidableEq E] in
@[simp] theorem elapsed_append (a b : List (Op E)) : elapsed (a ++ b) = elapsed a + elapsed b := by
  induction a with
  | nil => simp [elapsed]
  | cons op a ih => cases op <;> simp [elapsed, ih, Nat.add_assoc]

theorem clock_snoc (first : Nat) (ops : List (Op E)) (op : Op E) :
    clock first (ops ++ [op]) = (clock first ops).step op := by
  simp [clock]

attribute [local simp] Clock.step

theorem clock_now (first : Nat) (ops : List (Op E)) :
    (clock first ops).now = first + elapsed ops := by
  induction ops using reverseRecOn with
  | nil => simp [clock, elapsed]
  | append_singleton ops op ih => ?_
  rw [clock_snoc]
  cases op with
  | add event delay | cancel event callback => simpa [elapsed] using ih
  | inc ticks => simp [elapsed, ih, Nat.add_assoc]

omit [DecidableEq E] in
theorem cameDue_snoc (delay : Nat) (since : List (Op E)) (op : Op E) :
    CameDue delay (since ++ [op]) ↔
      CameDue delay since ∨ ∃ ticks, op = .inc ticks ∧ delay ≤ elapsed since + ticks := by
  constructor
  · intro ⟨part,ticks,within,late⟩
    rcases prefix_concat_iff.mp within with whole | within
    · obtain ⟨same,last⟩ := append_inj' whole rfl
      simp only [cons.injEq, and_true] at last
      exact .inr ⟨ticks,last.symm,same ▸ late⟩
    · exact .inl ⟨part,ticks,within,late⟩
  · intro h
    rcases h with ⟨part,ticks,within,late⟩ | ⟨ticks,same,late⟩
    · exact ⟨part,ticks,within.trans (prefix_append _ _),late⟩
    · exact ⟨since,ticks,by simp [same],late⟩

omit [DecidableEq E] in
theorem cancelled_snoc (event : E) (since : List (Op E)) (op : Op E) :
    Cancelled event (since ++ [op]) ↔ Cancelled event since ∨ ∃ c, op = .cancel event c := by
  simp only [Cancelled, mem_append, mem_singleton, exists_or]
  simp only [eq_comm]

/-- The clock still expects an event exactly as long as it was neither cancelled nor due at the end
    of a call, and expects it at the instant its last addition asked for. -/
theorem clock_due (first : Nat) (event : E) (before : List (Op E)) (delay : Nat)
    (since : List (Op E)) (last : ∀ d, Op.add event d ∉ since) (d : Nat) :
    (clock first (before ++ .add event delay :: since)).due event = some d ↔
      d = first + elapsed before + delay ∧ ¬ Cancelled event since ∧ ¬ CameDue delay since := by
  induction since using reverseRecOn with
  | nil =>
    rw [clock_snoc]
    simp [clock_now, Cancelled, CameDue]
    exact eq_comm
  | append_singleton since op ih => ?_
  have earlier : ∀ d, Op.add event d ∉ since := by
    intro d member
    exact last d (mem_append_left _ member)
  have expected := ih earlier
  have other : ∀ d, op ≠ .add event d := by
    intro d same
    exact last d (by simp [same])
  have reshape : before ++ Op.add event delay :: (since ++ [op]) =
      (before ++ Op.add event delay :: since) ++ [op] := by simp
  have now : (clock first (before ++ Op.add event delay :: since)).now =
      first + elapsed before + elapsed since := by
    simp [clock_now, elapsed, Nat.add_assoc]
  rw [reshape, clock_snoc, cancelled_snoc, cameDue_snoc]
  cases op with
  | add other_event d' =>
    have distinct : event ≠ other_event := by
      intro same
      exact other d' (by rw [same])
    simp [update_of_ne distinct, expected]
  | cancel other_event callback =>
    by_cases same : event = other_event
    · simp [same]
    · simp [update_of_ne same, expected, Ne.symm same]
  | inc ticks =>
    simp only [Clock.step, Option.filter_eq_some_iff, expected, now, decide_eq_true_eq]
    simp only [reduceCtorEq, exists_false, or_false, Op.inc.injEq, exists_eq_left', not_or]
    constructor
    · intro ⟨⟨at_instant,kept,not_due⟩,later⟩
      exact ⟨at_instant,kept,not_due,by omega⟩
    · intro ⟨at_instant,kept,not_due,later⟩
      exact ⟨⟨at_instant,kept,not_due⟩,by omega⟩

theorem clock_never_added (first : Nat) (event : E) (ops : List (Op E))
    (never : ∀ d, Op.add event d ∉ ops) : (clock first ops).due event = none := by
  induction ops using reverseRecOn with
  | nil => rfl
  | append_singleton ops op ih => ?_
  have nothing := ih (by intro d member; exact never d (mem_append_left _ member))
  rw [clock_snoc]
  cases op with
  | add other delay =>
    have distinct : event ≠ other := by
      intro same
      exact never delay (by simp [same])
    simpa [update_of_ne distinct] using nothing
  | cancel other callback =>
    by_cases same : event = other
    · simp [same]
    · simpa [update_of_ne same] using nothing
  | inc ticks => simp [nothing]

/-- The timer follows the clock: the counter is the clock up to a base, and the
    list holds exactly the events the clock expects, in the order they are due,
    none of them with a sum that wrapped. -/
structure Follows (w : Nat) (t : Timer E) (c : Clock E) (base : Nat) : Prop where
  now : c.now = base + t.ticks
  range : t.ticks < 2 ^ w
  unwrapped : ∀ e ∈ t.root, e.start + e.delay < 2 ^ w
  ahead : ∀ e ∈ t.root, t.ticks ≤ e.start + e.delay
  due : ∀ e ∈ t.root, c.due e.id = some (base + (e.start + e.delay))
  listed : ∀ event d, c.due event = some d → Pending t event
  nodup : (t.root.map Event.id).Nodup
  sorted : t.root.Pairwise fun a b => a.start + a.delay ≤ b.start + b.delay

omit [DecidableEq E] in
theorem expiry_eq {w : Nat} (h : e.start + e.delay < 2 ^ w) :
    expiry w e = e.start + e.delay := Nat.mod_eq_of_lt h

omit [DecidableEq E] in
theorem insert_sorted {w : Nat} {event : Event E} {es : List (Event E)}
    (fits : event.start + event.delay < 2 ^ w) (unwrapped : ∀ e ∈ es, e.start + e.delay < 2 ^ w)
    (sorted : es.Pairwise fun a b => a.start + a.delay ≤ b.start + b.delay) :
    (es.orderedInsert (NotAfter w) event).Pairwise
      fun a b => a.start + a.delay ≤ b.start + b.delay := by
  induction es with
  | nil => simp
  | cons e es ih => ?_
  obtain ⟨first,rest⟩ := pairwise_cons.mp sorted
  have head := unwrapped e (by simp)
  have tail : ∀ x ∈ es, x.start + x.delay < 2 ^ w := fun x hx => unwrapped x (by simp [hx])
  rw [orderedInsert_cons]
  by_cases stop : NotAfter w event e
  · have earlier : event.start + event.delay ≤ e.start + e.delay := by
      simpa [NotAfter, expiry_eq fits, expiry_eq head] using stop
    simp only [stop, ↓reduceIte]
    refine pairwise_cons.mpr ⟨?_,sorted⟩
    intro x member
    rcases mem_cons.mp member with same | member
    · exact same ▸ earlier
    · exact earlier.trans (first x member)
  have later : e.start + e.delay < event.start + event.delay := by
    simpa [NotAfter, expiry_eq fits, expiry_eq head] using stop
  simp only [stop, ↓reduceIte]
  refine pairwise_cons.mpr ⟨?_,ih tail rest⟩
  intro x member
  rcases (mem_orderedInsert (NotAfter w)).mp member with same | member
  · exact same ▸ later.le
  · exact first x member

theorem follows_start {w first : Nat} (range : first < 2 ^ w) :
    Follows w (⟨[], first⟩ : Timer E) (clock first []) 0 := by
  constructor <;> simp [clock, range]

section
variable {w base ticks delay : Nat} {t : Timer E} {c : Clock E} {event : E} {op : Op E}
  {ops : List (Op E)}

theorem add_follows (h : Follows w t c base) (idle : ¬ Pending t event)
    (fits : t.ticks + delay < 2 ^ w) :
    Follows w (apply w t (.add event delay)) (c.step (.add event delay)) base := by
  have perm := perm_orderedInsert (NotAfter w) (⟨event,t.ticks,delay⟩ : Event E) t.root
  have other : ∀ e ∈ t.root, e.id ≠ event := by
    intro e member same
    exact idle (mem_map.mpr ⟨e,member,same⟩)
  simp only [apply, timer_add_event, Clock.step]
  constructor
  · exact h.now
  · exact h.range
  · intro e member
    rcases (mem_orderedInsert _).mp member with rfl | member
    · exact fits
    · exact h.unwrapped e member
  · intro e member
    rcases (mem_orderedInsert _).mp member with rfl | member
    · exact Nat.le_add_right _ _
    · exact h.ahead e member
  · intro e member
    rcases (mem_orderedInsert _).mp member with rfl | member
    · simp [h.now, Nat.add_assoc]
    · simpa [update_of_ne (other e member)] using h.due e member
  · intro e d expected
    rw [Pending, (perm.map Event.id).mem_iff]
    by_cases same : e = event
    · simp [same]
    · simp only [update_of_ne same] at expected
      exact .tail _ (h.listed e d expected)
  · rw [(perm.map Event.id).nodup_iff]
    exact nodup_cons.mpr ⟨idle,h.nodup⟩
  · exact insert_sorted fits h.unwrapped h.sorted

theorem ids_after_cancel (es : List (Event E)) (event : E) :
    (es.eraseP fun e => e.id = event).map Event.id = (es.map Event.id).erase event := by
  rw [erase_eq_eraseP', eraseP_map]
  congr 1

theorem cancel_follows (callback : Bool) (h : Follows w t c base) :
    Follows w (apply w t (.cancel event callback)) (c.step (.cancel event callback)) base := by
  by_cases pending : Pending t event
  · have kept : ∀ e ∈ t.root.eraseP fun e => e.id = event, e ∈ t.root ∧ e.id ≠ event := by
      intro e member
      have within : e.id ∈ (t.root.map Event.id).erase event := by
        rw [← ids_after_cancel]
        exact mem_map_of_mem member
      exact ⟨mem_of_mem_eraseP member,((h.nodup.mem_erase_iff).mp within).1⟩
    simp only [apply, timer_cancel_event, pending, ↓reduceIte, Clock.step]
    constructor
    · exact h.now
    · exact h.range
    · intro e member
      exact h.unwrapped e (kept e member).1
    · intro e member
      exact h.ahead e (kept e member).1
    · intro e member
      obtain ⟨member,other⟩ := kept e member
      simpa [update_of_ne other] using h.due e member
    · intro e d expected
      have other : e ≠ event := by
        intro same
        simp [same] at expected
      simp only [update_of_ne other] at expected
      rw [Pending, ids_after_cancel]
      exact (mem_erase_of_ne other).mpr (h.listed e d expected)
    · rw [ids_after_cancel]
      exact h.nodup.erase event
    · exact h.sorted.sublist eraseP_sublist
  · -- Nothing is removed, and the clock did not expect the event either.
    have unexpected : c.due event = none := by
      by_contra expected
      obtain ⟨d,expected⟩ := Option.ne_none_iff_exists'.mp expected
      exact pending (h.listed event d expected)
    have same : update c.due event none = c.due := by
      rw [← unexpected, update_eq_self]
    simpa only [apply, timer_cancel_event, pending, ↓reduceIte, Clock.step, same] using h

omit [DecidableEq E] in
theorem loop_runs_expired (now : Nat) {es : List (Event E)}
    (unwrapped : ∀ e ∈ es, e.start + e.delay < 2 ^ w)
    (sorted : es.Pairwise fun a b => a.start + a.delay ≤ b.start + b.delay) :
    (∀ e ∈ es.takeWhile fun e => expiry w e ≤ now, e.start + e.delay ≤ now) ∧
      ∀ e ∈ es.dropWhile fun e => expiry w e ≤ now, now < e.start + e.delay := by
  induction es with
  | nil => simp
  | cons e es ih => ?_
  obtain ⟨first,rest⟩ := pairwise_cons.mp sorted
  obtain ⟨taken,left⟩ := ih (by intro x hx; exact unwrapped x (by simp [hx])) rest
  have head := expiry_eq (unwrapped e (by simp))
  by_cases expired : e.start + e.delay ≤ now
  · simp only [takeWhile_cons, dropWhile_cons, head, expired, decide_true, ↓reduceIte]
    refine ⟨?_,left⟩
    intro x member
    rcases mem_cons.mp member with same | member
    · exact same ▸ expired
    · exact taken x member
  simp only [takeWhile_cons, dropWhile_cons, head, expired, decide_false,
    Bool.false_eq_true, ↓reduceIte]
  refine ⟨by simp,?_⟩
  intro x member
  rcases mem_cons.mp member with same | member
  · exact same ▸ Nat.lt_of_not_le expired
  · exact (Nat.lt_of_not_le expired).trans_le (first x member)

theorem inc_follows (h : Follows w t c base) (fits : t.ticks + ticks < 2 ^ w) :
    Follows w (apply w t (.inc ticks)) (c.step (.inc ticks)) base := by
  obtain ⟨taken,left⟩ := loop_runs_expired (t.ticks + ticks) h.unwrapped h.sorted
  have kept := dropWhile_sublist (l := t.root) fun e => expiry w e ≤ t.ticks + ticks
  have now := h.now
  simp only [apply, timer_inc_ticks, Nat.mod_eq_of_lt fits, Clock.step]
  constructor
  · simp only [now]
    omega
  · exact fits
  · intro e member
    exact h.unwrapped e (kept.subset member)
  · intro e member
    exact (left e member).le
  · intro e member
    have later := left e member
    simp only [h.due e (kept.subset member), Option.filter_eq_some_iff, decide_eq_true_eq, true_and]
    omega
  · intro event d expected
    obtain ⟨expected,later⟩ := Option.filter_eq_some_iff.mp expected
    obtain ⟨e,member,same⟩ := mem_map.mp (h.listed event d expected)
    have instant := h.due e member
    rw [same, expected, Option.some.injEq] at instant
    rw [← takeWhile_append_dropWhile (p := fun e => expiry w e ≤ t.ticks + ticks)
      (l := t.root), mem_append] at member
    rcases member with gone | stays
    · have expired := taken e gone
      simp only [decide_eq_true_eq] at later
      omega
    · exact mem_map.mpr ⟨e,stays,same⟩
  · exact h.nodup.sublist (kept.map Event.id)
  · exact h.sorted.sublist kept

theorem idle_inc_follows (h : Follows w t c base) (idle : t.root = []) :
    Follows w (apply w t (.inc ticks)) (c.step (.inc ticks))
      (c.now + ticks - (t.ticks + ticks) % 2 ^ w) := by
  have now := h.now
  have below : (t.ticks + ticks) % 2 ^ w ≤ t.ticks + ticks := Nat.mod_le _ _
  have range : (t.ticks + ticks) % 2 ^ w < 2 ^ w := Nat.mod_lt _ (Nat.two_pow_pos w)
  have nothing : ∀ event, c.due event = none := by
    intro event
    by_contra expected
    obtain ⟨d,expected⟩ := Option.ne_none_iff_exists'.mp expected
    have listed := h.listed event d expected
    simp [Pending, idle] at listed
  simp only [apply, timer_inc_ticks, Clock.step, idle, nothing]
  constructor <;> simp [range]
  omega

/-- No sum that the code compares has wrapped: no expiry wraps when an event is
    added and the counter does not wrap while an event is pending. -/
def NoWrap (w : Nat) (t : Timer E) : Op E → Prop
  | .add _ delay => t.ticks + delay < 2 ^ w
  | .cancel _ _ => True
  | .inc ticks => t.root = [] ∨ t.ticks + ticks < 2 ^ w

instance (w : Nat) (t : Timer E) : (op : Op E) → Decidable (NoWrap w t op)
  | .add _ _ => inferInstanceAs (Decidable (_ < _))
  | .cancel _ _ => inferInstanceAs (Decidable True)
  | .inc _ => instDecidableOr

theorem step_follows (h : Follows w t c base) (can : CanApply w t op) (plain : NoWrap w t op) :
    ∃ base, Follows w (apply w t op) (c.step op) base := by
  cases op with
  | add event delay => exact ⟨base,add_follows h can.2 plain⟩
  | cancel event callback => exact ⟨base,cancel_follows callback h⟩
  | inc ticks =>
    rcases plain with idle | fits
    · exact ⟨_,idle_inc_follows h idle⟩
    · exact ⟨base,inc_follows h fits⟩

theorem run_follows (run : Run (restrict (machine E w) (NoWrap w)) t ops u) :
    ∀ c base, Follows w t c base → ∃ base, Follows w u (ops.foldl Clock.step c) base := by
  induction run with
  | nil t => exact fun c base h => ⟨base,h⟩
  | cons can tail ih =>
    intro c base h
    obtain ⟨base,h⟩ := step_follows h can.1 can.2
    exact ih _ base h

theorem fired_due (h : Follows w t c base) (plain : NoWrap w t (.inc ticks)) :
    (∀ event, event ∈ (timer_inc_ticks w t ticks).2 ↔
      ∃ d, c.due event = some d ∧ d ≤ c.now + ticks) ∧
    (timer_inc_ticks w t ticks).2.Nodup ∧
    (timer_inc_ticks w t ticks).2.Pairwise fun a b =>
      ∀ d d', c.due a = some d → c.due b = some d' → d ≤ d' := by
  have now := h.now
  rcases plain with idle | fits
  · simp only [timer_inc_ticks, idle, takeWhile_nil, map_nil, nodup_nil,
      List.Pairwise.nil, and_self, and_true, not_mem_nil, false_iff, not_exists, not_and]
    intro event d expected
    have listed := h.listed event d expected
    simp [Pending, idle] at listed
  obtain ⟨taken,left⟩ := loop_runs_expired (t.ticks + ticks) h.unwrapped h.sorted
  have run := takeWhile_sublist (l := t.root) fun e => expiry w e ≤ t.ticks + ticks
  simp only [timer_inc_ticks, Nat.mod_eq_of_lt fits]
  refine ⟨?_,h.nodup.sublist (run.map Event.id),?_⟩
  · intro event
    constructor
    · intro member
      obtain ⟨e,member,same⟩ := mem_map.mp member
      have expired := taken e member
      exact ⟨_,same ▸ h.due e (run.subset member),by omega⟩
    intro ⟨d,expected,late⟩
    obtain ⟨e,member,same⟩ := mem_map.mp (h.listed event d expected)
    have instant := h.due e member
    rw [same, expected, Option.some.injEq] at instant
    rw [← takeWhile_append_dropWhile (p := fun e => expiry w e ≤ t.ticks + ticks)
      (l := t.root), mem_append] at member
    rcases member with runs | stays
    · exact mem_map.mpr ⟨e,runs,same⟩
    · have later := left e stays
      omega
  · rw [pairwise_map]
    refine (h.sorted.sublist run).imp_of_mem ?_
    intro a b first second before d d' expected expected'
    have instant := h.due a (run.subset first)
    have instant' := h.due b (run.subset second)
    rw [expected, Option.some.injEq] at instant
    rw [expected', Option.some.injEq] at instant'
    omega

omit [DecidableEq E] in
theorem last_added_of_mem (member : .add event d ∈ ops) :
    ∃ before delay since, LastAdded ops event before delay since := by
  induction ops using reverseRecOn with
  | nil => simp at member
  | append_singleton ops op ih => ?_
  by_cases last : ∃ d, op = .add event d
  · obtain ⟨d,last⟩ := last
    exact ⟨ops,d,[],by rw [last],by simp⟩
  have earlier : .add event d ∈ ops := by
    rcases mem_append.mp member with earlier | same
    · exact earlier
    · exact absurd ⟨d,(mem_singleton.mp same).symm⟩ last
  obtain ⟨before,delay,since,whole,only⟩ := ih earlier
  refine ⟨before,delay,since ++ [op],by simp [whole],?_⟩
  intro d member
  rcases mem_append.mp member with member | same
  · exact only d member
  · exact last ⟨d,(mem_singleton.mp same).symm⟩

theorem last_added_of_due (expected : (clock first ops).due event = some d) :
    ∃ before delay since, LastAdded ops event before delay since := by
  by_cases added : ∃ d, Op.add event d ∈ ops
  · obtain ⟨d,member⟩ := added
    exact last_added_of_mem member
  · have never := clock_never_added first event ops (not_exists.mp added)
    rw [never] at expected
    contradiction

theorem runs_on_time (h : Follows w t (clock first ops) base) (plain : NoWrap w t (.inc ticks)) :
    RunsOnTime ops ticks (timer_inc_ticks w t ticks).2 := by
  obtain ⟨runs,nodup,ordered⟩ := fired_due h plain
  rw [clock_now] at runs
  constructor
  · intro event before delay since ⟨whole,last⟩ kept waiting late
    subst whole
    apply count_eq_one_of_mem nodup
    refine (runs event).mpr ⟨_,(clock_due first event before delay since last _).mpr
      ⟨rfl,kept,waiting⟩,?_⟩
    simp only [elapsed_append, elapsed]
    omega
  · intro event before delay since ⟨whole,last⟩ early member
    subst whole
    obtain ⟨d,expected,late⟩ := (runs event).mp member
    obtain ⟨instant,_,_⟩ := (clock_due first event before delay since last d).mp expected
    simp only [elapsed_append, elapsed] at late
    omega
  · intro event before delay since ⟨whole,last⟩ past member
    subst whole
    obtain ⟨d,expected,late⟩ := (runs event).mp member
    exact ((clock_due first event before delay since last d).mp expected).2.2 past
  · intro event before delay since ⟨whole,last⟩ gone member
    subst whole
    obtain ⟨d,expected,late⟩ := (runs event).mp member
    exact ((clock_due first event before delay since last d).mp expected).2.1 gone
  · intro event member
    obtain ⟨d,expected,late⟩ := (runs event).mp member
    exact last_added_of_due expected
  · refine ordered.imp_of_mem ?_
    intro a b first_runs second_runs sorted before delay since before' delay' since'
      ⟨whole,last⟩ ⟨whole',last'⟩
    obtain ⟨d,expected,_⟩ := (runs a).mp first_runs
    obtain ⟨d',expected',_⟩ := (runs b).mp second_runs
    have le := sorted d d' expected expected'
    rw [whole] at expected
    rw [whole'] at expected'
    have instant := ((clock_due first a before delay since last d).mp expected).1
    have instant' := ((clock_due first b before' delay' since' last' d').mp expected').1
    omega

theorem on_time_of_run (boot : (machine E w).start first)
    (run : Run (restrict (machine E w) (NoWrap w)) first ops t) : OnTime w first ops := by
  obtain ⟨root,ticks⟩ := first
  obtain ⟨rfl,range⟩ := boot
  intro part n ⟨rest,whole⟩
  rw [← whole, append_assoc] at run
  obtain ⟨front,back⟩ := run_append part _ _ run
  obtain ⟨base,h⟩ := run_follows front _ _ (follows_start range)
  cases back with
  | cons can tail => exact runs_on_time h can.2

/-- An addition whose sum wraps goes to the head of the list and expires at once. -/
theorem wrapped_add_runs_early (event : E)
    (h : Follows w t c base) (half : 2 * delay < 2 ^ w) (wraps : 2 ^ w ≤ t.ticks + delay) :
    event ∈ (timer_inc_ticks w (apply w t (.add event delay)) 0).2 := by
  have range := h.range
  have small : expiry w (⟨event,t.ticks,delay⟩ : Event E) < t.ticks := by
    simp only [expiry]
    rw [Nat.mod_eq_sub_mod wraps, Nat.mod_eq_of_lt (by omega)]
    omega
  have head : t.root.orderedInsert (NotAfter w) ⟨event,t.ticks,delay⟩ =
      ⟨event,t.ticks,delay⟩ :: t.root := by
    cases es : t.root with
    | nil => rfl
    | cons e rest => ?_
    have member : e ∈ t.root := by simp [es]
    apply orderedInsert_cons_of_le
    have later := h.ahead e member
    rw [NotAfter, expiry_eq (h.unwrapped e member)]
    omega
  simp only [apply, timer_add_event, timer_inc_ticks, head, Nat.add_zero, Nat.mod_eq_of_lt range]
  rw [takeWhile_cons_of_pos (by simpa using small.le)]
  simp

omit [DecidableEq E] in
/-- A call that wraps the counter runs nothing although every pending event is due by its end. -/
theorem wrapped_inc_runs_nothing
    (h : Follows w t c base) (range : ticks < 2 ^ w) (wraps : 2 ^ w ≤ t.ticks + ticks) :
    (timer_inc_ticks w t ticks).2 = [] := by
  have below := h.range
  have now : (t.ticks + ticks) % 2 ^ w < t.ticks := by
    rw [Nat.mod_eq_sub_mod wraps, Nat.mod_eq_of_lt (by omega)]
    omega
  simp only [timer_inc_ticks]
  cases es : t.root with
  | nil => rfl
  | cons e rest => ?_
  have member : e ∈ t.root := by simp [es]
  have later := h.ahead e member
  have ahead : ¬ expiry w e ≤ (t.ticks + ticks) % 2 ^ w := by
    rw [expiry_eq (h.unwrapped e member)]
    omega
  rw [takeWhile_cons_of_neg (by simpa using ahead)]
  rfl

theorem late_of_wrap
    (h : Follows w t (clock first ops) base) (same : t = after (machine E w) ⟨[], first⟩ ops)
    (can : CanApply w t op) (wraps : ¬ NoWrap w t op) :
    ¬ OnTime w (⟨[], first⟩ : Timer E) (ops ++ [op, .inc 0]) := by
  intro on_time
  cases op with
  | add event delay =>
    have runs := wrapped_add_runs_early event h can.1 (Nat.le_of_not_lt wraps)
    have asked := on_time (ops ++ [.add event delay]) 0 (by simp)
    have state : after (machine E w) ⟨[],first⟩ (ops ++ [.add event delay]) =
        apply w t (.add event delay) := by
      rw [same]
      simp [after, machine]
    rw [state] at asked
    have positive : 0 < delay := by
      have range := h.range
      simp only [NoWrap] at wraps
      omega
    exact asked.early event ops delay [] ⟨rfl,by simp⟩ (by simpa [elapsed] using positive) runs
  | cancel event callback => exact wraps trivial
  | inc ticks =>
    obtain ⟨busy,passed⟩ := not_or.mp wraps
    have passed := Nat.le_of_not_lt passed
    have nothing := wrapped_inc_runs_nothing h can passed
    have asked := on_time ops ticks (by simp)
    rw [← same, nothing] at asked
    obtain ⟨e,rest,es⟩ := exists_cons_of_ne_nil busy
    have member : e ∈ t.root := by simp [es]
    have expected := h.due e member
    obtain ⟨before,delay,since,whole,last⟩ := last_added_of_due expected
    have now := h.now
    have fits := h.unwrapped e member
    subst whole
    obtain ⟨instant,kept,waiting⟩ := (clock_due first e.id before delay since last _).mp expected
    have late : delay ≤ elapsed since + ticks := by
      simp only [clock_now, elapsed_append, elapsed] at now
      omega
    have once := asked.once e.id before delay since ⟨rfl,last⟩ kept waiting late
    simp at once

end

/-- In every run in which no addition wraps and the counter does not wrap while
    an event is pending, every event runs when it should. The condition cannot be
    weakened: after any such run, one step that breaks it makes the timer fail. -/
theorem on_time_exactly_without_wrap {w : Nat} {first t : Timer E} {ops : List (Op E)}
    (boot : (machine E w).start first)
    (run : Run (restrict (machine E w) (NoWrap w)) first ops t) :
    OnTime w first ops ∧
      ∀ op, CanApply w t op → ¬ NoWrap w t op → ¬ OnTime w first (ops ++ [op, .inc 0]) := by
  refine ⟨on_time_of_run boot run,?_⟩
  intro op can wraps
  obtain ⟨root,ticks⟩ := first
  obtain ⟨rfl,range⟩ := boot
  obtain ⟨base,h⟩ := run_follows run _ _ (follows_start range)
  exact late_of_wrap h (run_end (run_of_restrict run)) can wraps

theorem on_time_exactly_without_wrap_two_events :
    OnTime 32 (⟨[], 7⟩ : Timer Nat) [.add 0 5, .add 1 2, .inc 3, .cancel 1 false, .inc 2] := by
  have run := run_of_allowed (m := restrict (machine Nat 32) (NoWrap 32))
    [.add 0 5, .add 1 2, .inc 3, .cancel 1 false, .inc 2] ⟨[],7⟩ (by decide)
  exact (on_time_exactly_without_wrap ⟨rfl,by decide⟩ run).1

/-- With the counter two ticks below its maximum, a delay of 5 runs out after one tick. -/
theorem delay_cut_short : Allowed (machine Nat 32) ⟨[], 4294967294⟩ [.add 0 5, .inc 1] ∧
      ¬ OnTime 32 (⟨[], 4294967294⟩ : Timer Nat) [.add 0 5, .inc 1] := by
  refine ⟨by decide,?_⟩
  intro on_time
  have asked := on_time [.add 0 5] 1 (by simp)
  exact asked.early 0 [] 5 [] ⟨rfl,by simp⟩ (by decide) (by decide)

end
end MutekTimer
