import Mathlib.Data.List.Basic

/-!
Guarded machines: a start condition, a guard on each action and the state the
action leads to. A safety statement is proved once for the start states and
once for a single guarded action; the rules below carry it to every run.
-/
namespace LibMachine
universe u v w
variable {S : Type u} {A : Type v}

structure Machine (S : Type u) (A : Type v) where
  start : S → Prop
  enabled : S → A → Prop
  next : S → A → S

inductive Run (m : Machine S A) : S → List A → S → Prop where
  | nil (s : S) : Run m s [] s
  | cons {s t : S} {a : A} {as : List A} (can : m.enabled s a)
      (tail : Run m (m.next s a) as t) : Run m s (a :: as) t

def Reached (m : Machine S A) (s : S) : Prop :=
  ∃ first, m.start first ∧ ∃ as, Run m first as s

/-- The same machine, with a further guard on every action. -/
def restrict (m : Machine S A) (ok : S → A → Prop) : Machine S A :=
  { m with enabled := fun s a => m.enabled s a ∧ ok s a }

theorem start_reached {m : Machine S A} {s : S} (h : m.start s) : Reached m s :=
  ⟨s, h, [], Run.nil s⟩

theorem run_invariant {m : Machine S A} (I : S → Prop)
    (keep : ∀ s a, I s → m.enabled s a → I (m.next s a))
    {s t : S} {as : List A} (run : Run m s as t) (h : I s) : I t := by
  induction run with
  | nil s => exact h
  | cons can tail ih => exact ih (keep _ _ h can)

/-- The invariant rule. -/
theorem reached_invariant {m : Machine S A} (I : S → Prop) (init : ∀ s, m.start s → I s)
    (keep : ∀ s a, I s → m.enabled s a → I (m.next s a))
    {s : S} (h : Reached m s) : I s := by
  obtain ⟨first,hstart,as,run⟩ := h
  exact run_invariant I keep run (init first hstart)

theorem run_snoc {m : Machine S A} {s t : S} {as : List A} {a : A} (run : Run m s as t)
    (can : m.enabled t a) : Run m s (as ++ [a]) (m.next t a) := by
  induction run with
  | nil s => exact Run.cons can (Run.nil _)
  | cons first tail ih => exact Run.cons first (ih can)

theorem reached_step {m : Machine S A} {s : S} {a : A} (h : Reached m s) (can : m.enabled s a) :
    Reached m (m.next s a) := by
  obtain ⟨first,hstart,as,run⟩ := h
  exact ⟨first,hstart,as ++ [a],run_snoc run can⟩

theorem run_of_restrict {m : Machine S A} {ok : S → A → Prop} {s t : S} {as : List A}
    (run : Run (restrict m ok) s as t) : Run m s as t := by
  induction run with
  | nil s => exact Run.nil s
  | cons can tail ih => exact Run.cons can.1 ih

theorem reached_of_restrict {m : Machine S A} {ok : S → A → Prop} {s : S}
    (h : Reached (restrict m ok) s) : Reached m s := by
  obtain ⟨first,hstart,as,run⟩ := h
  exact ⟨first,hstart,as,run_of_restrict run⟩

instance (m : Machine S A) (ok : S → A → Prop) [∀ s a, Decidable (m.enabled s a)]
    [∀ s a, Decidable (ok s a)] (s : S) (a : A) : Decidable ((restrict m ok).enabled s a) :=
  inferInstanceAs (Decidable (m.enabled s a ∧ ok s a))

/- Machines whose actions may fail. -/

section
variable {E : Type w}

/-- A computation that succeeds has succeeded in both its parts. -/
theorem bind_ok {α β : Type u} {x : Except E α} {f : α → Except E β} {r : β}
    (done : x >>= f = .ok r) :
    ∃ a, x = .ok a ∧ f a = .ok r := by
  cases x with
  | error e => cases done
  | ok a => exact ⟨a,rfl,done⟩

def succeeds {T : Type u} : Except E T → Bool
  | .ok _ => true
  | .error _ => false

/-- The actions that can be taken are those that do not fail. -/
def ofExec (start : S → Prop) (exec : S → A → Except E S) : Machine S A where
  start := start
  enabled s a := succeeds (exec s a) = true
  next s a := match exec s a with
    | .ok t => t
    | .error _ => s

theorem reached_exec {start : S → Prop} {exec : S → A → Except E S} {ok : S → A → Prop}
    (I : S → Prop) (init : ∀ s, start s → I s)
    (keep : ∀ s a t, I s → ok s a → exec s a = .ok t → I t)
    {s : S} (h : Reached (restrict (ofExec start exec) ok) s) : I s := by
  refine reached_invariant I init ?_ h
  intro s a holds can
  obtain ⟨completes,allowed⟩ := can
  change succeeds (exec s a) = true at completes
  change I (match exec s a with | .ok t => t | .error _ => s)
  cases done : exec s a with
  | ok t => exact keep s a t holds allowed done
  | error e => simp [done, succeeds] at completes

end

/- Concrete runs. The guards along a given list of actions can be evaluated. -/

def after (m : Machine S A) (s : S) (as : List A) : S := as.foldl m.next s

def Allowed (m : Machine S A) : S → List A → Prop
  | _, [] => True
  | s, a :: as => m.enabled s a ∧ Allowed m (m.next s a) as

instance decidableAllowed (m : Machine S A) [∀ s a, Decidable (m.enabled s a)] :
    (s : S) → (as : List A) → Decidable (Allowed m s as)
  | _, [] => isTrue trivial
  | s, a :: as =>
      have := decidableAllowed m (m.next s a) as
      inferInstanceAs (Decidable (m.enabled s a ∧ Allowed m (m.next s a) as))

theorem run_of_allowed {m : Machine S A} (as : List A) :
    ∀ s, Allowed m s as → Run m s as (after m s as) := by
  induction as with
  | nil => intro s _; exact Run.nil s
  | cons a as ih => intro s h; exact Run.cons h.1 (ih _ h.2)

theorem run_append {m : Machine S A} {t : S} (as bs : List A) :
    ∀ s, Run m s (as ++ bs) t → Run m s as (after m s as) ∧ Run m (after m s as) bs t := by
  induction as with
  | nil => intro s run; exact ⟨Run.nil s,run⟩
  | cons a as ih => ?_
  intro s run
  cases run with
  | cons can tail =>
    obtain ⟨front,back⟩ := ih _ tail
    exact ⟨Run.cons can front,back⟩

theorem run_end {m : Machine S A} {s t : S} {as : List A} (run : Run m s as t) :
    t = after m s as := by
  induction run with
  | nil s => rfl
  | cons can tail ih => exact ih

theorem reached_of_allowed (m : Machine S A) (s : S) (as : List A) (h : m.start s)
    (allowed : Allowed m s as) : Reached m (after m s as) :=
  ⟨s, h, as, run_of_allowed as s allowed⟩

end LibMachine
