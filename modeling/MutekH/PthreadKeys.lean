import MutekH.Lib.Machine
import MutekH.Lib.FixedWidth
import Mathlib.Logic.Function.Basic

/-!
Thread-specific data. Key slots are global and protected by a mutex, the values of
a thread are context-local and only that thread touches them. `none` is NULL.
The loop of `pthread_key_create` counts in an `error_t`, an `int_fast8_t` of `w` bits.
-/
namespace MutekPthreadKeys
open Function LibMachine LibFixedWidth

def EINVAL : Int := 5
def EAGAIN : Int := 9

structure Key (D : Type) where
  allocated : Bool
  destructor : Option D

section
variable {T V D : Type} (w keys_max : Nat)

/-- The loop of `pthread_key_create`; no result where it leaves the array. -/
def keyCreateLoop (keys : Nat → Key D) (destructor : Option D) :
    Nat → Int → Option ((Nat → Key D) × Int × Option Nat)
  | 0, _ => none
  | fuel + 1, i =>
    if i < keys_max then
      if i < 0 then none
      else if (keys i.toNat).allocated = true then
        keyCreateLoop keys destructor fuel (sint w (i + 1))
      else some (update keys i.toNat ⟨true, destructor⟩, i, some i.toNat)
    else some (keys, -EAGAIN, none)

/-- The keys, the result (the slot, not 0, where one is free) and what is stored
    through the key pointer. -/
def pthread_key_create (keys : Nat → Key D) (destructor : Option D) :
    Option ((Nat → Key D) × Int × Option Nat) :=
  keyCreateLoop w keys_max keys destructor (keys_max + 1) 0

def pthread_key_delete (keys : Nat → Key D) (key : Nat) : (Nat → Key D) × Int :=
  if (keys key).allocated = true then (update keys key ⟨false, none⟩, 0)
  else (keys, -EINVAL)

/-- `_pthread_keys_init`: it clears the values of the context that runs it. -/
def pthread_keys_init (values : Nat → Option V) : Nat → Nat → Option V
  | 0 => values
  | i + 1 => update (pthread_keys_init values i) i none

def pthread_getspecific (values : Nat → Option V) (key : Nat) : Option V :=
  if keys_max ≤ key then none else values key

def pthread_setspecific (values : Nat → Option V) (key : Nat) (value : Option V) :
    (Nat → Option V) × Int :=
  if keys_max ≤ key then (values, -EINVAL) else (update values key value, 0)

inductive Event (T V : Type) where
  | stored (t : T) (key : Nat) (value : Option V)
  | keyCreated (key : Nat)

/-- `log` is history, the last event first; `outside` is set once a call has used
    the array of keys outside its bounds. -/
structure State (T V D : Type) where
  keys : Nat → Key D
  values : T → Nat → Option V
  created : T → Bool
  log : List (Event T V)
  outside : Bool

inductive Act (T V D : Type) where
  | pthread_create (self new : T)
  | pthread_key_create (self : T) (destructor : Option D)
  | pthread_key_delete (self : T) (key : Nat)
  | pthread_setspecific (self : T) (key : Nat) (value : Option V)

variable [DecidableEq T]

variable (s : State T V D)

/-- The new context gets the values of the template, all NULL; `_pthread_keys_init`
    is called by the creating thread. -/
def pthread_create (self new : T) : State T V D :=
  let values := update s.values new (fun _ => none)
  { s with
    created := update s.created new true
    values := update values self (pthread_keys_init (values self) keys_max) }

def next : Act T V D → State T V D
  | .pthread_create self new => pthread_create keys_max s self new
  | .pthread_key_create _ destructor =>
    match pthread_key_create w keys_max s.keys destructor with
    | none => { s with outside := true }
    | some (_, _, none) => s
    | some (keys, _, some key) => { s with keys := keys, log := .keyCreated key :: s.log }
  | .pthread_key_delete _ key => { s with keys := (pthread_key_delete s.keys key).1 }
  | .pthread_setspecific self key value =>
    { s with
      values := update s.values self
        (pthread_setspecific keys_max (s.values self) key value).1
      log := .stored self key value :: s.log }

/-- A key that `pthread_key_create` gave out and that is not deleted. -/
def Valid (key : Nat) : Prop :=
  key < keys_max ∧ (s.keys key).allocated = true

def Enabled : Act T V D → Prop
  | .pthread_create self new => s.created self = true ∧ s.created new = false
  | .pthread_key_create self _ => s.created self = true
  | .pthread_key_delete self key => s.created self = true ∧ Valid keys_max s key
  | .pthread_setspecific self key _ => s.created self = true ∧ Valid keys_max s key

def Boot : Prop :=
  (∀ i, (s.keys i).allocated = false) ∧ (∀ t k, s.values t k = none) ∧ s.log = [] ∧
  s.outside = false

def machine (T V D : Type) [DecidableEq T] : Machine (State T V D) (Act T V D) where
  start := Boot
  enabled := Enabled keys_max
  next := next w keys_max

/-- What `t` stored last under `key` since the key was created. -/
def latest (t : T) (key : Nat) : List (Event T V) → Option V
  | [] => none
  | .stored x k value :: log => if x = t ∧ k = key then value else latest t key log
  | .keyCreated k :: log => if k = key then none else latest t key log

structure Isolated (s : State T V D) : Prop where
  inside : s.outside = false
  reads : ∀ t, s.created t = true → ∀ k, Valid keys_max s k →
    pthread_getspecific keys_max (s.values t) k = latest t k s.log

/-- A thread creates others only while it has no data itself; a slot is given out
    only if no thread has data left in it; and the loop of `pthread_key_create`
    finds a free slot, or its end, within the values of an `error_t`. -/
def InDomain : Act T V D → Prop
  | .pthread_create self _ => ∀ k, Valid keys_max s k → s.values self k = none
  | .pthread_key_create _ _ =>
    (Fits w keys_max ∨ ∃ i < keys_max, Fits w i ∧ (s.keys i).allocated = false) ∧
    ∀ i < keys_max, (s.keys i).allocated = false → (∀ j < i, (s.keys j).allocated = true) →
      ∀ t, s.created t = true → s.values t i = none
  | _ => True

end

section
variable {T V D : Type} {w keys_max : Nat} {keys : Nat → Key D} (destructor : Option D)

theorem loop_walk (bound : m ≤ keys_max) (fits : Fits w m) :
    ∀ (d fuel i : Nat), i + d = m → (∀ j, i ≤ j → j < m → (keys j).allocated = true) →
      keyCreateLoop w keys_max keys destructor (d + fuel) i =
        keyCreateLoop w keys_max keys destructor fuel m := by
  intro d
  induction d with
  | zero =>
    intro fuel i here _
    rw [Nat.zero_add, ← here, Nat.add_zero]
  | succ d ih => ?_
  intro fuel i here used
  have stored : sint w ((i : Int) + 1) = ((i + 1 : Nat) : Int) := by
    rw [sint_of_fits (fits_between (fits_zero w) fits (by omega) (by omega))]
    rfl
  have this := used i (Nat.le_refl i) (by omega)
  rw [Nat.succ_add, keyCreateLoop, if_pos (by omega), if_neg (by omega),
    if_pos (by simpa using this), stored]
  apply ih fuel (i + 1) (by omega)
  intro j low high
  exact used j (by omega) high

theorem key_create_walk (bound : m ≤ keys_max) (fits : Fits w m)
    (used : ∀ j < m, (keys j).allocated = true) :
    pthread_key_create w keys_max keys destructor =
      keyCreateLoop w keys_max keys destructor (keys_max - m + 1) m := by
  have walk := loop_walk destructor bound fits m (keys_max - m + 1) 0 (by omega)
    (fun j _ below => used j below)
  have fuel : m + (keys_max - m + 1) = keys_max + 1 := by omega
  rw [fuel] at walk
  exact walk

theorem key_create_found (bound : k < keys_max) (fits : Fits w k)
    (free : (keys k).allocated = false) (used : ∀ j < k, (keys j).allocated = true) :
    pthread_key_create w keys_max keys destructor =
      some (update keys k ⟨true, destructor⟩, (k : Int), some k) := by
  rw [key_create_walk destructor (Nat.le_of_lt bound) fits used, keyCreateLoop, if_pos (by omega)]
  simp [free]

/-- With every slot in use that an `error_t` can number and more slots than that,
    the counter wraps and the loop goes on below the array. -/
theorem key_create_outside (wide : 1 ≤ w) (beyond : ¬ Fits w keys_max)
    (used : ∀ j < keys_max, Fits w j → (keys j).allocated = true) :
    pthread_key_create w keys_max keys destructor = none := by
  have pos : 0 < 2 ^ (w - 1) := Nat.two_pow_pos _
  have fit := fits_natCast wide
  rw [fit] at beyond
  have fits : Fits w ((2 ^ (w - 1) - 1 : Nat) : Int) := (fit _).mpr (by omega)
  have below : ∀ j < 2 ^ (w - 1) - 1, (keys j).allocated = true := by
    intro j small
    exact used j (by omega) ((fit j).mpr (by omega))
  rw [key_create_walk destructor (by omega) fits below, keyCreateLoop, if_pos (by omega),
    if_neg (by omega), if_pos (by rw [Int.toNat_natCast]; exact used _ (by omega) fits)]
  have wraps := sint_wraps wide
  obtain ⟨fuel,more⟩ : ∃ fuel, keys_max - (2 ^ (w - 1) - 1) = fuel + 1 :=
    ⟨keys_max - 2 ^ (w - 1),by omega⟩
  have next : ((2 ^ (w - 1) - 1 : Nat) : Int) + 1 = ((2 ^ (w - 1) : Nat) : Int) := by omega
  rw [more, next, keyCreateLoop, if_pos (by omega), if_pos wraps]

theorem first_free_or_full (keys : Nat → Key D) (keys_max : Nat) :
    (∃ k < keys_max, (keys k).allocated = false ∧ ∀ j < k, (keys j).allocated = true) ∨
    ∀ j < keys_max, (keys j).allocated = true := by
  induction keys_max with
  | zero => exact .inr (fun j below => absurd below (Nat.not_lt_zero j))
  | succ n ih => ?_
  rcases ih with ⟨k,below,free,used⟩ | used
  · exact .inl ⟨k,Nat.lt_succ_of_lt below,free,used⟩
  cases here : (keys n).allocated with
  | false => exact .inl ⟨n,Nat.lt_succ_self n,here,used⟩
  | true => ?_
  apply Or.inr
  intro j below
  rcases Nat.lt_succ_iff_lt_or_eq.mp below with less | rfl
  · exact used j less
  · exact here

theorem keys_init_apply (values : Nat → Option V) (n k : Nat) :
    pthread_keys_init values n k = if k < n then none else values k := by
  induction n with
  | zero => simp [pthread_keys_init]
  | succ n ih =>
    unfold pthread_keys_init
    by_cases same : k = n
    · simp [same]
    · rw [update_of_ne same, ih]
      simp only [Nat.lt_succ_iff_lt_or_eq, same, or_false]

end

section
variable {T V D : Type} [DecidableEq T] {w keys_max : Nat} {s : State T V D}

/-- Besides, a thread that does not exist yet has stored nothing. -/
structure Inv (keys_max : Nat) (s : State T V D) : Prop where
  isolated : Isolated keys_max s
  fresh : ∀ t, s.created t = false → ∀ k, latest t k s.log = none

theorem reads_values (isolated : Isolated keys_max s) (there : s.created t = true)
    (valid : Valid keys_max s k) : s.values t k = latest t k s.log := by
  have reads := isolated.reads t there k valid
  rwa [pthread_getspecific, if_neg (Nat.not_le_of_lt valid.1)] at reads

theorem isolated_of_values (inside : s.outside = false)
    (reads : ∀ t, s.created t = true → ∀ k, Valid keys_max s k → s.values t k = latest t k s.log) :
    Isolated keys_max s := by
  constructor
  · exact inside
  · intro t there k valid
    rw [pthread_getspecific, if_neg (Nat.not_le_of_lt valid.1)]
    exact reads t there k valid

attribute [local simp] pthread_create

theorem create_isolated_iff (inv : Inv keys_max s)
    (can : Enabled keys_max s (.pthread_create self new)) :
    Isolated keys_max (pthread_create keys_max s self new) ↔
      ∀ k, Valid keys_max s k → s.values self k = none := by
  obtain ⟨there,absent⟩ := can
  have different : self ≠ new := by
    rintro rfl
    rw [there] at absent
    contradiction
  constructor
  · intro isolated k valid
    have after := reads_values isolated (t := self) (by simpa [different] using there)
      valid
    rw [reads_values inv.isolated there valid]
    simpa [keys_init_apply, valid.1] using after.symm
  intro empty
  refine isolated_of_values inv.isolated.inside ?_
  intro t created k valid
  have old : Valid keys_max s k := valid
  by_cases caller : t = self
  · subst caller
    simp [keys_init_apply, old.1, ← reads_values inv.isolated there old, empty k old]
  · by_cases fresh : t = new
    · subst fresh
      simp [caller, inv.fresh t absent k]
    · have known : s.created t = true := by simpa [fresh] using created
      simpa [caller, fresh] using reads_values inv.isolated known old

attribute [local simp] latest

theorem slot_isolated_iff (inv : Inv keys_max s) {destructor : Option D} (bound : i < keys_max) :
    Isolated keys_max { s with
      keys := update s.keys i ⟨true, destructor⟩
      log := .keyCreated i :: s.log } ↔ ∀ t, s.created t = true → s.values t i = none := by
  constructor
  · intro isolated t there
    have after := reads_values isolated there ⟨bound,by simp⟩
    simpa using after
  intro empty
  refine isolated_of_values inv.isolated.inside ?_
  intro t there k valid
  by_cases same : i = k
  · subst same
    simpa using empty t there
  · have old : Valid keys_max s k := by
      simpa [Valid, update_of_ne (Ne.symm same)] using valid
    simpa [same] using reads_values inv.isolated there old

theorem key_create_isolated_iff (wide : 1 ≤ w) (inv : Inv keys_max s) (self : T)
    (destructor : Option D) :
    Isolated keys_max (next w keys_max s (.pthread_key_create self destructor)) ↔
      InDomain w keys_max s (.pthread_key_create self destructor) := by
  rcases first_free_or_full s.keys keys_max with ⟨i,bound,free,used⟩ | full
  · by_cases fits : Fits w i
    · rw [next, key_create_found destructor bound fits free used]
      refine (slot_isolated_iff inv bound).trans ⟨?_,?_⟩
      · intro empty
        refine ⟨.inr ⟨i,bound,fits,free⟩,?_⟩
        intro j _ unused before
        -- the first free slot is `i`
        have same : j = i := by
          rcases Nat.lt_trichotomy j i with less | same | more
          · rw [used j less] at unused
            contradiction
          · exact same
          · rw [before i more] at free
            contradiction
        rw [same]
        exact empty
      · intro ok
        exact ok.2 i bound free used
    · have high : ∀ j, Fits w (j : Nat) → j < i := by
        intro j small
        rw [fits_natCast wide] at fits small
        omega
      have beyond : ¬ Fits w keys_max := by
        intro all
        exact absurd (high keys_max all) (by omega)
      rw [next, key_create_outside destructor wide beyond (fun j _ small => used j (high j small))]
      constructor
      · intro isolated
        exact absurd isolated.inside (by simp)
      · rintro ⟨all | ⟨j,_,small,unused⟩,_⟩
        · exact absurd all beyond
        · rw [used j (high j small)] at unused
          contradiction
  · by_cases fits : Fits w keys_max
    · rw [next, key_create_walk destructor (Nat.le_refl _) fits full, keyCreateLoop,
        if_neg (by omega)]
      constructor
      · intro _
        refine ⟨.inl fits,?_⟩
        intro j below unused
        rw [full j below] at unused
        contradiction
      · intro _
        exact inv.isolated
    · rw [next, key_create_outside destructor wide fits (fun j below _ => full j below)]
      constructor
      · intro isolated
        exact absurd isolated.inside (by simp)
      · rintro ⟨all | ⟨j,below,_,unused⟩,_⟩
        · exact absurd all fits
        · rw [full j below] at unused
          contradiction

theorem delete_isolated (inv : Inv keys_max s) (key : Nat) :
    Isolated keys_max { s with keys := (pthread_key_delete s.keys key).1 } := by
  refine isolated_of_values inv.isolated.inside ?_
  intro t there k valid
  apply reads_values inv.isolated there
  refine ⟨valid.1,?_⟩
  have allocated := valid.2
  simp only [pthread_key_delete] at allocated
  split at allocated
  · by_cases same : k = key
    · simp [same] at allocated
    · simpa [same] using allocated
  · exact allocated

theorem setspecific_isolated (inv : Inv keys_max s) (self : T) (value : Option V)
    (bound : key < keys_max) :
    Isolated keys_max { s with
      values := update s.values self (pthread_setspecific keys_max (s.values self) key value).1
      log := .stored self key value :: s.log } := by
  refine isolated_of_values inv.isolated.inside ?_
  intro t there k valid
  have old := reads_values inv.isolated there valid
  rw [pthread_setspecific, if_neg (Nat.not_le_of_lt bound)]
  by_cases caller : t = self
  · subst caller
    by_cases same : k = key
    · simp [same]
    · simpa [same, Ne.symm same] using old
  · simpa [caller, Ne.symm caller] using old

theorem next_isolated_iff (wide : 1 ≤ w) (inv : Inv keys_max s) (a : Act T V D)
    (can : Enabled keys_max s a) :
    Isolated keys_max (next w keys_max s a) ↔ InDomain w keys_max s a := by
  cases a with
  | pthread_create self new => exact create_isolated_iff inv can
  | pthread_key_create self destructor => exact key_create_isolated_iff wide inv self destructor
  | pthread_key_delete self key => exact iff_of_true (delete_isolated inv key) trivial
  | pthread_setspecific self key value =>
    exact iff_of_true (setspecific_isolated inv self value can.2.1) trivial

theorem next_fresh (inv : Inv keys_max s) (a : Act T V D) (can : Enabled keys_max s a) (t : T)
    (absent : (next w keys_max s a).created t = false) (k : Nat) :
    latest t k (next w keys_max s a).log = none := by
  cases a with
  | pthread_create self new =>
    apply inv.fresh t _ k
    by_cases same : t = new
    · simp [same, next] at absent
    · simpa [same, next] using absent
  | pthread_key_create self destructor =>
    simp only [next] at absent ⊢
    split at absent
    · exact inv.fresh t absent k
    · exact inv.fresh t absent k
    · simp [inv.fresh t absent k]
  | pthread_key_delete self key => exact inv.fresh t absent k
  | pthread_setspecific self key value =>
    have other : self ≠ t := by
      rintro rfl
      have there := can.1
      rw [show s.created self = false from absent] at there
      contradiction
    simpa [next, other] using inv.fresh t absent k

theorem inv_reached (wide : 1 ≤ w)
    (h : Reached (restrict (machine w keys_max T V D) (InDomain w keys_max)) s) :
    Inv keys_max s := by
  apply reached_invariant (Inv keys_max) _ _ h
  · rintro s ⟨_,values,log,inside⟩
    constructor
    · apply isolated_of_values inside
      intro t _ k _
      simp [values, log]
    · simp [log]
  · intro s a inv can
    exact ⟨(next_isolated_iff wide inv a can.1).mpr can.2,next_fresh inv a can.1⟩

/-- Threads read what they stored themselves in every run within `InDomain`, and from
    there a call keeps it so exactly if it is in `InDomain`. -/
theorem specific_data_isolated (T V D : Type) [DecidableEq T] (w keys_max : Nat) (wide : 8 ≤ w) :
    (∀ s : State T V D, Reached (restrict (machine w keys_max T V D) (InDomain w keys_max)) s →
      Isolated keys_max s) ∧
    ∀ s : State T V D, Reached (restrict (machine w keys_max T V D) (InDomain w keys_max)) s →
      ∀ a, Enabled keys_max s a →
        (Isolated keys_max (next w keys_max s a) ↔ InDomain w keys_max s a) := by
  constructor
  · intro s reached
    exact (inv_reached (by omega) reached).isolated
  · intro s reached a can
    exact next_isolated_iff (by omega) (inv_reached (by omega) reached) a can

end

def started : State Nat Nat Nat where
  keys _ := ⟨false, none⟩
  values _ _ := none
  created t := t = 0
  log := []
  outside := false

theorem boot_started : Boot started := by
  simp [Boot, started]

/-- Two threads that use the same key. -/
theorem specific_data_isolated_two : Isolated 2 (after (machine 8 2 Nat Nat Nat) started
      [.pthread_create 0 1, .pthread_key_create 0 none, .pthread_setspecific 0 0 (some 7),
        .pthread_setspecific 1 0 (some 8), .pthread_key_delete 1 0]) := by
  apply (specific_data_isolated Nat Nat Nat 8 2 (by decide)).1
  apply reached_of_allowed (restrict (machine 8 2 Nat Nat Nat) (InDomain 8 2)) started _
    boot_started
  have fits : Fits 8 2 := by decide
  simp only [Allowed, restrict, machine, next, Enabled, InDomain, Valid, started, pthread_create,
    pthread_key_create, keyCreateLoop]
  simp [fits, update_apply, keys_init_apply]

/-- Thread 0 stores 7 under its key and creates thread 1: it reads NULL. -/
theorem create_clears_creator :
    ∃ s, Reached (machine 8 1 Nat Nat Nat) s ∧ Valid 1 s 0 ∧ latest 0 0 s.log = some 7 ∧
      pthread_getspecific 1 (s.values 0) 0 = none := by
  have reached := reached_of_allowed (machine 8 1 Nat Nat Nat) started
    [.pthread_key_create 0 none, .pthread_setspecific 0 0 (some 7), .pthread_create 0 1]
    boot_started (by
      simp [Allowed, machine, next, Enabled, Valid, started, pthread_key_create, keyCreateLoop])
  exact ⟨_,reached,⟨by decide,rfl⟩,rfl,rfl⟩

end MutekPthreadKeys
