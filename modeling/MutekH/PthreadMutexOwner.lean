import MutekH.PthreadMutex

/-!
The error-check and the recursive mutex under every interleaving of calls by
holders and by others. The owner field follows the holder as long as no trylock
takes the free mutex, no context but the holder unlocks and the recursion depth
fits the counter; each of these limits is exact.
-/
namespace MutekPthreadMutexOwner
open List LibMachine MutekWaitQueue MutekPthreadMutex
variable {T : Type}

/-- The counter is the number of acquisitions, and they are all by the context
    the owner field names. -/
structure Owned (s : System T) : Prop where
  depth : s.mutex.count = s.holders.length
  named : s.mutex.count ≠ 0 → ∃ t, s.mutex.owner = some t ∧ ∀ x ∈ s.holders, x = t

structure Inv (kind : Kind) (w : Nat) (s : System T) : Prop extends Owned s where
  range : s.mutex.count < 2 ^ w
  once : kind = .errorcheck → s.holders.length ≤ 1

theorem holder_iff {s : System T} (owned : Owned s) (self : T) :
    self ∈ s.holders ↔ s.mutex.count ≠ 0 ∧ s.mutex.owner = some self := by
  constructor
  · intro member
    have pos : s.mutex.count ≠ 0 := by
      have := length_pos_of_mem member
      have := owned.depth
      omega
    obtain ⟨t,owner,only⟩ := owned.named pos
    exact ⟨pos,by rw [owner, only self member]⟩
  rintro ⟨pos,owner⟩
  obtain ⟨t,owner',only⟩ := owned.named pos
  have same : t = self := Option.some.inj (owner'.symm.trans owner)
  have some : s.holders ≠ [] := by
    intro none
    rw [owned.depth, none] at pos
    exact pos rfl
  obtain ⟨x,rest,list⟩ := exists_cons_of_ne_nil some
  have first : x = t := only x (by simp [list])
  simp [list, first, same]

theorem free_empty {s : System T} (owned : Owned s) (free : s.mutex.count = 0) :
    s.holders = [] := by
  apply eq_nil_of_length_eq_zero
  rw [← owned.depth]
  exact free

theorem holders_alone {s : System T} (owned : Owned s) {self : T} (holder : self ∈ s.holders) :
    ∀ x ∈ s.holders, x = self := by
  obtain ⟨pos,owner⟩ := (holder_iff owned self).mp holder
  obtain ⟨t,owner',only⟩ := owned.named pos
  rw [owner] at owner'
  rw [Option.some.inj owner']
  exact only

section shapes
variable (w : Nat) {s : System T} (self : T)

def taken (w : Nat) (s : System T) (self : T) (owner : Option T) : System T :=
  { s with
    mutex := { s.mutex with count := increment w s.mutex.count, owner := owner }
    holders := self :: s.holders }

def queued (s : System T) (self : T) : System T :=
  { s with
    mutex := { s.mutex with wait := s.mutex.wait ++ [self] }
    arrivals := s.arrivals ++ [self] }

/-- A taken mutex is owned exactly when the count did not wrap and the owner
    field names the only holder. -/
theorem taken_owned_iff (owned : Owned s) (owner : Option T) (alone : ∀ x ∈ s.holders, x = self) :
    Owned (taken w s self owner) ↔
      increment w s.mutex.count = s.mutex.count + 1 ∧ owner = some self := by
  have depth := owned.depth
  constructor
  · intro after
    have deeper := after.depth
    simp only [taken, length_cons] at deeper
    refine ⟨by omega,?_⟩
    obtain ⟨t,named,only⟩ := after.named (by simp only [taken]; omega)
    have same : self = t := only self (by simp [taken])
    simpa [taken, same] using named
  rintro ⟨deeper,named⟩
  constructor
  · simp only [taken, length_cons]
    omega
  intro _
  refine ⟨self,named,?_⟩
  intro x member
  simp only [taken, mem_cons] at member
  rcases member with same | old
  · exact same
  · exact alone x old

theorem queued_inv {kind : Kind} (inv : Inv kind w s) : Inv kind w (queued s self) :=
  ⟨⟨inv.depth, inv.named⟩, inv.range, inv.once⟩

theorem taken_inv {kind : Kind} (inv : Inv kind w s) (alone : ∀ x ∈ s.holders, x = self)
    (room : s.mutex.count + 1 < 2 ^ w) (once : kind = .errorcheck → s.holders = []) :
    Inv kind w (taken w s self (some self)) := by
  have deeper := increment_eq room
  refine ⟨(taken_owned_iff w self inv.toOwned _ alone).mpr ⟨deeper,rfl⟩,?_,?_⟩
  · simp only [taken]
    omega
  · intro errorcheck
    simp [taken, once errorcheck]

end shapes

def RoomToNest (kind : Kind) (w : Nat) (s : System T) (self : T) : Prop :=
  kind = .recursive → self ∈ s.holders → s.mutex.count + 1 < 2 ^ w

theorem increment_eq_iff {w count : Nat} (bound : count < 2 ^ w) :
    increment w count = count + 1 ↔ count + 1 < 2 ^ w := by
  constructor
  · intro same
    rw [← same]
    exact Nat.mod_lt _ (by omega)
  · exact increment_eq

theorem nested_exact {w : Nat} {s : System T} {self : T} (inv : Inv .recursive w s)
    (holder : self ∈ s.holders) :
    ((taken w s self (some self)).mutex.count = s.mutex.count + 1 ↔
      RoomToNest .recursive w s self) ∧
    (RoomToNest .recursive w s self → Inv .recursive w (taken w s self (some self))) := by
  have room : RoomToNest .recursive w s self ↔ s.mutex.count + 1 < 2 ^ w := by
    simp [RoomToNest, holder]
  rw [room]
  refine ⟨increment_eq_iff inv.range,?_⟩
  intro fits
  apply taken_inv w self inv (holders_alone inv.toOwned holder) fits
  intro no
  cases no

variable [DecidableEq T]

/-- What a call owes its caller: a relock by the holder fails with EDEADLK and changes nothing, or
    goes one level deeper; an unlock by another context fails and changes nothing; an unlock of a
    mutex taken more than once gives it to nobody else. -/
def Kept (kind : Kind) (w : Nat) (s : System T) : Call T → Prop
  | .lock self => self ∈ s.holders →
      match kind with
      | .recursive =>
          (pthread_mutex_lock kind w s.mutex self).2 = .returned 0 ∧
          (call kind w s (.lock self)).mutex.count = s.mutex.count + 1 ∧
          (call kind w s (.lock self)).holders = self :: s.holders
      | _ => (pthread_mutex_lock kind w s.mutex self).2 = .returned EDEADLK ∧
          call kind w s (.lock self) = s
  | .trylock self => self ∈ s.holders →
      match kind with
      | .recursive =>
          (pthread_mutex_trylock kind w s.mutex self).2 = 0 ∧
          (call kind w s (.trylock self)).mutex.count = s.mutex.count + 1 ∧
          (call kind w s (.trylock self)).holders = self :: s.holders
      | _ => (pthread_mutex_trylock kind w s.mutex self).2 = EDEADLK ∧
          call kind w s (.trylock self) = s
  | .unlock self =>
      if self ∈ s.holders then
        2 ≤ s.holders.length → (call kind w s (.unlock self)).holders = s.holders.erase self
      else (pthread_mutex_unlock kind w s.mutex self).2.1 ≠ 0 ∧
        call kind w s (.unlock self) = s

/-- Only the holder unlocks, a trylock finds the mutex taken unless the stale owner field happens to
    name its caller, and nesting stops short of the counter's range. -/
def InDomain (kind : Kind) (w : Nat) (s : System T) : Call T → Prop
  | .lock self => RoomToNest kind w s self
  | .trylock self =>
      (s.mutex.count = 0 → s.mutex.owner = some self) ∧ RoomToNest kind w s self
  | .unlock self => self ∈ s.holders

instance (kind : Kind) (w : Nat) (s : System T) (self : T) : Decidable (RoomToNest kind w s self) :=
  inferInstanceAs (Decidable (_ → _ → _))

instance (kind : Kind) (w : Nat) (s : System T) (a : Call T) : Decidable (InDomain kind w s a) :=
  match a with
  | .lock self => inferInstanceAs (Decidable (RoomToNest kind w s self))
  | .trylock _ => instDecidableAnd
  | .unlock self => inferInstanceAs (Decidable (self ∈ s.holders))

attribute [local simp] pthread_mutex_trylock pthread_mutex_lock pthread_mutex_errorcheck_trylock
    pthread_mutex_recursive_trylock pthread_mutex_errorcheck_lock pthread_mutex_recursive_lock
    pthread_mutex_unlock

theorem released_inv (kind : Kind) (w : Nat) {s : System T} {self : T} (pos : 1 < 2 ^ w)
    (owned : Owned s) (holder : self ∈ s.holders) (one : s.mutex.count = 1) (next : Option T)
    (rest handed : List T) :
    Inv kind w { s with
      mutex := ⟨next.toList.length, next, rest⟩
      holders := next.toList ++ s.holders.erase self
      handed := handed } := by
  have left := length_erase_of_mem holder
  have empty : s.holders.erase self = [] := by
    apply eq_nil_of_length_eq_zero
    have := owned.depth
    omega
  have positive : 0 < 2 ^ w := Nat.two_pow_pos w
  cases next with
  | none =>
    refine ⟨⟨?_,?_⟩,?_,?_⟩ <;> simp [empty, positive]
  | some t =>
    refine ⟨⟨?_,?_⟩,?_,?_⟩ <;> simp [empty, pos]

section
variable {kind : Kind} {w : Nat} {s : System T} {self : T} (checked : kind ≠ .normal) (wide : 1 ≤ w)
  (inv : Inv kind w s)
include checked wide inv

theorem lock_free_inv (self : T) (free : s.mutex.count = 0) :
    Inv kind w (call kind w s (.lock self)) := by
  have two : 2 ^ 1 ≤ 2 ^ w := Nat.pow_le_pow_right (by decide) wide
  have empty := free_empty inv.toOwned free
  have shape : call kind w s (.lock self) = taken w s self (some self) := by
    cases kind with
    | normal => exact absurd rfl checked
    | errorcheck => simp [call, free, taken]
    | recursive => simp [call, free, taken]
  rw [shape]
  exact taken_inv w self inv (by simp [empty]) (by omega) (fun _ => empty)

theorem trylock_free_exact (self : T) (free : s.mutex.count = 0) :
    (InDomain kind w s (.trylock self) →
      Kept kind w s (.trylock self) ∧ Inv kind w (call kind w s (.trylock self))) ∧
    (Owned (call kind w s (.trylock self)) → InDomain kind w s (.trylock self)) := by
  have two : 2 ^ 1 ≤ 2 ^ w := Nat.pow_le_pow_right (by decide) wide
  have empty := free_empty inv.toOwned free
  have alone : ∀ x ∈ s.holders, x = self := by simp [empty]
  have shape : call kind w s (.trylock self) = taken w s self s.mutex.owner := by
    cases kind with
    | normal => exact absurd rfl checked
    | errorcheck => simp [call, free, taken]
    | recursive => simp [call, free, taken]
  rw [shape]
  constructor
  · rintro ⟨stale,_⟩
    refine ⟨by simp [Kept, empty],?_⟩
    rw [stale free]
    exact taken_inv w self inv alone (by omega) (fun _ => empty)
  · intro owned
    have named := ((taken_owned_iff w self inv.toOwned _ alone).mp owned).2
    exact ⟨fun _ => named,fun _ holder => by simp [empty] at holder⟩

/-- The last unlock passes the mutex to the head of the queue, or frees it. -/
theorem last_unlock_inv (holder : self ∈ s.holders) (one : s.mutex.count = 1) :
    Kept kind w s (.unlock self) ∧ Inv kind w (call kind w s (.unlock self)) := by
  have two : 2 ^ 1 ≤ 2 ^ w := Nat.pow_le_pow_right (by decide) wide
  have depth := inv.depth
  have mine := ((holder_iff inv.toOwned self).mp holder).2
  have down : decrement w 1 = 0 := decrement_eq (by omega) (by omega)
  have up : increment w 0 = 1 := increment_eq (by omega)
  refine ⟨?_,?_⟩
  · simp only [Kept, if_pos holder]
    intro twice
    omega
  have step := released_inv kind w (by omega) inv.toOwned holder one s.mutex.wait.head?
    s.mutex.wait.tail (s.handed ++ s.mutex.wait.head?.toList)
  cases queue : s.mutex.wait with rw [queue] at step
  | cons t rest =>
    cases kind with
    | normal => exact absurd rfl checked
    | errorcheck =>
      simpa [call, pthread_mutex_errorcheck_unlock, mine, queue, one] using step
    | recursive =>
      simpa [call, pthread_mutex_recursive_unlock, queue, one, down, up]
        using step
  | nil =>
    cases kind with
    | normal => exact absurd rfl checked
    | errorcheck =>
      simpa [call, pthread_mutex_errorcheck_unlock, mine, queue, one, down]
        using step
    | recursive =>
      simpa [call, pthread_mutex_recursive_unlock, queue, one, down] using step

end

theorem unlock_silent (kind : Kind) (w : Nat) (m : Mutex T) (self : T) :
    (pthread_mutex_unlock kind w m self).2.1 = 0 := by
  cases kind with
  | normal =>
    simp only [pthread_mutex_unlock, pthread_mutex_normal_unlock]
    split <;> rfl
  | errorcheck =>
    simp only [pthread_mutex_unlock, pthread_mutex_errorcheck_unlock]
    split
    · split
      · split <;> rfl
      · rfl
    · rfl
  | recursive =>
    simp only [pthread_mutex_unlock, pthread_mutex_recursive_unlock]
    split
    · split <;> rfl
    · rfl

section errorcheck
variable {w : Nat} {s : System T} {self : T}

theorem errorcheck_lock_exact (wide : 1 ≤ w) (inv : Inv .errorcheck w s) :
    Kept .errorcheck w s (.lock self) ∧ Inv .errorcheck w (call .errorcheck w s (.lock self)) := by
  by_cases free : s.mutex.count = 0
  · refine ⟨by simp [Kept, free_empty inv.toOwned free],?_⟩
    exact lock_free_inv (by decide) wide inv self free
  by_cases mine : s.mutex.owner = some self
  · have shape : call .errorcheck w s (.lock self) = s := by
      simp [call, free, mine, EDEADLK]
    rw [shape]
    refine ⟨?_,inv⟩
    simp [Kept, shape, free, mine]
  have shape : call .errorcheck w s (.lock self) = queued s self := by
    simp [call, free, mine, queued, sched_wait_unlock]
  rw [shape]
  refine ⟨?_,queued_inv w self inv⟩
  intro holder
  exact absurd ((holder_iff inv.toOwned self).mp holder).2 mine

theorem errorcheck_trylock_exact (self : T) (wide : 1 ≤ w) (inv : Inv .errorcheck w s) :
    (InDomain .errorcheck w s (.trylock self) → Kept .errorcheck w s (.trylock self) ∧
      Inv .errorcheck w (call .errorcheck w s (.trylock self))) ∧
    (Owned (call .errorcheck w s (.trylock self)) → InDomain .errorcheck w s (.trylock self)) := by
  by_cases free : s.mutex.count = 0
  · exact trylock_free_exact (by decide) wide inv self free
  have shape : call .errorcheck w s (.trylock self) = s := by
    by_cases mine : s.mutex.owner = some self
    · simp [call, free, mine, EDEADLK]
    · simp [call, free, mine, EBUSY]
  rw [shape]
  constructor
  · intro _
    refine ⟨?_,inv⟩
    intro holder
    have mine := ((holder_iff inv.toOwned self).mp holder).2
    refine ⟨?_,shape⟩
    simp [free, mine]
  · intro _
    exact ⟨fun zero => absurd zero free,fun no => by cases no⟩

end errorcheck

section recursive
variable {w : Nat} {s : System T} {self : T}

theorem recursive_lock_exact (self : T) (wide : 1 ≤ w) (inv : Inv .recursive w s) :
    (InDomain .recursive w s (.lock self) → Kept .recursive w s (.lock self) ∧
      Inv .recursive w (call .recursive w s (.lock self))) ∧
    (Kept .recursive w s (.lock self) → InDomain .recursive w s (.lock self)) := by
  have member := holder_iff inv.toOwned self
  by_cases holder : self ∈ s.holders
  · obtain ⟨pos,mine⟩ := member.mp holder
    obtain ⟨deeper,step⟩ := nested_exact inv holder
    have shape : call .recursive w s (.lock self) = taken w s self (some self) := by
      simp [call, mine, taken]
    have res : (pthread_mutex_lock .recursive w s.mutex self).2 = .returned 0 := by
      simp [mine]
    rw [shape]
    constructor
    · intro room
      refine ⟨?_,step room⟩
      intro _
      simp only [shape]
      exact ⟨res,deeper.mpr room,rfl⟩
    · intro kept
      have nested := (kept holder).2.1
      rw [shape] at nested
      exact deeper.mp nested
  · have domain : InDomain .recursive w s (.lock self) := fun _ yes => absurd yes holder
    have kept : Kept .recursive w s (.lock self) := fun yes => absurd yes holder
    refine ⟨fun _ => ⟨kept,?_⟩,fun _ => domain⟩
    by_cases free : s.mutex.count = 0
    · exact lock_free_inv (by decide) wide inv self free
    have other : s.mutex.owner ≠ some self := fun mine => holder (member.mpr ⟨free,mine⟩)
    have shape : call .recursive w s (.lock self) = queued s self := by
      simp [call, free, other, queued, sched_wait_unlock]
    rw [shape]
    exact queued_inv w self inv

theorem recursive_trylock_exact (wide : 1 ≤ w) (inv : Inv .recursive w s) :
    (InDomain .recursive w s (.trylock self) → Kept .recursive w s (.trylock self) ∧
      Inv .recursive w (call .recursive w s (.trylock self))) ∧
    (Kept .recursive w s (.trylock self) ∧ Owned (call .recursive w s (.trylock self)) →
      InDomain .recursive w s (.trylock self)) := by
  have member := holder_iff inv.toOwned self
  by_cases holder : self ∈ s.holders
  · obtain ⟨pos,mine⟩ := member.mp holder
    obtain ⟨deeper,step⟩ := nested_exact inv holder
    have shape : call .recursive w s (.trylock self) = taken w s self (some self) := by
      simp [call, mine, taken]
    have res : (pthread_mutex_trylock .recursive w s.mutex self).2 = 0 := by
      simp [mine]
    rw [shape]
    constructor
    · rintro ⟨_,room⟩
      refine ⟨?_,step room⟩
      intro _
      simp only [shape]
      exact ⟨res,deeper.mpr room,rfl⟩
    · rintro ⟨kept,_⟩
      have nested := (kept holder).2.1
      rw [shape] at nested
      exact ⟨fun zero => absurd zero pos,deeper.mp nested⟩
  · by_cases free : s.mutex.count = 0
    · obtain ⟨keeps,needs⟩ := trylock_free_exact (by decide) wide inv self free
      exact ⟨keeps,fun both => needs both.2⟩
    have kept : Kept .recursive w s (.trylock self) := fun yes => absurd yes holder
    have other : s.mutex.owner ≠ some self := fun mine => holder (member.mpr ⟨free,mine⟩)
    have shape : call .recursive w s (.trylock self) = s := by
      simp [call, free, other, EBUSY]
    rw [shape]
    exact ⟨fun _ => ⟨kept,inv⟩,fun _ => ⟨fun zero => absurd zero free,
      fun _ yes => absurd yes holder⟩⟩

theorem recursive_unlock_inv (wide : 1 ≤ w) (inv : Inv .recursive w s) (holder : self ∈ s.holders) :
    Kept .recursive w s (.unlock self) ∧ Inv .recursive w (call .recursive w s (.unlock self)) := by
  have depth := inv.depth
  have left := length_erase_of_mem holder
  obtain ⟨pos,mine⟩ := (holder_iff inv.toOwned self).mp holder
  have range := inv.range
  by_cases one : s.mutex.count = 1
  · exact last_unlock_inv (by decide) wide inv holder one
  have down : decrement w s.mutex.count = s.mutex.count - 1 := decrement_eq (by omega) range
  have more : ¬ s.mutex.count - 1 = 0 := by omega
  have shape : call .recursive w s (.unlock self) = { s with
      mutex := { s.mutex with count := s.mutex.count - 1 }
      holders := s.holders.erase self } := by
    simp [call, pthread_mutex_recursive_unlock, down, more]
  constructor
  · simp only [Kept, if_pos holder, shape]
    intro _
    trivial
  rw [shape]
  refine ⟨⟨?_,?_⟩,?_,?_⟩
  · simp only
    omega
  · intro _
    refine ⟨self,mine,?_⟩
    intro x member
    exact holders_alone inv.toOwned holder x (mem_of_mem_erase member)
  · simp only
    omega
  · intro no
    cases no

end recursive

theorem call_exact {kind : Kind} {w : Nat} {s : System T} (checked : kind ≠ .normal)
    (wide : 1 ≤ w) (inv : Inv kind w s) (a : Call T) :
    (InDomain kind w s a → Kept kind w s a ∧ Inv kind w (call kind w s a)) ∧
    (Kept kind w s a ∧ Owned (call kind w s a) → InDomain kind w s a) := by
  have by_holder : ∀ self, Kept kind w s (.unlock self) ∧ Owned (call kind w s (.unlock self)) →
      InDomain kind w s (.unlock self) := by
    rintro self ⟨kept,_⟩
    apply Classical.byContradiction
    intro other
    simp only [InDomain] at other
    simp only [Kept, if_neg other] at kept
    exact kept.1 (unlock_silent kind w s.mutex self)
  cases kind with
  | normal => exact absurd rfl checked
  | errorcheck =>
    cases a with
    | lock self =>
      refine ⟨fun _ => errorcheck_lock_exact wide inv,?_⟩
      intro _ no
      cases no
    | trylock self =>
      obtain ⟨keeps,needs⟩ := errorcheck_trylock_exact self wide inv
      exact ⟨keeps,fun both => needs both.2⟩
    | unlock self =>
      refine ⟨fun holder => last_unlock_inv (by decide) wide inv holder ?_,by_holder self⟩
      have depth := inv.depth
      have once := inv.once rfl
      have some := length_pos_of_mem holder
      omega
  | recursive =>
    cases a with
    | lock self =>
      obtain ⟨keeps,needs⟩ := recursive_lock_exact self wide inv
      exact ⟨keeps,fun both => needs both.1⟩
    | trylock self => exact recursive_trylock_exact wide inv
    | unlock self => exact ⟨recursive_unlock_inv wide inv,by_holder self⟩

theorem inv_reached {kind : Kind} {w : Nat} (checked : kind ≠ .normal) (wide : 1 ≤ w)
    {s : System T} (h : Reached (restrict (machine T kind w) (InDomain kind w)) s) :
    Inv kind w s := by
  apply reached_invariant (Inv kind w) _ _ h
  · rintro s ⟨stale,rfl⟩
    refine ⟨⟨rfl,?_⟩,?_,?_⟩
    · intro zero
      exact absurd rfl zero
    · exact Nat.two_pow_pos w
    · intro _
      exact Nat.zero_le 1
  · intro s a inv can
    exact ((call_exact checked wide inv a).1 can.2).2

/-- In every run whose calls are in the domain the owner field names the holder, who holds the mutex
    as many times as the counter says; and a call made there keeps what it owes and leaves the owner
    named exactly when it is in the domain too. -/
theorem owner_named_exactly_in_domain (kind : Kind) (w : Nat) (checked : kind ≠ .normal)
    (wide : 8 ≤ w) {s : System T}
    (h : Reached (restrict (machine T kind w) (InDomain kind w)) s) :
    Owned s ∧ ∀ a, Awake s a →
      (Kept kind w s a ∧ Owned (call kind w s a) ↔ InDomain kind w s a) := by
  have inv := inv_reached checked (by omega) h
  refine ⟨inv.toOwned,?_⟩
  intro a _
  obtain ⟨keeps,needs⟩ := call_exact checked (by omega) inv a
  constructor
  · exact needs
  · intro domain
    obtain ⟨kept,after⟩ := keeps domain
    exact ⟨kept,after.toOwned⟩

/-- Taken twice, a recursive mutex stays with its holder after one unlock. -/
theorem owner_named_exactly_in_domain_nested :
    let m := restrict (machine Nat .recursive 8) (InDomain .recursive 8)
    let s := after m (boot none) [.lock 0, .lock 0, .lock 1, .unlock 0]
    s.holders = [0] ∧ s.mutex.wait = [1] ∧ Owned s := by
  intro m s
  have reached : Reached m s :=
    reached_of_allowed m (boot none) [.lock 0, .lock 0, .lock 1, .unlock 0] ⟨none,rfl⟩ (by decide)
  have owned := owner_named_exactly_in_domain .recursive 8 (by decide) (by decide) reached
  exact ⟨by decide,by decide,owned.1⟩

/-- Context 0 holds the mutex and context 1 unlocks it: the error-check mutex reports success, and
    the recursive one does free the mutex. A trylock of a free mutex leaves its owner field null. -/
theorem unlock_by_other_accepted :
    let e := after (machine Nat .errorcheck 8) (boot none) [.lock 0]
    let r := after (machine Nat .recursive 8) (boot none) [.lock 0]
    (Reached (machine Nat .errorcheck 8) e ∧ 1 ∉ e.holders ∧ Awake e (.unlock 1) ∧
      (pthread_mutex_unlock .errorcheck 8 e.mutex 1).2.1 = 0) ∧
    (Reached (machine Nat .recursive 8) r ∧ 1 ∉ r.holders ∧ Awake r (.unlock 1) ∧
      (pthread_mutex_unlock .recursive 8 r.mutex 1).2.1 = 0 ∧
      (call .recursive 8 r (.unlock 1)).mutex.count = 0 ∧
      (call .recursive 8 r (.unlock 1)).holders = [0]) ∧
    (∀ kind, kind ≠ .normal →
      (call kind 8 (boot none) (.trylock 0)).mutex = ⟨1, (none : Option Nat), []⟩) := by
  intro e r
  have first : Reached (machine Nat .errorcheck 8) e :=
    reached_of_allowed (machine Nat .errorcheck 8) (boot none) [.lock 0] ⟨none,rfl⟩ (by decide)
  have second : Reached (machine Nat .recursive 8) r :=
    reached_of_allowed (machine Nat .recursive 8) (boot none) [.lock 0] ⟨none,rfl⟩ (by decide)
  refine ⟨⟨first,by decide,by decide,by decide⟩,
    ⟨second,by decide,by decide,by decide,by decide,by decide⟩,?_⟩
  intro kind checked
  cases kind with
  | normal => exact absurd rfl checked
  | errorcheck | recursive => decide

end MutekPthreadMutexOwner
