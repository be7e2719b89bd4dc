import MutekH.Lib.LockOrder
import MutekH.Lib.Machine

/-!
The directory locks of moves (libvfs/vfs.c, fs/ramfs/ramfs.c). A move takes the semaphores of two
VFS directories, then the locks of two ramfs directories, each pair in the order of the
addresses, and any number of threads move at a time. `N` bounds the addresses.
-/
namespace MutekVfsDirLocks
open Function LibLockOrder LibMachine

inductive Lock (N : Nat) where
  | vfs (dir : Fin N)
  | ramfs (dir : Fin N)
  deriving DecidableEq

/-- What is left to do of `vfs_node_move` and of the `ramfs_move` in it. -/
inductive Op (N : Nat) where
  | lock (l : Lock N)
  | unlock
  | ramfs_move
  | replace
  | refdrop
  | parent_set
  | vfs_refdrop
  deriving DecidableEq

/-- The ramfs directories that are destroyed: each with the ones among its children, and then
    others. -/
inductive Gone (N : Nat) where
  | none
  | dir (d : Fin N) (children others : Gone N)

/-- What a step finds: if `ramfs_move` refuses, and what a reference was the last one of. -/
structure Found (N : Nat) where
  refused : Bool
  parents : List (Fin N)
  gone : Gone N

section
variable {N : Nat}

/-- A directory is cleared under its own lock, and its children are dropped meanwhile. -/
def ramfs_dir_clear : Gone N → List (Op N)
  | .none => []
  | .dir d children others =>
    .lock (.ramfs d) :: ramfs_dir_clear children ++ .unlock :: ramfs_dir_clear others

/-- The destructor of a VFS node takes the semaphore of its parent, which it then drops. -/
def vfs_node_refdrop (parents : List (Fin N)) (gone : Gone N) : List (Op N) :=
  parents.flatMap (fun d => [.lock (.vfs d), .unlock]) ++ ramfs_dir_clear gone

/-- `vfs_node_2dirlock` and `ramfs_2dir_wrlock`. -/
def lock2 (lock : Fin N → Lock N) (d1 d2 : Fin N) : List (Op N) :=
  if d1 < d2 then [.lock (lock d1), .lock (lock d2)] else [.lock (lock d2), .lock (lock d1)]

def vfs_node_move (parent parent_src : Fin N) : List (Op N) :=
  lock2 .vfs parent parent_src ++ [.ramfs_move, .unlock, .unlock, .vfs_refdrop]

def ramfs_move (parent parent_src : Fin N) : List (Op N) :=
  lock2 .ramfs parent_src parent ++ [.replace, .unlock, .unlock, .refdrop]

structure State (T : Type) (N : Nat) where
  code : T → List (Op N)
  node : T → Fin N
  dir : T → Fin N
  held : T → List (Lock N)
  vfs_parent : Fin N → Fin N
  ramfs_parent : Fin N → Fin N

inductive Act (T : Type) (N : Nat) where
  | move (t : T) (node dir : Fin N)
  | step (t : T) (found : Found N)

variable {T : Type} [DecidableEq T]

section
variable (fs_node : Fin N → Fin N) (s : State T N)

/-- The operation `op` of `t`, with `rest` after it. `fs_node` gives the ramfs directory of a VFS
    directory. -/
def exec (t : T) (found : Found N) (rest : List (Op N)) : Op N → State T N
  | .lock l => { s with
      code := update s.code t rest
      held := update s.held t (l :: s.held t) }
  | .unlock => { s with
      code := update s.code t rest
      held := update s.held t (s.held t).tail }
  | .ramfs_move =>
    -- The node also drops its VFS parent, which may be another one by now.
    let ops := if found.refused then rest
      else ramfs_move (fs_node (s.dir t)) (s.ramfs_parent (s.node t)) ++
        .refdrop :: .parent_set :: rest
    { s with code := update s.code t ops }
  | .replace => { s with
      code := update s.code t rest
      ramfs_parent := update s.ramfs_parent (s.node t) (fs_node (s.dir t)) }
  | .refdrop =>
    -- A VFS directory that is destroyed here has no parent, for whose children it would be kept.
    { s with code := update s.code t (ramfs_dir_clear found.gone ++ rest) }
  | .parent_set => { s with
      code := update s.code t rest
      vfs_parent := update s.vfs_parent (s.node t) (s.dir t) }
  | .vfs_refdrop =>
    { s with code := update s.code t (vfs_node_refdrop found.parents found.gone ++ rest) }

def next : Act T N → State T N
  | .move t node dir => { s with
      code := update s.code t (vfs_node_move dir (s.vfs_parent node))
      node := update s.node t node
      dir := update s.dir t dir }
  | .step t found =>
    match s.code t with
    | [] => s
    | op :: rest => exec fs_node s t found rest op

end

def wants (s : State T N) (t : T) : Option (Lock N) :=
  match s.code t with
  | .lock l :: _ => some l
  | _ => none

def machine (T : Type) [DecidableEq T] (fs_node : Fin N → Fin N) :
    Machine (State T N) (Act T N) where
  start s := (∀ t, s.code t = []) ∧ ∀ t, s.held t = []
  enabled s
    | .move t _ _ => s.code t = []
    | .step t _ => ∀ l ∈ wants s t, ∀ u, l ∉ s.held u
  next := next fs_node

/-- Directories are at `low` or above, and those destroyed inside another are above it. -/
def Rising : Nat → Gone N → Prop
  | _, .none => True
  | low, .dir d children others => low ≤ d ∧ Rising (d + 1) children ∧ Rising low others

/-- No move inside one directory, for the VFS or, when it gets there, for ramfs, and a directory
    that is destroyed inside another is above it. -/
def InDomain (fs_node : Fin N → Fin N) (s : State T N) : Act T N → Prop
  | .move _ node dir => dir ≠ s.vfs_parent node
  | .step t found =>
    match s.code t with
    | .ramfs_move :: _ => found.refused = true ∨ fs_node (s.dir t) ≠ s.ramfs_parent (s.node t)
    | .refdrop :: _ => Rising 0 found.gone
    | .vfs_refdrop :: _ => Rising 0 found.gone
    | _ => True

def rank : Lock N → Nat
  | .vfs d => d
  | .ramfs d => N + d

def Outer (held : List (Lock N)) : Prop := ∀ l ∈ held, ∃ d, l = .vfs d

/-- With these locks the code takes each lock above those it holds, and gives all back. -/
def Safe : List (Lock N) → List (Op N) → Prop
  | held, [] => held = []
  | held, .lock l :: rest => (∀ m ∈ held, rank m < rank l) ∧ Safe (l :: held) rest
  | held, .unlock :: rest => Safe held.tail rest
  | held, .ramfs_move :: rest => Outer held ∧ Safe held rest
  | held, .refdrop :: rest => Outer held ∧ Safe held rest
  | held, .replace :: rest => Safe held rest
  | held, .parent_set :: rest => Safe held rest
  | held, .vfs_refdrop :: rest => held = [] ∧ Safe held rest

theorem safe_vfs (other : parent ≠ parent_src) : Safe [] (vfs_node_move parent parent_src) := by
  unfold vfs_node_move lock2
  split
  case isTrue less => simpa [Safe, rank, Outer] using Fin.lt_def.mp less
  case isFalse =>
    have less : (parent_src : Nat) < parent := by omega
    simpa [Safe, rank, Outer] using less

theorem outer_below {held : List (Lock N)} (outer : Outer held) (d : Fin N) :
    ∀ m ∈ held, rank m < rank (.ramfs d) := by
  intro m mem
  obtain ⟨e,rfl⟩ := outer m mem
  simp only [rank]
  omega

theorem safe_ramfs {held : List (Lock N)} (outer : Outer held) (other : parent ≠ parent_src)
    (after : Safe held rest) : Safe held (ramfs_move parent parent_src ++ rest) := by
  have ordered : ∀ d e : Fin N, d < e → Safe held (.lock (.ramfs d) :: .lock (.ramfs e) ::
      .replace :: .unlock :: .unlock :: .refdrop :: rest) := by
    intro d e less
    refine ⟨outer_below outer d,List.forall_mem_cons.mpr ⟨?_,outer_below outer e⟩,outer,after⟩
    simpa [rank] using Fin.lt_def.mp less
  unfold ramfs_move lock2
  split
  case isTrue less => exact ordered _ _ less
  case isFalse => exact ordered _ _ (by omega)

theorem safe_clear (gone : Gone N) :
    ∀ {low held rest}, (∀ m ∈ held, rank m < N + low) → Rising low gone → Safe held rest →
      Safe held (ramfs_dir_clear gone ++ rest) := by
  induction gone with
  | none =>
    intro low held rest _ _ after
    exact after
  | dir d children others inner next =>
    intro low held rest below rising after
    obtain ⟨above,rising_inner,rising_next⟩ := rising
    have under : ∀ m ∈ held, rank m < N + d := by
      intro m mem
      have := below m mem
      omega
    rw [ramfs_dir_clear, List.cons_append, List.cons_append, List.append_assoc]
    refine ⟨under,inner ?_ rising_inner (next below rising_next after)⟩
    refine List.forall_mem_cons.mpr ⟨?_,?_⟩
    · change N + d < N + (d + 1)
      omega
    · intro m mem
      have := under m mem
      omega

theorem safe_dropped (parents : List (Fin N)) (after : Safe [] rest) :
    Safe [] (parents.flatMap (fun d => [.lock (.vfs d), .unlock]) ++ rest) := by
  induction parents with
  | nil => exact after
  | cons d parents ih => exact ⟨List.forall_mem_nil _,ih⟩

theorem safe_update (safe : ∀ u, Safe (held u) (code u)) (own : Safe locks ops) (u : T) :
    Safe (update held t locks u) (update code t ops u) := by
  by_cases same : u = t
  · rw [same, update_self, update_self]
    exact own
  · rw [update_of_ne same, update_of_ne same]
    exact safe u

theorem safe_code (held : T → List (Lock N))
    (safe : ∀ u, Safe (held u) (code u)) (own : Safe (held t) ops) (u : T) :
    Safe (held u) (update code t ops u) := by
  have both := safe_update (t := t) safe own u
  rwa [update_eq_self] at both

theorem step_safe {fs_node : Fin N → Fin N} {s : State T N}
    (safe : ∀ u, Safe (s.held u) (s.code u)) (can : (machine T fs_node).enabled s a)
    (domain : InDomain fs_node s a) :
    ∀ u, Safe ((next fs_node s a).held u) ((next fs_node s a).code u) := by
  cases a with
  | move t node dir =>
    have idle : s.code t = [] := can
    have empty := safe t
    rw [idle] at empty
    have none : s.held t = [] := empty
    refine safe_code s.held safe ?_
    rw [none]
    exact safe_vfs domain
  | step t found =>
    have own := safe t
    cases code : s.code t with
    | nil =>
      simp only [next, code]
      exact safe
    | cons op rest => ?_
    rw [code] at own
    simp only [next, code]
    cases op with
    | lock l => exact safe_update safe own.2
    | unlock => exact safe_update safe own
    | ramfs_move =>
      refine safe_code s.held safe ?_
      simp only [InDomain, code] at domain
      split
      case isTrue => exact own.2
      case isFalse run =>
        exact safe_ramfs own.1 (domain.resolve_left run) ⟨own.1,own.2⟩
    | replace | parent_set => exact safe_code s.held safe own
    | refdrop =>
      refine safe_code s.held safe ?_
      simp only [InDomain, code] at domain
      refine safe_clear found.gone ?_ domain own.2
      intro m mem
      obtain ⟨e,rfl⟩ := own.1 m mem
      exact e.isLt
    | vfs_refdrop =>
      obtain ⟨none,after⟩ := own
      refine safe_code s.held safe ?_
      simp only [InDomain, code] at domain
      rw [none] at after ⊢
      rw [vfs_node_refdrop, List.append_assoc]
      exact safe_dropped found.parents (safe_clear found.gone (List.forall_mem_nil _) domain after)

omit [DecidableEq T] in
theorem safe_above {s : State T N} (safe : ∀ u, Safe (s.held u) (s.code u)) :
    Above s.held (wants s) rank := by
  intro t l wanted
  have own := safe t
  unfold wants at wanted
  split at wanted
  case h_1 m rest code =>
    cases wanted
    rw [code] at own
    exact own.1
  case h_2 => cases wanted

instance (fs_node : Fin N → Fin N) (s : State (Fin k) N) (a : Act (Fin k) N) :
    Decidable ((machine (Fin k) fs_node).enabled s a) :=
  match a with
  | .move t _ _ => inferInstanceAs (Decidable (s.code t = []))
  | .step t _ => inferInstanceAs (Decidable (∀ l ∈ wants s t, ∀ u, l ∉ s.held u))

/-- Directories 0 and 1 and a node 2 of the directory 0. -/
def nobody : State (Fin 2) 3 :=
  ⟨fun _ => [], fun _ => 0, fun _ => 0, fun _ => [], fun _ => 0, fun _ => 0⟩

def ranMoves (acts : List (Act (Fin 2) 3)) : State (Fin 2) 3 :=
  after (machine (Fin 2) id) nobody acts

/-- The thread goes on, and destroys nothing. -/
def go (t : Fin k) : Act (Fin k) N := .step t ⟨false, [], .none⟩

def waiting : State (Fin 2) 3 := ranMoves [.move 0 2 1, go 0, .move 1 2 1]

def inside : List (Act (Fin 2) 3) := [.move 0 2 0, go 0]

def together : List (Act (Fin 2) 3) :=
  [.move 0 2 1, .move 1 2 1] ++ List.replicate 14 (go 0) ++ List.replicate 4 (go 1)

/-- The VFS directories 1 and 3 are the ramfs directory 1. -/
def twice (d : Fin 6) : Fin 6 := if d = 3 then 1 else d

/-- The nodes 0, 1 and 2 are in the directories 0, 2 and 4. -/
def three : State (Fin 3) 6 :=
  ⟨fun _ => [], fun _ => 0, fun _ => 0, fun _ => [], fun n => n + n, fun n => n + n⟩

/-- The thread 2 replaces the directory 2, and destroys it with its child 0. -/
def nested : List (Act (Fin 3) 6) :=
  .move 2 2 5 :: List.replicate 8 (go 2) ++
    .step 2 ⟨false, [], .dir 2 (.dir 0 .none .none) .none⟩ ::
    go 2 :: .move 0 0 1 :: List.replicate 4 (go 0) ++ .move 1 1 3 :: List.replicate 4 (go 1)

def ranNested : State (Fin 3) 6 := after (machine (Fin 3) twice) three nested

end
end MutekVfsDirLocks
