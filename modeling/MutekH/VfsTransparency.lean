import MutekH.VfsCache
import MutekH.RamfsTree

/-!
Transparency of the node cache over runs of calls: a lookup gives what the file system
would give, and a moved node is found at its new place only. The runs are those whose
moves keep names, whose unlinks go through nodes that have a place, and in which no
directory with entries is replaced; outside them the cache goes stale.
-/
namespace MutekVfsTransparency
open LibMachine MutekVfs MutekVfsLedger MutekVfsCalls MutekVfsRefcount MutekVfsCoherence
open MutekVfsCache MutekRamfs MutekRamfsTree

section
variable {Φ F : Type} {cfg : Config Φ F} {view : View Φ F} {s : Vfs Φ F} {held : Addr → Nat}
  {n p : Addr}

def ReplacesEmpty (cfg : Config Φ F) (view : View Φ F) (s : Vfs Φ F) (p : Addr) (name : Name) :
    Prop :=
  ∀ g, view.content s.store (s.fs p) (s.fs_node p) (vfs_name_mangle cfg.namelen name) = some g →
    ∀ k, view.content s.store (s.fs p) g k = none

/-- A move keeps the name; nothing is unlinked through a node without a place; no directory
    with entries is replaced. -/
def InDomain (cfg : Config Φ F) (view : View Φ F) (w : World Φ F) : Call → Prop
  | .link n p name _ => ∀ link f mangled store, (cfg.fs (w.vfs.fs p)).ops.link = some link →
      link (w.vfs.fs_node n) (w.vfs.fs_node p) name w.vfs.store = .ok (.ok (f, mangled), store) →
      ReplacesEmpty cfg view w.vfs p name
  | .move n p name => ∀ move store, (cfg.fs (w.vfs.fs p)).ops.move = some move →
      move (w.vfs.fs_node n) (w.vfs.fs_node p) name w.vfs.store = .ok (.ok (), store) →
      vfs_name_mangle cfg.namelen name = w.vfs.name n ∧ ReplacesEmpty cfg view w.vfs p name
  | .unlink p _ => w.vfs.parent p ≠ none
  | _ => True

def cacheMachine (cfg : Config Φ F) (view : View Φ F) : Machine (World Φ F) Call :=
  { restrict (vfsMachine cfg) (InDomain cfg view) with
    start := fun w => Started cfg w ∧ view.good w.vfs.store }

theorem exec_cached (faithful : Faithful cfg view)
    (exact : Exact w) (cached : Cached cfg view w.vfs) (permitted : Permitted w c)
    (domain : InDomain cfg view w c) (eq : exec cfg w.vfs c = .ok (reply, s')) :
    Cached cfg view s' := by
  have b := exact.balanced
  cases (exec_ends cfg b exact.unlocked permitted eq).1 with
  | lookup way => exact lookup_cached faithful b permitted.1 cached way
  | create way => exact create_cached faithful cached way
  | link way => exact link_cached faithful b permitted.2.1 cached domain way
  | move way => exact move_cached faithful b permitted.1 permitted.2 cached domain way
  | unlink way => exact unlink_cached faithful b permitted cached domain way
  | get_parent n =>
    have coh := cached.coherent
    exact ⟨cached.good,coh.entry,coh.leaf,coh.unique,coh.rooted⟩
  | @refdrop n _ dropped =>
    have prev : DroppedPrev cfg (some n) w.vfs s' := dropped
    exact droppedPrev_cached faithful cached prev

theorem started_cached (started : Started cfg w) (good : view.good w.vfs.store) :
    Cached cfg view w.vfs := by
  refine ⟨good,?_,?_,?_,?_⟩
  · intro p c live mem
    rw [(started.root p live).2.2.1] at mem
    cases mem
  · intro p live _
    exact (started.root p live).2.2.1
  · intro p q live live' _ _ fs _
    exact started.one p q live live' fs
  · intro m live _ _
    exact (started.root m live).1

theorem cached_step (faithful : Faithful cfg view) (exact : Exact w)
    (cached : Cached cfg view w.vfs) (can : (cacheMachine cfg view).enabled w c) :
    Exact ((cacheMachine cfg view).next w c) ∧
      Cached cfg view ((cacheMachine cfg view).next w c).vfs := by
  obtain ⟨can,domain⟩ := can
  refine ⟨exact_step exact can,?_⟩
  obtain ⟨permitted,completed⟩ := can
  obtain ⟨reply,s',eq,next⟩ := next_of_completes completed
  change Cached cfg view (nextWorld cfg w c).vfs
  rw [next]
  exact exec_cached faithful exact cached permitted domain eq

theorem reached_cached (faithful : Faithful cfg view)
    (reached : Reached (cacheMachine cfg view) w) : Exact w ∧ Cached cfg view w.vfs := by
  refine reached_invariant (fun w => Exact w ∧ Cached cfg view w.vfs) ?_ ?_ reached
  · intro first start
    exact ⟨started_exact start.1,started_cached start.1 start.2⟩
  · intro w c inv can
    exact cached_step faithful inv.1 inv.2 can

theorem lookup_agrees (faithful : Faithful cfg view) (b : Balanced s held) (unlocked : Unlocked s)
    (cached : Cached cfg view s) (pos : 0 < held p) (linked : s.parent p ≠ none)
    (free : s.live a = false)
    (asked : (cfg.fs (s.fs p)).ops.lookup (s.fs_node p) name s.store = .ok (r, store)) :
    (∀ f mangled, r = .ok (f, mangled) → ∃ c s',
      vfs_node_lookup cfg p name (some a) s = .ok (.ok c, s') ∧ s'.fs_node c = f) ∧
    (∀ e, r = .error e → ∃ e' s', vfs_node_lookup cfg p name (some a) s = .ok (.error e', s')) := by
  have livep := held_live b pos
  have fresh : ∀ x ∈ some a, s.live x = false := by
    intro x same
    cases same
    exact free
  have way := (lookup_ok cfg b unlocked pos name fresh).way
  generalize vfs_node_lookup cfg p name (some a) s = result at way
  cases way with
  | dandling orphan => exact absurd orphan linked
  | hit c _ found =>
    obtain ⟨entry,_⟩ := cachedChild_entry cached livep found
    refine ⟨?_,?_⟩
    · rintro f mangled rfl
      have target := (faithful.lookup_found cached.good asked).2.1
      rw [entry, Option.some.injEq] at target
      exact ⟨c,_,rfl,target⟩
    · rintro e rfl
      rw [(faithful.lookup_failed cached.good asked).2] at entry
      cases entry
  | fault e _ missed fault =>
    rw [fault] at asked
    cases asked
  | failed e store' _ missed asked' =>
    rw [asked'] at asked
    cases asked
    refine ⟨?_,?_⟩
    · intro f mangled same
      cases same
    · intro e' same
      exact ⟨e,_,rfl⟩
  | entered f mangled store' r' s1 _ missed asked' entered =>
    rw [asked'] at asked
    cases asked
    refine ⟨?_,?_⟩
    · intro g mangled' same
      cases same
      cases entered with
      | full s2 cleared empty => cases empty
      | made c storage s2 cleared fine dead =>
        refine ⟨c,_,rfl,?_⟩
        exact Function.update_self _ _ _
    · intro e same
      cases same

/- A moved node. -/

theorem droppedPrev_tree (dropped : DroppedPrev cfg prev s s') :
    s'.parent = s.parent ∧ s'.children = s.children ∧ s'.name = s.name := by
  cases prev with
  | none =>
    have same : s' = s := dropped
    rw [same]
    exact ⟨rfl,rfl,rfl⟩
  | some c =>
    cases dropped with
    | kept more | destroyed last dandling childless => exact ⟨rfl,rfl,rfl⟩

structure MovedTo (cfg : Config Φ F) (n p src : Addr) (name : Name) (s : Vfs Φ F) : Prop where
  other : p ≠ src
  place : s.parent p ≠ none
  parent : s.parent n = some p
  found : cachedChild cfg p name s = some n

theorem moved_to (b : Balanced s held)
    (unlocked : Unlocked s) (posn : 0 < held n) (posp : 0 < held p) (cached : Cached cfg view s)
    (domain : ∀ move store, (cfg.fs (s.fs p)).ops.move = some move →
      move (s.fs_node n) (s.fs_node p) name s.store = .ok (.ok (), store) →
      vfs_name_mangle cfg.namelen name = s.name n ∧ ReplacesEmpty cfg view s p name)
    (old : s.parent n = some src) (moved : vfs_node_move cfg n p name s = .ok (.ok (), s')) :
    MovedTo cfg n p src name s' := by
  have livep := held_live b posp
  have way := (move_ok cfg b unlocked posn posp name).way
  rw [moved] at way
  cases way with
  | moved move store src' s1 op samefs place parent other mem asked dropped =>
    rw [old, Option.some.injEq] at parent
    subst parent
    obtain ⟨kept,empty⟩ := domain move store op asked
    obtain ⟨parents,tables,names⟩ := droppedPrev_tree dropped
    have parents : s1.parent = (movedTree cfg n p src name store s).parent := parents
    have tables : s1.children = (movedTree cfg n p src name store s).children := tables
    have names : s1.name = (movedTree cfg n p src name store s).name := names
    rw [(movedTree_fields cfg n p src name store s).2.2.2] at names
    have differ : cachedChild cfg p name s ≠ some p := by
      intro found
      obtain ⟨entry,fsc⟩ := cachedChild_entry cached livep found
      have mem := cachedChild_mem found
      rw [childless_of_empty cached livep fun k => empty _ entry k] at mem
      cases mem
    have first : (movedTree cfg n p src name store s).children p = n :: (detachPrev
        (cachedChild cfg p name s) p
          (detached n src (askingMove cfg p src name store s))).children p := by
      change (placed n p _).children p = _
      rw [placed_children, if_pos rfl]
    refine ⟨other,?_,?_,?_⟩
    · change s1.parent p ≠ none
      rw [parents, movedTree_parent]
      by_cases self : p = n
      · rw [if_pos self]
        exact Option.some_ne_none p
      · rw [if_neg self, if_neg differ]
        exact place
    · change s1.parent n = some p
      rw [parents, movedTree_parent, if_pos rfl]
    · change (s1.children p).find? (fun c => s1.name c = vfs_name_mangle cfg.namelen name) = some n
      rw [tables, first, names]
      exact List.find?_cons_of_pos (by simp [kept])

theorem lookup_moved (b : Balanced s held)
    (unlocked : Unlocked s) (posp : 0 < held p) (free : ∀ a ∈ mem, s.live a = false)
    (moved : MovedTo cfg n p src name s) :
    vfs_node_lookup cfg p name mem s = .ok (.ok n, bump n s) := by
  have way := (lookup_ok cfg b unlocked posp name free).way
  generalize vfs_node_lookup cfg p name mem s = result at way
  have found := moved.found
  cases way with
  | dandling orphan => exact absurd orphan moved.place
  | hit c _ hit =>
    rw [hit, Option.some.injEq] at found
    rw [found]
  | fault e _ missed _ | failed e store _ missed _ | entered f mangled store r s1 _ missed _ _ =>
    rw [missed] at found
    cases found

theorem lookup_elsewhere
    (b : Balanced s held) (unlocked : Unlocked s) (posn : 0 < held n) (pos : 0 < held src)
    (free : ∀ a ∈ mem, s.live a = false) (away : s.parent n ≠ some src) :
    vfs_node_lookup cfg src name mem s ≠ .ok (.ok n, s') := by
  intro found
  have way := (lookup_ok cfg b unlocked pos name free).way
  rw [found] at way
  cases way with
  | hit c _ hit => exact away (b.child src n (held_live b pos) (cachedChild_mem hit)).2
  | entered f mangled store r s1 _ missed _ entered => ?_
  cases entered with
  | made a storage s2 cleared fine dead =>
    have asked : Balanced (setStore store (setLocked src true s)) held :=
      balanced_setStore (balanced_setLocked b src true) store
    rw [cleared_unheld asked cleared dead] at posn
    exact absurd posn (Nat.lt_irrefl 0)

/-- Over every run of calls on a faithful file system, a lookup in a directory that has a
    place succeeds when the file system has the name and gives the node it has there, and
    fails when it has not; and a successful move leaves the node under its name in its new
    directory and under no name in the old one. -/
theorem node_cache_transparent (faithful : Faithful cfg view) {w : World Φ F}
    (reached : Reached (cacheMachine cfg view) w) :
    (∀ p name a r store, 0 < w.handed p → w.vfs.parent p ≠ none → w.vfs.live a = false →
      (cfg.fs (w.vfs.fs p)).ops.lookup (w.vfs.fs_node p) name w.vfs.store = .ok (r, store) →
      (∀ f mangled, r = .ok (f, mangled) → ∃ c s',
        vfs_node_lookup cfg p name (some a) w.vfs = .ok (.ok c, s') ∧ s'.fs_node c = f) ∧
      (∀ e, r = .error e → ∃ e' s',
        vfs_node_lookup cfg p name (some a) w.vfs = .ok (.error e', s'))) ∧
    (∀ n p name src s', Permitted w (.move n p name) → InDomain cfg view w (.move n p name) →
      w.vfs.parent n = some src → vfs_node_move cfg n p name w.vfs = .ok (.ok (), s') →
      (∀ mem, (∀ a ∈ mem, s'.live a = false) →
        vfs_node_lookup cfg p name mem s' = .ok (.ok n, bump n s')) ∧
      (∀ old mem s'', 0 < w.handed src → (∀ a ∈ mem, s'.live a = false) →
        vfs_node_lookup cfg src old mem s' ≠ .ok (.ok n, s''))) := by
  obtain ⟨exact,cached⟩ := reached_cached faithful reached
  have b := exact.balanced
  have unlocked := exact.unlocked
  constructor
  · intro p name a r store pos linked free asked
    exact lookup_agrees faithful b unlocked cached pos linked free asked
  intro n p name src s' permitted domain parent moved
  have place := moved_to b unlocked permitted.1 permitted.2 cached domain parent moved
  have ends := move_ok cfg b unlocked permitted.1 permitted.2 name
  have after := ends.balanced _ _ moved
  have free := ends.unlocked _ _ moved
  constructor
  · intro mem fresh
    exact lookup_moved after free permitted.2 fresh place
  · intro old mem s'' pos fresh
    refine lookup_elsewhere after free permitted.1 pos fresh ?_
    intro same
    rw [place.parent, Option.some.injEq] at same
    exact place.other same

end

def filedRun : List Call :=
  [.create 0 .dir (some 1), .link 1 0 ['a'] (some 2), .create 0 .dir (some 3),
    .link 3 0 ['b'] (some 4), .create 0 .file (some 5), .link 5 2 ['f'] (some 6)]

theorem replaces_nothing {w : World Volumes Addr} {p : Addr} {name : Name}
    (vacant : ramfs_dir_lookup (w.vfs.fs_node p) (vfs_name_mangle 8 name)
      (w.vfs.store (w.vfs.fs p)) = none) :
    ReplacesEmpty (ramfsConfig 8) ramfsView w.vfs p name := by
  intro g found
  have found : ramfs_dir_lookup _ (vfs_name_mangle 8 name) _ = some g := found
  rw [vacant] at found
  cases found

theorem filedRun_reached : Reached (cacheMachine (ramfsConfig 8) ramfsView) (ramfsAfter filedRun) :=
  reached_of_allowed _ _ filedRun ⟨ramfsWorld_started 8 10, fun _ => open_good 10⟩
    ⟨⟨by decide, trivial⟩, ⟨by decide, fun _ _ _ _ _ _ => replaces_nothing (by decide)⟩,
      ⟨by decide, trivial⟩, ⟨by decide, fun _ _ _ _ _ _ => replaces_nothing (by decide)⟩,
      ⟨by decide, trivial⟩, ⟨by decide, fun _ _ _ _ _ _ => replaces_nothing (by decide)⟩, trivial⟩

def movedWorld : Vfs Volumes Addr := (ramfsAfter (filedRun ++ [.move 6 4 ['f']])).vfs

theorem node_cache_transparent_filed :
    (∃ c s', vfs_node_lookup (ramfsConfig 8) 2 ['f'] (some 7) (ramfsAfter filedRun).vfs =
      .ok (.ok c, s') ∧ s'.fs_node c = 3) ∧
    vfs_node_lookup (ramfsConfig 8) 4 ['f'] (some 7) movedWorld =
      .ok (.ok 6, bump 6 movedWorld) := by
  have transparent := node_cache_transparent (ramfs_faithful 8) filedRun_reached
  have moved : vfs_node_move (ramfsConfig 8) 6 4 ['f'] (ramfsAfter filedRun).vfs =
      .ok (.ok (), movedWorld) := rfl
  constructor
  · exact (transparent.1 2 ['f'] 7 (.ok (3, vfs_name_mangle 8 ['f'])) _ (by decide) (by decide)
      (by decide) rfl).1 _ _ rfl
  · refine (transparent.2 6 4 ['f'] 2 _ (by decide) ?_ rfl moved).1 (some 7) (by decide)
    intro move store _ _
    exact ⟨rfl,replaces_nothing (by decide)⟩

def renamedRun : List Call := filedRun ++ [.move 6 4 ['g']]

/-- The file of the first directory is unlinked through the node that the directory was
    created with, which has no place. -/
def looseRun : List Call := filedRun ++ [.unlink 1 ['f']]

/-- After a move to another name the node is found under the name it had, which the new
    directory has not, and under its new name another node is made for the same file.
    After an unlink through a node without a place the entry is still found. -/
theorem renamed_and_loose_stale : (Reached (vfsMachine (ramfsConfig 8)) (ramfsAfter renamedRun) ∧
      (∃ s', vfs_node_lookup (ramfsConfig 8) 4 ['f'] (some 7) (ramfsAfter renamedRun).vfs =
        .ok (.ok 6, s')) ∧
      (∃ store, ((ramfsConfig 8).fs 0).ops.lookup ((ramfsAfter renamedRun).vfs.fs_node 4) ['f']
        (ramfsAfter renamedRun).vfs.store = .ok (.error .ENOENT, store)) ∧
      (∃ s', vfs_node_lookup (ramfsConfig 8) 4 ['g'] (some 7) (ramfsAfter renamedRun).vfs =
        .ok (.ok 7, s') ∧ s'.fs_node 7 = s'.fs_node 6)) ∧
    (Reached (vfsMachine (ramfsConfig 8)) (ramfsAfter looseRun) ∧
      (∃ s', vfs_node_lookup (ramfsConfig 8) 2 ['f'] (some 7) (ramfsAfter looseRun).vfs =
        .ok (.ok 6, s')) ∧
      (∃ store, ((ramfsConfig 8).fs 0).ops.lookup ((ramfsAfter looseRun).vfs.fs_node 2) ['f']
        (ramfsAfter looseRun).vfs.store = .ok (.error .ENOENT, store))) :=
  ⟨⟨ramfsAfter_reached (by decide), ⟨_, rfl⟩, ⟨_, rfl⟩, ⟨_, rfl, rfl⟩⟩,
    ramfsAfter_reached (by decide), ⟨_, rfl⟩, ⟨_, rfl⟩⟩

end MutekVfsTransparency
