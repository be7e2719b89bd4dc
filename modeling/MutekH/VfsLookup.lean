import Mathlib.Logic.Relation
import MutekH.VfsPath
import MutekH.VfsRefcount

/-!
What a path lookup gives on a tree of nodes that stays as it is: the node that the
components of the path lead to, with one reference on it; and it never leaves the subtree
of its root.
-/
namespace MutekVfsLookup
open Function (update_apply update_self)
open LibMachine LibFields MutekVfs MutekVfsLedger MutekVfsCalls MutekVfsRefcount MutekVfsPath
open MutekRamfs

/- Path resolution on a tree. -/

def components (path : List Char) : List Name :=
  (path.splitOn '/').filter (fun name => name ≠ [] ∧ name ≠ ['.'])

section
variable (parent : Addr → Option Addr) (find : Addr → Name → Except Error Addr) (root : Addr)

def resolve : Addr → List Name → Except Error Addr
  | node, [] => .ok node
  | node, name :: rest =>
    if name = ['.', '.'] then
      if node = root then resolve node rest
      else match parent node with
        | none => .error .ENOENT
        | some up => resolve up rest
    else match find node name with
      | .error e => .error e
      | .ok next => resolve next rest

def asked : Addr → List Name → List (Addr × Name)
  | _, [] => []
  | node, name :: rest =>
    if name = ['.', '.'] then
      if node = root then asked node rest
      else match parent node with
        | none => []
        | some up => asked up rest
    else (node, name) :: match find node name with
      | .error _ => []
      | .ok next => asked next rest

def Below (node : Addr) : Prop :=
  Relation.ReflTransGen (fun m up => parent m = some up) node root

end

def dotless (names : List Name) : List Name := names.filter (fun name => name ≠ ['.'])

theorem components_eq (path : List Char) : components path = dotless (fields '/' path) := by
  unfold components dotless fields
  rw [List.filter_filter]
  refine List.filter_congr ?_
  intro name _
  cases name with
  | nil => rfl
  | cons x rest => simp

/- The tree during a lookup. -/

section
variable {Φ F : Type} {cfg : Config Φ F} {alloc : Vfs Φ F → Option Addr} {s t : Vfs Φ F}
  {held : Addr → Nat} {find : Addr → Name → Except Error Addr} {root node : Addr}

/-- The same nodes in the same tree; reference counts and the LRU lists may differ. -/
structure Unmoved (s t : Vfs Φ F) : Prop where
  live : t.live = s.live
  parent : t.parent = s.parent
  children : t.children = s.children
  name : t.name = s.name
  fs : t.fs = s.fs
  fs_node : t.fs_node = s.fs_node
  store : t.store = s.store
  dir_locked : t.dir_locked = s.dir_locked
  lost : t.lost = s.lost

/-- As long as the tree is that of `s`, `vfs_node_lookup` gives `r` and leaves the tree. -/
def Answers (cfg : Config Φ F) (alloc : Vfs Φ F → Option Addr) (s : Vfs Φ F) (p : Addr)
    (name : Name) (r : Except Error Addr) :
    Prop :=
  ∀ t ledger, Unmoved s t → Balanced t ledger → 0 < ledger p →
    ∃ t', vfs_node_lookup cfg p name (alloc t) t = .ok (r, t') ∧ Unmoved s t'

theorem unmoved_refl (s : Vfs Φ F) : Unmoved s s := ⟨rfl, rfl, rfl, rfl, rfl, rfl, rfl, rfl, rfl⟩

theorem unmoved_bump (tree : Unmoved s t) (n : Addr) : Unmoved s (bump n t) :=
  ⟨tree.live, tree.parent, tree.children, tree.name, tree.fs, tree.fs_node, tree.store,
    tree.dir_locked, tree.lost⟩

theorem unmoved_unbump (tree : Unmoved s t) (n : Addr) : Unmoved s (unbump n t) :=
  ⟨tree.live, tree.parent, tree.children, tree.name, tree.fs, tree.fs_node, tree.store,
    tree.dir_locked, tree.lost⟩

theorem unmoved_count (b : Balanced s held) (b' : Balanced t ledger)
    (tree : Unmoved s t) (live : s.live m = true) :
    t.refcnt m + held m = s.refcnt m + ledger m := by
  have first := b.count m live
  have second := b'.count m (by rw [tree.live]; exact live)
  have tabled : Tabled t m ↔ Tabled s m := by simp [Tabled, tree.parent, tree.children]
  have refs : tableRefs t m = tableRefs s m := by simp [tableRefs, tabled]
  rw [tree.children, tree.lost] at second
  omega

theorem gain_comm (held : Addr → Nat) (m n : Addr) :
    gain (gain held m) n = gain (gain held n) m := by
  funext a
  simp only [gain]
  by_cases first : a = n
  · by_cases second : a = m
    · simp [← first, ← second]
    · simp [← first, second]
  · by_cases second : a = m
    · simp [← second, first]
    · simp [first, second]

theorem le_gain (held : Addr → Nat) (m a : Addr) : held a ≤ gain held m a := by
  rw [gain, update_apply]
  by_cases same : a = m
  · rw [if_pos same, same]
    exact Nat.le_succ _
  · rw [if_neg same]

theorem drop_first (cfg : Config Φ F) (b : Balanced s held) (tree : Unmoved s t)
    (b' : Balanced t (gain (gain held n) m)) :
    vfs_node_refdrop cfg n t = .ok (unbump n t) ∧ Balanced (unbump n t) (gain held m) := by
  have pos : 0 < gain (gain held n) m n := gain_pos gain_self_pos
  have livet := held_live b' pos
  have live : s.live n = true := by rw [← tree.live]; exact livet
  have more : 1 < t.refcnt n := by
    have count := unmoved_count b b' tree live
    have alive := b.alive n live
    have two : held n + 1 ≤ gain (gain held n) m n := by
      rw [gain_comm, gain, update_self]
      exact Nat.succ_le_succ (le_gain held m n)
    omega
  refine ⟨refdrop_keeps cfg livet more,?_⟩
  have dropped := balanced_unbump b' pos more
  rwa [gain_comm, spend_gain] at dropped

theorem lookup_parent (b : Balanced s held) (livep : s.live p = true)
    (way : LookupEnd cfg p name mem s (.ok (.ok c, s'))) : s'.parent c = some p := by
  cases way with
  | hit _ linked found => exact (b.child p c livep (cachedChild_mem found)).2
  | entered f mangled store r s1 linked missed asked entered => ?_
  cases entered with
  | made a storage s2 cleared fine dead =>
    change (placed c p _).parent c = some p
    rw [placed_parent, if_pos rfl]

/-- A walk at a node with the components that are left. -/
structure Walking (cfg : Config Φ F) (alloc : Vfs Φ F → Option Addr) (s : Vfs Φ F)
    (held : Addr → Nat) (find : Addr → Name → Except Error Addr) (root : Addr) (names : List Name)
    (node : Addr) (t : Vfs Φ F) : Prop where
  tree : Unmoved s t
  ledger : Balanced t (gain held node)
  still : ∀ q ∈ asked s.parent find root node (dotless names),
    Answers cfg alloc s q.1 q.2 (find q.1 q.2)

/-- What the visit of a component does on a tree that stays as it is. -/
inductive VisitEnd (cfg : Config Φ F) (alloc : Vfs Φ F → Option Addr) (s : Vfs Φ F)
    (held : Addr → Nat) (find : Addr → Name → Except Error Addr) (root : Addr) (name : Name)
    (rest : List Name) (node : Addr) :
    Except Fault (Except (Option Error) Addr × Vfs Φ F) → Prop where
  | on (next : Addr) (t' : Vfs Φ F) (walking : Walking cfg alloc s held find root rest next t')
      (same : resolve s.parent find root node (dotless (name :: rest)) =
        resolve s.parent find root next (dotless rest))
      (inside : Below s.parent root node → Below s.parent root next) :
      VisitEnd cfg alloc s held find root name rest node (.ok (.ok next, t'))
  | off (err : Option Error) (t' : Vfs Φ F)
      (walking : Walking cfg alloc s held find root (name :: rest) node t')
      (failed : resolve s.parent find root node (dotless (name :: rest)) =
        .error (err.getD .ENOENT)) :
      VisitEnd cfg alloc s held find root name rest node (.ok (.error err, t'))

theorem up_end (b : Balanced s held)
    (walking : Walking cfg alloc s held find root (['.', '.'] :: rest) node t) :
    VisitEnd cfg alloc s held find root ['.', '.'] rest node
      (visit cfg alloc root ['.', '.'] node t) := by
  have names : dotless (['.', '.'] :: rest) = ['.', '.'] :: dotless rest := rfl
  obtain ⟨tree,ledger,still⟩ := walking
  rw [names, asked, if_pos rfl] at still
  unfold visit
  rw [if_pos rfl]
  by_cases top : node = root
  · rw [if_pos top] at still ⊢
    refine .on node t ⟨tree,ledger,still⟩ ?_ id
    rw [names, resolve, if_pos rfl, if_pos top]
  rw [if_neg top] at still ⊢
  have live := held_live ledger gain_self_pos
  obtain ⟨geteq,ledger'⟩ := get_parent_ok ledger live
  rw [geteq, tree.parent]
  rw [tree.parent] at ledger'
  cases parent : s.parent node with
  | none =>
    refine .off none t ⟨tree,ledger,?_⟩ ?_
    · rw [names, asked, if_pos rfl, if_neg top, parent]
      intro q mem
      cases mem
    · rw [names, resolve, if_pos rfl, if_neg top, parent]
      rfl
  | some up =>
    rw [parent] at ledger' still
    obtain ⟨dropeq,after⟩ := drop_first cfg b (unmoved_bump tree up) ledger'
    change VisitEnd cfg alloc s held find root ['.', '.'] rest node
      (vfs_node_refdrop cfg node (bump up t) >>= fun s => .ok (.ok up, s))
    rw [dropeq]
    refine .on up _ ⟨unmoved_unbump (unmoved_bump tree up) node,after,still⟩ ?_ ?_
    · rw [names, resolve, if_pos rfl, if_neg top, parent]
    intro below
    rcases Relation.ReflTransGen.cases_head below with same | ⟨up',step,above⟩
    · exact absurd same top
    · rw [parent, Option.some.injEq] at step
      rw [step]
      exact above

section
variable (b : Balanced s held) (unlocked : Unlocked s)
  (fresh : ∀ t a, alloc t = some a → t.live a = false)
include b unlocked fresh

theorem down_end (updir : name ≠ ['.', '.'])
    (self : name ≠ ['.']) (walking : Walking cfg alloc s held find root (name :: rest) node t) :
    VisitEnd cfg alloc s held find root name rest node (visit cfg alloc root name node t) := by
  have names : dotless (name :: rest) = name :: dotless rest :=
    List.filter_cons_of_pos (by simpa using self)
  obtain ⟨tree,ledger,still⟩ := walking
  rw [names, asked, if_neg updir] at still
  unfold visit
  rw [if_neg updir, if_neg self]
  have pos : 0 < gain held node node := gain_self_pos
  obtain ⟨t',looked,tree'⟩ := still (node, name) List.mem_cons_self t _ tree ledger pos
  have unlocked' : Unlocked t := fun m => by rw [tree.dir_locked]; exact unlocked m
  have ends := lookup_ok cfg ledger unlocked' pos name (fun a given => fresh t a given)
  have balanced := ends.balanced _ _ looked
  have way := ends.way
  rw [looked] at way ⊢
  cases found : find node name with
  | error e =>
    rw [found] at balanced
    refine .off (some e) t' ⟨tree',balanced,?_⟩ ?_
    · rwa [names, asked, if_neg updir]
    · rw [names, resolve, if_neg updir, found]
      rfl
  | ok next =>
    rw [found] at balanced way still
    obtain ⟨dropeq,after⟩ := drop_first cfg b tree' balanced
    change VisitEnd cfg alloc s held find root name rest node
      (vfs_node_refdrop cfg node t' >>= fun s => .ok (.ok next, s))
    rw [dropeq]
    refine .on next _ ⟨unmoved_unbump tree' node,after,?_⟩ ?_ ?_
    · intro q mem
      exact still q (.tail _ mem)
    · rw [names, resolve, if_neg updir, found]
    · intro below
      have parent := lookup_parent ledger (held_live ledger pos) way
      rw [tree'.parent] at parent
      exact Relation.ReflTransGen.head parent below

theorem visit_end (walking : Walking cfg alloc s held find root (name :: rest) node t) :
    VisitEnd cfg alloc s held find root name rest node (visit cfg alloc root name node t) := by
  by_cases updir : name = ['.', '.']
  · subst updir
    exact up_end b walking
  · by_cases self : name = ['.']
    · subst self
      exact .on node t ⟨walking.tree,walking.ledger,walking.still⟩ rfl id
    · exact down_end b unlocked fresh updir self walking

theorem walk_end (names : List Name) : ∀ node t, Walking cfg alloc s held find root names node t →
      ∃ walked t', walk cfg alloc root names node t = .ok (walked, t') ∧ Unmoved s t' ∧
        Balanced t' (gain held walked.node) ∧
        resolve s.parent find root node (dotless names) =
          if walked.err = none ∧ walked.rest = [] then .ok walked.node
          else .error (walked.err.getD .ENOENT) := by
  induction names with intro node t walking
  | nil => exact ⟨⟨none,[],node⟩,t,rfl,walking.tree,walking.ledger,by simp [dotless, resolve]⟩
  | cons name rest ih =>
    have ended := visit_end b unlocked fresh walking
    rw [walk]
    generalize visit cfg alloc root name node t = result at ended
    cases ended with
    | on next t' walking' same inside =>
      obtain ⟨walked,t'',walks,tree,ledger,result⟩ := ih next t' walking'
      exact ⟨walked,t'',walks,tree,ledger,same.trans result⟩
    | off err t' walking' failed =>
      exact ⟨⟨err,name :: rest,node⟩,t',rfl,walking'.tree,walking'.ledger,by simpa using failed⟩

end

/- The loop on the string. -/

/-- The variables of the loop of `vfs_lookup_part`. -/
structure Place (Φ F : Type) where
  token : Nat
  node : Addr
  vfs : Vfs Φ F

def Goes (cfg : Config Φ F) (alloc : Vfs Φ F → Option Addr) (root : Addr) (path : List Char)
    (x y : Place Φ F) : Prop :=
  x.token < last_slash_or_end path ∧
    vfs_lookup_turn cfg alloc root path x.token x.node x.vfs = .ok (.again y.token y.node, y.vfs)

def startPlace (root cwd : Addr) (path : List Char) (s : Vfs Φ F) : Place Φ F :=
  ⟨(vfs_lookup_start root cwd path).1, (vfs_lookup_start root cwd path).2,
    bump (vfs_lookup_start root cwd path).2 s⟩

structure Inside (cfg : Config Φ F) (alloc : Vfs Φ F → Option Addr) (s : Vfs Φ F)
    (held : Addr → Nat) (find : Addr → Name → Except Error Addr) (root : Addr) (path : List Char)
    (x : Place Φ F) : Prop where
  boundary : (path.drop x.token).head? ≠ some '/'
  walking : Walking cfg alloc s held find root (fields '/' (path.drop x.token)) x.node x.vfs
  below : Below s.parent root x.node

section
variable {path : List Char} {x : Place Φ F} (b : Balanced s held) (unlocked : Unlocked s)
  (fresh : ∀ t a, alloc t = some a → t.live a = false)
  (inside : Inside cfg alloc s held find root path x)
include b unlocked fresh inside

theorem inside_step (goes : Goes cfg alloc root path x y) :
    Inside cfg alloc s held find root path y := by
  obtain ⟨boundary,walking,below⟩ := inside
  obtain ⟨more,turned⟩ := goes
  cases here : path.drop x.token with
  | nil =>
    rw [lt_end_iff, here] at more
    exact absurd rfl more
  | cons c rest => ?_
  have word : c ≠ '/' := by
    rintro rfl
    rw [here] at boundary
    exact boundary rfl
  rw [fields_token here word] at walking
  have ended := visit_end b unlocked fresh walking
  rw [turn_visit] at turned
  generalize visit cfg alloc root ((path.drop x.token).takeWhile (· != '/')) x.node x.vfs = result
    at ended turned
  cases ended with
  | on next t' walking' same inside' =>
    obtain ⟨token,node,vfs⟩ := y
    cases turned
    exact ⟨next_nonslash_head path _,walking',inside' below⟩
  | off err t' walking' failed => cases turned

theorem inside_reached (goes : Relation.ReflTransGen (Goes cfg alloc root path) x y) :
    Inside cfg alloc s held find root path y := by
  induction goes with
  | refl => exact inside
  | tail _ step ih => exact inside_step b unlocked fresh ih step

end

def transferred : Except Error Addr → Addr → Nat
  | .ok n, m => if m = n then 1 else 0
  | .error _, _ => 0

theorem count_transferred (b : Balanced s held)
    (b' : Balanced t (handOut held r)) (tree : Unmoved s t) (live : s.live m = true) :
    t.refcnt m = s.refcnt m + transferred r m := by
  have count := unmoved_count b b' tree live
  cases r with
  | error e =>
    change t.refcnt m + held m = s.refcnt m + held m at count
    change t.refcnt m = s.refcnt m + 0
    omega
  | ok n => ?_
  change t.refcnt m + held m = s.refcnt m + gain held n m at count
  change t.refcnt m = s.refcnt m + if m = n then 1 else 0
  rw [gain, update_apply] at count
  by_cases same : m = n
  · rw [if_pos same] at count ⊢
    rw [same] at count ⊢
    omega
  · rw [if_neg same] at count ⊢
    omega

theorem lookup_names_end (b : Balanced s held) (unlocked : Unlocked s)
    (fresh : ∀ t a, alloc t = some a → t.live a = false)
    (live : s.live node = true)
    (still : ∀ q ∈ asked s.parent find root node (dotless names),
      Answers cfg alloc s q.1 q.2 (find q.1 q.2)) :
    ∃ s', lookup_names cfg alloc root node names s =
        .ok (resolve s.parent find root node (dotless names), s') ∧ Unmoved s s' ∧
      Balanced s' (handOut held (resolve s.parent find root node (dotless names))) := by
  have walking : Walking cfg alloc s held find root names node (bump node s) :=
    ⟨unmoved_bump (unmoved_refl s) node,balanced_bump b live,still⟩
  obtain ⟨walked,t,walks,tree,ledger,result⟩ :=
    walk_end b unlocked fresh names node (bump node s) walking
  unfold lookup_names
  rw [refnew_ok live]
  change ∃ s', (walk cfg alloc root names node (bump node s) >>= _) = _ ∧ _
  rw [walks, result]
  by_cases complete : walked.err = none ∧ walked.rest = []
  · rw [if_pos complete]
    refine ⟨t,?_,tree,ledger⟩
    exact if_pos complete
  rw [if_neg complete]
  have livet := held_live ledger gain_self_pos
  have livew : s.live walked.node = true := by rw [← tree.live]; exact livet
  have more : 1 < t.refcnt walked.node := by
    have count := unmoved_count b ledger tree livew
    have alive := b.alive walked.node livew
    rw [gain, update_self] at count
    omega
  have dropped := balanced_unbump ledger gain_self_pos more
  rw [spend_gain] at dropped
  refine ⟨unbump walked.node t,?_,unmoved_unbump tree _,dropped⟩
  change (if walked.err = none ∧ walked.rest = [] then _ else
    (vfs_node_refdrop cfg walked.node t >>= _)) = _
  rw [if_neg complete, refdrop_keeps cfg livet more]
  rfl

/-- On every tree that the lookups of the walk leave as it is, for every path: `vfs_lookup`
    returns what the resolution of the components gives, from the root or from `cwd`; the
    node returned has one more reference and no other count has changed; and from a `cwd`
    in the subtree of the root every node that the loop comes to is in that subtree. -/
theorem vfs_lookup_resolves (cfg : Config Φ F) (alloc : Vfs Φ F → Option Addr)
    (find : Addr → Name → Except Error Addr) (root cwd : Addr) (path : List Char)
    (b : Balanced s held) (unlocked : Unlocked s)
    (fresh : ∀ t a, alloc t = some a → t.live a = false)
    (liveroot : s.live root = true) (livecwd : s.live cwd = true)
    (still : ∀ q ∈ asked s.parent find root (if path.head? = some '/' then root else cwd)
      (components path), Answers cfg alloc s q.1 q.2 (find q.1 q.2)) :
    (∃ s', vfs_lookup cfg alloc (some root) (some cwd) (some path) s =
        .ok (resolve s.parent find root (if path.head? = some '/' then root else cwd)
          (components path), s') ∧ Unmoved s s' ∧
      ∀ m, s.live m = true → s'.refcnt m = s.refcnt m + transferred
        (resolve s.parent find root (if path.head? = some '/' then root else cwd)
          (components path)) m) ∧
    (Below s.parent root cwd → ∀ place,
      Relation.ReflTransGen (Goes cfg alloc root path) (startPlace root cwd path s) place →
      Below s.parent root place.node) := by
  have start : (vfs_lookup_start root cwd path).2 = if path.head? = some '/' then root
      else cwd := by
    rw [vfs_lookup_start, List.head?_eq_getElem?]
    split <;> rfl
  have live : s.live (vfs_lookup_start root cwd path).2 = true := by
    rw [start]
    split
    · exact liveroot
    · exact livecwd
  rw [← start, components_eq] at still ⊢
  constructor
  · obtain ⟨s',looked,tree,ledger⟩ := lookup_names_end b unlocked fresh live still
    rw [vfs_lookup_names]
    exact ⟨s',looked,tree,fun m livem => count_transferred b ledger tree livem⟩
  intro below place goes
  obtain ⟨_,boundary,names⟩ := start_boundary root cwd path
  have inside : Inside cfg alloc s held find root path (startPlace root cwd path s) := by
    refine ⟨boundary,⟨unmoved_bump (unmoved_refl s) _,balanced_bump b live,?_⟩,?_⟩
    · rw [← names] at still
      exact still
    · change Below s.parent root (vfs_lookup_start root cwd path).2
      rw [start]
      split
      · exact Relation.ReflTransGen.refl
      · exact below
  exact (inside_reached b unlocked fresh inside goes).below

/-- The entries that a node without a place, the tables or the file system settle without
    another node. -/
inductive Known (cfg : Config Φ F) (s : Vfs Φ F) (p : Addr) (name : Name) :
    Except Error Addr → Prop where
  | dandling (orphan : s.parent p = none) : Known cfg s p name (.error .EINVAL)
  | cached (c : Addr) (linked : s.parent p ≠ none) (found : cachedChild cfg p name s = some c) :
      Known cfg s p name (.ok c)
  | absent (e : Error) (linked : s.parent p ≠ none) (missed : cachedChild cfg p name s = none)
      (asked : (cfg.fs (s.fs p)).ops.lookup (s.fs_node p) name s.store = .ok (.error e, s.store)) :
      Known cfg s p name (.error e)

theorem known_answers (unlocked : Unlocked s)
    (fresh : ∀ t a, alloc t = some a → t.live a = false) (known : Known cfg s p name r) :
    Answers cfg alloc s p name r := by
  intro t ledger tree b pos
  have unlocked' : Unlocked t := fun m => by rw [tree.dir_locked]; exact unlocked m
  have way := (lookup_ok cfg b unlocked' pos name (fun a given => fresh t a given)).way
  have table : cachedChild cfg p name t = cachedChild cfg p name s := by
    simp only [cachedChild, tree.children, tree.name]
  generalize vfs_node_lookup cfg p name (alloc t) t = result at way
  cases known with
  | dandling orphan =>
    rw [← tree.parent] at orphan
    cases way with
    | dandling _ => exact ⟨t,rfl,tree⟩
    | hit _ linked _ | fault _ linked _ _ | failed _ _ linked _ _
    | entered _ _ _ _ _ linked _ _ _ => exact absurd orphan linked
  | cached c linked found =>
    rw [← tree.parent] at linked
    rw [← table] at found
    cases way with
    | dandling orphan => exact absurd orphan linked
    | hit c' _ found' =>
      rw [found', Option.some.injEq] at found
      rw [← found]
      exact ⟨bump c' t,rfl,unmoved_bump tree c'⟩
    | fault _ _ missed _ | failed _ _ _ missed _ | entered _ _ _ _ _ _ missed _ _ =>
      rw [missed] at found
      cases found
  | absent e linked missed asked =>
    rw [← tree.parent] at linked
    rw [← table] at missed
    rw [← tree.fs, ← tree.fs_node, ← tree.store] at asked
    cases way with
    | dandling orphan => exact absurd orphan linked
    | hit _ _ found =>
      rw [missed] at found
      cases found
    | fault _ _ _ fault =>
      rw [asked] at fault
      cases fault
    | failed e' store _ _ asked' =>
      rw [asked] at asked'
      cases asked'
      exact ⟨t,rfl,tree⟩
    | entered _ _ _ _ _ _ _ asked' _ =>
      rw [asked] at asked'
      cases asked'

end

def plainFind (p : Addr) (name : Name) : Except Error Addr :=
  if p = 0 ∧ name = ['a'] then .ok 2
  else if p = 2 ∧ name = ['f'] then .ok 4
  else .error .ENOENT

def plainPath : List Char := ['/', 'a', '/', '.', '.', '/', '/', 'a', '/', '.', '/', 'f', '/']

theorem vfs_lookup_resolves_plain :
    ∃ s', vfs_lookup (ramfsConfig 8) (fun _ => none) (some 0) (some 2) (some plainPath)
        (ramfsAfter plainRun).vfs = .ok (.ok 4, s') ∧
      s'.refcnt 4 = (ramfsAfter plainRun).vfs.refcnt 4 + 1 := by
  have reached : Reached (vfsMachine (ramfsConfig 8)) (ramfsAfter plainRun) :=
    ramfsAfter_reached (by decide)
  have exact := reached_exact reached
  have fresh : ∀ (t : Vfs Volumes Addr) (a : Addr), none = some a → t.live a = false := by
    intro t a given
    cases given
  have first : Answers (ramfsConfig 8) (fun _ => none) (ramfsAfter plainRun).vfs 0 ['a'] (.ok 2) :=
    known_answers exact.unlocked fresh (.cached 2 (by decide) (by decide))
  have second : Answers (ramfsConfig 8) (fun _ => none) (ramfsAfter plainRun).vfs 2 ['f'] (.ok 4) :=
    known_answers exact.unlocked fresh (.cached 4 (by decide) (by decide))
  have still : ∀ q ∈ [((0 : Addr), ['a']), (0, ['a']), (2, ['f'])], Answers (ramfsConfig 8)
      (fun _ => none) (ramfsAfter plainRun).vfs q.1 q.2 (plainFind q.1 q.2) := by
    intro q mem
    simp only [List.mem_cons, List.not_mem_nil, or_false] at mem
    rcases mem with rfl | rfl | rfl
    · exact first
    · exact first
    · exact second
  obtain ⟨⟨s',looked,_,counts⟩,_⟩ := vfs_lookup_resolves (ramfsConfig 8) (fun _ => none) plainFind
    0 2 plainPath exact.balanced exact.unlocked fresh (by decide) (by decide) still
  exact ⟨s',looked,counts 4 (by decide)⟩

end MutekVfsLookup
