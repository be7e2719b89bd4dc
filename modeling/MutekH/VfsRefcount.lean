import Mathlib.Data.Set.Card
import MutekH.VfsCalls
import MutekH.Ramfs

/-!
Exactness of the reference counts over whole runs of calls. Two paths lose a reference:
a move never drops the one it takes on the source directory, and a recycled node leaves
behind the one taken on its parent. Everything else is accounted for.
-/
namespace MutekVfsRefcount
open Function LibMachine MutekVfs MutekVfsLedger MutekVfsCalls MutekRamfs

section
variable {Φ F : Type} {s : Vfs Φ F} {held : Addr → Nat} {n p : Addr}

theorem get_parent_ok (b : Balanced s held) (live : s.live n = true) :
    vfs_node_get_parent n s = .ok (s.parent n, bumpPrev (s.parent n) s) ∧
      Balanced (bumpPrev (s.parent n) s) (gainPrev (s.parent n) held) := by
  cases parent : s.parent n with
  | none =>
    rw [vfs_node_get_parent, parent]
    exact ⟨rfl,b⟩
  | some q => ?_
  have liveq := (b.parent n q live parent).1
  refine ⟨?_,balanced_bump b liveq⟩
  rw [vfs_node_get_parent, parent]
  change (vfs_node_refnew q s >>= _) = _
  rw [refnew_ok liveq]
  rfl

variable {s' : Vfs Φ F}

theorem refdrop_returns (cfg : Config Φ F) (b : Balanced s held) (pos : 0 < held n)
    (eq : vfs_node_refdrop cfg n s = .ok s') :
    Dropped cfg n s s' ∧ Balanced s' (spend held n) := by
  have live := held_live b pos
  by_cases last : s.refcnt n = 1
  · obtain ⟨_,_,childless,_⟩ := last_alone b pos last
    cases parent : s.parent n with
    | some q =>
      rw [vfs_node_refdrop, if_neg (by simp [live, last]), if_pos last, parent] at eq
      cases eq
    | none =>
      rw [refdrop_last cfg live last parent] at eq
      cases eq
      exact ⟨.destroyed last parent childless,balanced_destroy cfg b pos last parent⟩
  · have more : 1 < s.refcnt n := by
      have := b.alive n live
      omega
    rw [refdrop_keeps cfg live more] at eq
    cases eq
    exact ⟨.kept more,balanced_unbump b pos more⟩

theorem bind_map_ok {α : Type} {f : α → Reply} {result : Except Fault (α × Vfs Φ F)} {reply : Reply}
    (eq : (result >>= fun (r, s) => .ok (f r, s)) = Except.ok (reply, s')) :
    ∃ r, result = .ok (r, s') ∧ reply = f r := by
  cases result with
  | error e => cases eq
  | ok pair =>
    obtain ⟨r,t⟩ := pair
    cases eq
    exact ⟨r,rfl,rfl⟩

variable {w : World Φ F}

inductive ExecEnd (cfg : Config Φ F) (s : Vfs Φ F) : Call → Reply → Vfs Φ F → Prop where
  | lookup {q name mem r t} (way : LookupEnd cfg q name mem s (.ok (r, t))) :
      ExecEnd cfg s (.lookup q name mem) (r.map some) t
  | create {i type mem r t} (way : CreateEnd cfg i type mem s (.ok (r, t))) :
      ExecEnd cfg s (.create i type mem) (r.map some) t
  | link {m q name mem r t} (way : LinkEnd cfg m q name mem s (.ok (r, t))) :
      ExecEnd cfg s (.link m q name mem) (r.map some) t
  | move {m q name r t} (way : MoveEnd cfg m q name s (.ok (r, t))) :
      ExecEnd cfg s (.move m q name) (r.map fun _ => none) t
  | unlink {q name r t} (way : UnlinkEnd cfg q name s (.ok (r, t))) :
      ExecEnd cfg s (.unlink q name) (r.map fun _ => none) t
  | get_parent (m : Addr) :
      ExecEnd cfg s (.get_parent m) (.ok (s.parent m)) (bumpPrev (s.parent m) s)
  | refdrop {m t} (dropped : Dropped cfg m s t) : ExecEnd cfg s (.refdrop m) (.ok none) t

theorem ends_returned {α : Type} {way : Except Fault (α × Vfs Φ F) → Prop} {ledger : α → Addr → Nat}
    {result : Except Fault (α × Vfs Φ F)} {r : α} {after : Addr → Nat}
    (ends : Ends way ledger result) (ret : result = .ok (r, s')) (same : ledger r = after) :
    way (.ok (r, s')) ∧ Balanced s' after ∧ Unlocked s' :=
  ⟨ret ▸ ends.way, same ▸ ends.balanced r s' ret, ends.unlocked r s' ret⟩

theorem exec_ends (cfg : Config Φ F) {c : Call} {reply : Reply}
    (b : Balanced w.vfs w.handed) (unlocked : Unlocked w.vfs) (permitted : Permitted w c)
    (eq : exec cfg w.vfs c = .ok (reply, s')) :
    ExecEnd cfg w.vfs c reply s' ∧ Balanced s' (afterReply w.handed c reply) ∧ Unlocked s' := by
  cases c with
  | lookup p name mem =>
    obtain ⟨r,ret,rfl⟩ := bind_map_ok eq
    exact (ends_returned (lookup_ok cfg b unlocked permitted.1 name permitted.2) ret
      (by cases r <;> rfl)).imp_left .lookup
  | create i type mem =>
    obtain ⟨r,ret,rfl⟩ := bind_map_ok eq
    exact (ends_returned (create_ok cfg b unlocked i type permitted) ret
      (by cases r <;> rfl)).imp_left .create
  | link n p name mem =>
    obtain ⟨r,ret,rfl⟩ := bind_map_ok eq
    exact (ends_returned (link_ok cfg b unlocked permitted.2.1 n name permitted.2.2) ret
      (by cases r <;> rfl)).imp_left .link
  | move n p name =>
    obtain ⟨r,ret,rfl⟩ := bind_map_ok eq
    exact (ends_returned (move_ok cfg b unlocked permitted.1 permitted.2 name) ret
      (by cases r <;> rfl)).imp_left .move
  | unlink p name =>
    obtain ⟨r,ret,rfl⟩ := bind_map_ok eq
    exact (ends_returned (unlink_ok cfg b unlocked permitted name) ret
      (by cases r <;> rfl)).imp_left .unlink
  | get_parent n =>
    obtain ⟨geteq,balanced⟩ := get_parent_ok b (held_live b permitted)
    obtain ⟨r,ret,rfl⟩ := bind_map_ok eq
    rw [geteq] at ret
    cases ret
    refine ⟨.get_parent n,?_,unlocked⟩
    generalize w.vfs.parent n = parent at balanced
    cases parent with
    | none | some q => exact balanced
  | refdrop n =>
    cases dropeq : vfs_node_refdrop cfg n w.vfs with rw [exec, dropeq] at eq
    | error e => cases eq
    | ok t =>
      cases eq
      obtain ⟨dropped,balanced⟩ := refdrop_returns cfg b permitted dropeq
      refine ⟨.refdrop dropped,balanced,?_⟩
      intro m
      rw [dropped_locks dropped]
      exact unlocked m

/- What a call can lose, and when a directory can come to be in its own table. -/

def Evictable (s : Vfs Φ F) : Prop :=
  ∃ n p, s.live p = true ∧ n ∈ s.children p ∧ s.refcnt n = 1

structure Tidy (s s' : Vfs Φ F) : Prop where
  lost : ∀ m, s.lost m ≤ s'.lost m
  loops : (∀ m, s'.lost m = 0) → ∀ n, s'.live n = true → n ∈ s'.children n →
    s.live n = true ∧ n ∈ s.children n

theorem tidy_refl (s : Vfs Φ F) : Tidy s s :=
  ⟨fun _ => Nat.le_refl _, fun _ _ live mem => ⟨live, mem⟩⟩

theorem tidy_trans (first : Tidy s t) (second : Tidy t s') : Tidy s s' where
  lost m := Nat.le_trans (first.lost m) (second.lost m)
  loops kept m live mem := by
    obtain ⟨live,mem⟩ := second.loops kept m live mem
    refine first.loops ?_ m live mem
    intro q
    have := second.lost q
    have := kept q
    omega

theorem tidy_of_lost (lost : s'.lost = s.lost)
    (loops : ∀ m, s'.live m = true → m ∈ s'.children m → s.live m = true ∧ m ∈ s.children m) :
    Tidy s s' where
  lost m := by rw [lost]
  loops _ := loops

theorem tidy_lose (le : ∀ m, s.lost m ≤ s'.lost m) (q : Addr) : Tidy s (lose q s') where
  lost m := by
    have := le m
    simp only [lose, update_apply]
    split
    case isTrue same =>
      subst same
      omega
    case isFalse => exact this
  loops kept := by
    have := kept q
    simp [lose] at this

theorem tidy_destroy (cfg : Config Φ F) (m : Addr) (s : Vfs Φ F) :
    Tidy s (vfs_node_destroy cfg m (unbump m s)) := by
  refine tidy_of_lost rfl ?_
  intro q live mem
  refine ⟨?_,mem⟩
  by_cases same : q = m
  · simp [vfs_node_destroy, same] at live
  · simpa [vfs_node_destroy, unbump, same] using live

variable {cfg : Config Φ F}

theorem tidy_dropped (dropped : Dropped cfg n s s') : Tidy s s' ∧ s'.lost = s.lost := by
  cases dropped with
  | kept more => exact ⟨tidy_of_lost rfl fun _ live mem => ⟨live,mem⟩,rfl⟩
  | destroyed last dandling childless => exact ⟨tidy_destroy cfg n s,rfl⟩

theorem tidy_droppedPrev (dropped : DroppedPrev cfg prev s s') : Tidy s s' ∧ s'.lost = s.lost := by
  cases prev with
  | none =>
    have same : s' = s := dropped
    rw [same]
    exact ⟨tidy_refl s,rfl⟩
  | some c => exact tidy_dropped dropped

theorem tidy_detached (m q : Addr) (s : Vfs Φ F) : Tidy s (detached m q s) := by
  refine tidy_of_lost rfl ?_
  intro c live mem
  refine ⟨live,?_⟩
  rw [detached_children] at mem
  split at mem
  case isTrue same =>
    rw [same] at mem ⊢
    exact List.mem_of_mem_erase mem
  case isFalse => exact mem

theorem tidy_detachPrev (prev : Option Addr) (q : Addr) (s : Vfs Φ F) :
    Tidy s (detachPrev prev q s) := by
  cases prev with
  | none => exact tidy_refl s
  | some c => exact tidy_detached c q s

attribute [local simp] vfs_node_construct

theorem tidy_construct (cfg : Config Φ F) (a : Addr) (i : FsId) (name : Option Name) (f : F)
    (s : Vfs Φ F) : Tidy s (vfs_node_construct cfg a i name f s) := by
  refine tidy_of_lost rfl ?_
  intro m live mem
  by_cases same : m = a
  · simp [same] at mem
  · exact ⟨by simpa [same] using live,
      by simpa [same] using mem⟩

theorem tidy_attached (other : p ≠ a) (s : Vfs Φ F) : Tidy s (attached a p s) := by
  refine tidy_of_lost rfl ?_
  intro m live mem
  refine ⟨live,?_⟩
  change m ∈ (placed a p s).children m at mem
  rw [placed_children] at mem
  split at mem
  case isTrue same =>
    subst same
    simpa [other] using mem
  case isFalse => exact mem

theorem tidy_cleared
    (cleared : Cleared cfg i s storage s') : Tidy s s' ∧ (s'.lost = s.lost ∨ Evictable s) := by
  cases cleared with
  | kept l => exact ⟨tidy_of_lost rfl fun _ live mem => ⟨live,mem⟩,.inl rfl⟩
  | recycled c q rest livep mem last childless => ?_
  refine ⟨?_,.inr ⟨c,q,livep,mem,last⟩⟩
  apply tidy_lose
  intro m
  exact Nat.le_refl _

theorem tidy_created (created : Created cfg i name f mem s node s') :
    Tidy s s' ∧ (s'.lost = s.lost ∨ Evictable s) := by
  cases created with
  | full _ cleared empty => exact tidy_cleared cleared
  | made a storage s1 cleared fine dead =>
    obtain ⟨tidy,lost⟩ := tidy_cleared cleared
    exact ⟨tidy_trans tidy (tidy_construct cfg a i name f s1),lost⟩

theorem tidy_entered
    (b : Balanced s held) (pos : 0 < held p) (entered : Entered cfg p name f mem s r s') :
    Tidy s s' ∧ (s'.lost = s.lost ∨ Evictable s) := by
  cases entered with
  | full s1 cleared empty =>
    obtain ⟨tidy,lost⟩ := tidy_cleared cleared
    exact ⟨⟨tidy.lost,tidy.loops⟩,lost⟩
  | made a storage s1 cleared fine dead => ?_
  have unheld := cleared_unheld b cleared dead
  have other : p ≠ a := by
    rintro rfl
    omega
  obtain ⟨tidy,lost⟩ := tidy_cleared cleared
  have built := tidy_trans tidy (tidy_construct cfg a (s.fs p) (some name) f s1)
  have stored : Tidy s (setStore ((cfg.fs (s.fs p)).ops.node_refdrop f
      ((cfg.fs (s.fs p)).ops.node_refnew f s1.store))
      (vfs_node_construct cfg a (s.fs p) (some name) f s1)) := ⟨built.lost,built.loops⟩
  exact ⟨tidy_trans stored (tidy_attached other _),lost⟩

theorem evictable_of_asking (cfg : Config Φ F)
    (b : Balanced (detachPrev (cachedChild cfg p name s) p (asking cfg p name store s))
      (gainPrev (cachedChild cfg p name s) held)) (pos : 0 < held p)
    (evict : Evictable (detachPrev (cachedChild cfg p name s) p (asking cfg p name store s))) :
    Evictable s := by
  obtain ⟨m,q,live,mem,last⟩ := evict
  have unheld := recycled_unheld b live mem last
  have other : m ≠ p := by
    rintro rfl
    have : 0 < gainPrev (cachedChild cfg m name s) held m := gainPrev_pos pos
    omega
  refine ⟨m,q,live,?_⟩
  cases found : cachedChild cfg p name s with
  | none =>
    rw [found] at mem last
    refine ⟨mem,?_⟩
    simpa [detachPrev, asking, setStore, bumpPrev, found, setLocked] using last
  | some c => ?_
  rw [found] at mem last unheld
  have differ : m ≠ c := by
    rintro rfl
    have : 0 < gain held m m := gain_self_pos
    exact absurd unheld (Nat.ne_of_gt this)
  change m ∈ (detached c p (asking cfg p name store s)).children q at mem
  change (detached c p (asking cfg p name store s)).refcnt m = 1 at last
  rw [detached_children] at mem
  rw [detached_refcnt, if_neg other] at last
  constructor
  · split at mem
    case isTrue same => exact same ▸ List.mem_of_mem_erase mem
    case isFalse => exact mem
  · simpa [asking, setStore, bumpPrev, found, bump, setLocked, differ] using last

theorem exec_tidy (cfg : Config Φ F)
    (b : Balanced w.vfs w.handed) (unlocked : Unlocked w.vfs) (permitted : Permitted w c)
    (eq : exec cfg w.vfs c = .ok (reply, s')) :
    Tidy w.vfs s' ∧
      (s'.lost = w.vfs.lost ∨ (∃ n p name, c = .move n p name) ∨ Evictable w.vfs) := by
  cases (exec_ends cfg b unlocked permitted eq).1 with
  | @lookup p name _ _ _ way =>
    cases way with
    | dandling orphan => exact ⟨tidy_refl _,.inl rfl⟩
    | hit a linked found | failed e store linked missed asked =>
      exact ⟨tidy_of_lost rfl fun _ live mem => ⟨live,mem⟩,.inl rfl⟩
    | entered f mangled store _ s1 linked missed asked entered =>
      have locked := balanced_setStore (balanced_setLocked b p true) store
      obtain ⟨tidy,lost⟩ := tidy_entered locked permitted.1 entered
      exact ⟨⟨tidy.lost,tidy.loops⟩,lost.imp id .inr⟩
  | create way =>
    cases way with
    | refused e => exact ⟨tidy_refl _,.inl rfl⟩
    | failed create e store op asked =>
      exact ⟨tidy_of_lost rfl fun _ live mem => ⟨live,mem⟩,.inl rfl⟩
    | made create f store node s1 op asked created =>
      obtain ⟨tidy,lost⟩ := tidy_created created
      exact ⟨⟨tidy.lost,tidy.loops⟩,lost.imp id .inr⟩
  | @link n p name _ _ _ way =>
    cases way with
    | refused e => exact ⟨tidy_refl _,.inl rfl⟩
    | failed link e store _ op asked dropped =>
      obtain ⟨tidy,lost⟩ := tidy_droppedPrev dropped
      exact ⟨⟨tidy.lost,tidy.loops⟩,.inl lost⟩
    | linked link f mangled store _ s1 _ op place asked entered dropped => ?_
    have livep := held_live b permitted.2.1
    have ask := asking_balanced cfg b livep name store
    have removed := (unset_prev_ok cfg ask permitted.2.1 fun c found => cachedChild_mem found).2
    have pos : 0 < gainPrev (cachedChild cfg p name w.vfs) w.handed p := gainPrev_pos permitted.2.1
    obtain ⟨tidy,lost⟩ := tidy_entered removed pos entered
    obtain ⟨tidy',lost'⟩ := tidy_droppedPrev dropped
    have first := tidy_detachPrev (cachedChild cfg p name w.vfs) p (asking cfg p name store w.vfs)
    have whole := tidy_trans first tidy
    have unlock : Tidy (asking cfg p name store w.vfs) (vfs_node_dirunlock p s1) :=
      ⟨whole.lost,whole.loops⟩
    have done := tidy_trans unlock tidy'
    refine ⟨⟨done.lost,done.loops⟩,?_⟩
    rcases lost with same | evict
    · exact .inl (lost'.trans same)
    · exact .inr (.inr (evictable_of_asking cfg removed permitted.2.1 evict))
  | @move n p name _ _ way =>
    refine ⟨?_,.inr (.inl ⟨n,p,name,rfl⟩)⟩
    cases way with
    | refused e => exact tidy_refl _
    | failed move e store src s1 op parent asked dropped
    | moved move store src s1 op samefs place parent other mem asked dropped =>
      refine tidy_lose ?_ src
      intro m
      rw [(tidy_droppedPrev dropped).2]
      exact Nat.le_refl _
  | @unlink p name _ _ way =>
    cases way with
    | refused e => exact ⟨tidy_refl _,.inl rfl⟩
    | failed unlink e store _ op asked dropped =>
      obtain ⟨tidy,lost⟩ := tidy_droppedPrev dropped
      exact ⟨⟨tidy.lost,tidy.loops⟩,.inl lost⟩
    | removed unlink store _ op asked dropped => ?_
    obtain ⟨tidy,lost⟩ := tidy_droppedPrev dropped
    have first := tidy_detachPrev (cachedChild cfg p name w.vfs) p (asking cfg p name store w.vfs)
    have unlock : Tidy w.vfs (vfs_node_dirunlock p (detachPrev (cachedChild cfg p name w.vfs) p
        (asking cfg p name store w.vfs))) := ⟨first.lost,first.loops⟩
    exact ⟨tidy_trans unlock tidy,.inl lost⟩
  | get_parent n => exact ⟨tidy_of_lost rfl fun _ live mem => ⟨live,mem⟩,.inl rfl⟩
  | refdrop dropped =>
    obtain ⟨tidy,lost⟩ := tidy_dropped dropped
    exact ⟨tidy,.inl lost⟩

/- Runs. -/

structure Exact (w : World Φ F) : Prop where
  balanced : Balanced w.vfs w.handed
  unlocked : Unlocked w.vfs
  loopless : (∀ m, w.vfs.lost m = 0) → ∀ n, w.vfs.live n = true → n ∉ w.vfs.children n

attribute [local simp] setParent

theorem started_exact (started : Started cfg w) : Exact w where
  balanced :=
    { count := by
        intro m live
        obtain ⟨_,parent,childless,count,_⟩ := started.root m live
        have untabled : ¬ Tabled w.vfs m := by
          rintro ⟨q,parent',mem⟩
          rw [parent, Option.mem_some_iff] at parent'
          rw [← parent', childless] at mem
          cases mem
        rw [tableRefs_of_not untabled, childless, started.kept m, count]
        rfl
      alive := by
        intro m live
        obtain ⟨_,_,_,count,pos⟩ := started.root m live
        rw [count]
        exact pos
      dead := fun m dead => ⟨started.none_else m dead,started.kept m⟩
      child := by
        intro q c live mem
        rw [(started.root q live).2.2.1] at mem
        cases mem
      nodup := by
        intro q live
        rw [(started.root q live).2.2.1]
        exact List.nodup_nil
      parent := by
        intro c q live parent
        rw [(started.root c live).2.1, Option.some.injEq] at parent
        exact ⟨parent ▸ live,.inr parent.symm⟩
      lru := by
        intro i
        rw [started.empty i]
        exact List.nodup_nil
      cached := by
        intro i m mem
        rw [started.empty i] at mem
        cases mem }
  unlocked := started.unlocked
  loopless _ m live mem := by
    rw [(started.root m live).2.2.1] at mem
    cases mem

theorem next_of_completes (completed : completes cfg w.vfs c = true) :
    ∃ reply s', exec cfg w.vfs c = .ok (reply, s') ∧
      nextWorld cfg w c = ⟨s', afterReply w.handed c reply⟩ := by
  cases eq : exec cfg w.vfs c with
  | error e =>
    rw [completes, eq] at completed
    cases completed
  | ok pair => exact ⟨pair.1,pair.2,rfl,by rw [nextWorld, eq]⟩

theorem exact_step (exact : Exact w)
    (can : (vfsMachine cfg).enabled w c) : Exact ((vfsMachine cfg).next w c) := by
  obtain ⟨permitted,completed⟩ := can
  obtain ⟨reply,s',eq,next⟩ := next_of_completes completed
  change Exact (nextWorld cfg w c)
  obtain ⟨_,balanced,unlocked⟩ := exec_ends cfg exact.balanced exact.unlocked permitted eq
  have tidy := (exec_tidy cfg exact.balanced exact.unlocked permitted eq).1
  rw [next]
  refine ⟨balanced,unlocked,?_⟩
  intro kept m live mem
  obtain ⟨live,mem⟩ := tidy.loops kept m live mem
  refine exact.loopless ?_ m live mem
  intro q
  have := tidy.lost q
  have : s'.lost q = 0 := kept q
  omega

theorem reached_exact (reached : Reached (vfsMachine cfg) w) : Exact w :=
  reached_invariant Exact (fun _ started => started_exact started)
    (fun _ _ exact can => exact_step exact can) reached

/-- A call that loses no reference: no move, and there is no node to recycle. -/
def Lossless (w : World Φ F) (c : Call) : Prop :=
  (∀ n p name, c ≠ .move n p name) ∧ ¬ Evictable w.vfs

theorem reached_kept (reached : Reached (restrict (vfsMachine cfg) Lossless) w) :
    Exact w ∧ ∀ m, w.vfs.lost m = 0 := by
  refine reached_invariant (fun w => Exact w ∧ ∀ m, w.vfs.lost m = 0) ?_ ?_ reached
  · intro w started
    exact ⟨started_exact started,started.kept⟩
  · rintro w c ⟨exact,kept⟩ ⟨can,still,packed⟩
    refine ⟨exact_step exact can,?_⟩
    obtain ⟨permitted,completed⟩ := can
    obtain ⟨reply,s',eq,next⟩ := next_of_completes completed
    change ∀ m, (nextWorld cfg w c).vfs.lost m = 0
    rw [next]
    rcases (exec_tidy cfg exact.balanced exact.unlocked permitted eq).2 with
      same | ⟨n,p,name,move⟩ | evictable
    · rw [same]
      exact kept
    · exact absurd move (still n p name)
    · exact absurd evictable packed

theorem children_ncard (b : Balanced s held) (live : s.live n = true)
    (loopless : n ∉ s.children n) :
    {m | m ≠ n ∧ s.live m = true ∧ s.parent m = some n}.ncard = (s.children n).length := by
  have same : {m | m ≠ n ∧ s.live m = true ∧ s.parent m = some n} = ↑(s.children n).toFinset := by
    ext m
    simp only [List.coe_toFinset]
    constructor
    · rintro ⟨other,livem,parent⟩
      exact (b.parent m n livem parent).2.resolve_right other.symm
    · intro mem
      refine ⟨?_,b.child n m live mem⟩
      rintro rfl
      exact loopless mem
  rw [same, Set.ncard_coe_finset, List.toFinset_card_of_nodup (b.nodup n live)]

/-- Over every run of calls and for every file system, the count of a live node is the
    references that callers hold, the one of its place, the ones of its children and the
    ones that were lost. Where nothing was lost it is what the tree and the callers
    account for; a live node is referenced, a freed one is not; only a move, or the
    recycling of a node that its place alone keeps, loses a reference; and nothing is lost in a
    run without moves and without such nodes. -/
theorem node_refcounts_exact (cfg : Config Φ F) {w : World Φ F}
    (reached : Reached (vfsMachine cfg) w) :
    (∀ n, w.vfs.live n = true → w.vfs.refcnt n =
      w.handed n + tableRefs w.vfs n + (w.vfs.children n).length + w.vfs.lost n) ∧
    ((∀ m, w.vfs.lost m = 0) → ∀ n, w.vfs.live n = true → w.vfs.refcnt n =
      w.handed n + tableRefs w.vfs n +
        {m | m ≠ n ∧ w.vfs.live m = true ∧ w.vfs.parent m = some n}.ncard) ∧
    (∀ n, w.vfs.live n = true → 0 < w.handed n ∨ Tabled w.vfs n ∨
      (∃ m, w.vfs.live m = true ∧ w.vfs.parent m = some n) ∨ 0 < w.vfs.lost n) ∧
    (∀ n, w.vfs.live n = false → w.handed n = 0 ∧
      ∀ m, w.vfs.live m = true → w.vfs.parent m ≠ some n ∧ n ∉ w.vfs.children m) ∧
    (∀ c reply s', Permitted w c → exec cfg w.vfs c = .ok (reply, s') →
      s'.lost = w.vfs.lost ∨ (∃ n p name, c = .move n p name) ∨ Evictable w.vfs) ∧
    (Reached (restrict (vfsMachine cfg) Lossless) w → ∀ m, w.vfs.lost m = 0) := by
  have exact := reached_exact reached
  have b := exact.balanced
  refine ⟨b.count,?_,?_,?_,?_,fun lossless => (reached_kept lossless).2⟩
  · intro kept n live
    rw [children_ncard b live (exact.loopless kept n live)]
    have count := b.count n live
    rw [kept n] at count
    exact count
  · intro n live
    have count := b.count n live
    have alive := b.alive n live
    by_cases tabled : Tabled w.vfs n
    · exact .inr (.inl tabled)
    rw [tableRefs_of_not tabled] at count
    cases children : w.vfs.children n with
    | cons c rest =>
      have mem : c ∈ w.vfs.children n := by simp [children]
      exact .inr (.inr (.inl ⟨c,b.child n c live mem⟩))
    | nil => ?_
    rw [children, List.length_nil] at count
    by_cases handed : 0 < w.handed n
    · exact .inl handed
    · exact .inr (.inr (.inr (by omega)))
  · intro n dead
    refine ⟨(b.dead n dead).1,?_⟩
    intro m live
    constructor
    · intro parent
      rw [(b.parent m n live parent).1] at dead
      cases dead
    · intro mem
      rw [(b.child m n live mem).1] at dead
      cases dead
  · intro c reply s' permitted eq
    exact (exec_tidy cfg b exact.unlocked permitted eq).2

end

def plainRun : List Call :=
  [.create 0 .dir (some 1), .link 1 0 ['a'] (some 2), .create 0 .file (some 3),
    .link 3 2 ['f'] (some 4)]

def ramfsAfter (run : List Call) : World Volumes Addr :=
  after (vfsMachine (ramfsConfig 8)) (ramfsWorld 10) run

theorem ramfsAfter_reached (allowed : Allowed (vfsMachine (ramfsConfig 8)) (ramfsWorld 10) run) :
    Reached (vfsMachine (ramfsConfig 8)) (ramfsAfter run) :=
  reached_of_allowed _ _ run (ramfsWorld_started 8 10) allowed

theorem node_refcounts_exact_plain : (ramfsAfter plainRun).vfs.refcnt 2 =
      (ramfsAfter plainRun).handed 2 + tableRefs (ramfsAfter plainRun).vfs 2 +
        {m | m ≠ 2 ∧ (ramfsAfter plainRun).vfs.live m = true ∧
          (ramfsAfter plainRun).vfs.parent m = some 2}.ncard :=
  (node_refcounts_exact (ramfsConfig 8) (ramfsAfter_reached (by decide))).2.1 (fun _ => rfl) 2
    (by decide)

/-- The file is moved to a second directory: the first, empty again and held by its
    caller, keeps a reference of nobody. -/
def movedRun : List Call :=
  [.create 0 .dir (some 1), .link 1 0 ['a'] (some 2), .create 0 .dir (some 3),
    .link 3 0 ['b'] (some 4), .create 0 .file (some 5), .link 5 2 ['f'] (some 6), .move 6 4 ['f']]

/-- A directory is dropped by its caller and recycled for the next node: its parent, the
    root, keeps a reference of nobody. -/
def recycledRun : List Call :=
  [.create 0 .dir (some 1), .link 1 0 ['a'] (some 2), .refdrop 2, .create 0 .file (some 3)]

/-- The count of a node is not what the tree and the callers account for. -/
def Leaking {Φ F : Type} (w : World Φ F) (n : Addr) : Prop :=
  w.vfs.live n = true ∧ w.vfs.refcnt n ≠ w.handed n + tableRefs w.vfs n +
    {m | m ≠ n ∧ w.vfs.live m = true ∧ w.vfs.parent m = some n}.ncard

theorem leaking_of_children {n : Addr}
    (reached : Reached (vfsMachine (ramfsConfig 8)) (ramfsAfter run))
    (live : (ramfsAfter run).vfs.live n = true) (loopless : n ∉ (ramfsAfter run).vfs.children n)
    (more : (ramfsAfter run).vfs.refcnt n ≠ (ramfsAfter run).handed n +
      tableRefs (ramfsAfter run).vfs n + ((ramfsAfter run).vfs.children n).length) :
    Leaking (ramfsAfter run) n := by
  refine ⟨live,?_⟩
  rw [children_ncard (reached_exact reached).balanced live loopless]
  exact more

theorem move_and_recycling_leak :
    (Reached (vfsMachine (ramfsConfig 8)) (ramfsAfter movedRun) ∧ Leaking (ramfsAfter movedRun) 2) ∧
    (Reached (vfsMachine (ramfsConfig 8)) (ramfsAfter recycledRun) ∧
      Leaking (ramfsAfter recycledRun) 0) := by
  have moved : Reached (vfsMachine (ramfsConfig 8)) (ramfsAfter movedRun) :=
    ramfsAfter_reached (by decide)
  have recycled : Reached (vfsMachine (ramfsConfig 8)) (ramfsAfter recycledRun) :=
    ramfsAfter_reached (by decide)
  exact ⟨⟨moved,leaking_of_children moved (by decide) (by decide) (by decide)⟩,
    ⟨recycled,leaking_of_children recycled (by decide) (by decide) (by decide)⟩⟩

end MutekVfsRefcount
