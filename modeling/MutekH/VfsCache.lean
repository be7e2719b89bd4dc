import MutekH.VfsCoherence

/-!
The calls of the VFS as operations on a cache. Over a faithful file system each keeps the
tables coherent with the directories, provided that a moved node keeps its name, that
nothing is unlinked through a node without a place, and that no directory with entries is
replaced.
-/
namespace MutekVfsCache
open MutekVfs MutekVfsLedger MutekVfsCalls MutekVfsCoherence

section
variable {Φ F : Type} {cfg : Config Φ F} {view : View Φ F} {s : Vfs Φ F} {held : Addr → Nat}
  {n p : Addr}

structure Cached (cfg : Config Φ F) (view : View Φ F) (s : Vfs Φ F) : Prop where
  good : view.good s.store
  coherent : Coherent cfg (view.content s.store) s

theorem cached_of_unseen (seen : view.content φ = C)
    (coh : Coherent cfg C s) (unseen : Unseen view φ s.store) : Cached cfg view s := by
  refine ⟨unseen.1,?_⟩
  rw [unseen.2, seen]
  exact coh

theorem cached_setLocked (cached : Cached cfg view s) (m : Addr) (locked : Bool) :
    Cached cfg view (setLocked m locked s) :=
  ⟨cached.good, cached.coherent.entry, cached.coherent.leaf, cached.coherent.unique,
    cached.coherent.rooted⟩

theorem cached_lose (cached : Cached cfg view s) (m : Addr) : Cached cfg view (lose m s) :=
  ⟨cached.good, cached.coherent.entry, cached.coherent.leaf, cached.coherent.unique,
    cached.coherent.rooted⟩

variable {s' : Vfs Φ F} {name : Name} {mem : Option Addr}

section
variable (faithful : Faithful cfg view)
include faithful

theorem dropped_unseen (good : view.good s.store) (dropped : Dropped cfg n s s') :
    Unseen view s.store s'.store := by
  cases dropped with
  | kept more => exact ⟨good,rfl⟩
  | destroyed last dandling childless => exact faithful.refdrop _ _ good

theorem droppedPrev_cached (cached : Cached cfg view s)
    (dropped : DroppedPrev cfg prev s s') : Cached cfg view s' := by
  cases prev with
  | none =>
    have same : s' = s := dropped
    rw [same]
    exact cached
  | some c =>
    have unseen := dropped_unseen faithful cached.good dropped
    exact cached_of_unseen rfl (coherent_dropped cached.coherent dropped) unseen

theorem cleared_cached (cached : Cached cfg view s) (cleared : Cleared cfg i s storage s') :
    Cached cfg view s' ∧ view.content s'.store = view.content s.store := by
  have coh := coherent_cleared cached.coherent cleared
  have unseen : Unseen view s.store s'.store := by
    cases cleared with
    | kept l => exact ⟨cached.good,rfl⟩
    | recycled m q rest livep mem last childless => exact faithful.refdrop _ _ cached.good
  exact ⟨cached_of_unseen rfl coh unseen,unseen.2⟩

theorem created_cached {name : Option Name}
    (cached : Cached cfg view s) (created : Created cfg i name f mem s node s') :
    Cached cfg view s' ∧ view.content s'.store = view.content s.store := by
  cases created with
  | full _ cleared empty => exact cleared_cached faithful cached cleared
  | made a storage s1 cleared fine dead => ?_
  obtain ⟨ledger,b⟩ := fine
  obtain ⟨cached₁,same⟩ := cleared_cached faithful cached cleared
  have coh := coherent_construct b cached₁.coherent dead i name f
  have unseen := faithful.refnew i f cached₁.good
  exact ⟨cached_of_unseen rfl coh unseen,unseen.2.trans same⟩

end

theorem cleared_children
    (cleared : Cleared cfg i s storage s') (mem : c ∈ s'.children q) : c ∈ s.children q := by
  cases cleared with
  | kept l => exact mem
  | recycled m r rest livep memr last childless => ?_
  change c ∈ (detached m r (bump m (setLocked r true (bump r (setLru i rest s))))).children q at mem
  rw [detached_children] at mem
  split at mem
  case isTrue same => exact same ▸ List.mem_of_mem_erase mem
  case isFalse => exact mem

attribute [local simp] vfs_node_construct

theorem entered_cached (faithful : Faithful cfg view) (b : Balanced s held) (pos : 0 < held p)
    (cached : Cached cfg view s) (linked : s.parent p ≠ none)
    (entry : view.content s.store (s.fs p) (s.fs_node p) name = some f)
    (missing : ∀ c ∈ s.children p, s.name c ≠ name)
    (entered : Entered cfg p name f mem s r s') : Cached cfg view s' := by
  cases entered with
  | full s1 cleared empty =>
    obtain ⟨cached₁,same⟩ := cleared_cached faithful cached cleared
    have unseen := faithful.refdrop (s.fs p) f cached₁.good
    have coh := cached₁.coherent
    exact cached_of_unseen rfl ⟨coh.entry,coh.leaf,coh.unique,coh.rooted⟩ unseen
  | made a storage s1 cleared fine dead =>
    obtain ⟨ledger,b₁⟩ := fine
    obtain ⟨cached₁,same⟩ := cleared_cached faithful cached cleared
    obtain ⟨fs,names,nodes⟩ := cleared_fields cleared
    have unheld := cleared_unheld b cleared dead
    have other : p ≠ a := by
      rintro rfl
      omega
    have parent := cleared_parent b cleared pos
    have built := balanced_construct cfg b₁ dead (s.fs p) (some name) f
    have coh := coherent_construct b₁ cached₁.coherent dead (s.fs p) (some name) f
    have unseen := faithful.refnew (s.fs p) f cached₁.good
    -- The new node and its directory, before the node gets its place.
    let t := vfs_node_construct cfg a (s.fs p) (some name) f s1
    have linked' : t.parent p ≠ none := by
      simpa [t, other, parent] using linked
    have livep : t.live p = true := by
      have live : s1.live p = true := by
        by_contra gone
        have := cleared_unheld b cleared (by simpa using gone)
        omega
      simpa [t, other] using live
    have fsp : t.fs p = s.fs p := by
      simp [t, other, fs]
    have nodep : t.fs_node p = s.fs_node p := by
      simp [t, other, nodes]
    have fsa : t.fs a = s.fs p := by
      simp [t]
    have nodea : t.fs_node a = f := by
      simp [t]
    have namea : t.name a = name := by
      simp [t]
    have entry₁ : view.content s1.store (s.fs p) (s.fs_node p) name = some f := by
      rw [same]
      exact entry
    have missing₁ : ∀ c ∈ t.children p, t.name c ≠ name := by
      intro c memc
      have old : c ∈ s1.children p := by simpa [t, other] using memc
      have differ : c ≠ a := by
        rintro rfl
        have live := (b₁.child p c (by simpa [t, other] using livep) old).1
        rw [dead] at live
        cases live
      have kept := missing c (cleared_children cleared old)
      simpa [t, differ, names] using kept
    have fresh := no_node_of_missing faithful cached₁.good built coh livep linked'
      (by rw [fsp, nodep]; exact entry₁) missing₁
    have stored : Coherent cfg (view.content s1.store) (setStore
        ((cfg.fs (s.fs p)).ops.node_refdrop f ((cfg.fs (s.fs p)).ops.node_refnew f s1.store)) t) :=
      ⟨coh.entry,coh.leaf,coh.unique,coh.rooted⟩
    have entry₂ : view.content s1.store (t.fs p) (t.fs_node p) (t.name a) = some (t.fs_node a) := by
      rw [fsp, nodep, namea, nodea]
      exact entry₁
    have placed := coherent_attached stored linked' (fsa.trans fsp.symm) entry₂
      fun m live parentm fsm same => fresh m live parentm fsm (same.trans nodea)
    have dropped := faithful.refdrop (s.fs p) f unseen.1
    exact cached_of_unseen rfl placed ⟨dropped.1,dropped.2.trans unseen.2⟩

/- The calls. -/

theorem lookup_cached (faithful : Faithful cfg view) (b : Balanced s held) (pos : 0 < held p)
    (cached : Cached cfg view s) (way : LookupEnd cfg p name mem s (.ok (r, s'))) :
    Cached cfg view s' := by
  have coh := cached.coherent
  cases way with
  | dandling orphan => exact cached
  | hit c linked found => exact ⟨cached.good,coh.entry,coh.leaf,coh.unique,coh.rooted⟩
  | failed e store linked missed asked =>
    have unseen := (faithful.lookup_failed cached.good asked).1
    exact cached_of_unseen rfl ⟨coh.entry,coh.leaf,coh.unique,coh.rooted⟩ unseen
  | entered f mangled store _ s1 linked missed asked entered => ?_
  obtain ⟨unseen,entry,key⟩ := faithful.lookup_found cached.good asked
  have asked' : Cached cfg view (setStore store (setLocked p true s)) :=
    cached_of_unseen rfl ⟨coh.entry,coh.leaf,coh.unique,coh.rooted⟩ unseen
  have missing : ∀ c ∈ s.children p, s.name c ≠ mangled := by
    intro c memc same
    have absent := List.find?_eq_none.mp missed c memc
    rw [key] at same
    simp [same] at absent
  have entry' : view.content store (s.fs p) (s.fs_node p) mangled = some f := by
    rw [unseen.2, key]
    exact entry
  have done := entered_cached faithful (balanced_setStore (balanced_setLocked b p true) store) pos
    asked' linked entry' missing entered
  exact cached_setLocked done p false

theorem create_cached (faithful : Faithful cfg view) (cached : Cached cfg view s)
    (way : CreateEnd cfg i type mem s (.ok (r, s'))) : Cached cfg view s' := by
  have coh := cached.coherent
  generalize result : (Except.ok (r, s') : Except Fault (Except Error Addr × Vfs Φ F)) = res at way
  cases way with
  | refused e =>
    cases result
    exact cached
  | fault create e op asked => cases result
  | failed create e store op asked =>
    cases result
    have unseen := faithful.create op cached.good asked
    exact cached_of_unseen rfl ⟨coh.entry,coh.leaf,coh.unique,coh.rooted⟩ unseen
  | made create f store node s1 op asked created => ?_
  cases result
  have unseen := faithful.create op cached.good asked
  have asked' : Cached cfg view (setStore store s) :=
    cached_of_unseen rfl ⟨coh.entry,coh.leaf,coh.unique,coh.rooted⟩ unseen
  obtain ⟨made,_⟩ := created_cached faithful asked' created
  have coh' := made.coherent
  exact cached_of_unseen rfl ⟨coh'.entry,coh'.leaf,coh'.unique,coh'.rooted⟩
    (faithful.refdrop i f made.good)

theorem cachedChild_entry (cached : Cached cfg view s) (livep : s.live p = true)
    (found : cachedChild cfg p name s = some c) :
    view.content s.store (s.fs p) (s.fs_node p) (vfs_name_mangle cfg.namelen name) =
      some (s.fs_node c) ∧ s.fs c = s.fs p := by
  have entry := cached.coherent.entry p c livep (cachedChild_mem found)
  rw [cachedChild_name found] at entry
  exact entry

theorem childless_of_empty (cached : Cached cfg view s) (live : s.live c = true)
    (empty : ∀ k, view.content s.store (s.fs c) (s.fs_node c) k = none) : s.children c = [] := by
  cases children : s.children c with
  | nil => rfl
  | cons d rest =>
    have entry := (cached.coherent.entry c d live (by simp [children])).1
    rw [empty] at entry
    cases entry

theorem mem_detached (b : Balanced s held) (live : s.live src = true)
    (mem : n ∈ s.children src) (liveq : s.live q = true) :
    c ∈ (detached n src s).children q ↔ c ∈ s.children q ∧ c ≠ n := by
  rw [detached_children]
  by_cases same : q = src
  · subst same
    rw [if_pos rfl, (b.nodup q live).mem_erase_iff]
    exact and_comm
  rw [if_neg same]
  constructor
  · intro old
    refine ⟨old,?_⟩
    rintro rfl
    have parent := (b.child src c live mem).2
    rw [(b.child q c liveq old).2, Option.some.injEq] at parent
    exact same parent
  · exact And.left

theorem absent_after_detach (b : Balanced s held) {C : Content F} (coh : Coherent cfg C s)
    (livep : s.live p = true) (linked : s.parent p ≠ none) {q c : Addr}
    (live : s.live q = true) (mem : c ∈ (detachPrev (cachedChild cfg p name s) p s).children q)
    (fs : s.fs q = s.fs p) (node : s.fs_node q = s.fs_node p) :
    s.name c ≠ vfs_name_mangle cfg.namelen name := by
  intro key
  have place : ∀ d, d ∈ s.children q → q = p := by
    intro d old
    exact coh.unique q p live livep (coherent_linked coh live old) linked fs node
  cases found : cachedChild cfg p name s with rw [found] at mem
  | none =>
    have old : c ∈ s.children q := mem
    have absent := List.find?_eq_none.mp found c (place c old ▸ old)
    simp [key] at absent
  | some d =>
    have memd := cachedChild_mem found
    obtain ⟨old,differ⟩ := (mem_detached b livep memd live).mp mem
    have named := cachedChild_name found
    exact differ (coherent_names b coh livep (place c old ▸ old) memd (key.trans named.symm))

theorem detachPrev_coherent {C : Content F} (coh : Coherent cfg C s)
    (empty : ∀ c ∈ cachedChild cfg p name s, s.children c = []) :
    Coherent cfg C (detachPrev (cachedChild cfg p name s) p s) := by
  cases found : cachedChild cfg p name s with
  | none => exact coh
  | some c => exact coherent_detached coh (empty c found)

theorem detach_cached (b : Balanced s held) (livep : s.live p = true) (cached : Cached cfg view s)
    (linked : s.parent p ≠ none) (empty : ∀ g, view.content s.store (s.fs p) (s.fs_node p)
      (vfs_name_mangle cfg.namelen name) = some g → ∀ k, view.content s.store (s.fs p) g k = none)
    (store : Φ) : let t := detachPrev (cachedChild cfg p name s) p (asking cfg p name store s)
    (∀ c ∈ cachedChild cfg p name s, s.children c = []) ∧ Coherent cfg (view.content s.store) t ∧
      ∀ q c, s.live q = true → c ∈ t.children q → s.fs q = s.fs p → s.fs_node q = s.fs_node p →
        s.name c ≠ vfs_name_mangle cfg.namelen name := by
  have coh := cached.coherent
  have ask : Coherent cfg (view.content s.store) (asking cfg p name store s) :=
    ⟨coh.entry,coh.leaf,coh.unique,coh.rooted⟩
  have childless : ∀ c ∈ cachedChild cfg p name s, s.children c = [] := by
    intro c found
    obtain ⟨entry,fs⟩ := cachedChild_entry cached livep found
    have live := (b.child p c livep (cachedChild_mem found)).1
    exact childless_of_empty cached live fun k => fs ▸ empty _ entry k
  refine ⟨childless,detachPrev_coherent ask childless,?_⟩
  intro q c live mem fs node
  exact absent_after_detach (asking_balanced cfg b livep name store) ask livep linked
    live mem fs node

theorem unlink_cached (faithful : Faithful cfg view) (b : Balanced s held) (pos : 0 < held p)
    (cached : Cached cfg view s) (linked : s.parent p ≠ none)
    (way : UnlinkEnd cfg p name s (.ok (r, s'))) :
    Cached cfg view s' := by
  have coh := cached.coherent
  cases way with
  | refused e => exact cached
  | failed unlink e store _ op asked dropped =>
    have unseen := faithful.unlink_failed op cached.good asked
    have done : Cached cfg view (asking cfg p name store s) :=
      cached_of_unseen rfl ⟨coh.entry,coh.leaf,coh.unique,coh.rooted⟩ unseen
    exact droppedPrev_cached faithful (cached_setLocked done p false) dropped
  | removed unlink store _ op asked dropped =>
    obtain ⟨good,changed,empty⟩ := faithful.unlink_done op cached.good asked
    obtain ⟨_,removed,absent⟩ := detach_cached b (held_live b pos) cached linked empty store
    have done : Cached cfg view
        (detachPrev (cachedChild cfg p name s) p (asking cfg p name store s)) :=
      ⟨good,coherent_changed removed changed absent⟩
    exact droppedPrev_cached faithful (cached_setLocked done p false) dropped

theorem link_cached (faithful : Faithful cfg view) (b : Balanced s held) (pos : 0 < held p)
    (cached : Cached cfg view s)
    (empty : ∀ link f mangled store, (cfg.fs (s.fs p)).ops.link = some link →
      link (s.fs_node n) (s.fs_node p) name s.store = .ok (.ok (f, mangled), store) →
      ∀ g, view.content s.store (s.fs p) (s.fs_node p) (vfs_name_mangle cfg.namelen name) = some g →
        ∀ k, view.content s.store (s.fs p) g k = none)
    (way : LinkEnd cfg n p name mem s (.ok (r, s'))) : Cached cfg view s' := by
  have coh := cached.coherent
  have livep := held_live b pos
  cases way with
  | refused e => exact cached
  | failed link e store _ op asked dropped =>
    have unseen := faithful.link_failed op cached.good asked
    have done : Cached cfg view (asking cfg p name store s) :=
      cached_of_unseen rfl ⟨coh.entry,coh.leaf,coh.unique,coh.rooted⟩ unseen
    exact droppedPrev_cached faithful (cached_setLocked done p false) dropped
  | linked link f mangled store _ s1 _ op place asked entered dropped =>
    obtain ⟨good,rfl,changed⟩ := faithful.link_done op cached.good asked
    obtain ⟨childless,removed,absent⟩ :=
      detach_cached b livep cached place (empty _ _ _ _ op asked) store
    have done : Coherent cfg (view.content store)
        (detachPrev (cachedChild cfg p name s) p (asking cfg p name store s)) :=
      coherent_changed removed changed absent
    have out := (unset_prev_ok cfg (asking_balanced cfg b livep name store) pos
      fun c found => cachedChild_mem found).2
    have linked : (detachPrev (cachedChild cfg p name s) p (asking cfg p name store s)).parent p ≠
        none := by
      cases found : cachedChild cfg p name s with
      | none => exact place
      | some c => ?_
      have other : p ≠ c := by
        rintro rfl
        have mem := cachedChild_mem found
        rw [childless p found] at mem
        cases mem
      change (detached c p (asking cfg p name store s)).parent p ≠ none
      rw [detached_parent, if_neg other]
      exact place
    have made := entered_cached faithful out (gainPrev_pos pos) ⟨good,done⟩ linked changed.here
      (fun c mem => absent p c livep mem rfl rfl) entered
    exact droppedPrev_cached faithful (cached_setLocked made p false) dropped

def movedTree (cfg : Config Φ F) (n p src : Addr) (name : Name) (store : Φ) (s : Vfs Φ F) :
    Vfs Φ F :=
  attached n p (detachPrev (cachedChild cfg p name s) p
    (detached n src (askingMove cfg p src name store s)))

theorem movedTree_fields (cfg : Config Φ F) (n p src : Addr) (name : Name) (store : Φ)
    (s : Vfs Φ F) :
    (movedTree cfg n p src name store s).live = s.live ∧
      (movedTree cfg n p src name store s).fs = s.fs ∧
      (movedTree cfg n p src name store s).fs_node = s.fs_node ∧
      (movedTree cfg n p src name store s).name = s.name := by
  simp only [movedTree, attached, placed, vfs_node_lru_rehash, setLru, setChildren, bump, setParent,
    detachPrev, detached, vfs_node_lru_drop, unbump, askingMove, setStore, bumpPrev,
      lock2, setLocked,
    and_self]

theorem movedTree_parent (cfg : Config Φ F) (src : Addr) (name : Name) (store : Φ) (m : Addr) :
    (movedTree cfg n p src name store s).parent m = if m = n then some p
      else if cachedChild cfg p name s = some m then none else s.parent m := by
  change (placed n p _).parent m = _
  rw [placed_parent]
  by_cases self : m = n
  · rw [if_pos self, if_pos self]
  rw [if_neg self, if_neg self]
  cases found : cachedChild cfg p name s with
  | none =>
    change (detached n src (askingMove cfg p src name store s)).parent m = _
    rw [detached_parent, if_neg self]
    simp [askingMove, setStore, bumpPrev, lock2, setLocked, bump]
  | some c => ?_
  change (detached c p (detached n src (askingMove cfg p src name store s))).parent m = _
  rw [detached_parent]
  by_cases same : m = c
  · simp [same]
  · rw [if_neg same, detached_parent, if_neg self, if_neg (by simp [Ne.symm same])]
    rfl

theorem mem_movedTree (cfg : Config Φ F) (b : Balanced s held) (posn : 0 < held n)
    (livep : s.live p = true) (live : s.live src = true) (mem : n ∈ s.children src)
    (other : p ≠ src) (name : Name) (store : Φ) (liveq : s.live q = true) :
    c ∈ (movedTree cfg n p src name store s).children q ↔ (q = p ∧ c = n) ∨
      (c ∈ s.children q ∧ c ≠ n ∧ cachedChild cfg p name s ≠ some c) := by
  have ask := askingMove_balanced cfg b livep live name store
  have parent := (b.child src n live mem).2
  let t := detached n src (askingMove cfg p src name store s)
  have out : Balanced t (gainPrev (cachedChild cfg p name s) (gain held src)) :=
    balanced_detached ask live mem (gainPrev_pos (gain_pos posn)) (gainPrev_pos gain_self_pos)
  have first : ∀ {r d : Addr}, s.live r = true →
      (d ∈ t.children r ↔ d ∈ s.children r ∧ d ≠ n) := fun liver => mem_detached ask live mem liver
  have second : c ∈ (detachPrev (cachedChild cfg p name s) p t).children q ↔
      c ∈ s.children q ∧ c ≠ n ∧ cachedChild cfg p name s ≠ some c := by
    cases found : cachedChild cfg p name s with
    | none =>
      change c ∈ t.children q ↔ _
      rw [first liveq]
      simp
    | some d => ?_
    rw [found] at out
    have old := cachedChild_mem found
    have memd : d ∈ t.children p :=
      (first livep).mpr ⟨old,cachedChild_ne b livep parent other old⟩
    change c ∈ (detached d p t).children q ↔ _
    rw [mem_detached out livep memd liveq, first liveq, and_assoc]
    simp only [ne_eq, Option.some.injEq, eq_comm]
  change c ∈ (placed n p (detachPrev (cachedChild cfg p name s) p t)).children q ↔ _
  rw [placed_children, ← second]
  by_cases same : q = p
  · subst same
    simp
  · simp [same]

theorem movedTree_coherent
    (b : Balanced s held) (posn : 0 < held n) (livep : s.live p = true) (coh : Coherent cfg C s)
    (kept : vfs_name_mangle cfg.namelen name = s.name n) (fs : s.fs p = s.fs n)
    (place : s.parent p ≠ none) (parent : s.parent n = some src) (other : p ≠ src)
    (mem : n ∈ s.children src) (childless : ∀ c ∈ cachedChild cfg p name s, s.children c = [])
    (relocated : Relocated C C' (s.fs p) (s.fs_node n) (s.fs_node p)
      (vfs_name_mangle cfg.namelen name)) :
    Coherent cfg C' (movedTree cfg n p src name store s) := by
  have live := held_live b posn
  have livesrc := (b.parent n src live parent).1
  have members : ∀ {q c : Addr}, s.live q = true →
      (c ∈ (movedTree cfg n p src name store s).children q ↔ (q = p ∧ c = n) ∨
        (c ∈ s.children q ∧ c ≠ n ∧ cachedChild cfg p name s ≠ some c)) :=
    fun liveq => mem_movedTree cfg b posn livep livesrc mem other name store liveq
  have parents : ∀ m, (movedTree cfg n p src name store s).parent m = if m = n then some p
      else if cachedChild cfg p name s = some m then none else s.parent m :=
    movedTree_parent cfg src name store
  -- The tables and the fields that the move changes are `members` and `parents`.
  obtain ⟨lives,fss,nodes,names⟩ := movedTree_fields cfg n p src name store s
  generalize movedTree cfg n p src name store s = t at members parents lives fss nodes names ⊢
  constructor
  case entry =>
    intro q c liveq memc
    rw [lives] at liveq
    rw [fss, nodes, names]
    rcases (members liveq).mp memc with ⟨here,self⟩ | ⟨old,differ,present⟩
    · rw [here, self, ← kept]
      exact ⟨relocated.here,fs.symm⟩
    obtain ⟨entry,fsc⟩ := coh.entry q c liveq old
    obtain ⟨livec,parentc⟩ := b.child q c liveq old
    refine ⟨?_,fsc⟩
    rw [relocated.elsewhere]
    · exact entry
    · rintro ⟨samefs,samenode,key⟩
      have self : q = p := coh.unique q p liveq livep (coherent_linked coh liveq old) place
        samefs samenode
      rw [self] at old
      cases found : cachedChild cfg p name s with
      | none =>
        have absent := List.find?_eq_none.mp found c old
        simp [key] at absent
      | some d =>
        have same := coherent_names b coh livep old (cachedChild_mem found)
          (key.trans (cachedChild_name found).symm)
        exact present (same ▸ found)
    · rintro ⟨samefs,target⟩
      rw [entry, Option.some.injEq] at target
      exact differ (coh.unique c n livec live (by simp [parentc]) (by simp [parent])
        (fsc.trans (samefs.trans fs)) target)
  case leaf =>
    intro q liveq orphan
    rw [lives] at liveq
    rw [parents] at orphan
    have notn : q ≠ n := by
      intro same
      simp [same] at orphan
    rw [if_neg notn] at orphan
    have childless_q : s.children q = [] := by
      by_cases found : cachedChild cfg p name s = some q
      · exact childless q found
      · rw [if_neg found] at orphan
        exact coh.leaf q liveq orphan
    have notp : q ≠ p := by
      intro same
      by_cases found : cachedChild cfg p name s = some q
      · have self := cachedChild_mem found
        rw [← same, childless_q] at self
        cases self
      · rw [if_neg found, same] at orphan
        exact place orphan
    refine List.eq_nil_iff_forall_not_mem.mpr ?_
    intro c memc
    rcases (members liveq).mp memc with ⟨same,_⟩ | ⟨old,_⟩
    · exact notp same
    · rw [childless_q] at old
      cases old
  case unique =>
    intro q r liveq liver parentq parentr samefs node
    rw [lives] at liveq liver
    rw [fss] at samefs
    rw [nodes] at node
    have linked : ∀ m, t.parent m ≠ none → s.parent m ≠ none := by
      intro m placed orphan
      rw [parents] at placed
      by_cases same : m = n
      · rw [same, parent] at orphan
        cases orphan
      · rw [if_neg same, orphan] at placed
        simp at placed
    exact coh.unique q r liveq liver (linked q parentq) (linked r parentr) samefs node
  case rooted =>
    intro m livem self absent
    rw [lives] at livem
    rw [fss, nodes]
    rw [parents] at self
    have notn : m ≠ n := by
      intro same
      rw [if_pos same, Option.some.injEq] at self
      exact absent ((members livem).mpr (.inl ⟨self.symm,same⟩))
    rw [if_neg notn] at self
    by_cases found : cachedChild cfg p name s = some m
    · simp [found] at self
    · rw [if_neg found] at self
      exact coh.rooted m livem self fun old =>
        absent ((members livem).mpr (.inr ⟨old,notn,found⟩))

theorem move_cached (faithful : Faithful cfg view) (b : Balanced s held) (posn : 0 < held n)
    (posp : 0 < held p) (cached : Cached cfg view s)
    (domain : ∀ move store, (cfg.fs (s.fs p)).ops.move = some move →
      move (s.fs_node n) (s.fs_node p) name s.store = .ok (.ok (), store) →
      vfs_name_mangle cfg.namelen name = s.name n ∧
      ∀ g, view.content s.store (s.fs p) (s.fs_node p) (vfs_name_mangle cfg.namelen name) = some g →
      ∀ k, view.content s.store (s.fs p) g k = none)
    (way : MoveEnd cfg n p name s (.ok (r, s'))) :
    Cached cfg view s' := by
  have coh := cached.coherent
  have livep := held_live b posp
  cases way with
  | refused e => exact cached
  | failed move e store src s1 op parent asked dropped =>
    have unseen := faithful.move_failed op cached.good asked
    have ask : Cached cfg view (askingMove cfg p src name store s) :=
      cached_of_unseen rfl ⟨coh.entry,coh.leaf,coh.unique,coh.rooted⟩ unseen
    have done := droppedPrev_cached faithful
      (cached_setLocked (cached_setLocked ask src false) p false) dropped
    exact cached_lose done src
  | moved move store src s1 op samefs place parent other mem asked dropped =>
    obtain ⟨good,relocated⟩ := faithful.move_done op cached.good asked
    obtain ⟨kept,empty⟩ := domain move store op asked
    have childless : ∀ c ∈ cachedChild cfg p name s, s.children c = [] := by
      intro c found
      obtain ⟨entry,fsc⟩ := cachedChild_entry cached livep found
      have livec := (b.child p c livep (cachedChild_mem found)).1
      exact childless_of_empty cached livec fun k => fsc ▸ empty _ entry k
    have tree : Cached cfg view (movedTree cfg n p src name store s) :=
      ⟨good,movedTree_coherent b posn livep coh kept samefs place parent other mem
        childless relocated⟩
    have done := droppedPrev_cached faithful
      (cached_setLocked (cached_setLocked tree src false) p false) dropped
    exact cached_lose done src

end
end MutekVfsCache
