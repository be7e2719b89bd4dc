import MutekH.VfsLedger

/-!
What each call on the VFS nodes can do. For every call one relation lists the ways it
ends, with the state it leaves; the call is shown to end in one of them, with every
reference accounted for in the ledger.
-/
namespace MutekVfsCalls
open Function MutekVfs MutekVfsLedger

section
variable {Φ F : Type} {s : Vfs Φ F} {held : Addr → Nat} {n p : Addr}

def Unlocked (s : Vfs Φ F) : Prop := ∀ m, s.dir_locked m = false

theorem dirlock_ok (unlocked : Unlocked s) (m : Addr) :
    vfs_node_dirlock m s = .ok (setLocked m true s) := by
  rw [vfs_node_dirlock, if_neg (by simp [unlocked m])]

def cachedChild (cfg : Config Φ F) (p : Addr) (name : Name) (s : Vfs Φ F) : Option Addr :=
  (s.children p).find? (fun c => s.name c = vfs_name_mangle cfg.namelen name)

variable {cfg : Config Φ F} {c : Addr}

theorem cachedChild_mem (found : cachedChild cfg p name s = some c) : c ∈ s.children p :=
  List.mem_of_find?_eq_some found

theorem cachedChild_name
    (found : cachedChild cfg p name s = some c) : s.name c = vfs_name_mangle cfg.namelen name := by
  simpa using List.find?_some found

/- A node that is perhaps there: the `prev_node` of a link or a move, the `node` of an unlink. -/

def bumpPrev (prev : Option Addr) (s : Vfs Φ F) : Vfs Φ F :=
  { s with refcnt := prev.elim s.refcnt (fun c => (bump c s).refcnt) }

def detachPrev (prev : Option Addr) (p : Addr) (s : Vfs Φ F) : Vfs Φ F :=
  { s with
    refcnt := prev.elim s.refcnt (fun c => (detached c p s).refcnt)
    parent := prev.elim s.parent (fun c => (detached c p s).parent)
    children := prev.elim s.children (fun c => (detached c p s).children)
    lru_list := prev.elim s.lru_list (fun c => (detached c p s).lru_list) }

def gainPrev (prev : Option Addr) (held : Addr → Nat) : Addr → Nat := prev.elim held (gain held)

def DroppedPrev (cfg : Config Φ F) (prev : Option Addr) (s s' : Vfs Φ F) : Prop :=
  prev.elim (s' = s) (fun c => Dropped cfg c s s')

variable {prev : Option Addr}

theorem gainPrev_pos (pos : 0 < held m) : 0 < gainPrev prev held m := by
  cases prev with
  | none => exact pos
  | some c => exact gain_pos pos

theorem mangled_lookup_ok (cfg : Config Φ F) (b : Balanced s held) (livep : s.live p = true)
    (name : Name) :
    vfs_dir_mangled_lookup cfg p name s =
        .ok (cachedChild cfg p name s, bumpPrev (cachedChild cfg p name s) s) ∧
      Balanced (bumpPrev (cachedChild cfg p name s) s)
        (gainPrev (cachedChild cfg p name s) held) := by
  cases found : cachedChild cfg p name s with
  | none =>
    refine ⟨?_,b⟩
    rw [cachedChild] at found
    rw [vfs_dir_mangled_lookup, vfs_dir_lookup, found]
    rfl
  | some c =>
    have live := (b.child p c livep (cachedChild_mem found)).1
    refine ⟨?_,balanced_bump b live⟩
    rw [cachedChild] at found
    rw [vfs_dir_mangled_lookup, vfs_dir_lookup, found]
    change (vfs_node_refnew c s >>= _) = _
    rw [refnew_ok live]
    rfl

theorem unset_prev_ok (cfg : Config Φ F) (b : Balanced s (gainPrev prev held))
    (pos : 0 < held p) (mem : ∀ c ∈ prev, c ∈ s.children p) :
    vfs_node_unset_prev cfg prev s = .ok (detachPrev prev p s) ∧
      Balanced (detachPrev prev p s) (gainPrev prev held) := by
  cases prev with
  | none => exact ⟨rfl,b⟩
  | some c => ?_
  have livep := held_live b (gain_pos pos)
  have memc := mem c rfl
  exact ⟨unset_ok cfg b livep memc gain_self_pos (gain_pos pos),
    balanced_detached b livep memc gain_self_pos (gain_pos pos)⟩

variable {s' : Vfs Φ F}

theorem dropped_locks (dropped : Dropped cfg n s s') : s'.dir_locked = s.dir_locked := by
  cases dropped with
  | kept more | destroyed last dandling childless => rfl

theorem cached_root (b : Balanced s held) (livep : s.live p = true)
    (mem : ∀ c ∈ prev, c ∈ s.children p) : ∀ c ∈ prev, s.parent c = some c → Tabled s c := by
  intro c some _
  exact ⟨p,(b.child p c livep (mem c some)).2,mem c some⟩

theorem unlocked_relock (unlocked : Unlocked s)
    (locks : ∀ m, s'.dir_locked m = true → (setLocked p true s).dir_locked m = true) :
    Unlocked (vfs_node_dirunlock p s') := by
  intro m
  by_cases same : m = p
  · simp [vfs_node_dirunlock, setLocked, same]
  · have old := locks m
    simp only [setLocked, update_of_ne same, unlocked m, vfs_node_dirunlock] at old ⊢
    simpa using old

/-- The call ends as `way` says, and if it returns it leaves a balanced state with no lock taken. -/
structure Ends {α : Type} (way : Except Fault (α × Vfs Φ F) → Prop) (ledger : α → Addr → Nat)
    (result : Except Fault (α × Vfs Φ F)) : Prop where
  way : way result
  balanced : ∀ r s', result = .ok (r, s') → Balanced s' (ledger r)
  unlocked : ∀ r s', result = .ok (r, s') → Unlocked s'

theorem ends_ok {α : Type} {way : Except Fault (α × Vfs Φ F) → Prop} {ledger : α → Addr → Nat}
    {r : α} (so : way (.ok (r, s))) (b : Balanced s (ledger r)) (unlocked : Unlocked s) :
    Ends way ledger (.ok (r, s)) := by
  refine ⟨so,?_,?_⟩
  · intro r' s' eq
    cases eq
    exact b
  · intro r' s' eq
    cases eq
    exact unlocked

theorem ends_error {α : Type} {way : Except Fault (α × Vfs Φ F) → Prop} {ledger : α → Addr → Nat}
    {e : Fault} (so : way (.error e)) : Ends way ledger (.error e) := by
  refine ⟨so,?_,?_⟩
  · intro r' s' eq
    cases eq
  · intro r' s' eq
    cases eq

theorem ends_bind {α β : Type} {way : Except Fault (α × Vfs Φ F) → Prop} {ledger : α → Addr → Nat}
    {x : Except Fault β} {v : β} {rest : β → Except Fault (α × Vfs Φ F)} (eq : x = .ok v)
    (ends : Ends way ledger (rest v)) : Ends way ledger (x >>= rest) := by
  rw [eq]
  exact ends

theorem refdrop_prev_ok (cfg : Config Φ F) {ledger ledger' : Addr → Nat} (b : Balanced s ledger)
    (unlocked : Unlocked s) (back : ∀ c ∈ prev, 0 < ledger c ∧ spend ledger c = ledger')
    (same : prev = none → ledger = ledger') (root : ∀ c ∈ prev, s.parent c = some c → Tabled s c) :
    ∃ s', vfs_node_refdrop_prev cfg prev s = .ok s' ∧ DroppedPrev cfg prev s s' ∧
      Balanced s' ledger' ∧ Unlocked s' := by
  cases prev with
  | none => exact ⟨s,rfl,rfl,same rfl ▸ b,unlocked⟩
  | some c => ?_
  obtain ⟨pos,spent⟩ := back c rfl
  obtain ⟨s',eq,dropped,balanced⟩ := refdrop_ok cfg b pos (root c rfl)
  refine ⟨s',eq,dropped,spent ▸ balanced,?_⟩
  intro m
  rw [dropped_locks dropped]
  exact unlocked m

theorem finish_ok {α : Type} (cfg : Config Φ F) {ledger : Addr → Nat}
    {way : Except Fault (α × Vfs Φ F) → Prop} {after : α → Addr → Nat} {r : α}
    (b : Balanced s ledger) (unlocked : Unlocked s)
    (back : ∀ c ∈ prev, 0 < ledger c ∧ spend ledger c = after r)
    (same : prev = none → ledger = after r) (root : ∀ c ∈ prev, s.parent c = some c → Tabled s c)
    (so : ∀ s', DroppedPrev cfg prev s s' → way (.ok (r, s'))) :
    Ends way after (vfs_node_refdrop_prev cfg prev s >>= fun s' => .ok (r, s')) := by
  obtain ⟨s',eq,dropped,balanced,free⟩ := refdrop_prev_ok cfg b unlocked back same root
  exact ends_bind eq (ends_ok (so s' dropped) balanced free)

/- Lookup. -/

inductive LookupEnd (cfg : Config Φ F) (p : Addr) (name : Name) (mem : Option Addr) (s : Vfs Φ F) :
    Except Fault (Except Error Addr × Vfs Φ F) → Prop where
  | dandling (orphan : s.parent p = none) : LookupEnd cfg p name mem s (.ok (.error .EINVAL, s))
  | hit (c : Addr) (linked : s.parent p ≠ none) (found : cachedChild cfg p name s = some c) :
      LookupEnd cfg p name mem s (.ok (.ok c, bump c s))
  | fault (e : Fault) (linked : s.parent p ≠ none) (missed : cachedChild cfg p name s = none)
      (fault : (cfg.fs (s.fs p)).ops.lookup (s.fs_node p) name s.store = .error e) :
      LookupEnd cfg p name mem s (.error e)
  | failed (e : Error) (store : Φ) (linked : s.parent p ≠ none)
      (missed : cachedChild cfg p name s = none)
      (asked : (cfg.fs (s.fs p)).ops.lookup (s.fs_node p) name s.store = .ok (.error e, store)) :
      LookupEnd cfg p name mem s (.ok (.error e, setStore store s))
  | entered (f : F) (mangled : Name) (store : Φ) (r : Except Error Addr) (s' : Vfs Φ F)
      (linked : s.parent p ≠ none) (missed : cachedChild cfg p name s = none)
      (asked : (cfg.fs (s.fs p)).ops.lookup (s.fs_node p) name s.store =
        .ok (.ok (f, mangled), store))
      (entered : Entered cfg p mangled f mem (setStore store (setLocked p true s)) r s') :
      LookupEnd cfg p name mem s (.ok (r, vfs_node_dirunlock p s'))

theorem relock (free : s.dir_locked p = false) : setLocked p false (setLocked p true s) = s := by
  simp [setLocked, ← free]

variable {mem : Option Addr}

theorem lookup_ok (cfg : Config Φ F) (b : Balanced s held) (unlocked : Unlocked s)
    (pos : 0 < held p) (name : Name) (free : ∀ a ∈ mem, s.live a = false) :
    Ends (LookupEnd cfg p name mem s) (handOut held) (vfs_node_lookup cfg p name mem s) := by
  have livep := held_live b pos
  by_cases orphan : s.parent p = none
  · rw [vfs_node_lookup, if_pos orphan]
    exact ends_ok (.dandling orphan) b unlocked
  have locked := balanced_setLocked b p true
  rw [vfs_node_lookup, if_neg orphan]
  refine ends_bind (dirlock_ok unlocked p)
    (ends_bind (mangled_lookup_ok cfg locked livep name).1 ?_)
  cases found : cachedChild cfg p name s with
  | some c =>
    have found' : cachedChild cfg p name (setLocked p true s) = some c := found
    have form : vfs_node_dirunlock p (bump c (setLocked p true s)) = bump c s :=
      congrArg (bump c) (relock (unlocked p))
    have live := (b.child p c livep (cachedChild_mem found)).1
    rw [found']
    change Ends _ _ (Except.ok (Except.ok c, vfs_node_dirunlock p (bump c (setLocked p true s))))
    rw [form]
    exact ends_ok (.hit c orphan found) (balanced_bump b live) unlocked
  | none =>
    have found' : cachedChild cfg p name (setLocked p true s) = none := found
    rw [found']
    change Ends _ _ ((cfg.fs (s.fs p)).ops.lookup (s.fs_node p) name s.store >>= _)
    cases asked : (cfg.fs (s.fs p)).ops.lookup (s.fs_node p) name s.store with
    | error e => exact ends_error (.fault e orphan found asked)
    | ok answer => ?_
    obtain ⟨answer,store⟩ := answer
    cases answer with
    | error e =>
      have form : vfs_node_dirunlock p (setStore store (setLocked p true s)) = setStore store s :=
        congrArg (setStore store) (relock (unlocked p))
      change Ends _ _
        (Except.ok (Except.error e, vfs_node_dirunlock p (setStore store (setLocked p true s))))
      rw [form]
      exact ends_ok (.failed e store orphan found asked) (balanced_setStore b store) unlocked
    | ok pair =>
      obtain ⟨f,mangled⟩ := pair
      obtain ⟨r,s',entereq,entered,balanced,locks⟩ :=
        enter_ok cfg (balanced_setStore locked store) pos mangled f free
      refine ends_bind rfl (ends_bind entereq ?_)
      exact ends_ok (.entered f mangled store r s' orphan found asked entered)
        (balanced_setLocked balanced p false) (unlocked_relock unlocked locks)

/- Create. -/

inductive CreateEnd (cfg : Config Φ F) (i : FsId) (type : NodeType) (mem : Option Addr)
    (s : Vfs Φ F) :
    Except Fault (Except Error Addr × Vfs Φ F) → Prop where
  | refused (e : Error) : CreateEnd cfg i type mem s (.ok (.error e, s))
  | fault (create : NodeType → FsCall Φ F) (e : Fault) (op : (cfg.fs i).ops.create = some create)
      (asked : create type s.store = .error e) : CreateEnd cfg i type mem s (.error e)
  | failed (create : NodeType → FsCall Φ F) (e : Error) (store : Φ)
      (op : (cfg.fs i).ops.create = some create)
      (asked : create type s.store = .ok (.error e, store)) :
      CreateEnd cfg i type mem s (.ok (.error e, setStore store s))
  | made (create : NodeType → FsCall Φ F) (f : F) (store : Φ) (node : Option Addr) (s' : Vfs Φ F)
      (op : (cfg.fs i).ops.create = some create) (asked : create type s.store = .ok (.ok f, store))
      (created : Created cfg i none f mem (setStore store s) node s') :
      CreateEnd cfg i type mem s (.ok (node.elim (.error .ENOMEM) .ok,
        setStore ((cfg.fs i).ops.node_refdrop f s'.store) s'))

theorem create_ok (cfg : Config Φ F) (b : Balanced s held) (unlocked : Unlocked s) (i : FsId)
    (type : NodeType) (free : ∀ a ∈ mem, s.live a = false) :
    Ends (CreateEnd cfg i type mem s) (handOut held) (vfs_node_create cfg i type mem s) := by
  cases op : (cfg.fs i).ops.create with rw [vfs_node_create, op]
  | none => exact ends_ok (.refused _) b unlocked
  | some create =>
    cases ro : (cfg.fs i).flag_ro with
    | true => exact ends_ok (.refused _) b unlocked
    | false => ?_
    change Ends _ _ (create type s.store >>= _)
    cases asked : create type s.store with
    | error e => exact ends_error (.fault create e op asked)
    | ok answer => ?_
    obtain ⟨answer,store⟩ := answer
    cases answer with
    | error e =>
      exact ends_ok (.failed create e store op asked) (balanced_setStore b store) unlocked
    | ok f => ?_
    obtain ⟨node,s',eq,created,balanced,_⟩ :=
      createnew_ok cfg (balanced_setStore b store) i none f free
    have unlocked' : Unlocked s' := by
      intro m
      by_contra locked
      have := created_locks created (by simpa using locked)
      rw [show (setStore store s).dir_locked m = false from unlocked m] at this
      cases this
    have way := @CreateEnd.made Φ F cfg i type mem s create f store node s' op asked created
    refine ends_bind rfl (ends_bind eq ?_)
    cases node with
    | none | some a => exact ends_ok way (balanced_setStore balanced _) unlocked'

/- Unlink. -/

def asking (cfg : Config Φ F) (p : Addr) (name : Name) (store : Φ) (s : Vfs Φ F) : Vfs Φ F :=
  setStore store (bumpPrev (cachedChild cfg p name s) (setLocked p true s))

inductive UnlinkEnd (cfg : Config Φ F) (p : Addr) (name : Name) (s : Vfs Φ F) :
    Except Fault (Except Error Unit × Vfs Φ F) → Prop where
  | refused (e : Error) : UnlinkEnd cfg p name s (.ok (.error e, s))
  | fault (unlink : F → Name → FsCall Φ Unit) (e : Fault)
      (op : (cfg.fs (s.fs p)).ops.unlink = some unlink)
      (asked : unlink (s.fs_node p) name s.store = .error e) : UnlinkEnd cfg p name s (.error e)
  | failed (unlink : F → Name → FsCall Φ Unit) (e : Error) (store : Φ) (s' : Vfs Φ F)
      (op : (cfg.fs (s.fs p)).ops.unlink = some unlink)
      (asked : unlink (s.fs_node p) name s.store = .ok (.error e, store))
      (dropped : DroppedPrev cfg (cachedChild cfg p name s)
        (vfs_node_dirunlock p (asking cfg p name store s)) s') :
      UnlinkEnd cfg p name s (.ok (.error e, s'))
  | removed (unlink : F → Name → FsCall Φ Unit) (store : Φ) (s' : Vfs Φ F)
      (op : (cfg.fs (s.fs p)).ops.unlink = some unlink)
      (asked : unlink (s.fs_node p) name s.store = .ok (.ok (), store))
      (dropped : DroppedPrev cfg (cachedChild cfg p name s) (vfs_node_dirunlock p
        (detachPrev (cachedChild cfg p name s) p (asking cfg p name store s))) s') :
      UnlinkEnd cfg p name s (.ok (.ok (), s'))

theorem back_prev (prev : Option Addr) (held : Addr → Nat) :
    (∀ c ∈ prev, 0 < gainPrev prev held c ∧ spend (gainPrev prev held) c = held) ∧
      (prev = none → gainPrev prev held = held) := by
  cases prev with
  | none => simp [gainPrev]
  | some c => ?_
  refine ⟨?_,by simp⟩
  intro d same
  cases same
  exact ⟨gain_self_pos,spend_gain held c⟩

theorem asking_balanced (cfg : Config Φ F) (b : Balanced s held) (livep : s.live p = true)
    (name : Name) (store : Φ) :
    Balanced (asking cfg p name store s) (gainPrev (cachedChild cfg p name s) held) :=
  balanced_setStore (mangled_lookup_ok cfg (balanced_setLocked b p true) livep name).2 store

theorem detachPrev_parent (some : c ∈ prev) : (detachPrev prev p s).parent c = none := by
  cases some
  simp [detachPrev, detached_parent]

theorem root_of_dandling (gone : s.parent n = none) : s.parent n = some n → Tabled s n := by
  intro parent
  rw [gone] at parent
  cases parent

theorem unlink_ok (cfg : Config Φ F) (b : Balanced s held) (unlocked : Unlocked s)
    (pos : 0 < held p) (name : Name) :
    Ends (UnlinkEnd cfg p name s) (fun _ => held) (vfs_node_unlink cfg p name s) := by
  have livep := held_live b pos
  cases op : (cfg.fs (s.fs p)).ops.unlink with rw [vfs_node_unlink, op]
  | none => exact ends_ok (.refused _) b unlocked
  | some unlink =>
    cases ro : (cfg.fs (s.fs p)).flag_ro with
    | true => exact ends_ok (.refused _) b unlocked
    | false => ?_
    obtain ⟨back,same⟩ := back_prev (cachedChild cfg p name s) held
    refine ends_bind (dirlock_ok unlocked p)
      (ends_bind (mangled_lookup_ok cfg (balanced_setLocked b p true) livep name).1 ?_)
    change Ends _ _ (unlink (s.fs_node p) name s.store >>= _)
    cases asked : unlink (s.fs_node p) name s.store with
    | error e => exact ends_error (.fault unlink e op asked)
    | ok answer => ?_
    obtain ⟨answer,store⟩ := answer
    have ask := asking_balanced cfg b livep name store
    have mem : ∀ c ∈ cachedChild cfg p name s, c ∈ (asking cfg p name store s).children p :=
      fun c found => cachedChild_mem found
    cases answer with
    | error e =>
      have balanced := balanced_setLocked ask p false
      exact finish_ok cfg balanced (unlocked_relock unlocked fun _ locked => locked) back same
        (cached_root balanced livep mem)
        fun s' dropped => .failed unlink e store s' op asked dropped
    | ok _ => ?_
    obtain ⟨uneq,removed⟩ := unset_prev_ok cfg ask pos mem
    refine ends_bind rfl (ends_bind uneq (finish_ok cfg (balanced_setLocked removed p false)
      (unlocked_relock unlocked fun _ locked => locked) back same ?_
      fun s' dropped => .removed unlink store s' op asked dropped))
    intro c found
    exact root_of_dandling (detachPrev_parent found)

/- Link. -/

inductive LinkEnd (cfg : Config Φ F) (n p : Addr) (name : Name) (mem : Option Addr) (s : Vfs Φ F) :
    Except Fault (Except Error Addr × Vfs Φ F) → Prop where
  | refused (e : Error) : LinkEnd cfg n p name mem s (.ok (.error e, s))
  | fault (link : F → F → Name → FsCall Φ (F × Name)) (e : Fault)
      (op : (cfg.fs (s.fs p)).ops.link = some link)
      (asked : link (s.fs_node n) (s.fs_node p) name s.store = .error e) :
      LinkEnd cfg n p name mem s (.error e)
  | failed (link : F → F → Name → FsCall Φ (F × Name)) (e : Error) (store : Φ) (s' : Vfs Φ F)
      (op : (cfg.fs (s.fs p)).ops.link = some link)
      (asked : link (s.fs_node n) (s.fs_node p) name s.store = .ok (.error e, store))
      (dropped : DroppedPrev cfg (cachedChild cfg p name s)
        (vfs_node_dirunlock p (asking cfg p name store s)) s') :
      LinkEnd cfg n p name mem s (.ok (.error e, s'))
  | linked (link : F → F → Name → FsCall Φ (F × Name)) (f : F) (mangled : Name) (store : Φ)
      (r : Except Error Addr) (s1 s' : Vfs Φ F) (op : (cfg.fs (s.fs p)).ops.link = some link)
      (place : s.parent p ≠ none)
      (asked : link (s.fs_node n) (s.fs_node p) name s.store = .ok (.ok (f, mangled), store))
      (entered : Entered cfg p mangled f mem
        (detachPrev (cachedChild cfg p name s) p (asking cfg p name store s)) r s1)
      (dropped : DroppedPrev cfg (cachedChild cfg p name s) (vfs_node_dirunlock p s1) s') :
      LinkEnd cfg n p name mem s (.ok (r, s'))

theorem spend_handOut (held : Addr → Nat) (c : Addr) (r : Except Error Addr) :
    spend (handOut (gain held c) r) c = handOut held r := by
  cases r with
  | error e => exact spend_gain held c
  | ok a =>
    funext m
    by_cases first : m = c <;> by_cases second : m = a <;>
      simp_all [spend, handOut, gain]

theorem handOut_pos (r : Except Error Addr) (pos : 0 < held m) : 0 < handOut held r m := by
  cases r with
  | error e => exact pos
  | ok a => exact gain_pos pos

theorem back_handOut (prev : Option Addr) (held : Addr → Nat) (r : Except Error Addr) :
    (∀ c ∈ prev, 0 < handOut (gainPrev prev held) r c ∧
      spend (handOut (gainPrev prev held) r) c = handOut held r) ∧
      (prev = none → handOut (gainPrev prev held) r = handOut held r) := by
  cases prev with
  | none => simp [gainPrev]
  | some c => ?_
  refine ⟨?_,by simp⟩
  intro d same
  cases same
  exact ⟨handOut_pos r gain_self_pos,spend_handOut held c r⟩

section
variable (b : Balanced s held)
include b

theorem recycled_unheld (livep : s.live p = true)
    (mem : c ∈ s.children p) (last : s.refcnt c = 1) : held c = 0 := by
  obtain ⟨live,parent⟩ := b.child p c livep mem
  have count := b.count c live
  rw [tableRefs_of_tabled ⟨p,parent,mem⟩] at count
  omega

theorem cleared_parent (cleared : Cleared cfg i s storage s') (pos : 0 < held m) :
    s'.parent m = s.parent m := by
  cases cleared with
  | kept l => rfl
  | recycled c q rest livep mem last childless => ?_
  have unheld := recycled_unheld b livep mem last
  change (detached c q (bump c (setLocked q true (bump q (setLru i rest s))))).parent m = _
  rw [detached_parent, if_neg (by rintro rfl; omega)]
  rfl

theorem cleared_unheld (cleared : Cleared cfg i s storage s') (dead : s'.live a = false) :
    held a = 0 := by
  cases cleared with
  | kept l => exact (b.dead a dead).1
  | recycled c q rest livep mem last childless => ?_
  by_cases same : a = c
  · rw [same]
    exact recycled_unheld b livep mem last
  · have dead : update s.live c false a = false := dead
    rw [update_of_ne same] at dead
    exact (b.dead a dead).1

theorem entered_parent
    (entered : Entered cfg p name f mem s r s') (pos : 0 < held m) : s'.parent m = s.parent m := by
  cases entered with
  | full s1 cleared empty =>
    have same := cleared_parent b cleared pos
    exact same
  | made a storage s1 cleared fine dead => ?_
  have unheld := cleared_unheld b cleared dead
  have other : m ≠ a := by
    rintro rfl
    omega
  rw [← cleared_parent b cleared pos]
  change (placed a p _).parent m = _
  rw [placed_parent, if_neg other]
  exact update_of_ne other _ _

end

theorem link_ok (cfg : Config Φ F) (b : Balanced s held) (unlocked : Unlocked s)
    (pos : 0 < held p) (n : Addr) (name : Name) (free : ∀ a ∈ mem, s.live a = false) :
    Ends (LinkEnd cfg n p name mem s) (handOut held) (vfs_node_link cfg n p name mem s) := by
  have livep := held_live b pos
  cases op : (cfg.fs (s.fs p)).ops.link with rw [vfs_node_link, op]
  | none => exact ends_ok (.refused _) b unlocked
  | some link =>
    change Ends _ _ (if s.fs p ≠ s.fs n then _ else _)
    by_cases other : s.fs p ≠ s.fs n
    · rw [if_pos other]
      exact ends_ok (.refused _) b unlocked
    by_cases orphan : s.parent p = none
    · rw [if_neg other, if_pos orphan]
      exact ends_ok (.refused _) b unlocked
    cases ro : (cfg.fs (s.fs p)).flag_ro with rw [if_neg other, if_neg orphan]
    | true => exact ends_ok (.refused _) b unlocked
    | false =>
      refine ends_bind (dirlock_ok unlocked p)
        (ends_bind (mangled_lookup_ok cfg (balanced_setLocked b p true) livep name).1 ?_)
      change Ends _ _ (link (s.fs_node n) (s.fs_node p) name s.store >>= _)
      cases asked : link (s.fs_node n) (s.fs_node p) name s.store with
      | error e => exact ends_error (.fault link e op asked)
      | ok answer => ?_
      obtain ⟨answer,store⟩ := answer
      have ask := asking_balanced cfg b livep name store
      have memc : ∀ c ∈ cachedChild cfg p name s, c ∈ (asking cfg p name store s).children p :=
        fun c found => cachedChild_mem found
      cases answer with
      | error e =>
        have balanced := balanced_setLocked ask p false
        obtain ⟨back,same⟩ := back_prev (cachedChild cfg p name s) held
        exact finish_ok cfg balanced (unlocked_relock unlocked fun _ locked => locked) back same
          (cached_root balanced livep memc)
          fun s' dropped => .failed link e store s' op asked dropped
      | ok pair =>
        obtain ⟨f,mangled⟩ := pair
        obtain ⟨uneq,removed⟩ := unset_prev_ok cfg ask pos memc
        obtain ⟨r,s1,entereq,entered,balanced,locks⟩ :=
          enter_ok cfg removed (gainPrev_pos pos) mangled f free
        obtain ⟨back,same⟩ := back_handOut (cachedChild cfg p name s) held r
        refine ends_bind rfl (ends_bind uneq (ends_bind entereq (finish_ok cfg
          (balanced_setLocked balanced p false) (unlocked_relock unlocked locks) back same ?_
          fun s' dropped =>
            .linked link f mangled store r s1 s' op orphan asked entered dropped)))
        intro c found
        have kept := entered_parent removed entered
          ((back_prev (cachedChild cfg p name s) held).1 c found).1
        exact root_of_dandling (kept.trans (detachPrev_parent found))

/- Move. -/

def lock2 (p src : Addr) (s : Vfs Φ F) : Vfs Φ F := setLocked src true (setLocked p true s)

def unlock2 (p src : Addr) (s : Vfs Φ F) : Vfs Φ F := setLocked p false (setLocked src false s)

variable {src : Addr}

theorem dirlock2_ok (unlocked : Unlocked s) (other : p ≠ src) :
    vfs_node_2dirlock p src s = .ok (lock2 p src s) := by
  have second : ∀ d e : Addr, d ≠ e →
      vfs_node_dirlock e (setLocked d true s) = .ok (setLocked e true (setLocked d true s)) := by
    intro d e differ
    have free : (setLocked d true s).dir_locked e = false := by
      simpa [setLocked, differ.symm] using unlocked e
    rw [vfs_node_dirlock, if_neg (by simp [free])]
  rw [vfs_node_2dirlock]
  split
  · rw [dirlock_ok unlocked]
    exact second p src other
  · rw [dirlock_ok unlocked]
    change vfs_node_dirlock p (setLocked src true s) = _
    rw [second src p other.symm]
    simp [lock2, setLocked, update_comm other]

/-- A semaphore that is taken twice is waited for without end. -/
theorem dirlock2_same (unlocked : Unlocked s) : vfs_node_2dirlock p p s = .error .hang := by
  rw [vfs_node_2dirlock, if_neg (Nat.lt_irrefl p), dirlock_ok unlocked]
  change vfs_node_dirlock p (setLocked p true s) = _
  rw [vfs_node_dirlock, if_pos (by simp [setLocked])]

theorem dirunlock2_eq (p src : Addr) (s : Vfs Φ F) :
    vfs_node_2dirunlock p src s = unlock2 p src s := by
  rw [vfs_node_2dirunlock]
  split
  · rfl
  · by_cases same : p = src
    · subst same
      rfl
    · simp [unlock2, vfs_node_dirunlock, setLocked, update_comm same]

def askingMove (cfg : Config Φ F) (p src : Addr) (name : Name) (store : Φ) (s : Vfs Φ F) :
    Vfs Φ F :=
  setStore store (bumpPrev (cachedChild cfg p name s) (lock2 p src (bump src s)))

inductive MoveEnd (cfg : Config Φ F) (n p : Addr) (name : Name) (s : Vfs Φ F) :
    Except Fault (Except Error Unit × Vfs Φ F) → Prop where
  | refused (e : Error) : MoveEnd cfg n p name s (.ok (.error e, s))
  | hang (same : s.parent n = some p) : MoveEnd cfg n p name s (.error .hang)
  | fault (move : F → F → Name → FsCall Φ Unit) (e : Fault)
      (op : (cfg.fs (s.fs p)).ops.move = some move)
      (asked : move (s.fs_node n) (s.fs_node p) name s.store = .error e) :
      MoveEnd cfg n p name s (.error e)
  | failed (move : F → F → Name → FsCall Φ Unit) (e : Error) (store : Φ) (src : Addr) (s' : Vfs Φ F)
      (op : (cfg.fs (s.fs p)).ops.move = some move) (parent : s.parent n = some src)
      (asked : move (s.fs_node n) (s.fs_node p) name s.store = .ok (.error e, store))
      (dropped : DroppedPrev cfg (cachedChild cfg p name s)
        (unlock2 p src (askingMove cfg p src name store s)) s') :
      MoveEnd cfg n p name s (.ok (.error e, lose src s'))
  | root (move : F → F → Name → FsCall Φ Unit) (store : Φ)
      (op : (cfg.fs (s.fs p)).ops.move = some move) (parent : s.parent n = some n)
      (asked : move (s.fs_node n) (s.fs_node p) name s.store = .ok (.ok (), store)) :
      MoveEnd cfg n p name s (.error .undefined)
  | moved (move : F → F → Name → FsCall Φ Unit) (store : Φ) (src : Addr) (s' : Vfs Φ F)
      (op : (cfg.fs (s.fs p)).ops.move = some move) (samefs : s.fs p = s.fs n)
      (place : s.parent p ≠ none) (parent : s.parent n = some src) (other : p ≠ src)
        (mem : n ∈ s.children src)
      (asked : move (s.fs_node n) (s.fs_node p) name s.store = .ok (.ok (), store))
      (dropped : DroppedPrev cfg (cachedChild cfg p name s) (unlock2 p src (attached n p
        (detachPrev (cachedChild cfg p name s) p
          (detached n src (askingMove cfg p src name store s))))) s') :
      MoveEnd cfg n p name s (.ok (.ok (), lose src s'))

theorem unlocked_relock2 (unlocked : Unlocked s)
    (locks : s'.dir_locked = (lock2 p src s).dir_locked) : Unlocked (unlock2 p src s') := by
  intro m
  change update (update s'.dir_locked src false) p false m = false
  rw [locks]
  by_cases first : m = p
  · rw [first, update_self]
  · rw [update_of_ne first]
    by_cases second : m = src
    · rw [second, update_self]
    · rw [update_of_ne second]
      simpa [lock2, setLocked, first, second] using unlocked m

theorem finish_move_ok (cfg : Config Φ F)
    {way : Except Fault (Except Error Unit × Vfs Φ F) → Prop} {r : Except Error Unit}
    (b : Balanced s (gainPrev prev (gain held src))) (unlocked : Unlocked s)
    (root : ∀ c ∈ prev, s.parent c = some c → Tabled s c)
    (so : ∀ s', DroppedPrev cfg prev s s' → way (.ok (r, lose src s'))) :
    Ends way (fun _ => held)
      (vfs_node_refdrop_prev cfg prev s >>= fun s' => .ok (r, lose src s')) := by
  obtain ⟨back,same⟩ := back_prev prev (gain held src)
  obtain ⟨s',eq,dropped,balanced,free⟩ := refdrop_prev_ok cfg b unlocked back same root
  have pos : 0 < gain held src src := gain_self_pos
  have lost := balanced_lose balanced pos
  rw [spend_gain] at lost
  exact ends_bind eq (ends_ok (so s' dropped) lost free)

theorem cachedChild_ne (b : Balanced s held) (livep : s.live p = true)
    (parent : s.parent n = some src) (other : p ≠ src) (mem : c ∈ s.children p) : c ≠ n := by
  rintro rfl
  have := (b.child p c livep mem).2
  rw [parent, Option.some.injEq] at this
  exact other this.symm

theorem askingMove_balanced (cfg : Config Φ F) (b : Balanced s held) (livep : s.live p = true)
    (live : s.live src = true) (name : Name) (store : Φ) :
    Balanced (askingMove cfg p src name store s)
      (gainPrev (cachedChild cfg p name s) (gain held src)) := by
  have locked := balanced_setLocked (balanced_setLocked (balanced_bump b live) p true) src true
  exact balanced_setStore (mangled_lookup_ok cfg locked livep name).2 store

theorem move_tree_ok (cfg : Config Φ F) (b : Balanced s (gainPrev prev held)) (posn : 0 < held n)
    (posp : 0 < held p) (possrc : 0 < held src) (mem : n ∈ s.children src) (other : p ≠ src)
    (memc : ∀ c ∈ prev, c ∈ s.children p) :
    (vfs_node_parent_nolock_unset cfg n s = .ok (detached n src s) ∧
      vfs_node_unset_prev cfg prev (detached n src s) = .ok (detachPrev prev p (detached n src s)) ∧
      vfs_node_parent_nolock_set n p (detachPrev prev p (detached n src s)) =
        .ok (attached n p (detachPrev prev p (detached n src s)))) ∧
      Balanced (attached n p (detachPrev prev p (detached n src s))) (gainPrev prev held) ∧
      ∀ c ∈ prev, (attached n p (detachPrev prev p (detached n src s))).parent c = none := by
  have livesrc := held_live b (gainPrev_pos possrc)
  have livep := held_live b (gainPrev_pos posp)
  have live := held_live b (gainPrev_pos posn)
  have parent := (b.child src n livesrc mem).2
  have posn' : 0 < gainPrev prev held n := gainPrev_pos posn
  have possrc' : 0 < gainPrev prev held src := gainPrev_pos possrc
  have removed := balanced_detached b livesrc mem posn' possrc'
  have memc' : ∀ c ∈ prev, c ∈ (detached n src s).children p := by
    intro c found
    rw [detached_children, if_neg other]
    exact memc c found
  obtain ⟨uneq,cleared⟩ := unset_prev_ok cfg removed posp memc'
  have dandling : (detachPrev prev p (detached n src s)).parent n = none := by
    have first : (detached n src s).parent n = none := by simp [detached_parent]
    cases prev with
    | none => exact first
    | some c => ?_
    change (detached c p (detached n src s)).parent n = none
    rw [detached_parent]
    split
    case isTrue => rfl
    case isFalse => exact first
  have set := set_ok (s := detachPrev prev p (detached n src s)) live livep dandling
  refine ⟨⟨unset_ok cfg b livesrc mem posn' possrc',uneq,set⟩,
    balanced_attached cleared live livep dandling,?_⟩
  intro c found
  change (placed n p (detachPrev prev p (detached n src s))).parent c = none
  rw [placed_parent, if_neg (cachedChild_ne b livep parent other (memc c found))]
  exact detachPrev_parent found

theorem unset_root (cfg : Config Φ F) (parent : s.parent n = some src)
    (absent : n ∉ s.children src) :
    vfs_node_parent_nolock_unset cfg n s = .error .undefined := by
  rw [vfs_node_parent_nolock_unset, parent]
  change (vfs_dir_remove cfg src n s >>= _) = _
  rw [vfs_dir_remove, if_neg absent]
  rfl

theorem move_ok (cfg : Config Φ F) (b : Balanced s held) (unlocked : Unlocked s)
    (posn : 0 < held n) (posp : 0 < held p) (name : Name) :
    Ends (MoveEnd cfg n p name s) (fun _ => held) (vfs_node_move cfg n p name s) := by
  have livep := held_live b posp
  have live := held_live b posn
  cases op : (cfg.fs (s.fs p)).ops.move with rw [vfs_node_move, op]
  | none => exact ends_ok (.refused _) b unlocked
  | some move =>
    change Ends _ _ (if s.fs p ≠ s.fs n then _ else _)
    by_cases differ : s.fs p ≠ s.fs n
    · rw [if_pos differ]
      exact ends_ok (.refused _) b unlocked
    by_cases orphan : s.parent p = none
    · rw [if_neg differ, if_pos orphan]
      exact ends_ok (.refused _) b unlocked
    cases ro : (cfg.fs (s.fs p)).flag_ro with rw [if_neg differ, if_neg orphan]
    | true => exact ends_ok (.refused _) b unlocked
    | false =>
      cases parent : s.parent n with
      | none =>
        refine ends_bind (v := (none, s)) ?_ (ends_ok (.refused _) b unlocked)
        rw [vfs_node_get_parent, parent]
      | some src => ?_
      obtain ⟨livesrc,place⟩ := b.parent n src live parent
      refine ends_bind (v := (some src, bump src s)) ?_ ?_
      · rw [vfs_node_get_parent, parent]
        exact congrArg (· >>= _) (refnew_ok livesrc)
      change Ends _ _ (vfs_node_2dirlock p src (bump src s) >>= _)
      by_cases other : p = src
      · subst other
        rw [dirlock2_same (s := bump p s) unlocked]
        exact ends_error (.hang parent)
      have locked := balanced_setLocked
        (balanced_setLocked (balanced_bump b livesrc) p true) src true
      refine ends_bind (dirlock2_ok (s := bump src s) unlocked other)
        (ends_bind (mangled_lookup_ok cfg locked livep name).1 ?_)
      change Ends _ _ (move (s.fs_node n) (s.fs_node p) name s.store >>= _)
      cases asked : move (s.fs_node n) (s.fs_node p) name s.store with
      | error e => exact ends_error (.fault move e op asked)
      | ok answer => ?_
      obtain ⟨answer,store⟩ := answer
      have ask := askingMove_balanced cfg b livep livesrc name store
      have memc : ∀ c ∈ cachedChild cfg p name s,
          c ∈ (askingMove cfg p src name store s).children p :=
        fun c found => cachedChild_mem found
      cases answer with
      | error e =>
        have balanced := balanced_setLocked (balanced_setLocked ask src false) p false
        change Ends _ _ (vfs_node_refdrop_prev cfg (cachedChild cfg p name s)
          (vfs_node_2dirunlock p src (askingMove cfg p src name store s)) >>= _)
        rw [dirunlock2_eq]
        exact finish_move_ok cfg balanced (unlocked_relock2 unlocked rfl)
          (cached_root balanced livep memc)
          fun s' dropped => .failed move e store src s' op parent asked dropped
      | ok _ =>
        change Ends _ _ (vfs_node_parent_nolock_unset cfg n
          (askingMove cfg p src name store s) >>= _)
        by_cases mem : n ∈ s.children src
        case neg =>
          have self : src = n := place.resolve_left mem
          rw [unset_root cfg (s := askingMove cfg p src name store s) parent mem]
          exact ends_error (.root move store op (self ▸ parent) asked)
        obtain ⟨⟨uneq,preveq,seteq⟩,balanced,gone⟩ := move_tree_ok cfg ask (gain_pos posn)
          (gain_pos posp) gain_self_pos mem other memc
        refine ends_bind uneq (ends_bind preveq (ends_bind seteq ?_))
        rw [dirunlock2_eq]
        refine finish_move_ok cfg
          (balanced_setLocked (balanced_setLocked balanced src false) p false)
          (unlocked_relock2 unlocked rfl) ?_
          fun s' dropped => .moved move store src s' op
            (Classical.byContradiction differ) orphan parent
            other mem asked dropped
        intro c found
        exact root_of_dandling (gone c found)

end
end MutekVfsCalls
