import MutekH.VfsRefcount

/-!
The tables of the VFS nodes as a cache of the directories of a file system. A file
system is seen through the content of its directories, entry by entry; what it owes the
cache is in `Faithful`. `Coherent` relates the tables to a content.
-/
namespace MutekVfsCoherence
open MutekVfs MutekVfsLedger MutekVfsCalls

section
variable {Φ F : Type}

abbrev Content (F : Type) := FsId → F → Name → Option F

structure Changed (old new : Content F) (i : FsId) (d : F) (name : Name) (target : Option F) :
    Prop where
  here : new i d name = target
  elsewhere : ∀ j e k, ¬ (j = i ∧ e = d ∧ k = name) → new j e k = old j e k

/-- The entry of `f` is taken from where it was to another place, and no other changes. -/
structure Relocated (old new : Content F) (i : FsId) (f d : F) (name : Name) : Prop where
  here : new i d name = some f
  left : ∀ e k, ¬ (e = d ∧ k = name) → old i e k = some f → new i e k = none
  elsewhere : ∀ j e k, ¬ (j = i ∧ e = d ∧ k = name) → ¬ (j = i ∧ old j e k = some f) →
    new j e k = old j e k

structure View (Φ F : Type) where
  good : Φ → Prop
  content : Φ → Content F

def Unseen (view : View Φ F) (φ φ' : Φ) : Prop :=
  view.good φ' ∧ view.content φ' = view.content φ

/-- What a file system owes the cache: a node of it is the target of at most one entry, and
    the root of none; an operation changes the entry it names and no other; and names
    that are mangled alike are the same name. -/
structure Faithful (cfg : Config Φ F) (view : View Φ F) : Prop where
  injective : ∀ {φ i d e m k f}, view.good φ → view.content φ i d m = some f →
    view.content φ i e k = some f → d = e ∧ m = k
  root : ∀ {φ i d m}, view.good φ → view.content φ i d m ≠ some (cfg.fs i).root
  refnew : ∀ {φ} i f, view.good φ → Unseen view φ ((cfg.fs i).ops.node_refnew f φ)
  refdrop : ∀ {φ} i f, view.good φ → Unseen view φ ((cfg.fs i).ops.node_refdrop f φ)
  lookup_found : ∀ {φ φ' i d name f mangled}, view.good φ →
    (cfg.fs i).ops.lookup d name φ = .ok (.ok (f, mangled), φ') → Unseen view φ φ' ∧
      view.content φ i d (vfs_name_mangle cfg.namelen name) = some f ∧
      mangled = vfs_name_mangle cfg.namelen name
  lookup_failed : ∀ {φ φ' i d name e}, view.good φ →
    (cfg.fs i).ops.lookup d name φ = .ok (.error e, φ') → Unseen view φ φ' ∧
      view.content φ i d (vfs_name_mangle cfg.namelen name) = none
  create : ∀ {φ φ' i create type r}, (cfg.fs i).ops.create = some create → view.good φ →
    create type φ = .ok (r, φ') → Unseen view φ φ'
  link_done : ∀ {φ φ' i link n d name f mangled}, (cfg.fs i).ops.link = some link → view.good φ →
    link n d name φ = .ok (.ok (f, mangled), φ') → view.good φ' ∧
      mangled = vfs_name_mangle cfg.namelen name ∧
      Changed (view.content φ) (view.content φ') i d mangled (some f)
  link_failed : ∀ {φ φ' i link n d name e}, (cfg.fs i).ops.link = some link → view.good φ →
    link n d name φ = .ok (.error e, φ') → Unseen view φ φ'
  move_done : ∀ {φ φ' i move n d name}, (cfg.fs i).ops.move = some move → view.good φ →
    move n d name φ = .ok (.ok (), φ') → view.good φ' ∧
      Relocated (view.content φ) (view.content φ') i n d (vfs_name_mangle cfg.namelen name)
  move_failed : ∀ {φ φ' i move n d name e}, (cfg.fs i).ops.move = some move → view.good φ →
    move n d name φ = .ok (.error e, φ') → Unseen view φ φ'
  unlink_done : ∀ {φ φ' i unlink d name}, (cfg.fs i).ops.unlink = some unlink → view.good φ →
    unlink d name φ = .ok (.ok (), φ') → view.good φ' ∧
      Changed (view.content φ) (view.content φ') i d (vfs_name_mangle cfg.namelen name) none ∧
      ∀ f, view.content φ i d (vfs_name_mangle cfg.namelen name) = some f →
        ∀ k, view.content φ i f k = none
  unlink_failed : ∀ {φ φ' i unlink d name e}, (cfg.fs i).ops.unlink = some unlink → view.good φ →
    unlink d name φ = .ok (.error e, φ') → Unseen view φ φ'

structure Coherent (cfg : Config Φ F) (C : Content F) (s : Vfs Φ F) : Prop where
  entry : ∀ p c, s.live p = true → c ∈ s.children p →
    C (s.fs p) (s.fs_node p) (s.name c) = some (s.fs_node c) ∧ s.fs c = s.fs p
  leaf : ∀ p, s.live p = true → s.parent p = none → s.children p = []
  unique : ∀ p q, s.live p = true → s.live q = true → s.parent p ≠ none → s.parent q ≠ none →
    s.fs p = s.fs q → s.fs_node p = s.fs_node q → p = q
  rooted : ∀ m, s.live m = true → s.parent m = some m → m ∉ s.children m →
    s.fs_node m = (cfg.fs (s.fs m)).root

variable {cfg : Config Φ F} {C C' : Content F} {s : Vfs Φ F} {held : Addr → Nat} {n p : Addr}

section
variable (coh : Coherent cfg C s)
include coh

theorem coherent_linked (live : s.live p = true) (mem : n ∈ s.children p) : s.parent p ≠ none := by
  intro orphan
  rw [coh.leaf p live orphan] at mem
  cases mem

omit coh in
theorem coherent_names (b : Balanced s held) (coh : Coherent cfg C s) (live : s.live p = true)
    (memc : c ∈ s.children p) (memd : d ∈ s.children p) (same : s.name c = s.name d) :
    c = d := by
  obtain ⟨livec,parentc⟩ := b.child p c live memc
  obtain ⟨lived,parentd⟩ := b.child p d live memd
  obtain ⟨entryc,fsc⟩ := coh.entry p c live memc
  obtain ⟨entryd,fsd⟩ := coh.entry p d live memd
  rw [same, entryd, Option.some.injEq] at entryc
  exact coh.unique c d livec lived (by simp [parentc]) (by simp [parentd]) (fsc.trans fsd.symm)
    entryc.symm

theorem coherent_changed (changed : Changed C C' i d name target)
    (absent : ∀ q c, s.live q = true → c ∈ s.children q → s.fs q = i → s.fs_node q = d →
      s.name c ≠ name) : Coherent cfg C' s where
  entry q c live mem := by
    obtain ⟨entry,fs⟩ := coh.entry q c live mem
    refine ⟨?_,fs⟩
    rw [changed.elsewhere]
    · exact entry
    · rintro ⟨same,node,key⟩
      exact absent q c live mem same node key
  leaf := coh.leaf
  unique := coh.unique
  rooted := coh.rooted

theorem coherent_detached (childless : s.children n = []) : Coherent cfg C (detached n p s) where
  entry q c live mem := by
    rw [detached_children] at mem
    split at mem
    case isTrue same => exact coh.entry q c live (same ▸ List.mem_of_mem_erase mem)
    case isFalse => exact coh.entry q c live mem
  leaf q live orphan := by
    rw [detached_parent] at orphan
    have empty : s.children q = [] := by
      by_cases same : q = n
      · rw [same]
        exact childless
      · rw [if_neg same] at orphan
        exact coh.leaf q live orphan
    rw [detached_children]
    split
    case isTrue same =>
      rw [← same, empty]
      rfl
    case isFalse => exact empty
  unique q r liveq liver parentq parentr := by
    rw [detached_parent] at parentq parentr
    refine coh.unique q r liveq liver ?_ ?_
    · intro orphan
      simp [orphan] at parentq
    · intro orphan
      simp [orphan] at parentr
  rooted m live parent mem := by
    rw [detached_parent] at parent
    by_cases gone : m = n
    · simp [gone] at parent
    rw [if_neg gone] at parent
    refine coh.rooted m live parent ?_
    intro old
    rw [detached_children] at mem
    split at mem
    case isTrue same => exact mem ((List.mem_erase_of_ne gone).mpr (same ▸ old))
    case isFalse => exact mem old

theorem coherent_destroy (m : Addr) : Coherent cfg C (vfs_node_destroy cfg m s) := by
  have older : ∀ q, (vfs_node_destroy cfg m s).live q = true → s.live q = true := by
    intro q live
    by_cases same : q = m
    · simp [vfs_node_destroy, same] at live
    · simpa [vfs_node_destroy, same] using live
  exact ⟨fun q c live mem => coh.entry q c (older q live) mem,
    fun q live orphan => coh.leaf q (older q live) orphan,
    fun q r live live' => coh.unique q r (older q live) (older r live'),
    fun q live => coh.rooted q (older q live)⟩

theorem coherent_dropped (dropped : Dropped cfg n s s') : Coherent cfg C s' := by
  cases dropped with
  | kept more => exact ⟨coh.entry,coh.leaf,coh.unique,coh.rooted⟩
  | destroyed last dandling childless =>
    have kept : Coherent cfg C (unbump n s) := ⟨coh.entry,coh.leaf,coh.unique,coh.rooted⟩
    exact coherent_destroy kept n

theorem coherent_cleared (cleared : Cleared cfg i s storage s') : Coherent cfg C s' := by
  cases cleared with
  | kept l => exact ⟨coh.entry,coh.leaf,coh.unique,coh.rooted⟩
  | recycled m q rest livep mem last childless => ?_
  have taken : Coherent cfg C (bump m (setLocked q true (bump q (setLru i rest s)))) :=
    ⟨coh.entry,coh.leaf,coh.unique,coh.rooted⟩
  have removed : Coherent cfg C
      (detached m q (bump m (setLocked q true (bump q (setLru i rest s))))) :=
    coherent_detached taken childless
  have dropped : Coherent cfg C (unbump m (vfs_node_dirunlock q
      (detached m q (bump m (setLocked q true (bump q (setLru i rest s))))))) :=
    ⟨removed.entry,removed.leaf,removed.unique,removed.rooted⟩
  have gone := coherent_destroy dropped m
  exact ⟨gone.entry,gone.leaf,gone.unique,gone.rooted⟩

attribute [local simp] vfs_node_construct

omit coh in
theorem coherent_construct (b : Balanced s held) (coh : Coherent cfg C s)
    (dead : s.live a = false) (i : FsId) (name : Option Name) (f : F) :
    Coherent cfg C (vfs_node_construct cfg a i name f s) := by
  have older : ∀ q, (vfs_node_construct cfg a i name f s).live q = true → q ≠ a →
      s.live q = true := by
    intro q live other
    simpa [other] using live
  have linked : ∀ q, (vfs_node_construct cfg a i name f s).parent q ≠ none → q ≠ a := by
    intro q parent same
    simp [same] at parent
  constructor
  case entry =>
    intro q c live mem
    have other : q ≠ a := by
      intro same
      simp [same] at mem
    have mem : c ∈ s.children q := by simpa [other] using mem
    have liveq := older q live other
    have otherc : c ≠ a := by
      intro same
      have livec := (b.child q c liveq mem).1
      rw [same, dead] at livec
      cases livec
    simpa [other, otherc] using coh.entry q c liveq mem
  case leaf =>
    intro q live orphan
    by_cases same : q = a
    · simp [same]
    · have old := coh.leaf q (older q live same) (by simpa [same] using orphan)
      simpa [same] using old
  case unique =>
    intro q r live live' parent parent' fs node
    have other := linked q parent
    have other' := linked r parent'
    refine coh.unique q r (older q live other) (older r live' other') ?_ ?_ ?_ ?_
    · simpa [other] using parent
    · simpa [other'] using parent'
    · simpa [other, other'] using fs
    · simpa [other, other'] using node
  case rooted =>
    intro m live parent mem
    have other : m ≠ a := linked m (by rw [parent]; simp)
    have old := coh.rooted m (older m live other) (by simpa [other] using parent)
      (by simpa [other] using mem)
    simpa [other] using old

theorem coherent_attached (linked : s.parent p ≠ none) (fs : s.fs a = s.fs p)
    (entry : C (s.fs p) (s.fs_node p) (s.name a) = some (s.fs_node a))
    (fresh : ∀ m, s.live m = true → s.parent m ≠ none → s.fs m = s.fs p →
      s.fs_node m ≠ s.fs_node a) :
    Coherent cfg C (attached a p s) := by
  have shape : ∀ m, (attached a p s).parent m = if m = a then some p else s.parent m :=
    fun m => placed_parent a p m s
  have table : ∀ m, (attached a p s).children m = if m = p then a :: s.children p
      else s.children m :=
    fun m => placed_children a p m s
  constructor
  case entry =>
    intro q c live mem
    rw [table] at mem
    split at mem
    case isFalse => exact coh.entry q c live mem
    case isTrue same =>
      subst same
      rcases List.mem_cons.mp mem with new | old
      · rw [new]
        exact ⟨entry,fs⟩
      · exact coh.entry q c live old
  case leaf =>
    intro q live orphan
    rw [shape] at orphan
    by_cases new : q = a
    · simp [new] at orphan
    rw [if_neg new] at orphan
    have other : q ≠ p := by
      intro same
      exact linked (same ▸ orphan)
    rw [table, if_neg other]
    exact coh.leaf q live orphan
  case unique =>
    intro q r live live' parent parent' same node
    rw [shape] at parent parent'
    by_cases first : q = a <;> by_cases second : r = a
    · rw [first, second]
    · rw [if_neg second] at parent'
      rw [first] at same node
      exact absurd node.symm (fresh r live' parent' (same.symm.trans fs))
    · rw [if_neg first] at parent
      rw [second] at same node
      exact absurd node (fresh q live parent (same.trans fs))
    · rw [if_neg first] at parent
      rw [if_neg second] at parent'
      exact coh.unique q r live live' parent parent' same node
  case rooted =>
    intro m live parent mem
    rw [shape] at parent
    rw [table] at mem
    by_cases new : m = a
    · rw [if_pos new, Option.some.injEq] at parent
      rw [if_pos parent.symm, new] at mem
      exact absurd List.mem_cons_self mem
    rw [if_neg new] at parent
    refine coh.rooted m live parent ?_
    intro old
    split at mem
    case isTrue same => exact mem (.tail a (same ▸ old))
    case isFalse => exact mem old

end

theorem no_node_of_missing (faithful : Faithful cfg view)
    (good : view.good φ) (b : Balanced s held) (coh : Coherent cfg (view.content φ) s)
    (livep : s.live p = true) (linked : s.parent p ≠ none)
    (entry : view.content φ (s.fs p) (s.fs_node p) name = some f)
    (missing : ∀ c ∈ s.children p, s.name c ≠ name) :
    ∀ m, s.live m = true → s.parent m ≠ none → s.fs m = s.fs p → s.fs_node m ≠ f := by
  intro m live parent fs node
  cases place : s.parent m with
  | none => exact parent place
  | some q => ?_
  obtain ⟨liveq,mem⟩ := b.parent m q live place
  by_cases tabled : m ∈ s.children q
  · obtain ⟨entryq,fsq⟩ := coh.entry q m liveq tabled
    rw [← fsq, fs, node] at entryq
    obtain ⟨same,key⟩ := faithful.injective good entryq entry
    have self : q = p := coh.unique q p liveq livep (coherent_linked coh liveq tabled) linked
      (fsq.symm.trans fs) same
    exact missing m (self ▸ tabled) key
  have self : q = m := mem.resolve_left tabled
  rw [self] at place tabled
  have root := coh.rooted m live place tabled
  rw [fs] at root
  rw [← node, root] at entry
  exact faithful.root good entry

end
end MutekVfsCoherence
