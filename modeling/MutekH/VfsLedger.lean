import MutekH.Vfs

/-!
References on the VFS nodes. A ledger `held` says how many references on each node are
owned outside the tree: by callers, and within a call by its local variables. Every
primitive is given the state and the ledger it leaves.
-/
namespace MutekVfsLedger
open Function List LibMachine MutekVfs

section
variable {Φ F : Type}

def Tabled (s : Vfs Φ F) (n : Addr) : Prop := ∃ p ∈ s.parent n, n ∈ s.children p

instance (s : Vfs Φ F) (n : Addr) : Decidable (Tabled s n) :=
  inferInstanceAs (Decidable (∃ p ∈ s.parent n, n ∈ s.children p))

def tableRefs (s : Vfs Φ F) (n : Addr) : Nat := if Tabled s n then 1 else 0

structure Balanced (s : Vfs Φ F) (held : Addr → Nat) : Prop where
  count : ∀ n, s.live n = true →
    s.refcnt n = held n + tableRefs s n + (s.children n).length + s.lost n
  alive : ∀ n, s.live n = true → 0 < s.refcnt n
  dead : ∀ n, s.live n = false → held n = 0 ∧ s.lost n = 0
  child : ∀ p c, s.live p = true → c ∈ s.children p → s.live c = true ∧ s.parent c = some p
  nodup : ∀ p, s.live p = true → (s.children p).Nodup
  parent : ∀ c p, s.live c = true → s.parent c = some p →
    s.live p = true ∧ (c ∈ s.children p ∨ p = c)
  lru : ∀ i, (s.lru_list i).Nodup
  cached : ∀ i n, n ∈ s.lru_list i → s.live n = true ∧ s.fs n = i ∧ Tabled s n

variable {s : Vfs Φ F} {held : Addr → Nat} {n p : Addr}

variable {m : Addr}

theorem gain_pos (pos : 0 < held m) : 0 < gain held n m := by
  unfold gain
  by_cases same : m = n
  · rw [same, update_self]
    omega
  · rwa [update_of_ne same]

theorem gain_self_pos : 0 < gain held n n := by
  rw [gain, update_self]
  omega

theorem spend_gain (held : Addr → Nat) (n : Addr) : spend (gain held n) n = held := by
  simp [spend, gain]

theorem held_live (b : Balanced s held) (pos : 0 < held n) : s.live n = true := by
  by_contra dead
  have := (b.dead n (by simpa using dead)).1
  omega

theorem tableRefs_of_tabled (tabled : Tabled s n) : tableRefs s n = 1 := if_pos tabled

theorem tableRefs_of_not (not : ¬ Tabled s n) : tableRefs s n = 0 := if_neg not

theorem not_tabled_of_dandling (dandling : s.parent n = none) : ¬ Tabled s n := by
  rintro ⟨p,parent,_⟩
  rw [dandling] at parent
  cases parent

/- The ledger and the primitives. -/

theorem balanced_setStore (b : Balanced s held) (store : Φ) : Balanced (setStore store s) held :=
  ⟨b.count, b.alive, b.dead, b.child, b.nodup, b.parent, b.lru, b.cached⟩

theorem balanced_setLocked (b : Balanced s held) (m : Addr) (locked : Bool) :
    Balanced (setLocked m locked s) held :=
  ⟨b.count, b.alive, b.dead, b.child, b.nodup, b.parent, b.lru, b.cached⟩

variable {i : FsId}

theorem balanced_setLru (b : Balanced s held) (nodup : l.Nodup)
    (cached : ∀ m ∈ l, s.live m = true ∧ s.fs m = i ∧ Tabled s m) :
    Balanced (setLru i l s) held where
  count := b.count
  alive := b.alive
  dead := b.dead
  child := b.child
  nodup := b.nodup
  parent := b.parent
  lru j := by
    by_cases same : j = i
    · subst same
      simpa [setLru] using nodup
    · simpa [setLru, same] using b.lru j
  cached j m mem := by
    by_cases same : j = i
    · subst same
      exact cached m (by simpa [setLru] using mem)
    · exact b.cached j m (by simpa [setLru, same] using mem)

/-- Two states that differ in counts, locks and file system contents only. -/
structure SameTree (s s' : Vfs Φ F) : Prop where
  live : s'.live = s.live
  parent : s'.parent = s.parent
  children : s'.children = s.children
  fs : s'.fs = s.fs
  lru_list : s'.lru_list = s.lru_list

variable {s' : Vfs Φ F}

theorem sameTree_tabled (tree : SameTree s s') (m : Addr) : Tabled s' m ↔ Tabled s m := by
  simp [Tabled, tree.parent, tree.children]

attribute [local simp] unbump

theorem sameTree_tableRefs (tree : SameTree s s') (m : Addr) : tableRefs s' m = tableRefs s m := by
  simp [tableRefs, sameTree_tabled tree]

section
variable (b : Balanced s held)
include b

theorem balanced_recount (tree : SameTree s s')
    (moved : ∀ m, s'.refcnt m + (held m + s.lost m) = s.refcnt m + (held' m + s'.lost m))
    (alive : ∀ m, s.live m = true → 0 < s'.refcnt m)
    (dead : ∀ m, s.live m = false → held' m = 0 ∧ s'.lost m = 0) : Balanced s' held' where
  count m live := by
    rw [tree.live] at live
    have old := b.count m live
    have change := moved m
    rw [sameTree_tableRefs tree, tree.children]
    omega
  alive m live := alive m (by rwa [tree.live] at live)
  dead m gone := dead m (by rwa [tree.live] at gone)
  child q c live mem := by
    rw [tree.live] at live
    rw [tree.children] at mem
    rw [tree.live, tree.parent]
    exact b.child q c live mem
  nodup q live := by
    rw [tree.live] at live
    rw [tree.children]
    exact b.nodup q live
  parent c q live parent := by
    rw [tree.live] at live
    rw [tree.parent] at parent
    rw [tree.live, tree.children]
    exact b.parent c q live parent
  lru i := by
    rw [tree.lru_list]
    exact b.lru i
  cached i m mem := by
    rw [tree.lru_list] at mem
    rw [tree.live, tree.fs, sameTree_tabled tree]
    exact b.cached i m mem

theorem balanced_bump (live : s.live n = true) : Balanced (bump n s) (gain held n) := by
  refine balanced_recount b ⟨rfl,rfl,rfl,rfl,rfl⟩ ?_ ?_ ?_
  · intro m
    by_cases same : m = n
    · subst same
      simp only [bump, gain, update_self]
      omega
    · simp [bump, gain, same]
  · intro m live'
    have old := b.alive m live'
    by_cases same : m = n
    · simp [bump, same]
    · simpa [bump, same] using old
  · intro m dead
    have other : m ≠ n := by
      intro same
      rw [same, live] at dead
      cases dead
    simpa [bump, gain, other] using b.dead m dead

theorem spend_dead (pos : 0 < held n) (dead : s.live m = false) :
    m ≠ n ∧ spend held n m = 0 ∧ s.lost m = 0 := by
  have none := b.dead m dead
  have other : m ≠ n := by
    intro same
    rw [same] at none
    omega
  exact ⟨other,by simpa [spend, other] using none⟩

theorem balanced_unbump (pos : 0 < held n) (more : 1 < s.refcnt n) :
    Balanced (unbump n s) (spend held n) := by
  refine balanced_recount b ⟨rfl,rfl,rfl,rfl,rfl⟩ ?_ ?_ ?_
  · intro m
    by_cases same : m = n
    · subst same
      simp only [unbump, spend, update_self]
      omega
    · simp [spend, same]
  · intro m live'
    have old := b.alive m live'
    by_cases same : m = n
    · subst same
      simp only [unbump, update_self]
      omega
    · simpa [same] using old
  · intro m dead
    exact (spend_dead b pos dead).2

theorem balanced_lose (pos : 0 < held n) : Balanced (lose n s) (spend held n) := by
  refine balanced_recount b ⟨rfl,rfl,rfl,rfl,rfl⟩ ?_ b.alive ?_
  · intro m
    by_cases same : m = n
    · subst same
      simp only [lose, spend, update_self]
      omega
    · simp [lose, spend, same]
  · intro m dead
    obtain ⟨other,spent,lost⟩ := spend_dead b pos dead
    exact ⟨spent,by simpa [lose, other] using lost⟩

theorem last_alone (pos : 0 < held n) (last : s.refcnt n = 1) :
    held n = 1 ∧ ¬ Tabled s n ∧ s.children n = [] ∧ s.lost n = 0 := by
  have count := b.count n (held_live b pos)
  have untabled : ¬ Tabled s n := by
    intro tabled
    rw [tableRefs_of_tabled tabled] at count
    omega
  exact ⟨by omega,untabled,length_eq_zero_iff.mp (by omega),by omega⟩

end

attribute [local simp] vfs_node_destroy

theorem balanced_destroy (cfg : Config Φ F) (b : Balanced s held) (pos : 0 < held n)
    (last : s.refcnt n = 1) (dandling : s.parent n = none) :
    Balanced (vfs_node_destroy cfg n (unbump n s)) (spend held n) := by
  obtain ⟨one,untabled,childless,kept⟩ := last_alone b pos last
  have live_iff : ∀ m, (vfs_node_destroy cfg n (unbump n s)).live m = true →
      m ≠ n ∧ s.live m = true := by
    intro m live
    by_cases same : m = n
    · subst same
      simp at live
    · exact ⟨same,by simpa [same] using live⟩
  have not_parent : ∀ c, s.live c = true → s.parent c ≠ some n := by
    intro c live parent
    rcases (b.parent c n live parent).2 with mem | same
    · simp [childless] at mem
    · rw [← same, dandling] at parent
      cases parent
  constructor
  case count =>
    intro m live
    obtain ⟨other,live⟩ := live_iff m live
    have old := b.count m live
    simpa [spend, other, tableRefs, Tabled] using old
  case alive =>
    intro m live
    obtain ⟨other,live⟩ := live_iff m live
    simpa [other] using b.alive m live
  case dead =>
    intro m dead
    by_cases same : m = n
    · subst same
      simp [spend, one, kept]
    · simpa [spend, same] using
        b.dead m (by simpa [same] using dead)
  case child =>
    intro q c live mem
    obtain ⟨_,live⟩ := live_iff q live
    obtain ⟨livec,parent⟩ := b.child q c live mem
    have other : c ≠ n := by
      intro same
      rw [same, dandling] at parent
      cases parent
    exact ⟨by simpa [other] using livec,parent⟩
  case nodup =>
    intro q live
    exact b.nodup q (live_iff q live).2
  case parent =>
    intro c q live parent
    obtain ⟨_,live⟩ := live_iff c live
    obtain ⟨liveq,place⟩ := b.parent c q live parent
    have other : q ≠ n := by
      intro same
      exact not_parent c live (same ▸ parent)
    exact ⟨by simpa [other] using liveq,place⟩
  case lru =>
    intro i
    by_cases same : i = s.fs n
    · subst same
      simpa using (b.lru (s.fs n)).erase n
    · simpa [same] using b.lru i
  case cached =>
    intro i m mem
    have old : m ∈ s.lru_list i := by
      by_cases same : i = s.fs n
      · subst same
        exact mem_of_mem_erase (by simpa using mem)
      · simpa [same] using mem
    obtain ⟨live,fs,tabled⟩ := b.cached i m old
    have other : m ≠ n := by
      intro same
      exact untabled (same ▸ tabled)
    exact ⟨by simpa [other] using live,fs,tabled⟩

attribute [local simp] vfs_node_construct

theorem balanced_construct (cfg : Config Φ F) (b : Balanced s held)
    (dead : s.live a = false) (i : FsId) (name : Option Name) (f : F) :
    Balanced (vfs_node_construct cfg a i name f s) (gain held a) := by
  have nothing := b.dead a dead
  have not_live : ∀ m, s.live m = true → m ≠ a := by
    intro m live same
    rw [same, dead] at live
    cases live
  have tabled_iff : ∀ m, m ≠ a → (∀ q ∈ s.parent m, q ≠ a) →
      (Tabled (vfs_node_construct cfg a i name f s) m ↔ Tabled s m) := by
    intro m other parents
    simp only [Tabled, vfs_node_construct, update_of_ne other]
    constructor
    · rintro ⟨q,parent,mem⟩
      exact ⟨q,parent,by simpa [parents q parent] using mem⟩
    · rintro ⟨q,parent,mem⟩
      exact ⟨q,parent,by simpa [parents q parent] using mem⟩
  have parents : ∀ m, s.live m = true → ∀ q ∈ s.parent m, q ≠ a := by
    intro m live q parent
    exact not_live q (b.parent m q live parent).1
  have live_cases : ∀ m, (vfs_node_construct cfg a i name f s).live m = true →
      m ≠ a → s.live m = true := by
    intro m live other
    simpa [other] using live
  constructor
  case count =>
    intro m live
    by_cases same : m = a
    · subst same
      have untabled : ¬ Tabled (vfs_node_construct cfg m i name f s) m :=
        not_tabled_of_dandling (by simp)
      rw [tableRefs_of_not untabled]
      simp [gain, nothing]
    · have old := live_cases m live same
      have refs : tableRefs (vfs_node_construct cfg a i name f s) m = tableRefs s m := by
        simp only [tableRefs, tabled_iff m same (parents m old)]
      rw [refs]
      simpa [gain, same] using b.count m old
  case alive =>
    intro m live
    by_cases same : m = a
    · simp [same]
    · simpa [same] using b.alive m (live_cases m live same)
  case dead =>
    intro m gone
    have other : m ≠ a := by
      intro same
      simp [same] at gone
    simpa [gain, other] using
      b.dead m (by simpa [other] using gone)
  case child =>
    intro q c live mem
    by_cases same : q = a
    · simp [same] at mem
    · obtain ⟨livec,parent⟩ :=
        b.child q c (live_cases q live same) (by simpa [same] using mem)
      have other := not_live c livec
      exact ⟨by simpa [other] using livec,
        by simpa [other] using parent⟩
  case nodup =>
    intro q live
    by_cases same : q = a
    · simp [same]
    · simpa [same] using b.nodup q (live_cases q live same)
  case parent =>
    intro c q live parent
    by_cases same : c = a
    · simp [same] at parent
    have livec := live_cases c live same
    have parent : s.parent c = some q := by simpa [same] using parent
    obtain ⟨liveq,place⟩ := b.parent c q livec parent
    have other := not_live q liveq
    exact ⟨by simpa [other] using liveq,
      by simpa [other] using place⟩
  case lru => exact b.lru
  case cached =>
    intro j m mem
    obtain ⟨live,fs,tabled⟩ := b.cached j m mem
    have other := not_live m live
    refine ⟨by simpa [other] using live,
      by simpa [other] using fs,?_⟩
    exact (tabled_iff m other (parents m live)).mpr tabled

def placed (n p : Addr) (s : Vfs Φ F) : Vfs Φ F :=
  setChildren p (n :: s.children p) (bump n (setParent n (some p) (bump p s)))

def attached (n p : Addr) (s : Vfs Φ F) : Vfs Φ F := vfs_node_lru_rehash n (placed n p s)

def detached (n p : Addr) (s : Vfs Φ F) : Vfs Φ F :=
  vfs_node_lru_drop n (unbump p (setParent n none (unbump n
    (setChildren p ((s.children p).erase n) s))))

attribute [local simp] setChildren

theorem placed_refcnt (n p m : Addr) (s : Vfs Φ F) : (placed n p s).refcnt m =
      s.refcnt m + (if m = n then 1 else 0) + (if m = p then 1 else 0) := by
  by_cases first : m = n <;> by_cases second : m = p <;>
    simp_all [placed, bump, setParent]

theorem placed_children (n p m : Addr) (s : Vfs Φ F) :
    (placed n p s).children m = if m = p then n :: s.children p else s.children m := by
  simp [placed, bump, setParent, update_apply]

theorem placed_parent (n p m : Addr) (s : Vfs Φ F) :
    (placed n p s).parent m = if m = n then some p else s.parent m := by
  simp [placed, bump, setParent, update_apply]

attribute [local simp] vfs_node_lru_drop

theorem detached_refcnt (n p m : Addr) (s : Vfs Φ F) : (detached n p s).refcnt m =
      s.refcnt m - (if m = n then 1 else 0) - (if m = p then 1 else 0) := by
  by_cases first : m = n <;> by_cases second : m = p <;>
    simp_all [detached, setLru, setParent]

theorem detached_children (n p m : Addr) (s : Vfs Φ F) :
    (detached n p s).children m = if m = p then (s.children p).erase n else s.children m := by
  simp [detached, setLru, setParent, update_apply]

theorem detached_parent (n p m : Addr) (s : Vfs Φ F) :
    (detached n p s).parent m = if m = n then none else s.parent m := by
  simp [detached, setLru, setParent, update_apply]

theorem tabled_congr {s s' : Vfs Φ F} (parent : s'.parent m = s.parent m)
    (children : ∀ q, m ∈ s'.children q ↔ m ∈ s.children q) : Tabled s' m ↔ Tabled s m := by
  simp [Tabled, parent, children]

theorem placed_tabled (n p m : Addr) (other : m ≠ n) (s : Vfs Φ F) :
    Tabled (placed n p s) m ↔ Tabled s m := by
  refine tabled_congr (by rw [placed_parent, if_neg other]) fun q => ?_
  rw [placed_children]
  split <;> simp [*]

theorem placed_tabled_self (n p : Addr) (s : Vfs Φ F) : Tabled (placed n p s) n := by
  refine ⟨p,by simp [placed_parent],?_⟩
  simp [placed_children]

theorem detached_tabled (n p m : Addr) (other : m ≠ n) (s : Vfs Φ F) :
    Tabled (detached n p s) m ↔ Tabled s m := by
  refine tabled_congr (by rw [detached_parent, if_neg other]) fun q => ?_
  rw [detached_children]
  split <;> simp [*]

theorem mem_rehash {l : List Addr} {key : Addr → Nat} :
    m ∈ (l.erase n).orderedInsert (fun a b => key a ≤ key b) n ↔ m = n ∨ m ∈ l := by
  by_cases same : m = n
  · simp [same]
  · simp [same]

theorem nodup_rehash {l : List Addr} {key : Addr → Nat} (nodup : l.Nodup) :
    ((l.erase n).orderedInsert (fun a b => key a ≤ key b) n).Nodup := by
  have perm := perm_orderedInsert (fun a b => key a ≤ key b) n (l.erase n)
  refine perm.nodup_iff.mpr ?_
  exact nodup_cons.mpr ⟨nodup.not_mem_erase,nodup.erase n⟩

section
variable (b : Balanced s held) (live : s.live n = true)
include b live

theorem balanced_rehash (tabled : Tabled s n) : Balanced (vfs_node_lru_rehash n s) held := by
  refine balanced_setLru b (nodup_rehash (b.lru _)) ?_
  intro m mem
  rcases mem_rehash.mp mem with same | old
  · rw [same]
    exact ⟨live,rfl,tabled⟩
  · exact b.cached _ m old

theorem balanced_placed (livep : s.live p = true) (dandling : s.parent n = none) :
    Balanced (placed n p s) held := by
  have untabled : ¬ Tabled s n := not_tabled_of_dandling dandling
  have absent : ∀ q, s.live q = true → n ∉ s.children q := by
    intro q liveq mem
    rw [(b.child q n liveq mem).2] at dandling
    cases dandling
  constructor
  case count =>
    intro m livem
    have old := b.count m livem
    have refs : tableRefs (placed n p s) m = tableRefs s m + (if m = n then 1 else 0) := by
      by_cases same : m = n
      · subst same
        rw [tableRefs_of_tabled (placed_tabled_self m p s), tableRefs_of_not untabled, if_pos rfl]
      · simp [tableRefs, placed_tabled n p m same, if_neg same]
    rw [placed_refcnt, placed_children]
    change _ = held m + _ + _ + s.lost m
    by_cases same : m = p
    · subst same
      simp only [↓reduceIte, length_cons]
      omega
    · simp only [if_neg same]
      omega
  case alive =>
    intro m livem
    have old := b.alive m livem
    rw [placed_refcnt]
    omega
  case dead => exact b.dead
  case child =>
    intro q c liveq mem
    rw [placed_children] at mem
    rw [placed_parent]
    by_cases new : c = n
    · subst new
      by_cases same : q = p
      · exact ⟨live,by rw [if_pos rfl, same]⟩
      · rw [if_neg same] at mem
        exact absurd mem (absent q liveq)
    rw [if_neg new]
    refine b.child q c liveq ?_
    by_cases same : q = p
    · subst same
      simpa [new] using mem
    · rwa [if_neg same] at mem
  case nodup =>
    intro q liveq
    rw [placed_children]
    split
    case isTrue => exact nodup_cons.mpr ⟨absent p livep,b.nodup p livep⟩
    case isFalse => exact b.nodup q liveq
  case parent =>
    intro c q livec parent
    rw [placed_parent] at parent
    rw [placed_children]
    by_cases new : c = n
    · subst new
      simp only [↓reduceIte, Option.some.injEq] at parent
      subst parent
      exact ⟨livep,.inl (by simp)⟩
    rw [if_neg new] at parent
    obtain ⟨liveq,place⟩ := b.parent c q livec parent
    refine ⟨liveq,place.imp ?_ id⟩
    intro mem
    split
    case isTrue same => exact .tail n (same ▸ mem)
    case isFalse => exact mem
  case lru => exact b.lru
  case cached =>
    intro i m mem
    obtain ⟨livem,fs,tabled⟩ := b.cached i m mem
    have other : m ≠ n := by
      intro same
      exact untabled (same ▸ tabled)
    exact ⟨livem,fs,(placed_tabled n p m other s).mpr tabled⟩

theorem balanced_attached (livep : s.live p = true) (dandling : s.parent n = none) :
    Balanced (attached n p s) held :=
  balanced_rehash (balanced_placed b live livep dandling) live (placed_tabled_self n p s)

end

theorem balanced_detached (b : Balanced s held) (livep : s.live p = true) (mem : n ∈ s.children p)
    (posn : 0 < held n) (posp : 0 < held p) : Balanced (detached n p s) held := by
  obtain ⟨live,parent⟩ := b.child p n livep mem
  have tabled : Tabled s n := ⟨p,parent,mem⟩
  have untabled : ¬ Tabled (detached n p s) n :=
    not_tabled_of_dandling (by simp [detached_parent])
  have some_child : 0 < (s.children p).length := length_pos_of_mem mem
  have nodup := b.nodup p livep
  constructor
  case count =>
    intro m livem
    have old := b.count m livem
    have refs : tableRefs (detached n p s) m + (if m = n then 1 else 0) = tableRefs s m := by
      by_cases same : m = n
      · subst same
        rw [tableRefs_of_tabled tabled, tableRefs_of_not untabled, if_pos rfl]
      · simp only [tableRefs, detached_tabled n p m same, if_neg same, Nat.add_zero]
    rw [detached_refcnt, detached_children]
    change _ = held m + _ + _ + s.lost m
    by_cases same : m = p
    · subst same
      simp only [↓reduceIte, length_erase_of_mem mem]
      omega
    · simp only [if_neg same]
      omega
  case alive =>
    intro m livem
    have old := b.count m livem
    have positive := b.alive m livem
    rw [detached_refcnt]
    by_cases first : m = n
    · subst first
      rw [tableRefs_of_tabled tabled] at old
      by_cases second : m = p
      · subst second
        simp only [↓reduceIte]
        omega
      · simp only [↓reduceIte, if_neg second]
        omega
    · by_cases second : m = p
      · subst second
        simp only [↓reduceIte, if_neg first]
        omega
      · simp only [if_neg first, if_neg second]
        omega
  case dead => exact b.dead
  case child =>
    intro q c liveq memc
    rw [detached_children] at memc
    rw [detached_parent]
    by_cases same : q = p
    · subst same
      rw [if_pos rfl] at memc
      have other : c ≠ n := by
        intro gone
        rw [gone] at memc
        exact nodup.not_mem_erase memc
      rw [if_neg other]
      exact b.child q c liveq (mem_of_mem_erase memc)
    rw [if_neg same] at memc
    obtain ⟨livec,parentc⟩ := b.child q c liveq memc
    have other : c ≠ n := by
      intro gone
      rw [gone, parent, Option.some.injEq] at parentc
      exact same parentc.symm
    rw [if_neg other]
    exact ⟨livec,parentc⟩
  case nodup =>
    intro q liveq
    rw [detached_children]
    split
    case isTrue => exact nodup.erase n
    case isFalse => exact b.nodup q liveq
  case parent =>
    intro c q livec parentc
    rw [detached_parent] at parentc
    rw [detached_children]
    by_cases gone : c = n
    · simp [gone] at parentc
    rw [if_neg gone] at parentc
    obtain ⟨liveq,place⟩ := b.parent c q livec parentc
    refine ⟨liveq,place.imp ?_ id⟩
    intro memc
    split
    case isTrue same => exact (mem_erase_of_ne gone).mpr (same ▸ memc)
    case isFalse => exact memc
  case lru =>
    intro i
    by_cases same : i = s.fs n
    · subst same
      simpa [detached, setLru, setParent] using
        (b.lru (s.fs n)).erase n
    · simpa [detached, setLru, setParent, same] using b.lru i
  case cached =>
    intro i m memm
    have old : m ∈ s.lru_list i ∧ m ≠ n := by
      by_cases same : i = s.fs n
      · subst same
        have memm : m ∈ (s.lru_list (s.fs n)).erase n := by
          simpa [detached, setLru, setParent] using memm
        exact (b.lru _).mem_erase_iff.mp memm |>.symm
      have memm : m ∈ s.lru_list i := by
        simpa [detached, setLru, setParent, same] using memm
      refine ⟨memm,?_⟩
      intro gone
      rw [gone] at memm
      exact same (b.cached i n memm).2.1.symm
    obtain ⟨livem,fs,tabledm⟩ := b.cached i m old.1
    exact ⟨livem,fs,(detached_tabled n p m old.2 s).mpr tabledm⟩

/- The primitives of the source. -/

theorem refnew_ok (live : s.live n = true) : vfs_node_refnew n s = .ok (bump n s) := if_pos live

theorem refdrop_keeps (cfg : Config Φ F) (live : s.live n = true) (more : 1 < s.refcnt n) :
    vfs_node_refdrop cfg n s = .ok (unbump n s) := by
  have used : ¬ (s.live n = false ∨ s.refcnt n = 0) := by simp [live]; omega
  rw [vfs_node_refdrop, if_neg used, if_neg (by omega)]

theorem refdrop_last (cfg : Config Φ F) (live : s.live n = true) (last : s.refcnt n = 1)
    (dandling : s.parent n = none) :
    vfs_node_refdrop cfg n s = .ok (vfs_node_destroy cfg n (unbump n s)) := by
  have used : ¬ (s.live n = false ∨ s.refcnt n = 0) := by simp [live, last]
  rw [vfs_node_refdrop, if_neg used, if_pos last, dandling]

inductive Dropped (cfg : Config Φ F) (n : Addr) (s : Vfs Φ F) : Vfs Φ F → Prop where
  | kept (more : 1 < s.refcnt n) : Dropped cfg n s (unbump n s)
  | destroyed (last : s.refcnt n = 1) (dandling : s.parent n = none)
      (childless : s.children n = []) :
      Dropped cfg n s (vfs_node_destroy cfg n (unbump n s))

theorem refdrop_ok (cfg : Config Φ F) (b : Balanced s held) (pos : 0 < held n)
    (root : s.parent n = some n → Tabled s n) :
    ∃ s', vfs_node_refdrop cfg n s = .ok s' ∧ Dropped cfg n s s' ∧ Balanced s' (spend held n) := by
  have live := held_live b pos
  by_cases last : s.refcnt n = 1
  · obtain ⟨_,untabled,childless,_⟩ := last_alone b pos last
    have dandling : s.parent n = none := by
      cases parent : s.parent n with
      | none => rfl
      | some q =>
        rcases (b.parent n q live parent).2 with mem | same
        · exact absurd ⟨q,parent,mem⟩ untabled
        · exact absurd (root (same ▸ parent)) untabled
    exact ⟨_,refdrop_last cfg live last dandling,.destroyed last dandling childless,
      balanced_destroy cfg b pos last dandling⟩
  · have more : 1 < s.refcnt n := by
      have := b.alive n live
      omega
    exact ⟨_,refdrop_keeps cfg live more,.kept more,balanced_unbump b pos more⟩

theorem set_ok (live : s.live n = true) (livep : s.live p = true) (dandling : s.parent n = none) :
    vfs_node_parent_nolock_set n p s = .ok (attached n p s) := by
  have live' : (setParent n (some p) (bump p s)).live n = true := live
  rw [vfs_node_parent_nolock_set, if_neg (by simp [dandling]), refnew_ok livep]
  change (vfs_dir_push p n (setParent n (some p) (bump p s)) >>= _) = _
  rw [vfs_dir_push, refnew_ok live']
  rfl

theorem unset_ok (cfg : Config Φ F) (b : Balanced s held) (livep : s.live p = true)
    (mem : n ∈ s.children p) (posn : 0 < held n) (posp : 0 < held p) :
    vfs_node_parent_nolock_unset cfg n s = .ok (detached n p s) := by
  obtain ⟨live,parent⟩ := b.child p n livep mem
  have countn := b.count n live
  have countp := b.count p livep
  rw [tableRefs_of_tabled ⟨p,parent,mem⟩] at countn
  have some_child : 0 < (s.children p).length := length_pos_of_mem mem
  have more : 1 < (setChildren p ((s.children p).erase n) s).refcnt n := by
    change 1 < s.refcnt n
    omega
  have more' : 1 < (setParent n none
      (unbump n (setChildren p ((s.children p).erase n) s))).refcnt p := by
    change 1 < update s.refcnt n (s.refcnt n - 1) p
    by_cases same : p = n
    · subst same
      rw [update_self]
      omega
    · rw [update_of_ne same]
      omega
  have live1 : (setChildren p ((s.children p).erase n) s).live n = true := live
  have live2 : (setParent n none
      (unbump n (setChildren p ((s.children p).erase n) s))).live p = true := livep
  simp only [vfs_node_parent_nolock_unset, parent, vfs_dir_remove, if_pos mem]
  rw [refdrop_keeps cfg live1 more]
  change (vfs_node_refdrop cfg p (setParent n none
    (unbump n (setChildren p ((s.children p).erase n) s))) >>= _) = _
  rw [refdrop_keeps cfg live2 more']
  rfl

/-- What the recycling round does with the head `n` of the LRU list, a child of `p`. -/
def recycled (cfg : Config Φ F) (i : FsId) (rest : List Addr) (n p : Addr) (s : Vfs Φ F) :
    Vfs Φ F :=
  lose p (vfs_node_destroy cfg n (unbump n (vfs_node_dirunlock p (detached n p
    (bump n (setLocked p true (bump p (setLru i rest s))))))))

/-- What the loop of `vfs_node_createnew` finds, and the state it leaves. -/
inductive Cleared (cfg : Config Φ F) (i : FsId) (s : Vfs Φ F) : Option Addr → Vfs Φ F → Prop where
  | kept (l : List Addr) : Cleared cfg i s none (setLru i l s)
  | recycled (n p : Addr) (rest : List Addr) (livep : s.live p = true) (mem : n ∈ s.children p)
      (last : s.refcnt n = 1) (childless : s.children n = []) :
      Cleared cfg i s (some n) (recycled cfg i rest n p s)

theorem cleared_rehash (cfg : Config Φ F) (fs : s.fs n = i) (rest : List Addr) :
    Cleared cfg i s none (vfs_node_lru_rehash n (setLru i rest s)) := by
  have form : vfs_node_lru_rehash n (setLru i rest s) = setLru i ((rest.erase n).orderedInsert
      (fun a b => s.refcnt a ≤ s.refcnt b) n) s := by
    subst fs
    simp [vfs_node_lru_rehash, setLru]
  rw [form]
  exact Cleared.kept _

section
variable (cfg : Config Φ F) (b : Balanced s held)
include cfg b

theorem take_locked (pos : 0 < held p) (more : 1 < s.refcnt p) (live : s.live n = true)
    (tabled : Tabled s n) (locked : s.dir_locked p = true) :
    vfs_node_createnew_take cfg n p s = .ok (.stop none, unbump p (vfs_node_lru_rehash n s)) ∧
      Balanced (unbump p (vfs_node_lru_rehash n s)) (spend held p) := by
  have livep : (vfs_node_lru_rehash n s).live p = true :=
    held_live (balanced_rehash b live tabled) pos
  refine ⟨?_,balanced_unbump (balanced_rehash b live tabled) pos more⟩
  rw [vfs_node_createnew_take, if_pos locked, refdrop_keeps cfg livep more]
  rfl

/-- The round when it is not: the node is taken out of the tree and destroyed, and the
    reference on its parent that the round holds is left behind. -/
theorem take_free (pos : 0 < held p) (mem : n ∈ s.children p) (last : s.refcnt n = 1)
    (free : s.dir_locked p = false) :
    vfs_node_createnew_take cfg n p s = .ok (.stop (some n), lose p (vfs_node_destroy cfg n
        (unbump n (vfs_node_dirunlock p (detached n p (bump n (setLocked p true s))))))) ∧
      Balanced (lose p (vfs_node_destroy cfg n (unbump n (vfs_node_dirunlock p
        (detached n p (bump n (setLocked p true s))))))) (spend held p) := by
  have livep := held_live b pos
  obtain ⟨live,parent⟩ := b.child p n livep mem
  have locked := balanced_setLocked b p true
  have live1 : (setLocked p true s).live n = true := live
  let u := bump n (setLocked p true s)
  let d := detached n p u
  have taken : Balanced u (gain held n) := balanced_bump locked live1
  have removed : Balanced d (gain held n) :=
    balanced_detached taken livep mem gain_self_pos (gain_pos pos)
  have unlocked : Balanced (vfs_node_dirunlock p d) (gain held n) :=
    balanced_setLocked removed p false
  have other : n ≠ p := by
    intro same
    have count := b.count n live
    rw [tableRefs_of_tabled ⟨p,parent,mem⟩] at count
    have some_child : 0 < (s.children n).length := by
      rw [same] at mem ⊢
      exact length_pos_of_mem mem
    omega
  have one : (vfs_node_dirunlock p d).refcnt n = 1 := by
    change d.refcnt n = 1
    rw [detached_refcnt, if_neg other]
    simp [u, bump, setLocked, last]
  have dandling : (vfs_node_dirunlock p d).parent n = none := by
    change d.parent n = none
    simp [d, detached_parent]
  have destroyed := balanced_destroy cfg unlocked gain_self_pos one dandling
  rw [spend_gain] at destroyed
  refine ⟨?_,balanced_lose destroyed pos⟩
  have live2 : (vfs_node_dirunlock p d).live n = true :=
    live
  rw [vfs_node_createnew_take, if_neg (by simp [free]), vfs_node_dirlock, if_neg (by simp [free])]
  change (if s.refcnt n = 1 ∧ s.parent n = some p then _ else _) = _
  rw [if_pos ⟨last,parent⟩, refnew_ok live1]
  change (vfs_node_parent_nolock_unset cfg n u >>= _) = _
  rw [unset_ok cfg taken livep mem gain_self_pos (gain_pos pos)]
  change (if (vfs_node_dirunlock p d).refcnt n ≠ 1
    then _ else _) = _
  rw [if_neg (by simp [one]), refdrop_last cfg live2 one dandling]
  rfl

theorem createnew_round_ok (i : FsId) :
    ∃ storage s', vfs_node_createnew_round cfg i s = .ok (.stop storage, s') ∧
      Cleared cfg i s storage s' ∧ Balanced s' held ∧ ∀ a ∈ storage, s'.live a = false := by
  cases list : s.lru_list i with
  | nil =>
    have same : setLru i (s.lru_list i) s = s := by simp [setLru]
    have kept : Cleared cfg i s none (setLru i (s.lru_list i) s) := Cleared.kept _
    rw [same] at kept
    exact ⟨none,s,by simp [vfs_node_createnew_round, list],kept,b,by simp⟩
  | cons n rest =>
    obtain ⟨live,fs,p,parent,mem⟩ := b.cached i n (by simp [list])
    have tabled : Tabled s n := ⟨p,parent,mem⟩
    have livep := (b.parent n p live parent).1
    have nodup : (n :: rest).Nodup := list ▸ b.lru i
    have popped : Balanced (setLru i rest s) held := by
      refine balanced_setLru b (nodup_cons.mp nodup).2 ?_
      intro m memm
      exact b.cached i m (by simp [list, memm])
    by_cases used : s.refcnt n > 1
    · have used' : (setLru i rest s).refcnt n > 1 := used
      refine ⟨none,_,?_,cleared_rehash cfg fs rest,balanced_rehash popped live tabled,by simp⟩
      simp [vfs_node_createnew_round, list, if_pos used']
    have count := b.count n live
    rw [tableRefs_of_tabled tabled] at count
    have last : s.refcnt n = 1 := by omega
    have childless : s.children n = [] := length_eq_zero_iff.mp (by omega)
    have other : n ≠ p := by
      intro same
      rw [← same, childless] at mem
      cases mem
    have unused : ¬ (setLru i rest s).refcnt n > 1 := used
    have parent' : (setLru i rest s).parent n = some p := parent
    have livep' : (setLru i rest s).live p = true := livep
    have taken : Balanced (bump p (setLru i rest s)) (gain held p) := balanced_bump popped livep
    simp only [vfs_node_createnew_round, list, if_neg unused, vfs_node_get_parent, parent',
      refnew_ok livep']
    cases locked : s.dir_locked p with
    | true =>
      have more : 1 < (bump p (setLru i rest s)).refcnt p := by
        have := b.alive p livep
        simpa [bump, setLru] using this
      obtain ⟨eq,balanced⟩ := take_locked cfg taken gain_self_pos more live tabled locked
      rw [spend_gain] at balanced
      refine ⟨none,_,eq,?_,balanced,by simp⟩
      subst fs
      have form : unbump p (vfs_node_lru_rehash n (bump p (setLru (s.fs n) rest s))) =
          setLru (s.fs n) ((vfs_node_lru_rehash n
            (bump p (setLru (s.fs n) rest s))).lru_list (s.fs n)) s := by
        simp [vfs_node_lru_rehash, bump, setLru]
      rw [form]
      exact Cleared.kept _
    | false =>
      have last' : (bump p (setLru i rest s)).refcnt n = 1 := by
        simpa [bump, setLru, other] using last
      obtain ⟨eq,balanced⟩ := take_free cfg taken gain_self_pos mem last' locked
      rw [spend_gain] at balanced
      refine ⟨some n,_,eq,Cleared.recycled n p rest livep mem last childless,balanced,?_⟩
      intro a same
      cases same
      simp [lose]

theorem createnew_loop_ok (i : FsId) (fuel : Nat) :
    ∃ storage s', vfs_node_createnew_loop cfg (fuel + 1) i s = .ok (storage, s') ∧
      Cleared cfg i s storage s' ∧ Balanced s' held ∧ ∀ a ∈ storage, s'.live a = false := by
  obtain ⟨storage,s',eq,rest⟩ := createnew_round_ok cfg b i
  refine ⟨storage,s',?_,rest⟩
  rw [vfs_node_createnew_loop, eq]
  rfl

end

variable {cfg : Config Φ F} {storage : Option Addr}

section
variable (cleared : Cleared cfg i s storage s')
include cleared

theorem cleared_fields : s'.fs = s.fs ∧ s'.name = s.name ∧ s'.fs_node = s.fs_node := by
  cases cleared with
  | kept l | recycled n p rest livep mem last childless => exact ⟨rfl,rfl,rfl⟩

theorem cleared_dead (dead : s.live a = false) : s'.live a = false := by
  cases cleared with
  | kept l => exact dead
  | recycled n p rest livep mem last childless => ?_
  change update s.live n false a = false
  by_cases same : a = n
  · rw [same, update_self]
  · rwa [update_of_ne same]

theorem cleared_locks (locked : s'.dir_locked m = true) : s.dir_locked m = true := by
  cases cleared with
  | kept l => exact locked
  | recycled n p rest livep mem last childless => ?_
  change update (update s.dir_locked p true) p false m = true at locked
  by_cases same : m = p
  · simp [same] at locked
  · simpa [same] using locked

end

def handOut (held : Addr → Nat) : Except Error Addr → Addr → Nat
  | .ok a => gain held a
  | .error _ => held

/-- What `vfs_node_createnew` returns, and the state it leaves. -/
inductive Created (cfg : Config Φ F) (i : FsId) (name : Option Name) (f : F) (mem : Option Addr)
    (s : Vfs Φ F) : Option Addr → Vfs Φ F → Prop where
  | full (s' : Vfs Φ F) (cleared : Cleared cfg i s none s') (empty : mem = none) :
      Created cfg i name f mem s none s'
  | made (a : Addr) (storage : Option Addr) (s' : Vfs Φ F) (cleared : Cleared cfg i s storage s')
      (fine : ∃ ledger, Balanced s' ledger) (dead : s'.live a = false) :
      Created cfg i name f mem s (some a) (vfs_node_construct cfg a i name f s')

theorem createnew_ok (cfg : Config Φ F) (b : Balanced s held) (i : FsId) (name : Option Name)
    (f : F) (free : ∀ a ∈ mem, s.live a = false) :
    ∃ node s', vfs_node_createnew cfg i name f mem s = .ok (node, s') ∧
      Created cfg i name f mem s node s' ∧ Balanced s' (node.elim held (gain held)) ∧
      ∀ a ∈ node, held a = 0 := by
  obtain ⟨storage,s1,eq,cleared,balanced,dead⟩ :=
    createnew_loop_ok cfg b i (s.lru_list i).length
  have made : ∀ a, s1.live a = false →
      Created cfg i name f mem s (some a) (vfs_node_construct cfg a i name f s1) ∧
      Balanced (vfs_node_construct cfg a i name f s1) (gain held a) ∧ held a = 0 := by
    intro a gone
    exact ⟨.made a storage s1 cleared ⟨held,balanced⟩ gone,
      balanced_construct cfg balanced gone i name f,
      (balanced.dead a gone).1⟩
  rw [vfs_node_createnew, eq]
  cases storage with
  | some a =>
    obtain ⟨created,constructed,unheld⟩ := made a (dead a rfl)
    exact ⟨some a,_,rfl,created,constructed,by simpa using unheld⟩
  | none => ?_
  cases mem with
  | none => exact ⟨none,s1,rfl,.full s1 cleared rfl,balanced,by simp⟩
  | some a =>
    obtain ⟨created,constructed,unheld⟩ := made a (cleared_dead cleared (free a rfl))
    exact ⟨some a,_,rfl,created,constructed,by simpa using unheld⟩

theorem created_locks (created : Created cfg i name f mem s node s')
    (locked : s'.dir_locked m = true) : s.dir_locked m = true := by
  cases created with
  | full _ cleared empty => exact cleared_locks cleared locked
  | made a storage s1 cleared fine dead => ?_
  refine cleared_locks cleared ?_
  by_cases same : m = a
  · simp [same] at locked
  · simpa [same] using locked

/-- What `vfs_node_enter` returns for the directory `p`, and the state it leaves. -/
inductive Entered (cfg : Config Φ F) (p : Addr) (name : Name) (f : F) (mem : Option Addr)
    (s : Vfs Φ F) : Except Error Addr → Vfs Φ F → Prop where
  | full (s' : Vfs Φ F) (cleared : Cleared cfg (s.fs p) s none s') (empty : mem = none) :
      Entered cfg p name f mem s (.error .ENOMEM)
        (setStore ((cfg.fs (s.fs p)).ops.node_refdrop f s'.store) s')
  | made (a : Addr) (storage : Option Addr) (s' : Vfs Φ F)
      (cleared : Cleared cfg (s.fs p) s storage s') (fine : ∃ ledger, Balanced s' ledger)
      (dead : s'.live a = false) :
      Entered cfg p name f mem s (.ok a) (attached a p
        (setStore ((cfg.fs (s.fs p)).ops.node_refdrop f
          ((cfg.fs (s.fs p)).ops.node_refnew f s'.store))
          (vfs_node_construct cfg a (s.fs p) (some name) f s')))

theorem enter_ok (cfg : Config Φ F) (b : Balanced s held) (pos : 0 < held p) (name : Name) (f : F)
    (free : ∀ a ∈ mem, s.live a = false) :
    ∃ r s', vfs_node_enter cfg p name f mem s = .ok (r, s') ∧
      Entered cfg p name f mem s r s' ∧ Balanced s' (handOut held r) ∧
      ∀ m, s'.dir_locked m = true → s.dir_locked m = true := by
  obtain ⟨node,s1,eq,created,balanced,unheld⟩ := createnew_ok cfg b (s.fs p) (some name) f free
  have locks : ∀ m, s1.dir_locked m = true → s.dir_locked m = true :=
    fun _ => created_locks created
  rw [vfs_node_enter, eq]
  cases created with
  | full _ cleared empty =>
    have form : (cfg.fs (s.fs p)).ops = (cfg.fs (s1.fs p)).ops := by
      rw [(cleared_fields cleared).1]
    refine ⟨.error .ENOMEM,_,rfl,?_,balanced_setStore balanced _,locks⟩
    rw [← form]
    exact .full s1 cleared empty
  | made a storage s2 cleared fine dead =>
    have other : p ≠ a := by
      intro same
      have := unheld a rfl
      rw [← same] at this
      omega
    have same : (vfs_node_construct cfg a (s.fs p) (some name) f s2).fs p = s.fs p := by
      rw [← (cleared_fields cleared).1]
      exact update_of_ne other _ _
    have stored := balanced_setStore balanced ((cfg.fs (s.fs p)).ops.node_refdrop f
      ((cfg.fs (s.fs p)).ops.node_refnew f s2.store))
    have live := held_live stored gain_self_pos
    have livep := held_live stored (gain_pos pos)
    have dandling : (setStore ((cfg.fs (s.fs p)).ops.node_refdrop f
        ((cfg.fs (s.fs p)).ops.node_refnew f s2.store))
        (vfs_node_construct cfg a (s.fs p) (some name) f s2)).parent a = none :=
      update_self _ _ _
    refine ⟨.ok a,_,?_,.made a storage s2 cleared fine dead,
      balanced_attached stored live livep dandling,locks⟩
    change (vfs_node_parent_nolock_set a p (setStore
      ((cfg.fs ((vfs_node_construct cfg a (s.fs p) (some name) f s2).fs p)).ops.node_refdrop f _)
        _) >>= _) = _
    rw [same]
    change (vfs_node_parent_nolock_set a p (setStore ((cfg.fs (s.fs p)).ops.node_refdrop f
      ((cfg.fs (s.fs p)).ops.node_refnew f s2.store))
      (vfs_node_construct cfg a (s.fs p) (some name) f s2)) >>= _) = _
    rw [set_ok live livep dandling]
    rfl

end
end MutekVfsLedger
