import MutekH.VfsCoherence

/-!
The directories of a RAM volume. `Good` is what its operations keep; an entry of a
directory is then found by its name, and each operation changes one entry: the volumes
are a faithful file system.
-/
namespace MutekRamfsTree
open Function Option MutekVfs MutekRamfs MutekVfsCoherence

structure Good (φ : Ramfs) : Prop where
  child : ∀ d c, c ∈ φ.children d → φ.parent c = some d
  nodup : ∀ d, (φ.children d).Nodup
  names : ∀ d c e, c ∈ φ.children d → e ∈ φ.children d → φ.name c = φ.name e → c = e
  dirs : ∀ d, φ.type d ≠ .dir → φ.children d = []
  root : φ.parent 0 = some 0 ∧ ∀ d, 0 ∉ φ.children d
  fresh : ∀ a, φ.next ≤ a → φ.parent a = none ∧ φ.children a = []

variable {φ φ' : Ramfs} {namelen : Nat} {d node : Addr} {name : Name}

theorem open_good (limit : Nat) : Good (ramfs_open limit) where
  child d c mem := by cases mem
  nodup d := List.nodup_nil
  names d c e mem := by cases mem
  dirs d _ := rfl
  root := ⟨rfl, fun d mem => by cases mem⟩
  fresh a free := by
    have other : a ≠ 0 := by
      rintro rfl
      exact absurd free (Nat.not_le.mpr Nat.one_pos)
    exact ⟨if_neg other,rfl⟩

theorem dir_lookup_iff (good : Good φ) :
    ramfs_dir_lookup d name φ = some c ↔ c ∈ φ.children d ∧ φ.name c = name := by
  constructor
  · intro found
    exact ⟨List.mem_of_find?_eq_some found,by simpa using List.find?_some found⟩
  rintro ⟨mem,named⟩
  cases found : ramfs_dir_lookup d name φ with
  | none =>
    have none := List.find?_eq_none.mp found c mem
    simp [named] at none
  | some e =>
    have meme : e ∈ φ.children d := List.mem_of_find?_eq_some found
    have namede : φ.name e = name := by simpa using List.find?_some found
    rw [good.names d c e mem meme (named.trans namede.symm)]

theorem dir_lookup_congr (good : Good φ) (good' : Good φ')
    (same : ∀ c, c ∈ φ'.children d ∧ φ'.name c = name ↔ c ∈ φ.children d ∧ φ.name c = name) :
    ramfs_dir_lookup d name φ' = ramfs_dir_lookup d name φ := by
  apply Option.ext
  intro c
  rw [dir_lookup_iff good', dir_lookup_iff good]
  exact same c

/- The steps of the operations. -/

def renamed (node : Addr) (name : Name) (φ : Ramfs) : Ramfs :=
  { φ with name := update φ.name node name }

theorem renamed_good (good : Good φ) (outside : ∀ e, node ∉ φ.children e) (name : Name) :
    Good (renamed node name φ) where
  child := good.child
  nodup := good.nodup
  names e c f memc memf same := by
    have first : c ≠ node := by
      rintro rfl
      exact outside e memc
    have second : f ≠ node := by
      rintro rfl
      exact outside e memf
    refine good.names e c f memc memf ?_
    simpa [renamed, first, second] using same
  dirs := good.dirs
  root := good.root
  fresh := good.fresh

attribute [local simp] ramfs_dir_replace

theorem mem_replace (good : Good φ) :
    c ∈ (ramfs_dir_replace d old φ).children e ↔ c ∈ φ.children e ∧ ¬ (e = d ∧ old = some c) := by
  cases old with
  | none => simp
  | some o => ?_
  by_cases same : e = d
  · subst same
    simp only [ramfs_dir_replace, update_self, (good.nodup e).mem_erase_iff]
    constructor
    · rintro ⟨other,mem⟩
      exact ⟨mem,fun gone => other (some.inj gone.2).symm⟩
    · rintro ⟨mem,other⟩
      exact ⟨fun gone => other ⟨trivial,by rw [gone]⟩,mem⟩
  · simp [same]

theorem replace_good (good : Good φ) (there : ∀ c ∈ old, c ∈ φ.children d) :
    Good (ramfs_dir_replace d old φ) := by
  cases old with
  | none => exact good
  | some o => ?_
  have mem := there o rfl
  constructor
  case child =>
    intro e c memc
    obtain ⟨old,kept⟩ := (mem_replace good).mp memc
    have other : c ≠ o := by
      rintro rfl
      have parent := good.child d c mem
      rw [good.child e c old, some.injEq] at parent
      exact kept ⟨parent,rfl⟩
    simpa [other] using good.child e c old
  case nodup =>
    intro e
    by_cases same : e = d
    · subst same
      simpa using (good.nodup e).erase o
    · simpa [same] using good.nodup e
  case names =>
    intro e c f memc memf same
    exact good.names e c f ((mem_replace good).mp memc).1 ((mem_replace good).mp memf).1 same
  case dirs =>
    intro e file
    have empty := good.dirs e file
    by_cases same : e = d
    · rw [← same, empty] at mem
      cases mem
    · simpa [same] using empty
  case root =>
    have other : o ≠ 0 := by
      rintro rfl
      exact good.root.2 d mem
    refine ⟨by simpa [other.symm] using good.root.1,?_⟩
    intro e zero
    exact good.root.2 e ((mem_replace good).mp zero).1
  case fresh =>
    intro a free
    obtain ⟨parent,empty⟩ := good.fresh a free
    have other : a ≠ d := by
      rintro rfl
      rw [empty] at mem
      cases mem
    refine ⟨?_,by simpa [other] using empty⟩
    by_cases same : a = o
    · simp [same]
    · simpa [same] using parent

attribute [local simp] ramfs_dir_push

theorem mem_push :
    c ∈ (ramfs_dir_push d node φ).children e ↔ (e = d ∧ c = node) ∨ c ∈ φ.children e := by
  by_cases same : e = d
  · subst same
    simp
  · simp [same]

theorem push_good (good : Good φ) (outside : ∀ e, node ∉ φ.children e) (dir : φ.type d = .dir)
    (inside : d < φ.next) (used : node < φ.next) (other : node ≠ 0)
    (new : ∀ c ∈ φ.children d, φ.name c ≠ φ.name node) : Good (ramfs_dir_push d node φ) := by
  constructor
  case child =>
    intro e c mem
    rcases mem_push.mp mem with ⟨same,self⟩ | old
    · simp [same, self]
    · have differ : c ≠ node := by
        rintro rfl
        exact outside e old
      simpa [differ] using good.child e c old
  case nodup =>
    intro e
    by_cases same : e = d
    · subst same
      simpa using And.intro (outside e) (good.nodup e)
    · simpa [same] using good.nodup e
  case names =>
    intro e c f memc memf same
    rcases mem_push.mp memc with ⟨here,selfc⟩ | oldc <;>
      rcases mem_push.mp memf with ⟨here',selff⟩ | oldf
    · rw [selfc, selff]
    · rw [here] at oldf
      rw [selfc] at same
      exact absurd same.symm (new f oldf)
    · rw [here'] at oldc
      rw [selff] at same
      exact absurd same (new c oldc)
    · exact good.names e c f oldc oldf same
  case dirs =>
    intro e file
    have differ : e ≠ d := by
      rintro rfl
      exact file dir
    simpa [differ] using good.dirs e file
  case root =>
    refine ⟨by simpa [other.symm] using good.root.1,?_⟩
    intro e mem
    rcases mem_push.mp mem with ⟨_,self⟩ | old
    · exact other self.symm
    · exact good.root.2 e old
  case fresh =>
    intro a free
    obtain ⟨parent,empty⟩ := good.fresh a free
    have first : a ≠ node := by
      rintro rfl
      exact absurd free (Nat.not_le.mpr used)
    have second : a ≠ d := by
      rintro rfl
      exact absurd free (Nat.not_le.mpr inside)
    exact ⟨by simpa [first] using parent,
      by simpa [second] using empty⟩

theorem node_new_good (good : Good φ) (made : ramfs_node_new type data φ = some (a, φ')) :
    Good φ' ∧ a = φ.next ∧ φ'.next = φ.next + 1 ∧ φ'.children = φ.children ∧ φ'.name = φ.name ∧
      φ'.parent = φ.parent ∧ ∀ e, e ≠ a → φ'.type e = φ.type e := by
  unfold ramfs_node_new at made
  split at made
  case isFalse => cases made
  case isTrue room =>
    simp only [some.injEq, Prod.mk.injEq] at made
    obtain ⟨rfl,rfl⟩ := made
    obtain ⟨parent,empty⟩ := good.fresh φ.next (Nat.le_refl _)
    have children : update φ.children φ.next [] = φ.children := by
      rw [← empty, update_eq_self]
    have parents : update φ.parent φ.next none = φ.parent := by
      rw [← parent, update_eq_self]
    refine ⟨?_,rfl,rfl,children,rfl,parents,fun e other => update_of_ne other _ _⟩
    constructor
    case child => simpa only [children, parents] using good.child
    case nodup => simpa only [children] using good.nodup
    case names => simpa only [children] using good.names
    case dirs =>
      intro e file
      simp only [children]
      by_cases same : e = φ.next
      · rw [same, empty]
      · exact good.dirs e (by simpa [same] using file)
    case root => simpa only [children, parents] using good.root
    case fresh =>
      intro a free
      simp only [children, parents]
      exact good.fresh a (Nat.le_of_succ_le free)

/- The operations. -/

theorem mangle_fits (fits : name.length ≤ namelen) :
    vfs_name_mangle namelen name = name ++ List.replicate (namelen - name.length) '\x00' := by
  have short : ¬ name.length > namelen := by omega
  rw [vfs_name_mangle]
  simp only [if_neg short, List.take_length]

structure Enters (d node : Addr) (name : Name) (φ φ' : Ramfs) : Prop where
  good : Good φ'
  here : ramfs_dir_lookup d name φ' = some node
  elsewhere : ∀ e k, ¬ (e = d ∧ k = name) → ramfs_dir_lookup e k φ' = ramfs_dir_lookup e k φ

def entered (d node : Addr) (name : Name) (φ : Ramfs) : Ramfs :=
  ramfs_dir_push d node (ramfs_dir_replace d (ramfs_dir_lookup d name (renamed node name φ))
    (renamed node name φ))

theorem enters (good : Good φ) (outside : ∀ e, node ∉ φ.children e) (dir : φ.type d = .dir)
    (inside : d < φ.next) (used : node < φ.next) (other : node ≠ 0) (name : Name) :
    Enters d node name φ (entered d node name φ) := by
  let ψ := renamed node name φ
  let χ := ramfs_dir_replace d (ramfs_dir_lookup d name ψ) ψ
  have first := renamed_good good outside name
  have there : ∀ c ∈ ramfs_dir_lookup d name ψ, c ∈ ψ.children d :=
    fun c found => ((dir_lookup_iff first).mp found).1
  have second := replace_good first there
  -- The fields that the steps leave alone.
  have fields : ∀ prev, (ramfs_dir_replace d prev ψ).name = ψ.name ∧
      (ramfs_dir_replace d prev ψ).type = φ.type ∧ (ramfs_dir_replace d prev ψ).next = φ.next := by
    intro prev
    cases prev <;> exact ⟨rfl,rfl,rfl⟩
  obtain ⟨names,types,nexts⟩ : χ.name = ψ.name ∧ χ.type = φ.type ∧ χ.next = φ.next := fields _
  have own : ψ.name node = name := by simp [ψ, renamed]
  have kept : ∀ c, c ≠ node → ψ.name c = φ.name c := by
    intro c differ
    simp [ψ, renamed, differ]
  have third : Good (ramfs_dir_push d node χ) := push_good second
    (fun e mem => outside e ((mem_replace first).mp mem).1) (by rw [types]; exact dir)
    (by rw [nexts]; exact inside) (by rw [nexts]; exact used) other (by
      intro c mem same
      obtain ⟨mem,gone⟩ := (mem_replace first).mp mem
      rw [names, own] at same
      exact gone ⟨rfl,(dir_lookup_iff first).mpr ⟨mem,same⟩⟩)
  have named : ∀ c, (ramfs_dir_push d node χ).name c = ψ.name c := congrFun names
  unfold entered
  refine ⟨third,?_,?_⟩
  · rw [dir_lookup_iff third, mem_push, named, own]
    exact ⟨.inl ⟨rfl,rfl⟩,rfl⟩
  intro e k differ
  refine dir_lookup_congr good third ?_
  intro c
  rw [mem_push, mem_replace first, named]
  constructor
  · rintro ⟨⟨here,new⟩ | ⟨mem,_⟩,key⟩
    · rw [new, own] at key
      exact absurd ⟨here,key.symm⟩ differ
    · have fresh : c ≠ node := by
        rintro rfl
        exact outside e mem
      exact ⟨mem,(kept c fresh) ▸ key⟩
  rintro ⟨mem,key⟩
  have fresh : c ≠ node := by
    rintro rfl
    exact outside e mem
  refine ⟨.inr ⟨mem,?_⟩,by rw [kept c fresh]; exact key⟩
  rintro ⟨here,old⟩
  have named := ((dir_lookup_iff first).mp old).2
  rw [kept c fresh, key] at named
  exact differ ⟨here,named⟩

theorem link_form (done : ramfs_link namelen node d name φ = .ok (r, φ')) : match r with
    | .error _ => φ' = φ
    | .ok (f, mangled) =>
      mangled = vfs_name_mangle namelen name ∧ φ.type d = .dir ∧ φ.parent d ≠ none ∧
      ∃ φ₁, ((φ₁ = φ ∧ f = node ∧ φ.parent node = none ∧ node < φ.next) ∨
          ramfs_node_new .file (some (φ.data node)) φ = some (f, φ₁)) ∧
        φ' = entered d f mangled φ₁ := by
  unfold ramfs_link at done
  split at done
  case isTrue => cases done; rfl
  case isFalse short =>
  split at done
  case isTrue => cases done; rfl
  case isFalse isdir =>
  split at done
  case isTrue => cases done; rfl
  case isFalse placed =>
  split at done
  case isTrue => cases done
  case isFalse node_used =>
  split at done
  case isTrue => cases done; rfl
  case isFalse nodir =>
    cases linked : ramfs_link_node node φ with
    | none =>
      rw [linked] at done
      cases done
      rfl
    | some pair => ?_
    obtain ⟨ret,φ₁⟩ := pair
    rw [linked] at done
    cases done
    refine ⟨rfl,Classical.byContradiction isdir,placed,φ₁,?_,rfl⟩
    unfold ramfs_link_node at linked
    split at linked
    case isFalse orphan =>
      cases linked
      exact .inl ⟨rfl,rfl,Classical.byContradiction orphan,Nat.not_le.mp node_used⟩
    case isTrue => exact .inr linked

section
variable (good : Good φ)
include good

theorem placed_inside (placed : φ.parent d ≠ none) : d < φ.next := by
  by_contra beyond
  exact placed (good.fresh d (Nat.not_lt.mp beyond)).1

theorem outside_of_orphan (orphan : φ.parent node = none) :
    (∀ e, node ∉ φ.children e) ∧ node ≠ 0 := by
  constructor
  · intro e mem
    rw [good.child e node mem] at orphan
    cases orphan
  · rintro rfl
    rw [good.root.1] at orphan
    cases orphan

theorem link_done {f : Addr} {mangled : Name}
    (done : ramfs_link namelen node d name φ = .ok (.ok (f, mangled), φ')) :
    mangled = vfs_name_mangle namelen name ∧ Enters d f mangled φ φ' := by
  obtain ⟨same,dir,placed,φ₁,made,rfl⟩ := link_form done
  refine ⟨same,?_⟩
  have inside := placed_inside good placed
  rcases made with ⟨rfl,rfl,orphan,used⟩ | new
  · obtain ⟨outside,other⟩ := outside_of_orphan good orphan
    exact enters good outside dir inside used other _
  obtain ⟨good₁,self,next,children,names,parents,types⟩ := node_new_good good new
  have orphan : φ₁.parent f = none := by
    rw [parents]
    exact (good.fresh f (Nat.le_of_eq self.symm)).1
  obtain ⟨outside,other⟩ := outside_of_orphan good₁ orphan
  have dir₁ : φ₁.type d = .dir := (types d (Nat.ne_of_lt (self.symm ▸ inside))).trans dir
  have inside₁ : d < φ₁.next := next ▸ Nat.lt_succ_of_lt inside
  have used : f < φ₁.next := by
    rw [next, self]
    exact Nat.lt_succ_self _
  have result := enters good₁ outside dir₁ inside₁ used other mangled
  have same : ∀ e k, ramfs_dir_lookup e k φ₁ = ramfs_dir_lookup e k φ := by
    intro e k
    simp only [ramfs_dir_lookup, children, names]
  exact ⟨result.good,result.here,
    fun e k differ => (result.elsewhere e k differ).trans (same e k)⟩

theorem leaves (found : ramfs_dir_lookup d name φ = some c) :
    Good (ramfs_dir_replace d (some c) φ) ∧
      ramfs_dir_lookup d name (ramfs_dir_replace d (some c) φ) = none ∧
      ∀ e k, ¬ (e = d ∧ k = name) →
        ramfs_dir_lookup e k (ramfs_dir_replace d (some c) φ) = ramfs_dir_lookup e k φ := by
  obtain ⟨mem,named⟩ := (dir_lookup_iff good).mp found
  have good' : Good (ramfs_dir_replace d (some c) φ) := replace_good good (by
    intro b same
    cases same
    exact mem)
  refine ⟨good',?_,?_⟩
  · cases still : ramfs_dir_lookup d name (ramfs_dir_replace d (some c) φ) with
    | none => rfl
    | some b => ?_
    obtain ⟨memb,namedb⟩ := (dir_lookup_iff good').mp still
    obtain ⟨old,gone⟩ := (mem_replace good).mp memb
    have same : b = c := good.names d b c old mem (namedb.trans named.symm)
    exact absurd ⟨rfl,by rw [same]⟩ gone
  intro e k differ
  refine dir_lookup_congr good good' ?_
  intro b
  rw [mem_replace good]
  constructor
  · rintro ⟨⟨old,_⟩,key⟩
    exact ⟨old,key⟩
  · rintro ⟨old,key⟩
    refine ⟨⟨old,?_⟩,key⟩
    rintro ⟨here,same⟩
    cases same
    exact differ ⟨here,key.symm.trans named⟩

theorem unlink_form (done : ramfs_unlink namelen d name φ = .ok (r, φ')) : match r with
    | .error _ => φ' = φ
    | .ok () =>
      ∃ c, ramfs_dir_lookup d (vfs_name_mangle namelen name) φ = some c ∧ φ.children c = [] ∧
      φ' = ramfs_dir_replace d (some c) φ := by
  unfold ramfs_unlink at done
  split at done
  case isTrue => cases done
  case isFalse fits =>
  split at done
  case isTrue => cases done
  case isFalse =>
    simp only at done
    split at done
    case h_1 => cases done; rfl
    case h_2 c found =>
      split at done
      case isTrue => cases done; rfl
      case isFalse empty =>
        cases done
        refine ⟨c,by rw [mangle_fits (Nat.not_lt.mp fits)]; exact found,?_,rfl⟩
        by_cases dir : φ.type c = .dir
        · have none : (φ.children c).length = 0 := by
            by_contra some
            exact empty ⟨dir,some⟩
          exact List.length_eq_zero_iff.mp none
        · exact good.dirs c dir

end

def taken (src node : Addr) (φ : Ramfs) : Ramfs :=
  { φ with children := update φ.children src ((φ.children src).erase node) }

theorem mem_taken (good : Good φ) (mem : node ∈ φ.children src) :
    c ∈ (taken src node φ).children e ↔ c ∈ φ.children e ∧ c ≠ node := by
  by_cases same : e = src
  · subst same
    simp only [taken, update_self, (good.nodup e).mem_erase_iff]
    exact and_comm
  simp only [taken, update_of_ne same]
  constructor
  · intro old
    refine ⟨old,?_⟩
    rintro rfl
    have parent := good.child src c mem
    rw [good.child e c old, some.injEq] at parent
    exact same parent
  · exact And.left

theorem taken_good (good : Good φ) (mem : node ∈ φ.children src) : Good (taken src node φ) where
  child e c memc := good.child e c ((mem_taken good mem).mp memc).1
  nodup e := by
    by_cases same : e = src
    · subst same
      simpa [taken] using (good.nodup e).erase node
    · simpa [taken, same] using good.nodup e
  names e c f memc memf := good.names e c f ((mem_taken good mem).mp memc).1
    ((mem_taken good mem).mp memf).1
  dirs e file := by
    have empty := good.dirs e file
    by_cases same : e = src
    · rw [← same, empty] at mem
      cases mem
    · simpa [taken, same] using empty
  root := ⟨good.root.1,fun e zero => good.root.2 e ((mem_taken good mem).mp zero).1⟩
  fresh a free := by
    obtain ⟨parent,empty⟩ := good.fresh a free
    have other : a ≠ src := by
      rintro rfl
      rw [empty] at mem
      cases mem
    exact ⟨parent,by simpa [taken, other] using empty⟩

theorem move_form (done : ramfs_move namelen node d name φ = .ok (r, φ')) : match r with
    | .error _ => φ' = φ
    | .ok () =>
      φ.type d = .dir ∧ φ.parent d ≠ none ∧ ∃ src, φ.parent node = some src ∧ src ≠ node ∧ src ≠ d ∧
      node ∈ φ.children src ∧ φ' =
        entered d node (vfs_name_mangle namelen name) (taken src node φ) := by
  unfold ramfs_move at done
  split at done
  case isTrue => cases done; rfl
  case isFalse short =>
  split at done
  case isTrue => cases done; rfl
  case isFalse isdir =>
  split at done
  case h_1 => cases done; rfl
  case h_2 src place =>
  split at done
  case isTrue => cases done; rfl
  case isFalse noroot =>
  split at done
  case isTrue => cases done; rfl
  case isFalse placed =>
  split at done
  case isTrue => cases done
  case isFalse other =>
  split at done
  case isTrue => cases done
  case isFalse there =>
    cases done
    refine ⟨Classical.byContradiction isdir,placed,src,place,noroot,other,
      Classical.byContradiction there,?_⟩
    have fits : name.length ≤ namelen := Nat.le_of_lt (Nat.not_le.mp short)
    rw [mangle_fits fits]
    simp only [update_self]
    rfl

theorem move_done (good : Good φ) (done : ramfs_move namelen node d name φ = .ok (.ok (), φ')) :
    Good φ' ∧ ramfs_dir_lookup d (vfs_name_mangle namelen name) φ' = some node ∧
      (∀ e k, ¬ (e = d ∧ k = vfs_name_mangle namelen name) → ramfs_dir_lookup e k φ = some node →
        ramfs_dir_lookup e k φ' = none) ∧
      (∀ e k, ¬ (e = d ∧ k = vfs_name_mangle namelen name) → ramfs_dir_lookup e k φ ≠ some node →
        ramfs_dir_lookup e k φ' = ramfs_dir_lookup e k φ) := by
  obtain ⟨dir,placed,src,place,_,_,mem,rfl⟩ := move_form done
  have inside := placed_inside good placed
  have used : node < φ.next := placed_inside good (by simp [place])
  have other : node ≠ 0 := by
    rintro rfl
    exact good.root.2 src mem
  have good₁ := taken_good good mem
  have outside : ∀ e, node ∉ (taken src node φ).children e := by
    intro e again
    exact ((mem_taken good mem).mp again).2 rfl
  have result := enters good₁ outside dir inside used other (vfs_name_mangle namelen name)
  refine ⟨result.good,result.here,?_,?_⟩
  · intro e k differ old
    rw [result.elsewhere e k differ]
    cases still : ramfs_dir_lookup e k (taken src node φ) with
    | none => rfl
    | some b => ?_
    obtain ⟨memb,namedb⟩ := (dir_lookup_iff good₁).mp still
    obtain ⟨oldb,gone⟩ := (mem_taken good mem).mp memb
    obtain ⟨oldn,namedn⟩ := (dir_lookup_iff good).mp old
    exact absurd (good.names e b node oldb oldn (namedb.trans namedn.symm)) gone
  intro e k differ old
  rw [result.elsewhere e k differ]
  refine dir_lookup_congr good good₁ ?_
  intro b
  rw [mem_taken good mem]
  constructor
  · rintro ⟨⟨oldb,_⟩,key⟩
    exact ⟨oldb,key⟩
  · rintro ⟨oldb,key⟩
    refine ⟨⟨oldb,?_⟩,key⟩
    rintro rfl
    exact old ((dir_lookup_iff good).mpr ⟨oldb,key⟩)

/- The RAM file system is faithful. -/

def ramfsView : View Volumes Addr where
  good vols := ∀ i, Good (vols i)
  content vols i d name := ramfs_dir_lookup d name (vols i)

theorem onVolume_ok {α : Type} {i : FsId} {call : FsCall Ramfs α} {vols vols' : Volumes}
    {r : Except Error α} (done : onVolume i call vols = .ok (r, vols')) :
    ∃ φ, call (vols i) = .ok (r, φ) ∧ vols' = update vols i φ := by
  unfold onVolume at done
  split at done
  case h_1 result φ called =>
    cases done
    exact ⟨φ,called,rfl⟩
  case h_2 => cases done

theorem update_good {φ : Ramfs} (good : ramfsView.good vols)
    (new : Good φ) : ramfsView.good (update vols i φ) := by
  intro j
  by_cases same : j = i
  · rw [same, update_self]
    exact new
  · rw [update_of_ne same]
    exact good j

theorem unseen_self {i : FsId} {vols : Volumes} {φ : Ramfs} (good : ramfsView.good vols)
    (same : φ = vols i) : Unseen ramfsView vols (update vols i φ) := by
  rw [same, update_eq_self]
  exact ⟨good,rfl⟩

theorem lookup_store {namelen : Nat} {d : Addr} {name : Name} {φ φ' : Ramfs}
    {r : Except Error (Addr × Name)} (done : ramfs_lookup namelen d name φ = .ok (r, φ')) :
    φ' = φ := by
  unfold ramfs_lookup at done
  split at done
  case isTrue =>
    cases done
    rfl
  case isFalse =>
    simp only at done
    split at done <;> cases done <;> rfl

theorem changed_volume {φ : Ramfs} {d : Addr} {name : Name}
    (here : ramfs_dir_lookup d name φ = target)
    (elsewhere : ∀ e k, ¬ (e = d ∧ k = name) →
      ramfs_dir_lookup e k φ = ramfs_dir_lookup e k (vols i)) :
    Changed (ramfsView.content vols) (ramfsView.content (update vols i φ)) i d name target where
  here := by
    change ramfs_dir_lookup d name (update vols i φ i) = target
    rw [update_self]
    exact here
  elsewhere j e k differ := by
    change ramfs_dir_lookup e k (update vols i φ j) = ramfs_dir_lookup e k (vols j)
    by_cases same : j = i
    · rw [same, update_self]
      exact elsewhere e k fun both => differ ⟨same,both⟩
    · rw [update_of_ne same]

theorem ramfs_faithful (namelen : Nat) : Faithful (ramfsConfig namelen) ramfsView where
  injective {φ i d e m k f} good first second := by
    obtain ⟨mem,named⟩ := (dir_lookup_iff (good i)).mp first
    obtain ⟨mem',named'⟩ := (dir_lookup_iff (good i)).mp second
    have parent := (good i).child d f mem
    rw [(good i).child e f mem', some.injEq] at parent
    exact ⟨parent.symm,named.symm.trans named'⟩
  root {φ i d m} good found :=
    (good i).root.2 d ((dir_lookup_iff (good i)).mp found).1
  refnew i f good := ⟨good,rfl⟩
  refdrop i f good := ⟨good,rfl⟩
  lookup_found {φ φ' i d name f mangled} good done := by
    obtain ⟨φ₁,called,rfl⟩ := onVolume_ok done
    refine ⟨unseen_self good (lookup_store called),?_⟩
    unfold ramfs_lookup at called
    split at called
    case isTrue => cases called
    case isFalse =>
      simp only at called
      split at called
      case h_1 c found =>
        cases called
        exact ⟨found,rfl⟩
      case h_2 => cases called
  lookup_failed {φ φ' i d name e} good done := by
    obtain ⟨φ₁,called,rfl⟩ := onVolume_ok done
    refine ⟨unseen_self good (lookup_store called),?_⟩
    unfold ramfs_lookup at called
    split at called
    case isTrue file =>
      change ramfs_dir_lookup d _ (φ i) = none
      rw [ramfs_dir_lookup, (good i).dirs d file]
      rfl
    case isFalse =>
      simp only at called
      split at called
      case h_1 => cases called
      case h_2 missing => exact missing
  create {φ φ' i create type r} op good done := by
    cases op
    obtain ⟨φ₁,called,rfl⟩ := onVolume_ok done
    unfold ramfs_create at called
    split at called
    case h_1 a φ₂ made =>
      cases called
      obtain ⟨good',_,_,children,names,_⟩ := node_new_good (good i) made
      refine ⟨update_good good good',?_⟩
      funext j e k
      change ramfs_dir_lookup e k (update φ i φ₁ j) = ramfs_dir_lookup e k (φ j)
      by_cases same : j = i
      · rw [same, update_self]
        simp only [ramfs_dir_lookup, children, names]
      · rw [update_of_ne same]
    case h_2 =>
      cases called
      exact unseen_self good rfl
  link_done {φ φ' i link n d name f mangled} op good done := by
    cases op
    obtain ⟨φ₁,called,rfl⟩ := onVolume_ok done
    obtain ⟨same,entry⟩ := link_done (good i) called
    exact ⟨update_good good entry.good,same,changed_volume entry.here entry.elsewhere⟩
  link_failed {φ φ' i link n d name e} op good done := by
    cases op
    obtain ⟨φ₁,called,rfl⟩ := onVolume_ok done
    exact unseen_self good (link_form called)
  move_done {φ φ' i move n d name} op good done := by
    cases op
    obtain ⟨φ₁,called,rfl⟩ := onVolume_ok done
    obtain ⟨good',here,left,elsewhere⟩ := move_done (good i) called
    refine ⟨update_good good good',?_,?_,?_⟩
    · change ramfs_dir_lookup d _ (update φ i φ₁ i) = some n
      rw [update_self]
      exact here
    · intro e k differ old
      change ramfs_dir_lookup e k (update φ i φ₁ i) = none
      rw [update_self]
      exact left e k differ old
    intro j e k differ other
    change ramfs_dir_lookup e k (update φ i φ₁ j) = ramfs_dir_lookup e k (φ j)
    by_cases same : j = i
    · subst same
      rw [update_self]
      exact elsewhere e k (fun both => differ ⟨rfl,both⟩) fun old => other ⟨rfl,old⟩
    · rw [update_of_ne same]
  move_failed {φ φ' i move n d name e} op good done := by
    cases op
    obtain ⟨φ₁,called,rfl⟩ := onVolume_ok done
    exact unseen_self good (move_form called)
  unlink_done {φ φ' i unlink d name} op good done := by
    cases op
    obtain ⟨φ₁,called,rfl⟩ := onVolume_ok done
    obtain ⟨c,found,empty,rfl⟩ := unlink_form (good i) called
    obtain ⟨good',gone,elsewhere⟩ := leaves (good i) found
    refine ⟨update_good good good',changed_volume gone elsewhere,?_⟩
    intro f entry k
    have same : c = f := some.inj (found.symm.trans entry)
    subst same
    change ramfs_dir_lookup c k (φ i) = none
    rw [ramfs_dir_lookup, empty]
    rfl
  unlink_failed {φ φ' i unlink d name e} op good done := by
    cases op
    obtain ⟨φ₁,called,rfl⟩ := onVolume_ok done
    exact unseen_self good (unlink_form (good i) called)

end MutekRamfsTree
