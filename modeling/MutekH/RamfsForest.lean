import MutekH.Lib.Forest
import MutekH.RamfsTree

/-!
The directories of a RAM volume over runs of its operations. A node is in the table of the
directory that its parent field designates. Following the parent fields leads to the root as
long as no directory is moved below itself and none with entries is replaced.
-/
namespace MutekRamfsForest
open Function Option LibForest LibMachine MutekVfs MutekRamfs MutekRamfsTree

inductive Call where
  | create (type : NodeType)
  | link (node parent : Addr) (name : Name)
  | move (node parent : Addr) (name : Name)
  | unlink (parent : Addr) (name : Name)
  | lookup (ref : Addr) (name : Name)

def forget {α : Type} (r : Except Error α × Ramfs) : Except Error Unit × Ramfs :=
  (r.1.map (fun _ => ()), r.2)

section
variable (namelen : Nat)

def exec (φ : Ramfs) : Call → Except Fault (Except Error Unit × Ramfs)
  | .create type => (ramfs_create type φ).map forget
  | .link node parent name => (ramfs_link namelen node parent name φ).map forget
  | .move node parent name => (ramfs_move namelen node parent name φ).map forget
  | .unlink parent name => (ramfs_unlink namelen parent name φ).map forget
  | .lookup ref name => (ramfs_lookup namelen ref name φ).map forget

def Permitted (φ : Ramfs) : Call → Prop
  | .create _ => True
  | .link node parent _ => node < φ.next ∧ parent < φ.next
  | .move node parent _ => node < φ.next ∧ parent < φ.next
  | .unlink parent _ => parent < φ.next
  | .lookup ref _ => ref < φ.next

instance (φ : Ramfs) : (c : Call) → Decidable (Permitted φ c)
  | .create _ => isTrue trivial
  | .link _ _ _ => instDecidableAnd
  | .move _ _ _ => instDecidableAnd
  | .unlink parent _ => inferInstanceAs (Decidable (parent < φ.next))
  | .lookup ref _ => inferInstanceAs (Decidable (ref < φ.next))

def completes (φ : Ramfs) (c : Call) : Bool :=
  match exec namelen φ c with
  | .ok _ => true
  | .error _ => false

def nextVolume (φ : Ramfs) (c : Call) : Ramfs :=
  match exec namelen φ c with
  | .ok (_, φ) => φ
  | .error _ => φ

def ramfsMachine : Machine Ramfs Call where
  start φ := ∃ limit, φ = ramfs_open limit
  enabled φ c := Permitted φ c ∧ completes namelen φ c = true
  next := nextVolume namelen

instance (φ : Ramfs) (c : Call) : Decidable ((ramfsMachine namelen).enabled φ c) :=
  instDecidableAnd

/-- The entry that a call names, or the one of the node that it moves. -/
def Concerns : Call → Addr → Name → Addr → Prop
  | .link _ parent name, d, key, _ => d = parent ∧ key = vfs_name_mangle namelen name
  | .move node parent name, d, key, f =>
    (d = parent ∧ key = vfs_name_mangle namelen name) ∨ f = node
  | .unlink parent name, d, key, _ => d = parent ∧ key = vfs_name_mangle namelen name
  | _, _, _, _ => False

/-- What is replaced has no entries, and what is moved does not go below itself. -/
def Keeps (φ : Ramfs) : Call → Prop
  | .link _ parent name =>
    ∀ old ∈ ramfs_dir_lookup parent (vfs_name_mangle namelen name) φ, φ.children old = []
  | .move node parent name =>
    (∀ old ∈ ramfs_dir_lookup parent (vfs_name_mangle namelen name) φ, φ.children old = []) ∧
      ¬ Leads φ.parent parent node
  | _ => True

/-- The condition is on calls that succeed. -/
def InDomain (φ : Ramfs) (c : Call) : Prop :=
  ∀ φ', exec namelen φ c = .ok (.ok (), φ') → Keeps namelen φ c

end

section
variable {φ φ' : Ramfs} {namelen : Nat} {d node : Addr} {name : Name}

structure Sound (φ : Ramfs) : Prop where
  good : Good φ
  tabled : ∀ c d, φ.parent c = some d → c ∈ φ.children d ∨ c = 0

def Rooted (φ : Ramfs) : Prop := ∀ c, φ.parent c ≠ none → Leads φ.parent c 0

section
variable (good : Good φ)
include good

section
variable (outside : ∀ e, node ∉ φ.children e)
include outside

theorem lookup_renamed (key : Name) :
    ramfs_dir_lookup d key (renamed node name φ) = ramfs_dir_lookup d key φ := by
  refine dir_lookup_congr good (renamed_good good outside name) ?_
  intro c
  refine and_congr_right ?_
  intro mem
  have other : c ≠ node := by
    rintro rfl
    exact outside d mem
  simp [renamed, other]

theorem entered_parents (d : Addr) (name : Name) : (entered d node name φ).parent = update
      ((ramfs_dir_lookup d name φ).elim φ.parent (fun old => update φ.parent old none))
      node (some d) := by
  unfold entered
  rw [lookup_renamed good outside]
  cases ramfs_dir_lookup d name φ <;> rfl

theorem mem_entered : c ∈ (entered d node name φ).children e ↔
      (e = d ∧ c = node) ∨ (c ∈ φ.children e ∧ ¬ (e = d ∧ ramfs_dir_lookup d name φ = some c)) := by
  unfold entered
  rw [mem_push, mem_replace (renamed_good good outside name), lookup_renamed good outside]
  rfl

theorem entered_tabled
    (tabled : ∀ c e, c ≠ node → φ.parent c = some e → c ∈ φ.children e ∨ c = 0) (c e : Addr)
    (parent : (entered d node name φ).parent c = some e) :
    c ∈ (entered d node name φ).children e ∨ c = 0 := by
  rw [entered_parents good outside] at parent
  rw [mem_entered good outside]
  by_cases self : c = node
  · rw [self, update_self, some.injEq] at parent
    exact .inl (.inl ⟨parent.symm,self⟩)
  rw [update_of_ne self] at parent
  cases old : ramfs_dir_lookup d name φ with rw [old] at parent
  | none =>
    rcases tabled c e self parent with mem | zero
    · exact .inl (.inr ⟨mem,by simp⟩)
    · exact .inr zero
  | some o =>
    have other : c ≠ o := by
      rintro rfl
      simp at parent
    have parent : φ.parent c = some e := by simpa [other] using parent
    rcases tabled c e self parent with mem | zero
    · exact .inl (.inr ⟨mem,by simp [Ne.symm other]⟩)
    · exact .inr zero

theorem entered_rooted (rooted : Rooted φ) (placed : φ.parent d ≠ none)
    (leaf : ∀ old ∈ ramfs_dir_lookup d name φ, ∀ a, φ.parent a ≠ some old)
    (avoid : ¬ Leads φ.parent d node) : Rooted (entered d node name φ) := by
  unfold Rooted
  rw [entered_parents good outside]
  -- First the old entry loses its place, then the node gets it.
  obtain ⟨P,cut,kept,avoid'⟩ : ∃ P, (ramfs_dir_lookup d name φ).elim φ.parent
      (fun old => update φ.parent old none) = P ∧
      (∀ c, P c ≠ none → Leads P c 0) ∧ P d ≠ none ∧ ¬ Leads P d node := by
    cases found : ramfs_dir_lookup d name φ with
    | none => exact ⟨φ.parent,rfl,rooted,placed,avoid⟩
    | some old => ?_
    have childless := leaf old found
    have member := ((dir_lookup_iff good).mp found).1
    have other : d ≠ old := by
      rintro rfl
      exact childless d (good.child d d member)
    refine ⟨update φ.parent old none,rfl,?_,?_,
      fun leads => avoid (leads_of_update_none leads)⟩
    · intro c linked
      have differ : c ≠ old := by
        rintro rfl
        simp at linked
      rw [update_of_ne differ] at linked
      exact leads_update_of_avoid (avoids_leaf childless differ) (rooted c linked)
    · rw [update_of_ne other]
      exact placed
  rw [cut]
  obtain ⟨placed',avoid'⟩ := avoid'
  have below := kept d placed'
  intro c linked
  by_cases self : c = node
  · rw [self]
    exact leads_head (update_self _ _ _) (leads_update_of_avoid avoid' below)
  · rw [update_of_ne self] at linked
    exact leads_update_some avoid' below (kept c linked)

end

end

theorem leaf_of_empty (sound : Sound φ) {old : Addr} (found : ramfs_dir_lookup d name φ = some old)
    (empty : φ.children old = []) (a : Addr) : φ.parent a ≠ some old := by
  intro parent
  rcases sound.tabled a old parent with mem | zero
  · rw [empty] at mem
    cases mem
  · rw [zero, sound.good.root.1, some.injEq] at parent
    have member := ((dir_lookup_iff sound.good).mp found).1
    rw [← parent] at member
    exact sound.good.root.2 d member

/-- What a call that completes has done. -/
inductive Effect (namelen : Nat) (φ : Ramfs) : Call → Except Error Unit → Ramfs → Prop where
  | failed (c : Call) (e : Error) : Effect namelen φ c (.error e) φ
  | created (type : NodeType) (a : Addr) (φ' : Ramfs)
      (made : ramfs_node_new type none φ = some (a, φ')) :
        Effect namelen φ (.create type) (.ok ()) φ'
  | looked (ref : Addr) (name : Name) : Effect namelen φ (.lookup ref name) (.ok ()) φ
  | linked (node d : Addr) (name : Name) (φ' : Ramfs) (f : Addr)
      (done : ramfs_link namelen node d name φ = .ok (.ok (f, vfs_name_mangle namelen name), φ')) :
      Effect namelen φ (.link node d name) (.ok ()) φ'
  | moved (node d : Addr) (name : Name) (φ' : Ramfs)
      (done : ramfs_move namelen node d name φ = .ok (.ok (), φ')) :
      Effect namelen φ (.move node d name) (.ok ()) φ'
  | unlinked (d : Addr) (name : Name) (c : Addr)
      (found : ramfs_dir_lookup d (vfs_name_mangle namelen name) φ = some c)
      (empty : φ.children c = []) :
      Effect namelen φ (.unlink d name) (.ok ()) (ramfs_dir_replace d (some c) φ)

theorem map_forget {α : Type} {result : Except Fault (Except Error α × Ramfs)}
    {r : Except Error Unit} (done : result.map forget = .ok (r, φ')) :
    (∃ a, result = .ok (.ok a, φ') ∧ r = .ok ()) ∨
      (∃ e, result = .ok (.error e, φ') ∧ r = .error e) := by
  cases result with
  | error fault => cases done
  | ok pair => ?_
  obtain ⟨r',ψ⟩ := pair
  cases r' with
  | error e =>
    cases done
    exact .inr ⟨e,rfl,rfl⟩
  | ok a =>
    cases done
    exact .inl ⟨a,rfl,rfl⟩

theorem exec_effect (good : Good φ) {c : Call} {r : Except Error Unit}
    (done : exec namelen φ c = .ok (r, φ')) : Effect namelen φ c r φ' := by
  cases c with
  | create type =>
    rcases map_forget done with ⟨a,made,rfl⟩ | ⟨e,failed,rfl⟩
    · unfold ramfs_create at made
      split at made
      case h_1 new =>
        cases made
        exact .created type _ _ new
      case h_2 => cases made
    unfold ramfs_create at failed
    split at failed
    case h_1 => cases failed
    case h_2 =>
      cases failed
      exact .failed _ _
  | link node d name =>
    rcases map_forget done with ⟨⟨f,mangled⟩,linked,rfl⟩ | ⟨e,failed,rfl⟩
    · have same := (link_form linked).1
      subst same
      exact .linked node d name φ' f linked
    · cases link_form failed
      exact .failed _ _
  | move node d name =>
    rcases map_forget done with ⟨_,moved,rfl⟩ | ⟨e,failed,rfl⟩
    · exact .moved node d name φ' moved
    · cases move_form failed
      exact .failed _ _
  | unlink d name =>
    rcases map_forget done with ⟨_,unlinked,rfl⟩ | ⟨e,failed,rfl⟩
    · obtain ⟨c,found,empty,rfl⟩ := unlink_form good unlinked
      exact .unlinked d name c found empty
    · cases unlink_form good failed
      exact .failed _ _
  | lookup ref name =>
    rcases map_forget done with ⟨_,looked,rfl⟩ | ⟨e,failed,rfl⟩
    · rw [lookup_store looked]
      exact .looked ref name
    · rw [lookup_store failed]
      exact .failed _ _

section
variable (sound : Sound φ)
include sound

theorem link_entered
    (done : ramfs_link namelen node d name φ = .ok (.ok (f, vfs_name_mangle namelen name), φ')) :
    ∃ φ₁, φ' = entered d f (vfs_name_mangle namelen name) φ₁ ∧ Sound φ₁ ∧ φ₁.parent = φ.parent ∧
      φ₁.children = φ.children ∧ φ₁.name = φ.name ∧ φ₁.parent f = none ∧ φ.parent d ≠ none := by
  obtain ⟨_,_,placed,φ₁,made,same⟩ := link_form done
  refine ⟨φ₁,same,?_⟩
  rcases made with ⟨rfl,rfl,orphan,used⟩ | new
  · exact ⟨sound,rfl,rfl,rfl,orphan,placed⟩
  obtain ⟨good₁,self,_,children,names,parents,_⟩ := node_new_good sound.good new
  refine ⟨⟨good₁,?_⟩,parents,children,names,?_,placed⟩
  · rw [parents, children]
    exact sound.tabled
  · rw [parents]
    exact (sound.good.fresh f (Nat.le_of_eq self.symm)).1

section
variable (effect : Effect namelen φ c r φ')
include effect

theorem effect_sound : Sound φ' := by
  have good := sound.good
  cases effect with
  | failed c e | looked ref name => exact sound
  | created type a φ' made =>
    obtain ⟨good',_,_,children,_,parents,_⟩ := node_new_good good made
    refine ⟨good',?_⟩
    rw [parents, children]
    exact sound.tabled
  | linked node d name φ' f done =>
    refine ⟨(link_done good done).2.good,?_⟩
    obtain ⟨φ₁,rfl,sound₁,_,_,_,orphan,_⟩ := link_entered sound done
    exact entered_tabled sound₁.good (outside_of_orphan sound₁.good orphan).1
      (fun c e _ parent => sound₁.tabled c e parent)
  | moved node d name φ' done =>
    refine ⟨(move_done good done).1,?_⟩
    obtain ⟨_,_,src,_,_,_,mem,rfl⟩ := move_form done
    refine entered_tabled (taken_good good mem)
      (fun e again => ((mem_taken good mem).mp again).2 rfl) ?_
    intro c e other parent
    rcases sound.tabled c e parent with old | zero
    · exact .inl ((mem_taken good mem).mpr ⟨old,other⟩)
    · exact .inr zero
  | unlinked d name c found empty =>
    refine ⟨(leaves good found).1,?_⟩
    intro b e parent
    have other : b ≠ c := by
      rintro rfl
      simp [ramfs_dir_replace] at parent
    have parent : φ.parent b = some e := by simpa [ramfs_dir_replace, other] using parent
    rcases sound.tabled b e parent with old | zero
    · exact .inl ((mem_replace good).mpr ⟨old,by simp [Ne.symm other]⟩)
    · exact .inr zero

theorem effect_concerns
    (was : ramfs_dir_lookup e k φ = some f) (gone : ramfs_dir_lookup e k φ' ≠ some f) :
    Concerns namelen c e k f := by
  have good := sound.good
  cases effect with
  | failed c e | looked ref name => exact absurd was gone
  | created type a φ' made =>
    obtain ⟨_,_,_,children,names,_,_⟩ := node_new_good good made
    simp only [ramfs_dir_lookup, children, names] at gone
    exact absurd was gone
  | linked node d name φ' f' done =>
    by_contra other
    rw [(link_done good done).2.elsewhere e k other] at gone
    exact gone was
  | moved node d name φ' done =>
    by_contra other
    obtain ⟨place,self⟩ := not_or.mp other
    have differ : ramfs_dir_lookup e k φ ≠ some node := by
      rw [was]
      intro same
      exact self (some.inj same)
    rw [(move_done good done).2.2.2 e k place differ] at gone
    exact gone was
  | unlinked d name c found empty =>
    by_contra other
    rw [(leaves good found).2.2 e k other] at gone
    exact gone was

theorem effect_empty (keeps : r = .ok () → Keeps namelen φ c)
    (was : ramfs_dir_lookup e k φ = some f)
    (gone : ramfs_dir_lookup e k φ' ≠ some f) :
    φ.children f = [] ∨ ∃ parent name, c = .move f parent name := by
  have concerned := effect_concerns sound effect was gone
  cases effect with
  | failed c e | looked ref name => exact absurd was gone
  | created type a φ' made => exact concerned.elim
  | linked node d name φ' f' done =>
    obtain ⟨rfl,rfl⟩ := concerned
    exact .inl (keeps rfl f was)
  | moved node d name φ' done =>
    rcases concerned with ⟨rfl,rfl⟩ | rfl
    · exact .inl ((keeps rfl).1 f was)
    · exact .inr ⟨d,name,rfl⟩
  | unlinked d name c found empty =>
    obtain ⟨rfl,rfl⟩ := concerned
    rw [was, some.injEq] at found
    rw [found]
    exact .inl empty

end

theorem effect_rooted (rooted : Rooted φ) {c : Call} {r : Except Error Unit}
    (effect : Effect namelen φ c r φ') (keeps : r = .ok () → Keeps namelen φ c) : Rooted φ' := by
  have good := sound.good
  cases effect with
  | failed c e | looked ref name => exact rooted
  | created type a φ' made =>
    obtain ⟨_,_,_,_,_,parents,_⟩ := node_new_good good made
    unfold Rooted
    rw [parents]
    exact rooted
  | linked node d name φ' f done =>
    have empty := keeps rfl
    obtain ⟨φ₁,rfl,sound₁,parents,children,names,orphan,placed⟩ := link_entered sound done
    have rooted₁ : Rooted φ₁ := by
      unfold Rooted
      rw [parents]
      exact rooted
    refine entered_rooted sound₁.good (outside_of_orphan sound₁.good orphan).1 rooted₁
      (by rwa [parents]) ?_ ?_
    · intro old found
      refine leaf_of_empty sound₁ found ?_
      rw [children]
      simp only [ramfs_dir_lookup, children, names] at found
      exact empty old found
    · exact orphan_avoided sound₁.good.root.1 orphan (rooted₁ d (by rwa [parents]))
  | moved node d name φ' done =>
    obtain ⟨empty,above⟩ := keeps rfl
    obtain ⟨_,placed,src,_,_,differ,mem,rfl⟩ := move_form done
    -- Taking the node out of its table changes no parent field.
    have same : Rooted (taken src node φ) := rooted
    refine entered_rooted (taken_good good mem)
      (fun e again => ((mem_taken good mem).mp again).2 rfl)
      same placed ?_ above
    intro old found
    have table : (taken src node φ).children d = φ.children d :=
      update_of_ne (Ne.symm differ) _ _
    have found : ramfs_dir_lookup d (vfs_name_mangle namelen name) φ = some old := by
      unfold ramfs_dir_lookup at found ⊢
      rw [table] at found
      exact found
    exact leaf_of_empty sound found (empty old found)
  | unlinked d name c found empty =>
    have childless := leaf_of_empty sound found empty
    intro b linked
    have other : b ≠ c := by
      rintro rfl
      simp [ramfs_dir_replace] at linked
    have linked : φ.parent b ≠ none := by simpa [ramfs_dir_replace, other] using linked
    exact leads_update_of_avoid (avoids_leaf childless other) (rooted b linked)

end

theorem open_sound (limit : Nat) : Sound (ramfs_open limit) where
  good := open_good limit
  tabled c d parent := by
    right
    by_contra other
    simp [ramfs_open, other] at parent

theorem open_rooted (limit : Nat) : Rooted (ramfs_open limit) := by
  intro c linked
  have zero : c = 0 := by
    by_contra other
    simp [ramfs_open, other] at linked
  rw [zero]
  exact leads_refl _ _

theorem next_effect (good : Good φ) (can : (ramfsMachine namelen).enabled φ c) :
    ∃ r, exec namelen φ c = .ok (r, nextVolume namelen φ c) ∧
      Effect namelen φ c r (nextVolume namelen φ c) := by
  have done := can.2
  unfold completes at done
  split at done
  case h_1 pair executed =>
    obtain ⟨r,ψ⟩ := pair
    have next : nextVolume namelen φ c = ψ := by
      unfold nextVolume
      rw [executed]
    rw [next]
    exact ⟨r,executed,exec_effect good executed⟩
  case h_2 => cases done

theorem reached_sound (reached : Reached (ramfsMachine namelen) φ) : Sound φ := by
  refine reached_invariant Sound ?_ ?_ reached
  · rintro φ ⟨limit,rfl⟩
    exact open_sound limit
  · intro φ c sound can
    obtain ⟨r,_,effect⟩ := next_effect sound.good can
    exact effect_sound sound effect

theorem reached_rooted (reached : Reached (restrict (ramfsMachine namelen) (InDomain namelen)) φ) :
    Rooted φ := by
  refine (reached_invariant (fun φ => Sound φ ∧ Rooted φ) ?_ ?_ reached).2
  · rintro φ ⟨limit,rfl⟩
    exact ⟨open_sound limit,open_rooted limit⟩
  · rintro φ c ⟨sound,rooted⟩ ⟨can,domain⟩
    obtain ⟨r,executed,effect⟩ := next_effect sound.good can
    refine ⟨effect_sound sound effect,effect_rooted sound rooted effect ?_⟩
    rintro rfl
    exact domain _ executed

/-- On every volume that operations lead to: the names in a directory are distinct, the
    tables are those that the parent fields say, a call that fails changes nothing and one
    that succeeds removes no entry but the one it names or moves. As long as no directory
    has been moved below itself and none with entries replaced, the parent fields lead to
    the root, and an entry that is removed has no entries. -/
theorem ramfs_stays_tree (namelen : Nat) (φ : Ramfs) (reached : Reached (ramfsMachine namelen) φ) :
    (∀ d, ((φ.children d).map φ.name).Nodup) ∧
    (∀ c d, c ≠ 0 → (c ∈ φ.children d ↔ φ.parent c = some d)) ∧
    (φ.parent 0 = some 0 ∧ ∀ d, 0 ∉ φ.children d) ∧
    (∀ c r φ', exec namelen φ c = .ok (r, φ') → (∀ e, r = .error e → φ' = φ) ∧
      ∀ d k f, ramfs_dir_lookup d k φ = some f → ramfs_dir_lookup d k φ' ≠ some f →
        Concerns namelen c d k f) ∧
    (Reached (restrict (ramfsMachine namelen) (InDomain namelen)) φ →
      (∀ c, φ.parent c ≠ none → Leads φ.parent c 0) ∧
      ∀ c r φ', InDomain namelen φ c → exec namelen φ c = .ok (r, φ') →
        ∀ d k f, ramfs_dir_lookup d k φ = some f → ramfs_dir_lookup d k φ' ≠ some f →
          φ.children f = [] ∨ ∃ parent name, c = .move f parent name) := by
  have sound := reached_sound reached
  refine ⟨fun d => (List.nodup_map_iff_inj_on (sound.good.nodup d)).mpr fun c mem e =>
    sound.good.names d c e mem,?_,sound.good.root,?_,?_⟩
  · intro c d other
    constructor
    · exact sound.good.child d c
    · intro parent
      exact (sound.tabled c d parent).resolve_right other
  · intro c r φ' executed
    have effect := exec_effect sound.good executed
    refine ⟨?_,fun d k f => effect_concerns sound effect⟩
    rintro e rfl
    cases effect
    rfl
  · intro kept
    refine ⟨reached_rooted kept,?_⟩
    intro c r φ' domain executed d k f
    refine effect_empty sound (exec_effect sound.good executed) ?_
    rintro rfl
    exact domain φ' executed

end

def a : Name := ['a']
def b : Name := ['b']
def x : Name := ['x']

def nested : List Call :=
  [.create .dir, .link 1 0 a, .create .dir, .link 2 1 b, .create .file, .link 3 2 x, .move 3 0 b]

def volume (calls : List Call) : Ramfs := after (ramfsMachine 8) (ramfs_open 10) calls

theorem volume_reached (allowed : Allowed (ramfsMachine 8) (ramfs_open 10) calls) :
    Reached (ramfsMachine 8) (volume calls) :=
  reached_of_allowed _ _ _ ⟨10, rfl⟩ allowed

theorem root_alone {φ : Ramfs} (root : φ.parent 0 = some 0) (other : 0 ≠ c) :
    ¬ Leads φ.parent 0 c := by
  intro leads
  refine other (leads_closed (fun e => 0 = e) ?_ rfl leads)
  rintro e d rfl parent
  exact some.inj (root.symm.trans parent)

theorem keeps_of_free {φ : Ramfs} {node d : Addr} {name : Name}
    (free : ramfs_dir_lookup d (vfs_name_mangle 8 name) φ = none) :
    Keeps 8 φ (.link node d name) := by
  intro old found
  rw [free] at found
  cases found

theorem ramfs_stays_tree_nested :
    ((volume nested).parent 3 = some 0 ∧ 3 ∈ (volume nested).children 0) ∧
      Leads (volume nested).parent 2 0 := by
  have result := ramfs_stays_tree 8 (volume nested) (volume_reached (by decide))
  have kept : Reached (restrict (ramfsMachine 8) (InDomain 8)) (volume nested) :=
    reached_of_allowed _ _ _ ⟨10,rfl⟩
      ⟨⟨by decide,fun _ _ => trivial⟩,⟨by decide,fun _ _ => keeps_of_free (by decide)⟩,
        ⟨by decide,fun _ _ => trivial⟩,⟨by decide,fun _ _ => keeps_of_free (by decide)⟩,
        ⟨by decide,fun _ _ => trivial⟩,⟨by decide,fun _ _ => keeps_of_free (by decide)⟩,
        ⟨by decide,fun _ _ => ⟨by decide,root_alone (by decide) (by decide)⟩⟩,trivial⟩
  have place : (volume nested).parent 3 = some 0 := by decide
  exact ⟨⟨place,(result.2.1 3 0 (by decide)).mpr place⟩,(result.2.2.2.2 kept).1 2 (by decide)⟩

def looped : List Call :=
  [.create .dir, .link 1 0 a, .create .dir, .link 2 1 b, .move 1 2 a]

def replaced : List Call :=
  [.create .dir, .link 1 0 a, .create .file, .link 2 1 x, .create .dir]

theorem subtrees_lost :
    (Reached (ramfsMachine 8) (volume looped) ∧ (volume looped).parent 1 = some 2 ∧
      ¬ Leads (volume looped).parent 1 0) ∧
    (Reached (ramfsMachine 8) (volume replaced) ∧
      ramfs_dir_lookup 0 (vfs_name_mangle 8 a) (volume replaced) = some 1 ∧
      (volume replaced).children 1 = [2] ∧
      ∃ φ', exec 8 (volume replaced) (.link 3 0 a) = .ok (.ok (), φ') ∧
        ramfs_dir_lookup 0 (vfs_name_mangle 8 a) φ' = some 3 ∧ φ'.parent 2 = some 1 ∧
        φ'.parent 1 = none) := by
  refine ⟨⟨volume_reached (by decide),by decide,?_⟩,volume_reached (by decide),by decide,by decide,
    _,rfl,by decide,by decide,by decide⟩
  intro leads
  have inside : 0 = 1 ∨ 0 = 2 := by
    refine leads_closed (fun c => c = 1 ∨ c = 2) ?_ (.inl rfl) leads
    rintro c d (rfl | rfl) parent
    · exact .inr (some.inj (parent.symm.trans (by decide)))
    · exact .inl (some.inj (parent.symm.trans (by decide)))
  omega

end MutekRamfsForest
