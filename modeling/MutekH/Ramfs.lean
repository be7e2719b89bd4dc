import MutekH.Vfs

/-!
The directory operations of the RAM file system (fs/ramfs/ramfs.c). Node addresses are
not used again. The rwlock of a directory is not recursive: a move that takes it twice
does not return.
-/
namespace MutekRamfs
open Function MutekVfs

/-- The nodes of a volume, field by field; addresses below `next` are in use and `limit` is where
    memory ends. The contents of the files are not kept, only which `ramfs_data_s` a file has. -/
structure Ramfs where
  next : Nat
  limit : Nat
  type : Addr → NodeType
  parent : Addr → Option Addr
  name : Addr → Name
  children : Addr → List Addr
  data : Addr → Nat

def ramfs_node_new (type : NodeType) (data : Option Nat) (φ : Ramfs) : Option (Addr × Ramfs) :=
  if φ.next < φ.limit then
    some (φ.next, { φ with
      next := φ.next + 1
      type := update φ.type φ.next type
      parent := update φ.parent φ.next none
      children := update φ.children φ.next []
      data := update φ.data φ.next (data.getD φ.next) })
  else none

def ramfs_dir_lookup (d : Addr) (key : Name) (φ : Ramfs) : Option Addr :=
  (φ.children d).find? (fun c => φ.name c = key)

def ramfs_dir_replace (d : Addr) (old_file : Option Addr) (φ : Ramfs) : Ramfs :=
  match old_file with
  | none => φ
  | some old => { φ with
      parent := update φ.parent old none
      children := update φ.children d ((φ.children d).erase old) }

def ramfs_dir_push (d node : Addr) (φ : Ramfs) : Ramfs :=
  { φ with
    parent := update φ.parent node (some d)
    children := update φ.children d (node :: φ.children d) }

def ramfs_lookup (namelen : Nat) (ref : Addr) (name : Name) : FsCall Ramfs (Addr × Name) :=
  fun φ =>
    if φ.type ref ≠ .dir then .ok (.error .EINVAL, φ)
    else
      let mangled_name := vfs_name_mangle namelen name
      match ramfs_dir_lookup ref mangled_name φ with
      | some child => .ok (.ok (child, mangled_name), φ)
      | none => .ok (.error .ENOENT, φ)

def ramfs_create (type : NodeType) : FsCall Ramfs Addr := fun φ =>
  match ramfs_node_new type none φ with
  | some (node, φ) => .ok (.ok node, φ)
  | none => .ok (.error .ENOMEM, φ)

/-- The node that a link enters, for an address where there is a node: a clone of a file that has a
    place already, else the node itself. -/
def ramfs_link_node (node : Addr) (φ : Ramfs) : Option (Addr × Ramfs) :=
  if φ.parent node ≠ none then ramfs_node_new .file (some (φ.data node)) φ
  else some (node, φ)

def ramfs_link (namelen : Nat) (node parent : Addr) (name : Name) : FsCall Ramfs (Addr × Name) :=
  fun φ =>
    if name.length ≥ namelen then .ok (.error .EINVAL, φ)
    else if φ.type parent ≠ .dir then .ok (.error .EINVAL, φ)
    else if φ.parent parent = none then .ok (.error .ENOTSUP, φ)
    else if φ.next ≤ node then .error .undefined
    else if φ.parent node ≠ none ∧ φ.type node = .dir then .ok (.error .EISDIR, φ)
    else
      match ramfs_link_node node φ with
      | none => .ok (.error .ENOMEM, φ)
      | some (ret_node, φ) =>
        let mangled_name := vfs_name_mangle namelen name
        let φ := { φ with name := update φ.name ret_node mangled_name }
        let φ := ramfs_dir_replace parent (ramfs_dir_lookup parent mangled_name φ) φ
        .ok (.ok (ret_node, mangled_name), ramfs_dir_push parent ret_node φ)

def ramfs_move (namelen : Nat) (node parent : Addr) (name : Name) : FsCall Ramfs Unit := fun φ =>
  if name.length ≥ namelen then .ok (.error .EINVAL, φ)
  else if φ.type parent ≠ .dir then .ok (.error .EINVAL, φ)
  else
    match φ.parent node with
    | none => .ok (.error .EINVAL, φ)
    | some parent_src =>
      if parent_src = node then .ok (.error .EINVAL, φ)
      else if φ.parent parent = none then .ok (.error .ENOTSUP, φ)
      else if parent_src = parent then .error .hang
      else if node ∉ φ.children parent_src then .error .undefined
      else
        let φ := { φ with
          children := update φ.children parent_src ((φ.children parent_src).erase node)
          name := update φ.name node
            (name ++ List.replicate (namelen - name.length) '\x00') }
        let φ := ramfs_dir_replace parent (ramfs_dir_lookup parent (φ.name node) φ) φ
        .ok (.ok (), ramfs_dir_push parent node φ)

/-- The name is copied unchecked into a buffer of `namelen` characters, and the type of
    `parent` is not looked at: `children` shares its place with `data`. -/
def ramfs_unlink (namelen : Nat) (parent : Addr) (name : Name) : FsCall Ramfs Unit := fun φ =>
  if name.length > namelen then .error .undefined
  else if φ.type parent ≠ .dir then .error .undefined
  else
    let tmpname := name ++ List.replicate (namelen - name.length) '\x00'
    match ramfs_dir_lookup parent tmpname φ with
    | none => .ok (.error .ENOENT, φ)
    | some node =>
      if φ.type node = .dir ∧ (φ.children node).length ≠ 0 then .ok (.error .EBUSY, φ)
      else .ok (.ok (), ramfs_dir_replace parent (some node) φ)

def ramfs_open (limit : Nat) : Ramfs where
  next := 1
  limit := limit
  type := fun _ => .dir
  parent := fun a => if a = 0 then some 0 else none
  name := fun _ => []
  children := fun _ => []
  data := fun a => a

/- One volume for each file system identifier. -/

abbrev Volumes := FsId → Ramfs

def onVolume {α : Type} (i : FsId) (call : FsCall Ramfs α) : FsCall Volumes α := fun vols =>
  match call (vols i) with
  | .ok (result, φ) => .ok (result, update vols i φ)
  | .error fault => .error fault

def ramfs_ops (namelen : Nat) (i : FsId) : FsOps Volumes Addr where
  lookup ref name := onVolume i (ramfs_lookup namelen ref name)
  create := some fun type => onVolume i (ramfs_create type)
  link := some fun node parent name => onVolume i (ramfs_link namelen node parent name)
  move := some fun node parent name => onVolume i (ramfs_move namelen node parent name)
  unlink := some fun parent name => onVolume i (ramfs_unlink namelen parent name)
  node_refnew _ vols := vols
  node_refdrop _ vols := vols

def ramfsConfig (namelen : Nat) : Config Volumes Addr where
  namelen := namelen
  fs i := ⟨ramfs_ops namelen i, false, 0⟩

/-- One empty volume behind every file system, and a node at address 0 for the root of the first. -/
def ramfsWorld (limit : Nat) : World Volumes Addr where
  vfs := {
    live := fun a => decide (a = 0)
    refcnt := fun _ => 1
    fs := fun _ => 0
    name := fun _ => []
    parent := fun _ => some 0
    fs_node := fun _ => 0
    children := fun _ => []
    dir_locked := fun _ => false
    lru_list := fun _ => []
    ref := fun _ => 1
    old_node := fun _ => none
    store := fun _ => ramfs_open limit
    lost := fun _ => 0 }
  handed := fun a => if a = 0 then 1 else 0

theorem ramfsWorld_started (namelen limit : Nat) :
    Started (ramfsConfig namelen) (ramfsWorld limit) where
  root n live := by
    have zero : n = 0 := by simpa [ramfsWorld] using live
    subst zero
    exact ⟨rfl,rfl,rfl,rfl,Nat.one_pos⟩
  one m n live live' _ := by
    have zero : m = 0 := by simpa [ramfsWorld] using live
    have zero' : n = 0 := by simpa [ramfsWorld] using live'
    rw [zero, zero']
  none_else n dead := by
    have other : n ≠ 0 := by simpa [ramfsWorld] using dead
    exact if_neg other
  empty _ := rfl
  unlocked _ := rfl
  kept _ := rfl

end MutekRamfs
