import Mathlib.Logic.Function.Basic
import Mathlib.Data.List.Sort
import MutekH.Lib.Machine

/-!
Nodes of the virtual file system (node.c, vfs.c). The heap of nodes is kept field by
field. Calls are sequential: a semaphore that is already taken is waited for without
end. The objects and containers are those of the gpct library: an object is destroyed
with its last reference, a directory table holds one reference on each of its items,
the LRU list holds none.
-/
namespace MutekVfs
open Function LibMachine

/-- hexo/error.h; the calls return these negated. -/
inductive Error where
  | EUNKNOWN | ENOENT | EBUSY | ENOMEM | EINVAL | EDEADLK | EPERM | ENOTSUP | EAGAIN | EIO | EEOF
  | EBADDATA | ECANCELED | EACCES | EEXISTS | EISDIR | EPIPE | EDOM | ERANGE | ENOSYS | EADDRINUSE
  | EADDRNOTAVAIL | EDESTADDRREQ | ENOPROTOOPT | EPROTONOSUPPORT | EOPNOTSUPP | EPFNOSUPPORT
  | EAFNOSUPPORT | EISCONN | ENOTCONN | ESHUTDOWN | EHOSTUNREACH
  deriving DecidableEq, Repr

inductive Fault where
  | hang
  | assert
  | undefined
  deriving DecidableEq, Repr

inductive NodeType where
  | file
  | dir
  deriving DecidableEq, Repr

abbrev Addr := Nat
abbrev FsId := Nat
abbrev Name := List Char

/-- `vfs_name_mangle`, with `namelen` for CONFIG_VFS_NAMELEN. -/
def vfs_name_mangle (namelen : Nat) (fullname : Name) : Name :=
  let fulllen := if fullname.length > namelen then namelen else fullname.length
  fullname.take fulllen ++ List.replicate (namelen - fulllen) '\x00'

/-- A call of a file system: its result and the file system it leaves. -/
abbrev FsCall (Φ α : Type) := Φ → Except Fault (Except Error α × Φ)

/-- `vfs_fs_ops_s`; an operation that may be NULL is optional. -/
structure FsOps (Φ F : Type) where
  lookup : F → Name → FsCall Φ (F × Name)
  create : Option (NodeType → FsCall Φ F)
  link : Option (F → F → Name → FsCall Φ (F × Name))
  move : Option (F → F → Name → FsCall Φ Unit)
  unlink : Option (F → Name → FsCall Φ Unit)
  node_refnew : F → Φ → Φ
  node_refdrop : F → Φ → Φ

/-- The fields of `vfs_fs_s` that do not change once it is open. -/
structure FileSystem (Φ F : Type) where
  ops : FsOps Φ F
  flag_ro : Bool
  root : F

structure Config (Φ F : Type) where
  namelen : Nat
  fs : FsId → FileSystem Φ F

/-- The nodes, the LRU list and the `ref` and `old_node` fields of each file system, and
    in `store` what the file systems hold themselves. -/
structure Vfs (Φ F : Type) where
  live : Addr → Bool
  refcnt : Addr → Nat
  fs : Addr → FsId
  name : Addr → Name
  parent : Addr → Option Addr
  fs_node : Addr → F
  children : Addr → List Addr
  dir_locked : Addr → Bool
  lru_list : FsId → List Addr
  ref : FsId → Nat
  old_node : FsId → Option Addr
  store : Φ
  /-- For the proofs: references whose only holder was a local variable of a call that
      has returned. -/
  lost : Addr → Nat

section
variable {Φ F : Type}

/- What the primitives below do to the state when nothing goes wrong. -/

def bump (n : Addr) (s : Vfs Φ F) : Vfs Φ F :=
  { s with refcnt := update s.refcnt n (s.refcnt n + 1) }

def unbump (n : Addr) (s : Vfs Φ F) : Vfs Φ F :=
  { s with refcnt := update s.refcnt n (s.refcnt n - 1) }

def lose (n : Addr) (s : Vfs Φ F) : Vfs Φ F :=
  { s with lost := update s.lost n (s.lost n + 1) }

def setParent (n : Addr) (parent : Option Addr) (s : Vfs Φ F) : Vfs Φ F :=
  { s with parent := update s.parent n parent }

def setChildren (n : Addr) (children : List Addr) (s : Vfs Φ F) : Vfs Φ F :=
  { s with children := update s.children n children }

def setLru (i : FsId) (lru : List Addr) (s : Vfs Φ F) : Vfs Φ F :=
  { s with lru_list := update s.lru_list i lru }

def setLocked (n : Addr) (locked : Bool) (s : Vfs Φ F) : Vfs Φ F :=
  { s with dir_locked := update s.dir_locked n locked }

def setStore (store : Φ) (s : Vfs Φ F) : Vfs Φ F := { s with store := store }

end

section
variable {Φ F : Type} (cfg : Config Φ F)

/-- The constructor of `vfs_node`, on the storage `a`. -/
def vfs_node_construct (a : Addr) (i : FsId) (mangled_name : Option Name) (f : F) (s : Vfs Φ F) :
    Vfs Φ F :=
  { s with
    live := update s.live a true
    refcnt := update s.refcnt a 1
    fs := update s.fs a i
    name := update s.name a (mangled_name.getD (List.replicate cfg.namelen '\x00'))
    parent := update s.parent a none
    fs_node := update s.fs_node a f
    children := update s.children a []
    dir_locked := update s.dir_locked a false
    ref := update s.ref i (s.ref i + 1)
    store := (cfg.fs i).ops.node_refnew f s.store }

variable (n : Addr) (s : Vfs Φ F)

def vfs_node_destroy : Vfs Φ F :=
  { s with
    live := update s.live n false
    lru_list := update s.lru_list (s.fs n) ((s.lru_list (s.fs n)).erase n)
    ref := update s.ref (s.fs n) (s.ref (s.fs n) - 1)
    store := (cfg.fs (s.fs n)).ops.node_refdrop (s.fs_node n) s.store }

def vfs_node_refnew : Except Fault (Vfs Φ F) :=
  if s.live n then .ok (bump n s) else .error .undefined

def vfs_node_refdrop : Except Fault (Vfs Φ F) :=
  if s.live n = false ∨ s.refcnt n = 0 then .error .undefined
  else if s.refcnt n = 1 then
    match s.parent n with
    -- The destructor would take a node without references out of its parent's table,
    -- which holds a reference on every node in it.
    | some _ => .error .undefined
    | none => .ok (vfs_node_destroy cfg n (unbump n s))
  else .ok (unbump n s)

def vfs_dir_lookup (p : Addr) (key : Name) (s : Vfs Φ F) :
    Except Fault (Option Addr × Vfs Φ F) :=
  match (s.children p).find? (fun c => s.name c = key) with
  | none => .ok (none, s)
  | some c => do
    let s ← vfs_node_refnew c s
    .ok (some c, s)

def vfs_dir_push (p n : Addr) (s : Vfs Φ F) : Except Fault (Vfs Φ F) := do
  let s ← vfs_node_refnew n s
  .ok (setChildren p (n :: s.children p) s)

def vfs_dir_remove (p n : Addr) (s : Vfs Φ F) : Except Fault (Vfs Φ F) :=
  if n ∈ s.children p then
    vfs_node_refdrop cfg n (setChildren p ((s.children p).erase n) s)
  else .error .undefined

def vfs_node_dirlock : Except Fault (Vfs Φ F) :=
  if s.dir_locked n then .error .hang else .ok (setLocked n true s)

def vfs_node_dirunlock : Vfs Φ F := setLocked n false s

def vfs_node_2dirlock (d1 d2 : Addr) (s : Vfs Φ F) : Except Fault (Vfs Φ F) :=
  if d1 < d2 then do
    let s ← vfs_node_dirlock d1 s
    vfs_node_dirlock d2 s
  else do
    let s ← vfs_node_dirlock d2 s
    vfs_node_dirlock d1 s

def vfs_node_2dirunlock (d1 d2 : Addr) (s : Vfs Φ F) : Vfs Φ F :=
  if d1 < d2 then vfs_node_dirunlock d1 (vfs_node_dirunlock d2 s)
  else vfs_node_dirunlock d2 (vfs_node_dirunlock d1 s)

def vfs_node_lru_drop : Vfs Φ F :=
  setLru (s.fs n) ((s.lru_list (s.fs n)).erase n) s

def vfs_node_lru_rehash : Vfs Φ F :=
  setLru (s.fs n) (((s.lru_list (s.fs n)).erase n).orderedInsert
    (fun a b => s.refcnt a ≤ s.refcnt b) n) s

def vfs_node_get_parent : Except Fault (Option Addr × Vfs Φ F) :=
  match s.parent n with
  | none => .ok (none, s)
  | some p => do
    let s ← vfs_node_refnew p s
    .ok (some p, s)

def vfs_node_parent_nolock_unset : Except Fault (Vfs Φ F) :=
  match s.parent n with
  | none => .ok s
  | some p => do
    let s ← vfs_dir_remove cfg p n s
    let s ← vfs_node_refdrop cfg p (setParent n none s)
    .ok (vfs_node_lru_drop n s)

def vfs_node_parent_nolock_set (n p : Addr) (s : Vfs Φ F) : Except Fault (Vfs Φ F) :=
  if s.parent n ≠ none then .error .assert
  else do
    let s ← vfs_node_refnew p s
    let s ← vfs_dir_push p n (setParent n (some p) s)
    .ok (vfs_node_lru_rehash n s)

/-- How a round of the loop of `vfs_node_createnew` ends. -/
inductive Round where
  | stop (storage : Option Addr)
  | again

/-- A round from `vfs_node_dirtrylock` on, for the popped node `n` and its parent. -/
def vfs_node_createnew_take (n p : Addr) (s : Vfs Φ F) : Except Fault (Round × Vfs Φ F) :=
  if s.dir_locked p then do
    let s ← vfs_node_refdrop cfg p (vfs_node_lru_rehash n s)
    .ok (.stop none, s)
  else do
    let s ← vfs_node_dirlock p s
    if s.refcnt n = 1 ∧ s.parent n = some p then do
      let s ← vfs_node_refnew n s
      let s ← vfs_node_parent_nolock_unset cfg n s
      let s := vfs_node_dirunlock p s
      if s.refcnt n ≠ 1 then .error .assert
      else do
        let s ← vfs_node_refdrop cfg n s
        -- This path leaves the loop before the reference on the parent is dropped.
        .ok (.stop (some n), lose p s)
    else do
      let s ← vfs_node_refdrop cfg p (vfs_node_lru_rehash n (vfs_node_dirunlock p s))
      .ok (.again, s)

def vfs_node_createnew_round (i : FsId) (s : Vfs Φ F) : Except Fault (Round × Vfs Φ F) :=
  match s.lru_list i with
  | [] => .ok (.stop none, s)
  | n :: rest =>
    let s := setLru i rest s
    if s.refcnt n > 1 then .ok (.stop none, vfs_node_lru_rehash n s)
    else do
      let (parent, s) ← vfs_node_get_parent n s
      match parent with
      | none => .ok (.stop none, s)
      | some p => vfs_node_createnew_take cfg n p s

def vfs_node_createnew_loop : Nat → FsId → Vfs Φ F → Except Fault (Option Addr × Vfs Φ F)
  | 0, _, _ => .error .hang
  | fuel + 1, i, s => do
    let (round, s) ← vfs_node_createnew_round cfg i s
    match round with
    | .stop storage => .ok (storage, s)
    | .again => vfs_node_createnew_loop fuel i s

/-- `mem` is what the allocator answers when no node is recycled. -/
def vfs_node_createnew (i : FsId) (mangled_name : Option Name) (f : F) (mem : Option Addr)
    (s : Vfs Φ F) : Except Fault (Option Addr × Vfs Φ F) := do
  let (storage, s) ← vfs_node_createnew_loop cfg ((s.lru_list i).length + 1) i s
  match storage.or mem with
  | none => .ok (none, s)
  | some a => .ok (some a, vfs_node_construct cfg a i mangled_name f s)

def vfs_dir_mangled_lookup (p : Addr) (name : Name) (s : Vfs Φ F) :
    Except Fault (Option Addr × Vfs Φ F) :=
  vfs_dir_lookup p (vfs_name_mangle cfg.namelen name) s

def vfs_node_enter (p : Addr) (mangled_name : Name) (f : F) (mem : Option Addr) (s : Vfs Φ F) :
    Except Fault (Except Error Addr × Vfs Φ F) := do
  let (node, s) ← vfs_node_createnew cfg (s.fs p) (some mangled_name) f mem s
  let s := setStore ((cfg.fs (s.fs p)).ops.node_refdrop f s.store) s
  match node with
  | none => .ok (.error .ENOMEM, s)
  | some n => do
    let s ← vfs_node_parent_nolock_set n p s
    .ok (.ok n, s)

def vfs_node_lookup (p : Addr) (name : Name) (mem : Option Addr) (s : Vfs Φ F) :
    Except Fault (Except Error Addr × Vfs Φ F) :=
  if s.parent p = none then .ok (.error .EINVAL, s)
  else do
    let s ← vfs_node_dirlock p s
    let (node, s) ← vfs_dir_mangled_lookup cfg p name s
    match node with
    | some n => .ok (.ok n, vfs_node_dirunlock p s)
    | none => do
      let (found, store) ← (cfg.fs (s.fs p)).ops.lookup (s.fs_node p) name s.store
      let s := setStore store s
      match found with
      | .error e => .ok (.error e, vfs_node_dirunlock p s)
      | .ok (f, mangled_name) => do
        let (result, s) ← vfs_node_enter cfg p mangled_name f mem s
        .ok (result, vfs_node_dirunlock p s)

def vfs_node_create (i : FsId) (type : NodeType) (mem : Option Addr) (s : Vfs Φ F) :
    Except Fault (Except Error Addr × Vfs Φ F) :=
  match (cfg.fs i).ops.create with
  | none => .ok (.error .ENOTSUP, s)
  | some create =>
    if (cfg.fs i).flag_ro then .ok (.error .EPERM, s)
    else do
      let (made, store) ← create type s.store
      let s := setStore store s
      match made with
      | .error e => .ok (.error e, s)
      | .ok f => do
        let (node, s) ← vfs_node_createnew cfg i none f mem s
        let s := setStore ((cfg.fs i).ops.node_refdrop f s.store) s
        match node with
        | none => .ok (.error .ENOMEM, s)
        | some n => .ok (.ok n, s)

def vfs_node_unset_prev (prev_node : Option Addr) (s : Vfs Φ F) : Except Fault (Vfs Φ F) :=
  match prev_node with
  | none => .ok s
  | some prev => vfs_node_parent_nolock_unset cfg prev s

def vfs_node_refdrop_prev (prev_node : Option Addr) (s : Vfs Φ F) : Except Fault (Vfs Φ F) :=
  match prev_node with
  | none => .ok s
  | some prev => vfs_node_refdrop cfg prev s

def vfs_node_link (n p : Addr) (name : Name) (mem : Option Addr) (s : Vfs Φ F) :
    Except Fault (Except Error Addr × Vfs Φ F) :=
  match (cfg.fs (s.fs p)).ops.link with
  | none => .ok (.error .ENOTSUP, s)
  | some link =>
    if s.fs p ≠ s.fs n then .ok (.error .ENOTSUP, s)
    else if s.parent p = none then .ok (.error .ENOTSUP, s)
    else if (cfg.fs (s.fs p)).flag_ro then .ok (.error .EPERM, s)
    else do
      let s ← vfs_node_dirlock p s
      let (prev_node, s) ← vfs_dir_mangled_lookup cfg p name s
      let (linked, store) ← link (s.fs_node n) (s.fs_node p) name s.store
      let s := setStore store s
      match linked with
      | .error e => do
        let s ← vfs_node_refdrop_prev cfg prev_node (vfs_node_dirunlock p s)
        .ok (.error e, s)
      | .ok (f, mangled_name) => do
        let s ← vfs_node_unset_prev cfg prev_node s
        let (result, s) ← vfs_node_enter cfg p mangled_name f mem s
        let s ← vfs_node_refdrop_prev cfg prev_node (vfs_node_dirunlock p s)
        .ok (result, s)

def vfs_node_move (n p : Addr) (name : Name) (s : Vfs Φ F) :
    Except Fault (Except Error Unit × Vfs Φ F) :=
  match (cfg.fs (s.fs p)).ops.move with
  | none => .ok (.error .ENOTSUP, s)
  | some move =>
    if s.fs p ≠ s.fs n then .ok (.error .ENOTSUP, s)
    else if s.parent p = none then .ok (.error .ENOTSUP, s)
    else if (cfg.fs (s.fs p)).flag_ro then .ok (.error .EPERM, s)
    else do
      let (parent_src, s) ← vfs_node_get_parent n s
      match parent_src with
      | none => .ok (.error .EINVAL, s)
      | some src => do
        let s ← vfs_node_2dirlock p src s
        let (prev_node, s) ← vfs_dir_mangled_lookup cfg p name s
        let (moved, store) ← move (s.fs_node n) (s.fs_node p) name s.store
        let s := setStore store s
        match moved with
        | .error e => do
          let s ← vfs_node_refdrop_prev cfg prev_node (vfs_node_2dirunlock p src s)
          -- The reference on `parent_src` is dropped on neither path.
          .ok (.error e, lose src s)
        | .ok () => do
          let s ← vfs_node_parent_nolock_unset cfg n s
          let s ← vfs_node_unset_prev cfg prev_node s
          let s ← vfs_node_parent_nolock_set n p s
          let s ← vfs_node_refdrop_prev cfg prev_node (vfs_node_2dirunlock p src s)
          .ok (.ok (), lose src s)

def vfs_node_unlink (p : Addr) (name : Name) (s : Vfs Φ F) :
    Except Fault (Except Error Unit × Vfs Φ F) :=
  match (cfg.fs (s.fs p)).ops.unlink with
  | none => .ok (.error .ENOTSUP, s)
  | some unlink =>
    if (cfg.fs (s.fs p)).flag_ro then .ok (.error .EPERM, s)
    else do
      let s ← vfs_node_dirlock p s
      let (node, s) ← vfs_dir_mangled_lookup cfg p name s
      let (removed, store) ← unlink (s.fs_node p) name s.store
      let s := setStore store s
      match removed with
      | .error e => do
        let s ← vfs_node_refdrop_prev cfg node (vfs_node_dirunlock p s)
        .ok (.error e, s)
      | .ok () => do
        let s ← vfs_node_unset_prev cfg node s
        let s ← vfs_node_refdrop_prev cfg node (vfs_node_dirunlock p s)
        .ok (.ok (), s)

/- The callers of the nodes. -/

inductive Call where
  | lookup (parent : Addr) (name : Name) (mem : Option Addr)
  | create (fs : FsId) (type : NodeType) (mem : Option Addr)
  | link (node parent : Addr) (name : Name) (mem : Option Addr)
  | move (node parent : Addr) (name : Name)
  | unlink (parent : Addr) (name : Name)
  | get_parent (node : Addr)
  | refdrop (node : Addr)
  deriving DecidableEq

/-- What a call hands to its caller: an error, or the node it returns, if it returns one. -/
abbrev Reply := Except Error (Option Addr)

def exec : Call → Except Fault (Reply × Vfs Φ F)
  | .lookup p name mem => do
    let (r, s) ← vfs_node_lookup cfg p name mem s
    .ok (r.map some, s)
  | .create i type mem => do
    let (r, s) ← vfs_node_create cfg i type mem s
    .ok (r.map some, s)
  | .link n p name mem => do
    let (r, s) ← vfs_node_link cfg n p name mem s
    .ok (r.map some, s)
  | .move n p name => do
    let (r, s) ← vfs_node_move cfg n p name s
    .ok (r.map fun _ => none, s)
  | .unlink p name => do
    let (r, s) ← vfs_node_unlink cfg p name s
    .ok (r.map fun _ => none, s)
  | .get_parent n => do
    let (parent, s) ← vfs_node_get_parent n s
    .ok (.ok parent, s)
  | .refdrop n => do
    let s ← vfs_node_refdrop cfg n s
    .ok (.ok none, s)

end

/-- The node heap, and how many references on each node the callers have been handed and
    have not dropped. -/
structure World (Φ F : Type) where
  vfs : Vfs Φ F
  handed : Addr → Nat

section
variable {Φ F : Type}

/-- Callers pass nodes that they hold, and memory comes from where no node is. -/
def Permitted (w : World Φ F) : Call → Prop
  | .lookup p _ mem => 0 < w.handed p ∧ ∀ a ∈ mem, w.vfs.live a = false
  | .create _ _ mem => ∀ a ∈ mem, w.vfs.live a = false
  | .link n p _ mem => 0 < w.handed n ∧ 0 < w.handed p ∧ ∀ a ∈ mem, w.vfs.live a = false
  | .move n p _ => 0 < w.handed n ∧ 0 < w.handed p
  | .unlink p _ => 0 < w.handed p
  | .get_parent n => 0 < w.handed n
  | .refdrop n => 0 < w.handed n

instance (w : World Φ F) : (c : Call) → Decidable (Permitted w c)
  | .lookup _ _ _ => instDecidableAnd
  | .create _ _ mem => inferInstanceAs (Decidable (∀ a ∈ mem, _ = _))
  | .link _ _ _ _ => instDecidableAnd
  | .move _ _ _ => instDecidableAnd
  | .unlink p _ => inferInstanceAs (Decidable (0 < w.handed p))
  | .get_parent n => inferInstanceAs (Decidable (0 < w.handed n))
  | .refdrop n => inferInstanceAs (Decidable (0 < w.handed n))

def gain (held : Addr → Nat) (n : Addr) : Addr → Nat := update held n (held n + 1)

def spend (held : Addr → Nat) (n : Addr) : Addr → Nat := update held n (held n - 1)

def afterReply (held : Addr → Nat) : Call → Reply → Addr → Nat
  | .refdrop n, _ => spend held n
  | _, .ok (some n) => gain held n
  | _, _ => held

variable (cfg : Config Φ F)

def completes (s : Vfs Φ F) (c : Call) : Bool :=
  match exec cfg s c with
  | .ok _ => true
  | .error _ => false

/-- The state of one file system after `vfs_create_root`, or of several that are not
    mounted on each other: the live nodes are the roots, one for each file system. -/
structure Started (w : World Φ F) : Prop where
  root : ∀ n, w.vfs.live n = true → w.vfs.fs_node n = (cfg.fs (w.vfs.fs n)).root ∧
    w.vfs.parent n = some n ∧ w.vfs.children n = [] ∧ w.vfs.refcnt n = w.handed n ∧ 0 < w.handed n
  one : ∀ m n, w.vfs.live m = true → w.vfs.live n = true → w.vfs.fs m = w.vfs.fs n → m = n
  none_else : ∀ n, w.vfs.live n = false → w.handed n = 0
  empty : ∀ i, w.vfs.lru_list i = []
  unlocked : ∀ n, w.vfs.dir_locked n = false
  kept : ∀ n, w.vfs.lost n = 0

def nextWorld (w : World Φ F) (c : Call) : World Φ F :=
  match exec cfg w.vfs c with
  | .ok (reply, s) => ⟨s, afterReply w.handed c reply⟩
  | .error _ => w

def vfsMachine : Machine (World Φ F) Call where
  start := Started cfg
  enabled w c := Permitted w c ∧ completes cfg w.vfs c = true
  next := nextWorld cfg

instance (w : World Φ F) (c : Call) : Decidable ((vfsMachine cfg).enabled w c) :=
  instDecidableAnd

end
end MutekVfs
