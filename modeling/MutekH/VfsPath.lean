import MutekH.Vfs
import MutekH.Lib.Fields

/-!
Path lookup (helpers.c). A path is the characters before the final NUL, a pointer into it
an offset. `vfs_lookup` on the string is the walk along its components.
-/
namespace MutekVfsPath
open List MutekVfs LibFields

section
variable (path : List Char)

def next_nonslash (str : Nat) : Nat := str + ((path.drop str).takeWhile (· == '/')).length

def next_slash (str : Nat) : Nat := str + ((path.drop str).takeWhile (· != '/')).length

def last_slash_or_end_loop : Nat → Nat
  | 0 => 0
  | p + 1 => if path[p]? = some '/' then last_slash_or_end_loop p else p + 1

def last_slash_or_end : Nat := last_slash_or_end_loop path path.length

end

/-- What `vfs_lookup_part` returns and what it stores in `*next_place` and `*node`. -/
structure Part where
  err : Option Error
  next_place : Nat
  node : Addr

/-- A turn of the loop of `vfs_lookup_part`: it breaks off, or goes on with another token
    and node. -/
inductive Turn where
  | stop (err : Option Error)
  | again (token : Nat) (node : Addr)

section
variable {Φ F : Type} (cfg : Config Φ F) (alloc : Vfs Φ F → Option Addr) (root : Addr)

/-- `alloc` is what the allocator answers in a state. -/
def vfs_lookup_turn (path : List Char) (token : Nat) (node : Addr) (s : Vfs Φ F) :
    Except Fault (Turn × Vfs Φ F) :=
  let slash_or_end := next_slash path token
  if slash_or_end - token = 2 ∧ path[token]? = some '.' ∧ path[token + 1]? = some '.' then
    if node = root then .ok (.again (next_nonslash path slash_or_end) node, s)
    else do
      let (parent, s) ← vfs_node_get_parent node s
      match parent with
      | none => .ok (.stop none, s)
      | some parent => do
        let s ← vfs_node_refdrop cfg node s
        .ok (.again (next_nonslash path slash_or_end) parent, s)
  else if slash_or_end - token = 1 ∧ path[token]? = some '.' then
    .ok (.again (next_nonslash path slash_or_end) node, s)
  else do
    let (found, s) ←
      vfs_node_lookup cfg node ((path.drop token).take (slash_or_end - token)) (alloc s) s
    match found with
    | .error e => .ok (.stop (some e), s)
    | .ok nnode => do
      let s ← vfs_node_refdrop cfg node s
      .ok (.again (next_nonslash path slash_or_end) nnode, s)

def vfs_lookup_loop (path : List Char) (end_ : Nat) :
    Nat → Nat → Addr → Vfs Φ F → Except Fault (Part × Vfs Φ F)
  | 0, _, _, _ => .error .hang
  | fuel + 1, token, node, s =>
    if token < end_ then do
      let (turn, s) ← vfs_lookup_turn cfg alloc root path token node s
      match turn with
      | .stop err => .ok (⟨err, token, node⟩, s)
      | .again token node => vfs_lookup_loop path end_ fuel token node s
    else .ok (⟨none, token, node⟩, s)

def vfs_lookup_start (cwd : Addr) (path : List Char) : Nat × Addr :=
  if path[0]? = some '/' then (next_nonslash path 0, root) else (0, cwd)

def vfs_lookup_part (cwd : Addr) (path : List Char) (end_ : Nat) (s : Vfs Φ F) :
    Except Fault (Part × Vfs Φ F) := do
  let (token, cwd) := vfs_lookup_start root cwd path
  let s ← vfs_node_refnew cwd s
  vfs_lookup_loop cfg alloc root path end_ (path.length + 1) token cwd s

/-- A NULL argument is `none`. -/
def vfs_lookup (root cwd : Option Addr) (path : Option (List Char)) (s : Vfs Φ F) :
    Except Fault (Except Error Addr × Vfs Φ F) :=
  match root, cwd, path with
  | some root, some cwd, some path => do
    let end_ := last_slash_or_end path
    let (part, s) ← vfs_lookup_part cfg alloc root cwd path end_ s
    if part.err = none ∧ end_ ≤ part.next_place then .ok (.ok part.node, s)
    else do
      let s ← vfs_node_refdrop cfg part.node s
      .ok (.error (part.err.getD .ENOENT), s)
  | _, _, _ => .ok (.error .EINVAL, s)

/- The same on the components of the path. -/

def visit (name : Name) (node : Addr) (s : Vfs Φ F) :
    Except Fault (Except (Option Error) Addr × Vfs Φ F) :=
  if name = ['.', '.'] then
    if node = root then .ok (.ok node, s)
    else do
      let (parent, s) ← vfs_node_get_parent node s
      match parent with
      | none => .ok (.error none, s)
      | some parent => do
        let s ← vfs_node_refdrop cfg node s
        .ok (.ok parent, s)
  else if name = ['.'] then .ok (.ok node, s)
  else do
    let (found, s) ← vfs_node_lookup cfg node name (alloc s) s
    match found with
    | .error e => .ok (.error (some e), s)
    | .ok nnode => do
      let s ← vfs_node_refdrop cfg node s
      .ok (.ok nnode, s)

structure Walked where
  err : Option Error
  rest : List Name
  node : Addr

def walk : List Name → Addr → Vfs Φ F → Except Fault (Walked × Vfs Φ F)
  | [], node, s => .ok (⟨none, [], node⟩, s)
  | name :: rest, node, s => do
    let (r, s) ← visit cfg alloc root name node s
    match r with
    | .error err => .ok (⟨err, name :: rest, node⟩, s)
    | .ok node => walk rest node s

def lookup_names (start : Addr) (names : List Name) (s : Vfs Φ F) :
    Except Fault (Except Error Addr × Vfs Φ F) := do
  let s ← vfs_node_refnew start s
  let (walked, s) ← walk cfg alloc root names start s
  if walked.err = none ∧ walked.rest = [] then .ok (.ok walked.node, s)
  else do
    let s ← vfs_node_refdrop cfg walked.node s
    .ok (.error (walked.err.getD .ENOENT), s)

end

section
variable {path : List Char} {token : Nat}

theorem last_slash_or_end_loop_spec (path : List Char) (p : Nat) :
    last_slash_or_end_loop path p ≤ p ∧
      (∀ i, last_slash_or_end_loop path p ≤ i → i < p → path[i]? = some '/') ∧
      (0 < last_slash_or_end_loop path p →
        path[last_slash_or_end_loop path p - 1]? ≠ some '/') := by
  induction p with
  | zero => simp [last_slash_or_end_loop]
  | succ p ih => ?_
  obtain ⟨below,slashes,before⟩ := ih
  unfold last_slash_or_end_loop
  by_cases slash : path[p]? = some '/'
  · rw [if_pos slash]
    refine ⟨Nat.le_succ_of_le below,?_,before⟩
    intro i low high
    by_cases last : i = p
    · rw [last, slash]
    · exact slashes i low (by omega)
  · rw [if_neg slash]
    refine ⟨Nat.le_refl _,?_,fun _ => slash⟩
    intro i low high
    omega

theorem lt_end_iff : token < last_slash_or_end path ↔ fields '/' (path.drop token) ≠ [] := by
  obtain ⟨below,slashes,before⟩ := last_slash_or_end_loop_spec path path.length
  change token < last_slash_or_end_loop path path.length ↔ _
  rw [ne_eq, fields_eq_nil_iff]
  constructor
  · intro less only
    have inside : last_slash_or_end_loop path path.length - 1 < path.length := by omega
    refine before (by omega) ?_
    have mem : path.get ⟨_,inside⟩ ∈ path.drop token := by
      refine mem_iff_getElem?.mpr ⟨last_slash_or_end_loop path path.length - 1 - token,?_⟩
      rw [List.getElem?_drop, Nat.add_sub_cancel' (by omega), List.getElem?_eq_getElem inside]
      rfl
    rw [List.getElem?_eq_getElem inside]
    exact congrArg some (only _ mem)
  intro other
  by_contra beyond
  refine other ?_
  intro x mem
  obtain ⟨i,here⟩ := mem_iff_getElem?.mp mem
  rw [List.getElem?_drop] at here
  have inside : token + i < path.length := by
    by_contra outside
    rw [List.getElem?_eq_none (by omega)] at here
    cases here
  rw [slashes (token + i) (by omega) inside] at here
  exact (Option.some.inj here).symm

theorem drop_next_slash (path : List Char) (token : Nat) :
    path.drop (next_slash path token) = (path.drop token).dropWhile (· != '/') := by
  rw [next_slash, ← drop_drop]
  exact drop_length_takeWhile _ _

theorem drop_next_nonslash (path : List Char) (str : Nat) :
    path.drop (next_nonslash path str) = (path.drop str).dropWhile (· == '/') := by
  rw [next_nonslash, ← drop_drop]
  exact drop_length_takeWhile _ _

theorem next_nonslash_head (path : List Char) (str : Nat) :
    (path.drop (next_nonslash path str)).head? ≠ some '/' := by
  intro slash
  rw [drop_next_nonslash] at slash
  have stop := List.head?_dropWhile_not (· == '/') (path.drop str)
  rw [slash] at stop
  simp at stop

theorem fields_token (here : path.drop token = x :: rest) (word : x ≠ '/') :
    fields '/' (path.drop token) = (path.drop token).takeWhile (· != '/') ::
      fields '/' (path.drop (next_nonslash path (next_slash path token))) := by
  rw [drop_next_nonslash, fields_dropWhile, drop_next_slash, here]
  exact fields_takeWhile word rest

theorem next_token (inside : token ≤ path.length)
    (here : path.drop token = x :: rest) (word : x ≠ '/') :
    token < next_nonslash path (next_slash path token) ∧
      next_nonslash path (next_slash path token) ≤ path.length := by
  have first : 0 < ((path.drop token).takeWhile (· != '/')).length := by
    rw [here, takeWhile_cons_of_pos (by simpa using word)]
    exact Nat.succ_pos _
  have short := (takeWhile_sublist (· != '/') (l := path.drop token)).length_le
  have short' := (takeWhile_sublist (· == '/') (l := path.drop (next_slash path token))).length_le
  rw [length_drop] at short short'
  unfold next_nonslash
  unfold next_slash at short' ⊢
  omega

theorem dotdot_iff :
    (word.length = 2 ∧ (word ++ rest)[0]? = some '.' ∧ (word ++ rest)[1]? = some '.') ↔
      word = ['.', '.'] := by
  constructor
  · rintro ⟨two,first,second⟩
    obtain ⟨a,b,rfl⟩ := length_eq_two.mp two
    simp only [cons_append, List.getElem?_cons_zero, List.getElem?_cons_succ,
      Option.some.injEq] at first second
    rw [first, second]
  · rintro rfl
    simp

theorem dot_iff : (word.length = 1 ∧ (word ++ rest)[0]? = some '.') ↔ word = ['.'] := by
  constructor
  · rintro ⟨one,first⟩
    obtain ⟨a,rfl⟩ := length_eq_one_iff.mp one
    simp only [cons_append, List.getElem?_cons_zero, Option.some.injEq] at first
    rw [first]
  · rintro rfl
    simp

end

section
variable {Φ F : Type} (cfg : Config Φ F) (alloc : Vfs Φ F → Option Addr) (root : Addr)

def Turn.of (token : Nat) : Except (Option Error) Addr → Turn
  | .error err => .stop err
  | .ok node => .again token node

theorem turn_visit (path : List Char) (token : Nat) (node : Addr) (s : Vfs Φ F) :
    vfs_lookup_turn cfg alloc root path token node s = (do
      let (r, s) ← visit cfg alloc root ((path.drop token).takeWhile (· != '/')) node s
      .ok (Turn.of (next_nonslash path (next_slash path token)) r, s)) := by
  have length : next_slash path token - token = ((path.drop token).takeWhile (· != '/')).length :=
    Nat.add_sub_cancel_left _ _
  have whole := takeWhile_append_dropWhile (p := (· != '/')) (l := path.drop token)
  have first : path[token]? = (path.drop token)[0]? := by simp
  have second : path[token + 1]? = (path.drop token)[1]? := by simp
  have name := take_length_takeWhile (· != '/') (path.drop token)
  have dotdot := @dotdot_iff ((path.drop token).takeWhile (· != '/'))
    ((path.drop token).dropWhile (· != '/'))
  have dot := @dot_iff ((path.drop token).takeWhile (· != '/'))
    ((path.drop token).dropWhile (· != '/'))
  rw [whole] at dotdot dot
  unfold vfs_lookup_turn visit
  simp only [length, name, first, second, dotdot, dot]
  generalize (path.drop token).takeWhile (· != '/') = word
  by_cases up : word = ['.', '.']
  · simp only [if_pos up]
    by_cases top : node = root
    · simp only [if_pos top]
      rfl
    simp only [if_neg top]
    cases vfs_node_get_parent node s with
    | error e => rfl
    | ok pair => ?_
    obtain ⟨parent,s⟩ := pair
    cases parent with
    | none => rfl
    | some parent =>
      change (vfs_node_refdrop cfg node s >>= _) = ((vfs_node_refdrop cfg node s >>= _) >>= _)
      cases vfs_node_refdrop cfg node s <;> rfl
  simp only [if_neg up]
  by_cases self : word = ['.']
  · simp only [if_pos self]
    rfl
  simp only [if_neg self]
  cases vfs_node_lookup cfg node word (alloc s) s with
  | error e => rfl
  | ok pair => ?_
  obtain ⟨found,s⟩ := pair
  cases found with
  | error e => rfl
  | ok nnode =>
    change (vfs_node_refdrop cfg node s >>= _) = ((vfs_node_refdrop cfg node s >>= _) >>= _)
    cases vfs_node_refdrop cfg node s <;> rfl

theorem loop_walk (path : List Char) (fuel : Nat) :
    ∀ (token : Nat) (node : Addr) (s : Vfs Φ F), token ≤ path.length → path.length < fuel + token →
      (path.drop token).head? ≠ some '/' →
      (∀ e, walk cfg alloc root (fields '/' (path.drop token)) node s = .error e →
        vfs_lookup_loop cfg alloc root path (last_slash_or_end path) fuel token node s = .error e) ∧
      (∀ walked s', walk cfg alloc root (fields '/' (path.drop token)) node s = .ok (walked, s') →
        ∃ place, vfs_lookup_loop cfg alloc root path (last_slash_or_end path) fuel token node s =
            .ok (⟨walked.err, place, walked.node⟩, s') ∧
          fields '/' (path.drop place) = walked.rest) := by
  induction fuel with
  | zero =>
    intro token node s inside enough
    omega
  | succ fuel ih => ?_
  intro token node s inside enough boundary
  cases here : path.drop token with
  | nil =>
    have done : ¬ token < last_slash_or_end path := by
      rw [lt_end_iff, here]
      simp
    rw [vfs_lookup_loop, if_neg done]
    constructor
    · intro e walked
      cases walked
    · intro walked s' walks
      cases walks
      exact ⟨token,rfl,by rw [here]; rfl⟩
  | cons x rest =>
    have word : x ≠ '/' := by
      rintro rfl
      rw [here] at boundary
      exact boundary rfl
    obtain ⟨further,inside'⟩ := next_token inside here word
    have names := fields_token here word
    have more : token < last_slash_or_end path := by
      rw [lt_end_iff, names]
      exact cons_ne_nil _ _
    rw [vfs_lookup_loop, if_pos more, turn_visit, ← here, names, walk]
    cases visited : visit cfg alloc root ((path.drop token).takeWhile (· != '/')) node s with
    | error e =>
      constructor
      · intro e' walked
        cases walked
        rfl
      · intro walked s' walks
        cases walks
    | ok pair =>
      obtain ⟨r,t⟩ := pair
      cases r with
      | error err =>
        constructor
        · intro e' walked
          cases walked
        · intro walked s' walks
          cases walks
          exact ⟨token,rfl,names⟩
      | ok next => exact ih _ next t inside' (by omega) (next_nonslash_head path _)

theorem start_boundary (cwd : Addr) (path : List Char) :
    (vfs_lookup_start root cwd path).1 ≤ path.length ∧
      (path.drop (vfs_lookup_start root cwd path).1).head? ≠ some '/' ∧
      fields '/' (path.drop (vfs_lookup_start root cwd path).1) = fields '/' path := by
  unfold vfs_lookup_start
  by_cases absolute : path[0]? = some '/'
  · rw [if_pos absolute]
    refine ⟨?_,next_nonslash_head path 0,?_⟩
    · have short := (takeWhile_sublist (· == '/') (l := path.drop 0)).length_le
      rw [length_drop] at short
      unfold next_nonslash
      omega
    · rw [drop_next_nonslash, fields_dropWhile, drop_zero]
  · rw [if_neg absolute]
    refine ⟨Nat.zero_le _,?_,rfl⟩
    rwa [List.head?_eq_getElem?]

theorem vfs_lookup_names (cwd : Addr) (path : List Char) (s : Vfs Φ F) :
    vfs_lookup cfg alloc (some root) (some cwd) (some path) s =
      lookup_names cfg alloc root (vfs_lookup_start root cwd path).2 (fields '/' path) s := by
  obtain ⟨inside,boundary,names⟩ := start_boundary root cwd path
  unfold vfs_lookup lookup_names vfs_lookup_part
  simp only
  generalize vfs_lookup_start root cwd path = place at inside boundary names ⊢
  obtain ⟨token,start⟩ := place
  cases vfs_node_refnew start s with
  | error e => rfl
  | ok t => ?_
  obtain ⟨faults,returns⟩ :=
    loop_walk cfg alloc root path (path.length + 1) token start t inside (by omega) boundary
  rw [names] at faults returns
  change (vfs_lookup_loop cfg alloc root path (last_slash_or_end path)
    (path.length + 1) _ _ t >>= _)
    = (walk cfg alloc root (fields '/' path) _ t >>= _)
  cases walks : walk cfg alloc root (fields '/' path) start t with
  | error e =>
    rw [faults e walks]
    rfl
  | ok pair => ?_
  obtain ⟨walked,t'⟩ := pair
  obtain ⟨place,loops,rest⟩ := returns walked t' walks
  rw [loops]
  have complete : last_slash_or_end path ≤ place ↔ walked.rest = [] := by
    rw [← rest, ← Nat.not_lt, lt_end_iff, not_not]
  change (if walked.err = none ∧ last_slash_or_end path ≤ place then _ else _) =
    (if walked.err = none ∧ walked.rest = [] then _ else _)
  simp only [complete]

end
end MutekVfsPath
