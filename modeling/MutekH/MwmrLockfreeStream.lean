import MutekH.MwmrLockfree
import MutekH.Lib.Ring
import Mathlib.Data.List.Perm.Subperm

/-!
The lock-free units make one stream. In stream numbers the words are in order,
`given .data ≤ heads .data ≤ given .free ≤ heads .free ≤ given .data + gdepth`, so the
numbers in use at any moment lie within `gdepth` of each other: a ring index or a
head determines its number, and a compare-and-swap on a head cannot succeed a lap
too early.
-/
namespace MutekMwmrLockfreeStream
open Function List LibMachine LibTally LibRing MutekMwmrLockfree

def lead (gdepth : Nat) : Side → Nat
  | .data => 0
  | .free => gdepth

/-- What a unit has taken from the size of `d` without having a place yet, or has moved
    the head of `d` by without having added it to the size. -/
def weight (d : Side) : Pc → Nat
  | .wrapLoad e x | .wrapSwap e x _ => if e = d then x else 0
  | .addLoad e x _ | .addSwap e x _ _ => if e.other = d then x else 0
  | _ => 0

/-- The side, first number and size of a unit that has its place. -/
def numbers : Pc → Option (Side × Nat × Nat)
  | .copy d x _ first _ | .headSwap d x _ first | .addLoad d x first | .addSwap d x first _ =>
    some (d, first, x)
  | _ => none

def holds : Pc → Option (Side × Nat × Nat)
  | .copy d x _ first _ | .headSwap d x _ first => some (d, first, x)
  | _ => none

section
variable {T B : Type} {gdepth : Nat} {s : State T B} {t : T}

/-- The numbers of a unit lie between the head of the other side and the tail. -/
structure Placed (gdepth : Nat) (s : State T B) (t : T) (d : Side) (x ptr first : Nat) : Prop where
  some_bytes : 0 < x
  ptr : ptr = first % gdepth
  low : s.heads d.other ≤ first + lead gdepth d.other
  high : first + x ≤ s.given d
  text : d = .free → ∀ k < x, s.written[first + k]? = some (s.user t k)

structure Copied (gdepth : Nat) (s : State T B) (t : T) (d : Side) (i k : Nat) : Prop where
  logged : ⟨d, i, i % gdepth⟩ ∈ s.log
  value : s.written[i]? = some (s.user t k)
  ring : d = .free → s.buffer (i % gdepth) = s.user t k

/-- What holds of a thread at the point `p`. -/
def At (gdepth : Nat) (s : State T B) (t : T) : Pc → Prop
  | .idle | .subLoad _ _ => True
  | .subSwap _ user_len oldval => 0 < sub_minz oldval user_len
  | .wrapLoad _ x | .wrapSwap _ x _ => 0 < x
  | .copy d x ptr first copied =>
    Placed gdepth s t d x ptr first ∧ copied.Nodup ∧
    (∀ k ∈ copied, k < x ∧ Copied gdepth s t d (first + k) k) ∧
    ∀ k < x, k ∉ copied → ∀ e ∈ s.log, e.side = d → e.number ≠ first + k
  | .headSwap d x ptr first =>
    Placed gdepth s t d x ptr first ∧ ∀ k < x, Copied gdepth s t d (first + k) k
  | .addLoad d x first | .addSwap d x first _ =>
    first + x ≤ s.given d ∧ ∀ k < x, s.written[first + k]? = some (s.user t k) ∧
      ⟨d, first + k, (first + k) % gdepth⟩ ∈ s.log

def Different (p q : Pc) : Prop :=
  ∀ d f x f' x', numbers p = some (d, f, x) → numbers q = some (d, f', x') →
    f + x ≤ f' ∨ f' + x' ≤ f

def DifferentDone (p : Pc) (u : Done B) : Prop :=
  ∀ f x, numbers p = some (u.side, f, x) → f + x ≤ u.first ∨ u.first + u.bytes.length ≤ f

structure Inv (gdepth : Nat) (s : State T B) : Prop where
  at_point : ∀ t, At gdepth s t (s.pc t)
  different : ∀ t u, t ≠ u → Different (s.pc t) (s.pc u)
  balance : ∀ d, ∃ n, Tally (fun t => weight d (s.pc t)) n ∧
    s.status.size d + s.given d + n = s.heads d
  heads_data : s.heads .data ≤ s.given .free
  heads_free : s.heads .free ≤ s.given .data + gdepth
  tail : ∀ d, s.status.tail d = s.given d % gdepth
  head : ∀ d, s.status.head d = s.heads d % gdepth
  length : s.written.length = s.given .free
  ring : ∀ i, s.heads .free ≤ i + gdepth → i < s.heads .data →
    s.written[i]? = some (s.buffer (i % gdepth))
  passed : ∀ d i, i + lead gdepth d.other < s.heads d.other → ⟨d, i, i % gdepth⟩ ∈ s.log
  logged : ∀ e ∈ s.log, e.number < s.given e.side
  ordered : Ordered gdepth s.log
  returned : ∀ u ∈ s.completed, u.first + u.bytes.length ≤ s.given u.side ∧
    ∀ k < u.bytes.length, s.written[u.first + k]? = u.bytes[k]? ∧
      ⟨u.side, u.first + k, (u.first + k) % gdepth⟩ ∈ s.log
  once : s.completed.Pairwise Apart
  different_done : ∀ t, ∀ u ∈ s.completed, DifferentDone (s.pc t) u

theorem given_le_heads (inv : Inv gdepth s) (d : Side) : s.given d ≤ s.heads d := by
  obtain ⟨n,_,sum⟩ := inv.balance d
  omega

theorem heads_le (inv : Inv gdepth s) (d : Side) : s.heads d ≤ s.given d + gdepth := by
  have data := given_le_heads inv .data
  have free := given_le_heads inv .free
  have := inv.heads_data
  have := inv.heads_free
  cases d <;> omega

theorem word_of_le (small : n < 2 ^ 32) : word n = n := Nat.mod_eq_of_lt small

section words
variable {ptr x : Nat} (lower : ptr < gdepth) (depth : gdepth ≤ 2 ^ 31) (size : x ≤ gdepth)
include lower depth size

theorem cell_eq_mod (inside : k < x) : cell gdepth ptr x k = (ptr + k) % gdepth := by
  unfold cell
  rw [word_of_le (by omega)]
  split
  · split
    · rw [Nat.mod_eq_of_lt (by omega)]
    · have wrap : ptr + k = k - (gdepth - ptr) + gdepth := by omega
      rw [wrap, Nat.add_mod_right, Nat.mod_eq_of_lt (by omega)]
  · rw [Nat.mod_eq_of_lt (by omega)]

theorem future_ptr_eq_mod : future_ptr gdepth ptr x = (ptr + x) % gdepth := by
  unfold future_ptr
  rw [word_of_le (by omega)]
  split
  · have wrap : ptr + x = x - (gdepth - ptr) + gdepth := by omega
    rw [wrap, Nat.add_mod_right, Nat.mod_eq_of_lt (by omega)]
  · split
    · rename_i full
      rw [full, Nat.mod_self]
    · rw [Nat.mod_eq_of_lt (by omega)]

theorem add_wrap_eq_mod : add_wrap ptr x gdepth = (ptr + x) % gdepth := by
  unfold add_wrap
  rw [word_of_le (by omega)]
  split
  · rw [Nat.mod_eq_sub_mod (by omega), Nat.mod_eq_of_lt (by omega)]
  · rw [Nat.mod_eq_of_lt (by omega)]

end words

theorem at_frame (old : At gdepth s t p)
    (user : s'.user t = s.user t) (given : ∀ d, s.given d ≤ s'.given d)
    (written : ∀ (i : Nat) b, s.written[i]? = some b → s'.written[i]? = some b)
    (log : ∀ e ∈ s.log, e ∈ s'.log)
    (fresh : ∀ e ∈ s'.log, e ∈ s.log ∨ ∀ d f x, holds p = some (d, f, x) → e.side = d →
      e.number < f ∨ f + x ≤ e.number)
    (low : ∀ d f x, holds p = some (d, f, x) → s.heads d.other ≤ f + lead gdepth d.other →
      s'.heads d.other ≤ f + lead gdepth d.other)
    (ring : ∀ f x i, holds p = some (.free, f, x) → f ≤ i → i < f + x →
      s'.buffer (i % gdepth) = s.buffer (i % gdepth)) : At gdepth s' t p := by
  have placed : ∀ {d x ptr first}, holds p = some (d, first, x) →
      Placed gdepth s t d x ptr first → Placed gdepth s' t d x ptr first := by
    intro d x ptr first point before
    constructor
    · exact before.some_bytes
    · exact before.ptr
    · exact low d first x point before.low
    · exact Nat.le_trans before.high (given d)
    · intro side k inside
      rw [user]
      exact written _ _ (before.text side k inside)
  have copied : ∀ {d x first k}, holds p = some (d, first, x) → k < x →
      Copied gdepth s t d (first + k) k → Copied gdepth s' t d (first + k) k := by
    intro d x first k point inside before
    constructor
    · exact log _ before.logged
    · rw [user]
      exact written _ _ before.value
    · rintro rfl
      rw [user, ring first x (first + k) point (by omega) (by omega)]
      exact before.ring rfl
  have added : ∀ {d x first}, (first + x ≤ s.given d ∧ ∀ k < x,
      s.written[first + k]? = some (s.user t k) ∧ ⟨d,first + k,(first + k) % gdepth⟩ ∈ s.log) →
      first + x ≤ s'.given d ∧ ∀ k < x, s'.written[first + k]? = some (s'.user t k) ∧
        ⟨d,first + k,(first + k) % gdepth⟩ ∈ s'.log := by
    rintro d x first ⟨high,read⟩
    refine ⟨Nat.le_trans high (given d),?_⟩
    intro k inside
    rw [user]
    exact ⟨written _ _ (read k inside).1,log _ (read k inside).2⟩
  cases p with
  | idle | subLoad d user_len => trivial
  | subSwap d user_len oldval | wrapLoad d x | wrapSwap d x oldval => exact old
  | copy d x ptr first done =>
    obtain ⟨place,nodup,finished,left⟩ := old
    refine ⟨placed rfl place,nodup,?_,?_⟩
    · intro k member
      exact ⟨(finished k member).1,copied rfl (finished k member).1 (finished k member).2⟩
    · intro k inside absent e member side same
      rcases fresh e member with before | away
      · exact left k inside absent e before side same
      · rcases away d first x rfl side with below | above <;> omega
  | headSwap d x ptr first =>
    exact ⟨placed rfl old.1,fun k inside => copied rfl inside (old.2 k inside)⟩
  | addLoad d x first | addSwap d x first oldval => exact added old

theorem holds_placed (inv : Inv gdepth s) {d : Side} {f x : Nat}
    (point : holds (s.pc t) = some (d, f, x)) : ∃ ptr, Placed gdepth s t d x ptr f := by
  have here := inv.at_point t
  cases p : s.pc t with
  | copy e y ptr first copied | headSwap e y ptr first =>
    rw [p] at point here
    obtain ⟨rfl,rfl,rfl⟩ : e = d ∧ first = f ∧ y = x := by simpa [holds] using point
    exact ⟨ptr,here.1⟩
  | _ => simp [p, holds] at point

section
variable {first ptr x : Nat} {d : Side} (inv : Inv gdepth s)
  (placed : Placed gdepth s t d x ptr first)
include inv placed

theorem placed_fits : first + x + lead gdepth d.other ≤ s.heads d.other + gdepth := by
  have high := placed.high
  have data := given_le_heads inv .data
  have free := given_le_heads inv .free
  have := inv.heads_data
  have := inv.heads_free
  cases d with
  | data | free =>
    simp only [Side.other, lead]
    omega

theorem head_reaches (found : s.status.head d.other = ptr) :
    s.heads d.other = first + lead gdepth d.other := by
  have fits := placed_fits inv placed
  have bytes := placed.some_bytes
  have residue : s.heads d.other % gdepth = (first + lead gdepth d.other) % gdepth := by
    rw [← inv.head d.other, found, placed.ptr]
    cases d with
    | data | free => simp [Side.other, lead]
  exact same_cell placed.low (by omega) residue

end

theorem numbers_of_holds (point : holds p = some u) : numbers p = some u := by
  cases p <;> simp_all [holds, numbers]

theorem numbers_high (inv : Inv gdepth s) {d : Side} {f x : Nat}
    (point : numbers (s.pc t) = some (d, f, x)) : f + x ≤ s.given d := by
  have here := inv.at_point t
  cases p : s.pc t with rw [p] at point here
  | copy e y ptr first copied | headSwap e y ptr first =>
    obtain ⟨rfl,rfl,rfl⟩ : e = d ∧ first = f ∧ y = x := by simpa [numbers] using point
    exact here.1.high
  | addLoad e y first | addSwap e y first oldval =>
    obtain ⟨rfl,rfl,rfl⟩ : e = d ∧ first = f ∧ y = x := by simpa [numbers] using point
    exact here.1
  | _ => simp [numbers] at point

theorem different_of_numbers (same : numbers b = numbers p ∨ numbers b = none)
    (h : Different p q) : Different b q := by
  intro d f x f' x' left right
  rcases same with same | none
  · rw [same] at left
    exact h d f x f' x' left right
  · rw [none] at left
    contradiction

theorem different_done_of_numbers
    (same : numbers b = numbers p ∨ numbers b = none) (h : DifferentDone p u) :
    DifferentDone b u := by
  intro f x point
  rcases same with same | none
  · rw [same] at point
    exact h f x point
  · rw [none] at point
    contradiction

theorem unitBytes_length (n : Nat) : (unitBytes s t n).length = n := by
  simp [unitBytes]

theorem unitBytes_getElem (inside : k < n) : (unitBytes s t n)[k]? = some (s.user t k) := by
  simp [unitBytes, inside]

theorem completed_inv (inv : Inv gdepth s) (u : Done B)
    (high : u.first + u.bytes.length ≤ s.given u.side)
    (read : ∀ k < u.bytes.length, s.written[u.first + k]? = u.bytes[k]? ∧
      ⟨u.side, u.first + k, (u.first + k) % gdepth⟩ ∈ s.log)
    (apart : ∀ v ∈ s.completed, Apart u v) (active : ∀ x, DifferentDone (s.pc x) u) :
    Inv gdepth { s with completed := u :: s.completed } :=
  { inv with
    at_point := fun x => at_frame (inv.at_point x) rfl (fun _ => Nat.le_refl _)
      (fun _ _ known => known) (fun _ old => old) (fun _ old => .inl old)
      (fun _ _ _ _ low => low) (fun _ _ _ _ _ _ => rfl)
    returned := by
      intro v member
      rcases mem_cons.mp member with rfl | old
      · exact ⟨high,read⟩
      · exact inv.returned v old
    once := pairwise_cons.mpr ⟨apart,inv.once⟩
    different_done := by
      intro x v member
      rcases mem_cons.mp member with rfl | old
      · exact active x
      · exact inv.different_done x v old }

variable [DecidableEq T]

theorem at_update (moved : s'.pc = update s.pc t b)
    (here : At gdepth s' t b) (others : ∀ x, x ≠ t → At gdepth s' x (s.pc x)) :
    ∀ x, At gdepth s' x (s'.pc x) := by
  rw [moved]
  exact (forall_update_iff s.pc (fun x p => At gdepth s' x p)).mpr ⟨here,others⟩

section
variable (inv : Inv gdepth s)
include inv

theorem different_update (new : ∀ u, u ≠ t → Different b (s.pc u)) :
    ∀ x y, x ≠ y → Different (update s.pc t b x) (update s.pc t b y) := by
  intro x y apart
  by_cases left : x = t
  · subst left
    rw [update_self, update_of_ne apart.symm]
    exact new y apart.symm
  rw [update_of_ne left]
  by_cases right : y = t
  · subst right
    rw [update_self]
    intro d f n f' n' first second
    exact (new x left d f' n' f n second first).symm
  · rw [update_of_ne right]
    exact inv.different x y apart

theorem different_done_update (new : ∀ u ∈ s.completed, DifferentDone b u) :
    ∀ x, ∀ u ∈ s.completed, DifferentDone (update s.pc t b x) u := by
  rw [forall_update_iff s.pc (fun _ p => ∀ u ∈ s.completed, DifferentDone p u)]
  exact ⟨new,fun x _ => inv.different_done x⟩

theorem quiet_inv (size : Side → Nat) (user : T → Nat → B)
    (others : ∀ x, x ≠ t → user x = s.user x) (here : At gdepth { s with user := user } t b)
    (same : numbers b = numbers (s.pc t) ∨ numbers b = none)
    (change : ∀ d n, weight d (s.pc t) ≤ n → s.status.size d + s.given d + n = s.heads d →
      ∃ m, n + weight d b = m + weight d (s.pc t) ∧ size d + s.given d + m = s.heads d) :
    Inv gdepth { s with
      status := { s.status with size := size }
      user := user
      pc := update s.pc t b } where
  at_point := by
    apply at_update rfl
    · exact at_frame here rfl (fun _ => Nat.le_refl _) (fun _ _ known => known) (fun _ old => old)
        (fun _ old => .inl old) (fun _ _ _ _ low => low) (fun _ _ _ _ _ _ => rfl)
    · intro x other
      exact at_frame (inv.at_point x) (others x other) (fun _ => Nat.le_refl _)
        (fun _ _ known => known) (fun _ old => old) (fun _ old => .inl old)
        (fun _ _ _ _ low => low) (fun _ _ _ _ _ _ => rfl)
  different := different_update inv fun u other =>
    different_of_numbers same (inv.different t u other.symm)
  balance := by
    intro d
    obtain ⟨n,tally,sum⟩ := inv.balance d
    obtain ⟨m,moved,after⟩ := change d n (tally_le tally t) sum
    exact ⟨m,tally_move tally t moved,after⟩
  heads_data := inv.heads_data
  heads_free := inv.heads_free
  tail := inv.tail
  head := inv.head
  length := inv.length
  ring := inv.ring
  passed := inv.passed
  logged := inv.logged
  ordered := inv.ordered
  returned := inv.returned
  once := inv.once
  different_done := different_done_update inv fun u member =>
    different_done_of_numbers same (inv.different_done t u member)

theorem goto_inv (here : At gdepth s t b) (same : numbers b = numbers (s.pc t) ∨ numbers b = none)
    (weights : ∀ d, weight d b = weight d (s.pc t)) : Inv gdepth (goto s t b) := by
  apply quiet_inv inv s.status.size s.user (fun _ _ => rfl) here same
  intro d n _ sum
  exact ⟨n,by rw [weights d],sum⟩

attribute [local simp] weight

theorem subSwap_inv {d : Side}
    (point : s.pc t = .subSwap d user_len oldval) (found : s.status.size d = oldval) :
    Inv gdepth (goto (setSize s d (oldval - sub_minz oldval user_len)) t
      (.wrapLoad d (sub_minz oldval user_len))) := by
  have here := inv.at_point t
  rw [point] at here
  have bound : sub_minz oldval user_len ≤ oldval := by
    unfold sub_minz
    split <;> omega
  refine quiet_inv inv _ s.user (fun _ _ => rfl) here (.inr rfl) ?_
  intro e n _ sum
  rw [point]
  by_cases same : d = e
  · subst same
    refine ⟨n + sub_minz oldval user_len,by simp,?_⟩
    rw [update_self]
    omega
  · refine ⟨n,by simp [same],?_⟩
    rw [update_of_ne (Ne.symm same)]
    exact sum

theorem finish_inv (depth : gdepth ≤ 2 ^ 31) {d : Side} {x first oldval : Nat}
    (point : s.pc t = .addSwap d x first oldval) (found : s.status.size d.other = oldval) :
    Inv gdepth (finish s t d x first oldval) := by
  have here := inv.at_point t
  rw [point] at here
  obtain ⟨high,read⟩ := here
  have quiet : Inv gdepth (goto (setSize s d.other (word (oldval + x))) t .idle) := by
    refine quiet_inv inv _ s.user (fun _ _ => rfl) trivial (.inr rfl) ?_
    intro e n counted sum
    rw [point] at counted ⊢
    by_cases same : d.other = e
    · subst same
      simp only [weight, if_true] at counted
      have room := heads_le inv d.other
      refine ⟨n - x,by simp only [weight, if_true]; omega,?_⟩
      rw [update_self, word_of_le (by omega)]
      omega
    · refine ⟨n,by simp [same],?_⟩
      rw [update_of_ne (Ne.symm same)]
      exact sum
  have mine : numbers (s.pc t) = some (d, first, x) := by
    rw [point]
    rfl
  refine completed_inv quiet ⟨d,first,unitBytes s t x⟩ ?_ ?_ ?_ ?_
  · rw [unitBytes_length]
    exact high
  · intro k inside
    have inside : k < x := by simpa [unitBytes_length] using inside
    exact ⟨(read k inside).1.trans (unitBytes_getElem inside).symm,(read k inside).2⟩
  · intro v member side
    subst side
    simpa [unitBytes_length] using inv.different_done t v member first x mine
  intro y
  by_cases same : y = t
  · subst same
    intro f z numbered
    simp [goto, numbers] at numbered
  · intro f z numbered
    simp only [goto, update_of_ne same] at numbered
    simpa [unitBytes_length] using
      (inv.different t y (Ne.symm same) d first x f z mine numbered).symm

section
variable (positive : 0 < gdepth) (depth : gdepth ≤ 2 ^ 31)
include positive depth

attribute [local simp] takePlace

theorem takePlace_inv {d : Side}
    {x oldval : Nat} (point : s.pc t = .wrapSwap d x oldval) (found : s.status.tail d = oldval) :
    Inv gdepth (takePlace gdepth s t d x oldval) := by
  have here := inv.at_point t
  rw [point] at here
  have some_bytes : 0 < x := here
  have place : oldval = s.given d % gdepth := by rw [← found, inv.tail d]
  have size : x ≤ gdepth := by
    obtain ⟨n,tally,sum⟩ := inv.balance d
    have counted := tally_le tally t
    simp only [point, weight, if_true] at counted
    have room := heads_le inv d
    omega
  have grows : ∀ e, s.given e ≤ (takePlace gdepth s t d x oldval).given e := by
    intro e
    by_cases same : e = d
    · subst same
      simp
    · simp [same]
  have extends_ : ∀ (i : Nat) b, s.written[i]? = some b →
      (takePlace gdepth s t d x oldval).written[i]? = some b := by
    intro i b known
    cases d with
    | data => exact known
    | free => ?_
    obtain ⟨inside,_⟩ := List.getElem?_eq_some_iff.mp known
    simp only [takePlace]
    rw [List.getElem?_append_left inside]
    exact known
  have above : ∀ u f y, numbers (s.pc u) = some (d, f, y) → f + y ≤ s.given d :=
    fun u f y numbered => numbers_high inv numbered
  constructor
  · apply at_update rfl
    · refine ⟨⟨some_bytes,place,?_,?_,?_⟩,nodup_nil,by simp,?_⟩
      · cases d with
        | data => exact inv.heads_free
        | free => exact inv.heads_data
      · simp
      · rintro rfl k inside
        have start : s.given .free + k = s.written.length + k := by rw [inv.length]
        simp only [takePlace]
        rw [start, List.getElem?_append_right (by omega), Nat.add_sub_cancel_left]
        exact unitBytes_getElem inside
      · intro k _ _ e member side same
        have below := inv.logged e member
        rw [side] at below
        omega
    · intro u other
      exact at_frame (inv.at_point u) rfl grows extends_ (fun _ old => old)
        (fun _ old => .inl old) (fun _ _ _ _ low => low) (fun _ _ _ _ _ _ => rfl)
  · apply different_update inv
    intro u _ e f y f' y' left right
    obtain ⟨rfl,rfl,rfl⟩ : d = e ∧ s.given d = f ∧ x = y := by simpa [numbers] using left
    exact .inr (above u f' y' right)
  · intro e
    obtain ⟨n,tally,sum⟩ := inv.balance e
    by_cases same : d = e
    · subst same
      have counted := tally_le tally t
      simp only [point, weight, if_true] at counted
      refine ⟨n - x,tally_move tally t ?_,?_⟩
      · simp only [point, weight, if_true]
        omega
      · simp only [takePlace, update_self]
        omega
    · refine ⟨n,tally_move tally t (by simp [point, same]),?_⟩
      simpa [Ne.symm same] using sum
  · exact Nat.le_trans inv.heads_data (grows .free)
  · have := grows .data
    exact Nat.le_trans inv.heads_free (by omega)
  · intro e
    by_cases same : e = d
    · subst same
      simp only [takePlace, update_self, place]
      rw [add_wrap_eq_mod (Nat.mod_lt _ positive) depth size, Nat.mod_add_mod]
    · simpa [same] using inv.tail e
  · exact inv.head
  · cases d with
    | data => simpa using inv.length
    | free => simp [inv.length, unitBytes_length]
  · intro i low high
    exact extends_ i _ (inv.ring i low high)
  · exact inv.passed
  · intro e member
    exact Nat.lt_of_lt_of_le (inv.logged e member) (grows e.side)
  · exact inv.ordered
  · intro u member
    obtain ⟨high,read⟩ := inv.returned u member
    refine ⟨Nat.le_trans high (grows u.side),?_⟩
    intro k inside
    have known : s.written[u.first + k]? = some u.bytes[k] := by
      rw [(read k inside).1, List.getElem?_eq_getElem inside]
    refine ⟨?_,(read k inside).2⟩
    rw [extends_ _ _ known, List.getElem?_eq_getElem inside]
  · exact inv.once
  · apply different_done_update inv
    intro u member f y numbered
    obtain ⟨rfl,rfl,rfl⟩ : d = u.side ∧ s.given d = f ∧ x = y := by
      simpa [numbers] using numbered
    exact .inr (inv.returned u member).1

omit positive depth in
theorem copy_inv {d : Side} {x ptr first k : Nat} (point : s.pc t = .copy d x ptr first copied)
    (inside : k < x) (absent : k ∉ copied) (buffer : Nat → B) (user : T → Nat → B)
    (others : ∀ u, u ≠ t → user u = s.user u) (own : ∀ j, j ≠ k → user t j = s.user t j)
    (value : s.written[first + k]? = some (user t k))
    (stored : d = .free → buffer ((first + k) % gdepth) = user t k)
    (elsewhere : ∀ i, i % gdepth ≠ (first + k) % gdepth →
      buffer (i % gdepth) = s.buffer (i % gdepth))
    (untouched : d = .data → buffer = s.buffer) :
    Inv gdepth { s with
      pc := update s.pc t (.copy d x ptr first (k :: copied))
      log := ⟨d, first + k, (first + k) % gdepth⟩ :: s.log
      buffer := buffer
      user := user } := by
  have here := inv.at_point t
  rw [point] at here
  obtain ⟨placed,nodup,finished,left⟩ := here
  have fits := placed_fits inv placed
  have low := placed.low
  have high := placed.high
  have mine : numbers (s.pc t) = some (d, first, x) := by
    rw [point]
    rfl
  have kept : ∀ {d' : Side} {f y i u : _}, u ≠ t → holds (s.pc u) = some (d', f, y) → f ≤ i →
      i < f + y → d' = d → i ≠ first + k := by
    rintro d' f y i u other held lower upper rfl rfl
    rcases inv.different t u (Ne.symm other) d' first x f y mine (numbers_of_holds held) with h | h
    · omega
    · omega
  constructor
  · apply at_update rfl
    · refine ⟨⟨placed.some_bytes,placed.ptr,low,high,?_⟩,nodup_cons.mpr ⟨absent,nodup⟩, ?_,?_⟩
      · intro side j within
        by_cases same : j = k
        · rw [same]
          exact value
        · simp only [own j same]
          exact placed.text side j within
      · intro j member
        by_cases same : j = k
        · subst same
          exact ⟨inside,mem_cons_self,value,stored⟩
        have old := finished j (mem_of_ne_of_mem same member)
        refine ⟨old.1,.tail _ old.2.logged,?_,?_⟩
        · simp only [own j same]
          exact old.2.value
        intro side
        have differs : (first + j) % gdepth ≠ (first + k) % gdepth := by
          intro same_cells
          rcases Nat.le_total j k with less | more
          · have := same_cell (by omega) (by omega) same_cells
            omega
          · have := same_cell (by omega) (by omega) same_cells.symm
            omega
        simp only [own j same, elsewhere _ differs]
        exact old.2.ring side
      · intro j within missing e member side
        rcases mem_cons.mp member with rfl | old
        · intro same
          have : k = j := by
            simp only at same
            omega
          exact missing (by simp [this])
        · exact left j within (fun before => missing (.tail _ before)) e old side
    · intro u other
      refine at_frame (inv.at_point u) (others u other) (fun _ => Nat.le_refl _)
        (fun _ _ known => known) (fun _ old => .tail _ old) ?_
        (fun _ _ _ _ low => low) ?_
      · intro e member
        rcases mem_cons.mp member with rfl | old
        · apply Or.inr
          intro d' f y held side
          by_contra between
          exact kept other held (by simp only at between; omega)
            (by simp only at between; omega) side.symm rfl
        · exact .inl old
      intro f y i held lower upper
      cases side : d with
      | data => rw [untouched side]
      | free => ?_
      subst side
      have number := kept other held lower upper rfl
      obtain ⟨_,owner⟩ := holds_placed inv held
      have their_fits := placed_fits inv owner
      have their_low := owner.low
      apply elsewhere
      intro same
      rcases Nat.le_total i (first + k) with less | more
      · exact number (same_cell less (by omega) same)
      · exact number (same_cell more (by omega) same.symm).symm
  · apply different_update inv
    intro u other
    exact different_of_numbers (.inl mine.symm) (inv.different t u (Ne.symm other))
  · intro e
    obtain ⟨n,tally,sum⟩ := inv.balance e
    exact ⟨n,tally_move tally t (by simp [point]),sum⟩
  · exact inv.heads_data
  · exact inv.heads_free
  · exact inv.tail
  · exact inv.head
  · exact inv.length
  · intro i lower upper
    rw [inv.ring i lower upper]
    cases side : d with
    | data => rw [untouched side]
    | free => ?_
    subst side
    have := given_le_heads inv .free
    simp only [Side.other, lead] at fits low
    simp only at lower upper
    have differs : i % gdepth ≠ (first + k) % gdepth := by
      intro same
      have := same_cell (by omega) (by omega) same
      omega
    simp [elsewhere i differs]
  · intro e i passed
    exact .tail _ (inv.passed e i passed)
  · intro e member
    rcases mem_cons.mp member with rfl | old
    · simp only
      omega
    · exact inv.logged e old
  · refine ⟨rfl,left k inside absent,?_,inv.ordered⟩
    cases side : d with
    | data =>
      subst side
      have := given_le_heads inv .data
      exact inv.passed .free (first + k) (by simp only [Side.other, lead]; omega)
    | free => ?_
    subst side
    intro lap
    have lap : gdepth ≤ first + k := lap
    have := given_le_heads inv .free
    have before := inv.passed .data (first + k - gdepth) (by simp only [Side.other, lead]; omega)
    rw [← Nat.mod_eq_sub_mod lap] at before
    exact before
  · intro u member
    obtain ⟨bound,read⟩ := inv.returned u member
    exact ⟨bound,fun j within => ⟨(read j within).1,.tail _ (read j within).2⟩⟩
  · exact inv.once
  · apply different_done_update inv
    intro u member
    exact different_done_of_numbers (.inl mine.symm) (inv.different_done t u member)

theorem copyByte_inv (can : CanCopy (s.pc t) k) : Inv gdepth (copyByte gdepth s t k) := by
  cases point : s.pc t with
  | copy d x ptr first copied =>
    rw [point] at can
    obtain ⟨inside,absent⟩ := can
    have here := inv.at_point t
    rw [point] at here
    have placed := here.1
    have fits := placed_fits inv placed
    have low := placed.low
    have index : cell gdepth ptr x k = (first + k) % gdepth := by
      rw [placed.ptr, cell_eq_mod (Nat.mod_lt _ positive) depth (by omega) inside, Nat.mod_add_mod]
    simp only [copyByte, point, index]
    cases d with
    | free =>
      refine copy_inv inv point inside absent _ s.user (fun _ _ => rfl) (fun _ _ => rfl)
        (placed.text rfl k inside) ?_ ?_ (by simp)
      · intro _
        exact update_self ..
      · intro i differs
        exact update_of_ne differs ..
    | data =>
      have high := placed.high
      have below := given_le_heads inv .data
      simp only [Side.other, lead] at low
      have byte := inv.ring (first + k) (by omega) (by omega)
      refine copy_inv inv point inside absent s.buffer _ ?_ ?_ ?_ (by simp) (fun _ _ => rfl)
        (fun _ => rfl)
      · intro u other
        exact update_of_ne other ..
      · intro j differs
        simp [goto, differs]
      · simpa [goto] using byte
  | _ => simp [point, CanCopy] at can

attribute [local simp] moveHead

theorem moveHead_inv {d : Side} {x ptr first : Nat} (point : s.pc t = .headSwap d x ptr first)
    (found : s.status.head d.other = ptr) : Inv gdepth (moveHead gdepth s t d x ptr first) := by
  have here := inv.at_point t
  rw [point] at here
  obtain ⟨placed,copied⟩ := here
  have reached := head_reaches inv placed found
  have fits := placed_fits inv placed
  have high := placed.high
  have mine : numbers (s.pc t) = some (d, first, x) := by
    rw [point]
    rfl
  constructor
  · apply at_update rfl
    · refine ⟨high,?_⟩
      intro k inside
      exact ⟨(copied k inside).value,(copied k inside).logged⟩
    intro u other
    refine at_frame (inv.at_point u) rfl (fun _ => Nat.le_refl _) (fun _ _ known => known)
      (fun _ old => old) (fun _ old => .inl old) ?_ (fun _ _ _ _ _ _ => rfl)
    intro e f y held low
    by_cases same : e = d
    · subst same
      -- the other units of this side have higher numbers
      obtain ⟨_,owner⟩ := holds_placed inv held
      have bytes := owner.some_bytes
      simp only [moveHead, update_self]
      rcases inv.different t u (Ne.symm other) e first x f y mine (numbers_of_holds held)
        with below | above
      · omega
      · omega
    · have apart : e.other ≠ d.other := by
        cases e <;> cases d <;> simp_all [Side.other]
      simpa [apart] using low
  · apply different_update inv
    intro u other
    exact different_of_numbers (.inl mine.symm) (inv.different t u (Ne.symm other))
  · intro e
    obtain ⟨n,tally,sum⟩ := inv.balance e
    by_cases same : d.other = e
    · subst same
      refine ⟨n + x,tally_move tally t (by simp [point]),?_⟩
      simp only [moveHead, update_self]
      omega
    · refine ⟨n,tally_move tally t (by simp [point, same]),?_⟩
      simpa [Ne.symm same] using sum
  · cases d with
    | data => simpa [Side.other] using inv.heads_data
    | free =>
      simp only [Side.other, lead] at reached
      simp only [moveHead, Side.other, update_self]
      omega
  · cases d with
    | free => simpa [Side.other] using inv.heads_free
    | data =>
      simp only [Side.other, lead] at reached
      simp only [moveHead, Side.other, update_self]
      omega
  · exact inv.tail
  · intro e
    by_cases same : e = d.other
    · subst same
      simp only [moveHead, update_self, reached, placed.ptr]
      rw [future_ptr_eq_mod (Nat.mod_lt _ positive) depth (by omega), Nat.mod_add_mod]
      cases d with
      | data =>
        simp only [Side.other, lead]
        rw [Nat.add_right_comm, Nat.add_mod_right]
      | free => simp [Side.other, lead]
    · simpa [same] using inv.head e
  · exact inv.length
  · intro i lower upper
    cases d with
    | data =>
      simp only [moveHead, Side.other, update_self] at lower
      exact inv.ring i (by omega) (by simpa [Side.other] using upper)
    | free => ?_
    simp only [moveHead, Side.other, update_self] at upper
    simp only [Side.other, lead] at reached
    by_cases old : i < s.heads .data
    · exact inv.ring i lower old
    · have new := copied (i - first) (by omega)
      rw [Nat.add_sub_cancel' (by omega)] at new
      exact new.value.trans (congrArg some (new.ring rfl).symm)
  · intro e i passed
    by_cases same : e = d
    · subst same
      simp only [moveHead, update_self] at passed
      by_cases old : i + lead gdepth e.other < s.heads e.other
      · exact inv.passed e i old
      · have new := copied (i - first) (by omega)
        rw [Nat.add_sub_cancel' (by omega)] at new
        exact new.logged
    · have apart : e.other ≠ d.other := by
        cases e <;> cases d <;> simp_all [Side.other]
      exact inv.passed e i (by simpa [apart] using passed)
  · exact inv.logged
  · exact inv.ordered
  · exact inv.returned
  · exact inv.once
  · apply different_done_update inv
    intro u member
    exact different_done_of_numbers (.inl mine.symm) (inv.different_done t u member)

theorem step_inv (can : CanStep (s.pc t)) : Inv gdepth (step gdepth s t) := by
  have here := inv.at_point t
  unfold step
  cases point : s.pc t with
  | idle => exact inv
  | subLoad d user_len =>
    simp only
    split
    · apply goto_inv inv
      · trivial
      · exact .inr rfl
      · simp [point]
    · rename_i some_bytes
      apply goto_inv inv
      · exact Nat.pos_of_ne_zero some_bytes
      · exact .inr rfl
      · simp [point]
  | subSwap d user_len oldval =>
    simp only
    split
    · rename_i found
      exact subSwap_inv inv point found
    · apply goto_inv inv
      · trivial
      · exact .inr rfl
      · simp [point]
  | wrapLoad d x =>
    rw [point] at here
    apply goto_inv inv
    · exact here
    · exact .inr rfl
    · simp [point]
  | wrapSwap d x oldval =>
    rw [point] at here
    simp only
    split
    · rename_i found
      exact takePlace_inv inv positive depth point found
    · apply goto_inv inv
      · exact here
      · exact .inr rfl
      · simp [point]
  | copy d x ptr first copied =>
    rw [point] at here can
    obtain ⟨placed,nodup,finished,_⟩ := here
    have all : copied.length = x := can
    -- as many different numbers below `x` as there are
    have every : copied.Perm (List.range x) := by
      apply (nodup.subperm _).perm_of_length_le
      · rw [length_range, all]
      · intro k member
        exact mem_range.mpr (finished k member).1
    apply goto_inv inv
    · refine ⟨placed,?_⟩
      intro k inside
      exact (finished k (every.mem_iff.mpr (mem_range.mpr inside))).2
    · exact .inl (by rw [point]; rfl)
    · simp [point]
  | headSwap d x ptr first =>
    simp only
    split
    · rename_i found
      exact moveHead_inv inv positive depth point found
    · exact inv
  | addLoad d x first =>
    rw [point] at here
    apply goto_inv inv
    · exact here
    · exact .inl (by rw [point]; rfl)
    · simp [point]
  | addSwap d x first oldval =>
    rw [point] at here
    simp only
    split
    · rename_i found
      exact finish_inv inv depth point found
    · apply goto_inv inv
      · exact here
      · exact .inl (by rw [point]; rfl)
      · simp [point]

theorem next_inv (a : Act T B) (can : Enabled s a) : Inv gdepth (next gdepth s a) := by
  cases a with
  | mwmr_read_unit t user_len =>
    have idle : s.pc t = .idle := can
    apply goto_inv inv
    · trivial
    · exact .inr rfl
    · simp [idle]
  | mwmr_write_unit t user_buffer user_len =>
    have idle : s.pc t = .idle := can
    refine quiet_inv inv s.status.size _ ?_ trivial (.inr rfl) ?_
    · intro x other
      exact update_of_ne other ..
    · intro d n _ sum
      exact ⟨n,by simp [idle],sum⟩
  | step t => exact step_inv inv positive depth can
  | copy t k => exact copyByte_inv inv positive depth can

end

end

omit [DecidableEq T] in
theorem boot_inv (h : Boot gdepth s) : Inv gdepth s := by
  obtain ⟨free,data,tail,head,idle,given,heads_data,heads_free,written,log,completed⟩ := h
  constructor
  · intro t
    rw [idle t]
    trivial
  · intro t u _ d f x f' x' point
    rw [idle t] at point
    contradiction
  · intro d
    refine ⟨0,tally_zero (fun t => by rw [idle t]; rfl),?_⟩
    cases d with
    | data => rw [data, given, heads_data]
    | free => rw [given]; omega
  · rw [heads_data]
    exact Nat.zero_le _
  · rw [heads_free]
    exact Nat.le_add_left _ _
  · intro d
    rw [tail, given, Nat.zero_mod]
  · intro d
    rw [head]
    cases d with
    | data => rw [heads_data, Nat.zero_mod]
    | free => rw [heads_free, Nat.mod_self]
  · rw [written, given]
    rfl
  · intro i _ below
    rw [heads_data] at below
    exact absurd below (Nat.not_lt_zero i)
  · intro d i passed
    cases d with
    | data =>
      simp only [Side.other, lead] at passed
      omega
    | free =>
      simp only [Side.other, heads_data] at passed
      exact absurd passed (Nat.not_lt_zero _)
  · simp [log]
  · rw [log]
    trivial
  · simp [completed]
  · simp [completed]
  · simp [completed]

theorem inv_reached (positive : 0 < gdepth) (depth : gdepth ≤ 2 ^ 31)
    (h : Reached (machine gdepth T B) s) : Inv gdepth s := by
  apply reached_invariant (Inv gdepth) _ _ h
  · intro s start
    exact boot_inv start
  · intro s a inv can
    exact next_inv inv positive depth a can

/-- Completed units carry the bytes of their stream numbers, no byte is read or written
    twice, and the copies of each byte and of each cell are in order. -/
theorem lockfree_units_streamed (positive : 1 ≤ gdepth) (depth : gdepth ≤ 2 ^ 31)
    (h : Reached (machine gdepth T B) s) : Streamed gdepth s := by
  have inv := inv_reached positive depth h
  have below : ∀ d, s.given d ≤ s.written.length := by
    intro d
    rw [inv.length]
    cases d with
    | data => exact Nat.le_trans (given_le_heads inv .data) inv.heads_data
    | free => exact Nat.le_refl _
  constructor
  · intro u member
    obtain ⟨high,read⟩ := inv.returned u member
    refine ⟨Nat.le_trans high (below u.side),?_⟩
    apply ext_getElem?
    intro k
    by_cases inside : k < u.bytes.length
    · rw [← (read k inside).1, List.getElem?_take_of_lt inside, List.getElem?_drop]
    · rw [List.getElem?_eq_none (by omega), List.getElem?_eq_none]
      rw [length_take]
      omega
  · exact inv.once
  · intro u member k inside
    exact ((inv.returned u member).2 k inside).2
  · exact inv.ordered

end

def empty : State Nat Nat where
  status := ⟨fun d => if d = .free then 2 else 0, fun _ => 0, fun _ => 0⟩
  buffer _ := 0
  pc _ := .idle
  user _ _ := 0
  given _ := 0
  heads d := if d = .free then 2 else 0
  written := []
  log := []
  completed := []

/-- Thread 0 offers three bytes, of which two fit; thread 1 takes one of them. -/
def transfer : List (Act Nat Nat) :=
  [.mwmr_write_unit 0 (fun k => k + 7) 3, .step 0, .step 0, .step 0, .step 0, .copy 0 1, .copy 0 0,
    .step 0, .step 0, .step 0, .step 0, .mwmr_read_unit 1 1, .step 1, .step 1, .step 1, .step 1,
    .copy 1 0, .step 1, .step 1, .step 1, .step 1]

theorem lockfree_units_streamed_transfer : Streamed 2 (after (machine 2 Nat Nat) empty transfer) ∧
    (after (machine 2 Nat Nat) empty transfer).completed.map Done.bytes = [[7], [7, 8]] := by
  constructor
  · apply lockfree_units_streamed (by decide) (by decide)
    apply reached_of_allowed (machine 2 Nat Nat) empty transfer
    · simp [machine, Boot, empty]
    · decide
  · decide

end MutekMwmrLockfreeStream
