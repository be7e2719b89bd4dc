import Mathlib.Data.List.Nodup
import Mathlib.Logic.Function.Basic

/-!
Doubly linked lists with a head and a tail, and the single writes that appending and
removing consist of. A place is an element, or none for the list itself: the element
before the first one, and the one after the last one.
-/
namespace LibDoublyLinked
open List Function
variable {α : Type} [DecidableEq α]

structure Dlist (α : Type) where
  head : Option α
  tail : Option α
  next : α → Option α
  prev : α → Option α

def setNext (d : Dlist α) (place value : Option α) : Dlist α :=
  match place with
  | none => { d with head := value }
  | some x => { d with next := update d.next x value }

def setPrev (d : Dlist α) (place value : Option α) : Dlist α :=
  match place with
  | none => { d with tail := value }
  | some x => { d with prev := update d.prev x value }

/-- The pointers of an element that goes behind the last one. -/
def prepare (d : Dlist α) (x : α) : Dlist α :=
  { d with next := update d.next x none, prev := update d.prev x d.tail }

/-- The elements point to each other, in order, the first one back to `before`. -/
def Chain (next prev : α → Option α) : Option α → List α → Prop
  | _, [] => True
  | before, x :: xs => prev x = before ∧ next x = xs.head? ∧ Chain next prev (some x) xs

structure Represents (d : Dlist α) (xs : List α) : Prop where
  head : d.head = xs.head?
  tail : d.tail = xs.getLast?
  chain : Chain d.next d.prev none xs
  nodup : xs.Nodup

theorem chain_prev {next prev : α → Option α} {y : α} (v : Option α) {xs : List α} :
    ∀ {before}, Chain next prev before xs → y ∉ xs → Chain next (update prev y v) before xs := by
  induction xs with
  | nil =>
    intro _ _ _
    trivial
  | cons x xs ih => ?_
  intro before chain away
  have other : x ≠ y := by
    intro same
    rw [same] at away
    exact away (by simp)
  refine ⟨?_,chain.2.1,ih chain.2.2 fun later => away (.tail x later)⟩
  rw [update_of_ne other]
  exact chain.1

theorem chain_append {next prev : α → Option α} {x y : α} {xs : List α} :
    ∀ {before}, Chain next prev before xs → xs.Nodup → x ∉ xs → xs.getLast? = some y →
      Chain (update (update next x none) y (some x)) (update prev x (some y)) before
        (xs ++ [x]) := by
  induction xs with
  | nil =>
    intro _ _ _ _ last
    cases last
  | cons z zs ih => ?_
  intro before chain nodup away last
  rw [nodup_cons] at nodup
  have other : z ≠ x := by
    intro same
    rw [same] at away
    exact away (by simp)
  have back : update prev x (some y) z = before := by
    rw [update_of_ne other]
    exact chain.1
  cases zs with
  | nil =>
    -- the new element comes behind `z`
    rw [List.getLast?_singleton, Option.some.injEq] at last
    subst last
    refine ⟨back,?_,?_,?_,trivial⟩
    · simp
    · simp
    · rw [update_of_ne (Ne.symm other), update_self]
      rfl
  | cons u us =>
    have end' : (u :: us).getLast? = some y := by
      exact last
    have later : y ∈ u :: us := mem_of_getLast? end'
    have apart : z ≠ y := by
      intro same
      rw [same] at nodup
      exact nodup.1 later
    refine ⟨back,?_,ih chain.2.2 nodup.2 (fun member => away (.tail z member)) end'⟩
    rw [update_of_ne apart, update_of_ne other]
    exact chain.2.1

theorem append_represents {d : Dlist α} {xs : List α} (rep : Represents d xs) {x : α}
    (away : x ∉ xs) :
    Represents (setPrev (setNext (prepare d x) d.tail (some x)) none (some x)) (xs ++ [x]) := by
  have nodup : (xs ++ [x]).Nodup := by
    rw [nodup_append]
    refine ⟨rep.nodup,nodup_singleton x,?_⟩
    intro a member b single same
    rw [mem_singleton.mp single] at same
    rw [same] at member
    exact away member
  cases last : xs.getLast? with
  | none =>
    have empty : xs = [] := List.getLast?_eq_none_iff.mp last
    have tail : d.tail = none := rep.tail.trans last
    rw [empty, tail]
    refine ⟨rfl,rfl,⟨?_,?_,trivial⟩,by simp⟩
    · simp [setPrev, setNext, prepare, tail]
    · simp [setPrev, setNext, prepare]
  | some y =>
    have tail : d.tail = some y := rep.tail.trans last
    rw [tail]
    refine ⟨?_,?_,?_,nodup⟩
    · cases xs with
      | nil => cases last
      | cons z zs => exact rep.head
    · simp [setPrev]
    · simp only [prepare, tail]
      exact chain_append rep.chain rep.nodup away last

theorem remove_represents {d : Dlist α} {x : α} {xs : List α} (rep : Represents d (x :: xs)) :
    Represents (setPrev (setNext d (d.prev x) (d.next x)) (d.next x) (d.prev x)) xs := by
  obtain ⟨back,forth,chain⟩ := rep.chain
  have nodup := nodup_cons.mp rep.nodup
  rw [back, forth]
  cases xs with
  | nil => exact ⟨rfl,rfl,trivial,nodup_nil⟩
  | cons y ys => ?_
  have rest := nodup_cons.mp nodup.2
  refine ⟨rfl,?_,⟨?_,chain.2.1,chain_prev none chain.2.2 rest.1⟩,nodup.2⟩
  · have tail := rep.tail
    exact tail
  · simp [setPrev]

end LibDoublyLinked
