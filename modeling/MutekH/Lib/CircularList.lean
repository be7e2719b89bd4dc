import MutekH.Lib.Memory
import Mathlib.Data.List.Nodup

/-!
Intrusive circular doubly linked lists in memory. An entry is two words, the
address of the next entry and of the previous one; the root of a list is an
entry too. `Ring` says which entries a list has, in order. The operations are
specified by what they do to the two words of every entry of a set of entries
that do not overlap, so that several lists can share one memory.
-/
namespace LibCircularList
open List LibMemory

section
variable {α : Type} {nx pv nx' pv' : α → α}

/-- The entries `xs` stand between `a` and `b`, linked both ways. -/
def Linked (nx pv : α → α) : α → List α → α → Prop
  | a, [], b => nx a = b ∧ pv b = a
  | a, x :: xs, b => nx a = x ∧ pv x = a ∧ Linked nx pv x xs b

theorem linked_append {a b c : α} {xs ys : List α} :
    Linked nx pv a (xs ++ c :: ys) b ↔ Linked nx pv a xs c ∧ Linked nx pv c ys b := by
  induction xs generalizing a with
  | nil => simp [Linked, and_assoc]
  | cons x xs ih => simp [Linked, ih, and_assoc]

section
variable {a b : α} {xs : List α} (linked : Linked nx pv a xs b)
include linked

theorem linked_congr (forward : ∀ z ∈ a :: xs, nx' z = nx z)
    (back : ∀ z ∈ xs ++ [b], pv' z = pv z) :
    Linked nx' pv' a xs b := by
  induction xs generalizing a with
  | nil =>
    obtain ⟨ahead,behind⟩ := linked
    exact ⟨(forward a (by simp)).trans ahead,(back b (by simp)).trans behind⟩
  | cons x xs ih => ?_
  obtain ⟨ahead,behind,rest⟩ := linked
  refine ⟨(forward a (by simp)).trans ahead,(back x (by simp)).trans behind,ih rest ?_ ?_⟩
  · intro z member
    exact forward z (.tail a member)
  · intro z member
    exact back z (.tail x member)

theorem linked_next_mem : ∀ z ∈ a :: xs, nx z ∈ xs ++ [b] := by
  induction xs generalizing a with
  | nil =>
    intro z member
    rw [mem_singleton] at member
    simp [member, linked.1]
  | cons x xs ih => ?_
  intro z member
  cases mem_cons.mp member with
  | inl same => simp [same, linked.1]
  | inr later => exact .tail x (ih linked.2.2 z later)

theorem linked_prev_mem : ∀ z ∈ xs ++ [b], pv z ∈ a :: xs := by
  induction xs generalizing a with
  | nil =>
    intro z member
    rw [nil_append, mem_singleton] at member
    simp [member, linked.2]
  | cons x xs ih => ?_
  intro z member
  cases mem_cons.mp member with
  | inl same => simp [same, linked.2.1]
  | inr later => exact .tail a (ih linked.2.2 z later)

end

variable [DecidableEq α]

theorem linked_insert {a b item : α} {xs : List α} (linked : Linked nx pv a xs b)
    (starts : (a :: xs).Nodup) (ends : (xs ++ [b]).Nodup) (fresh : item ∉ a :: xs ++ [b])
    (forward : ∀ z ∈ item :: a :: xs,
      nx' z = if z = a then item else if z = item then nx a else nx z)
    (back : ∀ z ∈ item :: xs ++ [b],
      pv' z = if z = nx a then item else if z = item then a else pv z) :
    Linked nx' pv' a (item :: xs) b := by
  have after : nx a ∈ xs ++ [b] := linked_next_mem linked a (by simp)
  have notA : item ≠ a := by
    rintro rfl
    simp at fresh
  have notLater : ∀ z ∈ xs ++ [b], z ≠ item := by
    rintro z member rfl
    exact fresh (.tail a member)
  have fromA : nx' a = item := by rw [forward a (by simp), if_pos rfl]
  have toA : pv' item = a := by
    rw [back item (by simp), if_neg (notLater _ after).symm, if_pos rfl]
  have fromItem : nx' item = nx a := by rw [forward item (by simp), if_neg notA, if_pos rfl]
  have toItem : pv' (nx a) = item := by rw [back _ (.tail item after), if_pos rfl]
  cases xs with
  | nil =>
    obtain ⟨ahead,_⟩ := linked
    rw [ahead] at fromItem toItem
    exact ⟨fromA,toA,fromItem,toItem⟩
  | cons x xs => ?_
  obtain ⟨ahead,_,rest⟩ := linked
  rw [ahead] at fromItem toItem
  refine ⟨fromA,toA,fromItem,toItem,linked_congr rest ?_ ?_⟩
  · intro z member
    have other : z ≠ a := by
      rintro rfl
      exact (nodup_cons.mp starts).1 member
    rw [forward z (.tail item (.tail a member)), if_neg other,
      if_neg (notLater z (mem_append_left [b] member))]
  intro z member
  have other : z ≠ x := by
    rintro rfl
    exact (nodup_cons.mp ends).1 member
  rw [back z (.tail item (.tail x member)), ahead, if_neg other,
    if_neg (notLater z (.tail x member))]

theorem linked_remove {a b e : α} {xs ys : List α} (linked : Linked nx pv a (xs ++ e :: ys) b)
    (starts : (a :: xs ++ e :: ys).Nodup) (ends : (xs ++ e :: ys ++ [b]).Nodup)
    (forward : ∀ z ∈ a :: xs ++ ys, nx' z = if z = pv e then nx e else nx z)
    (back : ∀ z ∈ xs ++ ys ++ [b], pv' z = if z = nx e then pv e else pv z) :
    Linked nx' pv' a (xs ++ ys) b := by
  induction xs generalizing a with
  | nil =>
    obtain ⟨_,behind,rest⟩ := linked
    have after : nx e ∈ ys ++ [b] := linked_next_mem rest e (by simp)
    have fromA : nx' a = nx e := by rw [forward a (by simp), if_pos behind.symm]
    have toA : pv' (nx e) = a := by rw [back _ after, if_pos rfl, behind]
    cases ys with
    | nil =>
      rw [rest.1] at fromA toA
      exact ⟨fromA,toA⟩
    | cons y ys => ?_
    obtain ⟨ahead,_,rest⟩ := rest
    rw [ahead] at fromA toA
    refine ⟨fromA,toA,linked_congr rest ?_ ?_⟩
    · intro z member
      have other : z ≠ pv e := by
        rw [behind]
        rintro rfl
        exact (nodup_cons.mp starts).1 (.tail e member)
      rw [forward z (.tail a member), if_neg other]
    intro z member
    have other : z ≠ nx e := by
      rw [ahead]
      rintro rfl
      exact (nodup_cons.mp (nodup_cons.mp ends).2).1 member
    rw [back z (.tail y member), if_neg other]
  | cons x xs ih =>
    obtain ⟨ahead,behind,rest⟩ := linked
    obtain ⟨front,later⟩ := linked_append.mp rest
    have before : pv e ∈ x :: xs := linked_prev_mem front e (by simp)
    have after : nx e ∈ ys ++ [b] := linked_next_mem later e (by simp)
    have notLast : a ≠ pv e := by
      intro same
      exact (nodup_cons.mp starts).1 (mem_append_left (e :: ys) (same ▸ before))
    have notNext : x ≠ nx e := by
      intro same
      have member : x ∈ xs ++ e :: ys ++ [b] := by
        rw [same, append_assoc]
        exact mem_append_right xs (.tail e after)
      exact (nodup_cons.mp ends).1 member
    refine ⟨?_,?_,ih rest (nodup_cons.mp starts).2 (nodup_cons.mp ends).2 ?_ ?_⟩
    · rw [forward a (by simp), if_neg notLast, ahead]
    · rw [back x (by simp), if_neg notNext, behind]
    · intro z member
      exact forward z (.tail a member)
    · intro z member
      exact back z (.tail x member)

end

/- Entries in memory. -/

variable (p : Nat) (m : Nat → Nat)

def next (e : Nat) : Nat := load p m e

def prev (e : Nat) : Nat := load p m (e + p)

def setNext (e v : Nat) : Nat → Nat := store p m e v

def setPrev (e v : Nat) : Nat → Nat := store p m (e + p) v

def init (root : Nat) : Nat → Nat :=
  setNext p (setPrev p m root root) root root

def insertPost (index item : Nat) : Nat → Nat :=
  let m := setPrev p m item index
  let m := setNext p m item (next p m index)
  let m := setPrev p m (next p m index) item
  setNext p m index item

def push (root item : Nat) : Nat → Nat :=
  let m := setPrev p m item root
  let m := setPrev p m (next p m root) item
  let m := setNext p m item (next p m root)
  setNext p m root item

def pushback (root item : Nat) : Nat → Nat :=
  let m := setNext p m item root
  let m := setNext p m (prev p m root) item
  let m := setPrev p m item (prev p m root)
  setPrev p m root item

def remove (e : Nat) : Nat → Nat :=
  let m := setNext p m (prev p m e) (next p m e)
  setPrev p m (next p m e) (prev p m e)

/-- A loop over the entries after `root`, which may end early or fail. -/
def foreach {β : Type} (p : Nat) (m : Nat → Nat) (root : Nat)
    (body : β → Nat → Option (ForInStep β)) : Nat → Nat → β → Option β
  | 0, _, _ => none
  | fuel + 1, e, b =>
    if e = root then some b
    else match body b e with
      | none => none
      | some (.done c) => some c
      | some (.yield c) => foreach p m root body fuel (next p m e) c

def visit {β : Type} (body : β → Nat → Option (ForInStep β)) : List Nat → β → Option β
  | [], b => some b
  | e :: es, b =>
    match body b e with
    | none => none
    | some (.done c) => some c
    | some (.yield c) => visit body es c

/-- Addresses of entries that fit in memory and do not overlap. -/
structure Entries (p : Nat) (N : Set Nat) : Prop where
  fits : ∀ e ∈ N, e < 2 ^ (8 * p)
  apart : ∀ e ∈ N, ∀ f ∈ N, e ≠ f → e + 2 * p ≤ f ∨ f + 2 * p ≤ e

section
variable {p : Nat} {m n : Nat → Nat} {N : Set Nat} {e z v : Nat}

section
variable (entries : Entries p N)
include entries

theorem next_setNext (he : e ∈ N) (hz : z ∈ N) (hv : v < 2 ^ (8 * p)) :
    next p (setNext p m e v) z = if z = e then v else next p m z := by
  unfold next setNext
  by_cases same : z = e
  · rw [if_pos same, same, load_store hv]
  · have far := entries.apart z hz e he same
    rw [if_neg same, load_store_apart (by omega)]

theorem prev_setNext (he : e ∈ N) (hz : z ∈ N) : prev p (setNext p m e v) z = prev p m z := by
  unfold prev setNext
  by_cases same : z = e
  · rw [load_store_apart (by omega)]
  · have far := entries.apart z hz e he same
    rw [load_store_apart (by omega)]

theorem next_setPrev (he : e ∈ N) (hz : z ∈ N) : next p (setPrev p m e v) z = next p m z := by
  unfold next setPrev
  by_cases same : z = e
  · rw [load_store_apart (by omega)]
  · have far := entries.apart z hz e he same
    rw [load_store_apart (by omega)]

theorem prev_setPrev (he : e ∈ N) (hz : z ∈ N) (hv : v < 2 ^ (8 * p)) :
    prev p (setPrev p m e v) z = if z = e then v else prev p m z := by
  unfold prev setPrev
  by_cases same : z = e
  · rw [if_pos same, same, load_store hv]
  · have far := entries.apart z hz e he same
    rw [if_neg same, load_store_apart (by omega)]

theorem init_links {root : Nat} (hr : root ∈ N) (hz : z ∈ N) :
    next p (init p m root) z = (if z = root then root else next p m z) ∧
      prev p (init p m root) z = (if z = root then root else prev p m z) := by
  have fr := entries.fits root hr
  simp [init, next_setNext entries, next_setPrev entries, prev_setNext entries,
    prev_setPrev entries, hr, hz, fr]

theorem insertPost_links {index item : Nat} (hi : index ∈ N) (hn : next p m index ∈ N)
    (new : item ∈ N) (hz : z ∈ N) :
    next p (insertPost p m index item) z =
        (if z = index then item else if z = item then next p m index else next p m z) ∧
      prev p (insertPost p m index item) z =
        (if z = next p m index then item else if z = item then index else prev p m z) := by
  have fi := entries.fits index hi
  have fn := entries.fits _ hn
  have ft := entries.fits item new
  simp [insertPost, next_setNext entries, next_setPrev entries, prev_setNext entries,
    prev_setPrev entries, hi, hn, new, hz, fi, fn, ft]

theorem push_links {root item : Nat} (hr : root ∈ N) (hn : next p m root ∈ N) (new : item ∈ N)
    (hz : z ∈ N) :
    next p (push p m root item) z =
        (if z = root then item else if z = item then next p m root else next p m z) ∧
      prev p (push p m root item) z =
        (if z = next p m root then item else if z = item then root else prev p m z) := by
  have fr := entries.fits root hr
  have fn := entries.fits _ hn
  have ft := entries.fits item new
  simp [push, next_setNext entries, next_setPrev entries, prev_setNext entries,
    prev_setPrev entries, hr, hn, new, hz, fr, fn, ft]

theorem remove_links (he : e ∈ N) (hn : next p m e ∈ N) (hp : prev p m e ∈ N) (hz : z ∈ N) :
    next p (remove p m e) z = (if z = prev p m e then next p m e else next p m z) ∧
      prev p (remove p m e) z = (if z = next p m e then prev p m e else prev p m z) := by
  have fn := entries.fits _ hn
  have fp := entries.fits _ hp
  simp [remove, next_setNext entries, next_setPrev entries, prev_setNext entries,
    prev_setPrev entries, he, hn, hp, hz, fn, fp]

/- What is in no entry is kept. -/

theorem insertPost_frame {index item x : Nat} (hi : index ∈ N) (hn : next p m index ∈ N)
    (new : item ∈ N) (other : item ≠ index) (outside : ∀ z ∈ N, x < z ∨ z + 2 * p ≤ x) :
    insertPost p m index item x = m x := by
  have ahead : next p (setNext p (setPrev p m item index) item
      (next p (setPrev p m item index) index)) index = next p m index := by
    rw [next_setPrev entries new hi, next_setNext entries new hi (entries.fits _ hn),
      if_neg other.symm, next_setPrev entries new hi]
  have atIndex := outside index hi
  have atNext := outside _ hn
  have atItem := outside item new
  simp only [insertPost, ahead]
  simp only [setNext, setPrev]
  rw [store_outside (by omega), store_outside (by omega), store_outside (by omega),
    store_outside (by omega)]

theorem push_frame {root item x : Nat} (hr : root ∈ N) (hn : next p m root ∈ N) (new : item ∈ N)
    (outside : ∀ z ∈ N, x < z ∨ z + 2 * p ≤ x) : push p m root item x = m x := by
  have atRoot := outside root hr
  have atNext := outside _ hn
  have atItem := outside item new
  simp only [push, next_setPrev entries new hr]
  simp only [setNext, setPrev]
  rw [store_outside (by omega), store_outside (by omega), store_outside (by omega),
    store_outside (by omega)]

theorem remove_frame {x : Nat} (he : e ∈ N) (hn : next p m e ∈ N) (hp : prev p m e ∈ N)
    (outside : ∀ z ∈ N, x < z ∨ z + 2 * p ≤ x) : remove p m e x = m x := by
  have ahead : next p (setNext p m (prev p m e) (next p m e)) e = next p m e := by
    rw [next_setNext entries hp he (entries.fits _ hn), ite_self]
  have atNext := outside _ hn
  have atPrev := outside _ hp
  simp only [remove, ahead]
  simp only [setNext, setPrev]
  rw [store_outside (by omega), store_outside (by omega)]

end

/-- The list with root `r` has the entries `xs`, each once. -/
structure Ring (p : Nat) (m : Nat → Nat) (r : Nat) (xs : List Nat) : Prop where
  linked : Linked (next p m) (prev p m) r xs r
  once : (r :: xs).Nodup

variable {r : Nat} {xs ys : List Nat}

theorem ring_congr (ring : Ring p m r xs)
    (same : ∀ z ∈ r :: xs, next p n z = next p m z ∧ prev p n z = prev p m z) : Ring p n r xs := by
  refine ⟨linked_congr ring.linked (fun z member => (same z member).1) ?_,ring.once⟩
  intro z member
  exact (same z (by simpa [or_comm] using member)).2

theorem ring_next_mem (ring : Ring p m r xs) (member : z ∈ r :: xs) : next p m z ∈ r :: xs := by
  have found := linked_next_mem ring.linked z member
  simpa [or_comm] using found

theorem ring_prev_mem (ring : Ring p m r xs) (member : z ∈ r :: xs) : prev p m z ∈ r :: xs := by
  apply linked_prev_mem ring.linked z
  simpa [or_comm] using member

theorem ring_prev_front (ring : Ring p m r (xs ++ e :: ys)) : prev p m e ∈ r :: xs :=
  linked_prev_mem (linked_append.mp ring.linked).1 e (by simp)

theorem ring_next_back (ring : Ring p m r (xs ++ e :: ys)) : next p m e ∈ r :: ys := by
  have found := linked_next_mem (linked_append.mp ring.linked).2 e (by simp)
  simpa [or_comm] using found

theorem ring_pair {a b : Nat} (ring : Ring p m r (xs ++ a :: b :: ys)) :
    next p m a = b ∧ prev p m b = a := by
  obtain ⟨ahead,behind,_⟩ := (linked_append.mp ring.linked).2
  exact ⟨ahead,behind⟩

theorem ring_init (entries : Entries p N) (hr : r ∈ N) : Ring p (init p m r) r [] := by
  obtain ⟨ahead,behind⟩ := init_links entries hr hr
  rw [if_pos rfl] at ahead behind
  exact ⟨⟨ahead,behind⟩,nodup_singleton r⟩

theorem once_rotated {xs : List Nat} (once : (r :: xs).Nodup) : (xs ++ [r]).Nodup :=
  (perm_append_singleton r xs).nodup_iff.mpr once

theorem mem_rotated {xs : List Nat} (member : z ∈ xs ++ [r]) : z ∈ r :: xs :=
  (perm_append_singleton r xs).mem_iff.mp member

theorem ring_push (entries : Entries p N) (ring : Ring p m r xs) (inside : ∀ z ∈ r :: xs, z ∈ N)
    {item : Nat} (new : item ∈ N) (fresh : item ∉ r :: xs) :
    Ring p (push p m r item) r (item :: xs) := by
  have hr := inside r (by simp)
  have hn := inside _ (ring_next_mem ring (z := r) (by simp))
  have links := fun z (hz : z ∈ N) => push_links entries hr hn new hz
  have outside : item ∉ r :: xs ++ [r] := by
    intro member
    rcases mem_append.mp member with front | root
    · exact fresh front
    · exact fresh (by simp [mem_singleton.mp root])
  refine ⟨linked_insert ring.linked ring.once (once_rotated ring.once) outside ?_ ?_,?_⟩
  · intro z member
    rcases mem_cons.mp member with rfl | old
    · exact (links z new).1
    · exact (links z (inside z old)).1
  · intro z member
    rcases mem_cons.mp member with rfl | old
    · exact (links z new).2
    · exact (links z (inside z (mem_rotated old))).2
  · exact (List.Perm.swap item r xs).nodup_iff.mpr (nodup_cons.mpr ⟨fresh,ring.once⟩)

theorem ring_insertPost (entries : Entries p N) {c item : Nat} (ring : Ring p m r (xs ++ c :: ys))
    (inside : ∀ z ∈ r :: (xs ++ c :: ys), z ∈ N) (new : item ∈ N)
    (fresh : item ∉ r :: (xs ++ c :: ys)) :
    Ring p (insertPost p m c item) r (xs ++ c :: item :: ys) := by
  have hc := inside c (by simp)
  have hn := inside _ (ring_next_mem ring (z := c) (by simp))
  have other : item ≠ c := by
    intro same
    exact fresh (by simp [same])
  have links := fun z (hz : z ∈ N) => insertPost_links entries hc hn new hz
  have once := ring.once
  obtain ⟨front,back⟩ := linked_append.mp ring.linked
  have after := ring_next_back ring
  have known : ∀ z ∈ r :: (xs ++ c :: ys), z ≠ item := by
    rintro z member rfl
    exact fresh member
  have split : ∀ z, z ∈ r :: xs ∨ z ∈ c :: ys → z ∈ r :: (xs ++ c :: ys) := by
    intro z member
    simp only [mem_cons, mem_append] at member ⊢
    tauto
  have kept : Linked (next p (insertPost p m c item)) (prev p (insertPost p m c item)) r xs c := by
    apply linked_congr front
    · intro z member
      have here := split z (.inl member)
      have other : z ≠ c := by
        rintro rfl
        exact (nodup_append.mp (cons_append ▸ once)).2.2 z member z (by simp) rfl
      rw [(links z (inside z here)).1, if_neg other, if_neg (known z here)]
    intro z member
    have here : z ∈ r :: (xs ++ c :: ys) := by
      simp only [mem_append, mem_singleton] at member
      simp only [mem_cons, mem_append]
      tauto
    have other : z ≠ next p m c := by
      intro same
      grind
    rw [(links z (inside z here)).2, if_neg other, if_neg (known z here)]
  have grown : Linked (next p (insertPost p m c item)) (prev p (insertPost p m c item)) c
      (item :: ys) r := by
    have starts : (c :: ys).Nodup := once.sublist (by simp)
    have ends : (r :: ys).Nodup := once.sublist (by simp)
    have rest : ∀ z ∈ ys ++ [r], z ∈ r :: (xs ++ c :: ys) := by
      intro z member
      simp only [mem_append, mem_singleton] at member
      simp only [mem_cons, mem_append]
      tauto
    apply linked_insert back starts (once_rotated ends)
    · intro member
      rcases mem_cons.mp member with same | later
      · exact other same
      · exact known item (rest item later) rfl
    · intro z member
      rcases mem_cons.mp member with rfl | old
      · exact (links z new).1
      · exact (links z (inside z (split z (.inr old)))).1
    · intro z member
      rcases mem_cons.mp member with rfl | old
      · exact (links z new).2
      · exact (links z (inside z (rest z old))).2
  exact ⟨linked_append.mpr ⟨kept,grown⟩,by grind⟩

theorem ring_remove (entries : Entries p N) (ring : Ring p m r (xs ++ e :: ys))
    (inside : ∀ z ∈ r :: (xs ++ e :: ys), z ∈ N) : Ring p (remove p m e) r (xs ++ ys) := by
  have he := inside e (by simp)
  have hn := inside _ (ring_next_mem ring (z := e) (by simp))
  have hp := inside _ (ring_prev_mem ring (z := e) (by simp))
  have links := fun z (hz : z ∈ N) => remove_links entries he hn hp hz
  have fewer : ∀ z ∈ r :: (xs ++ ys), z ∈ r :: (xs ++ e :: ys) := by
    intro z member
    simp only [mem_cons, mem_append] at member ⊢
    tauto
  refine ⟨linked_remove ring.linked ring.once (once_rotated ring.once) ?_ ?_,?_⟩
  · intro z member
    exact (links z (inside z (fewer z member))).1
  · intro z member
    exact (links z (inside z (fewer z (mem_rotated member)))).2
  · exact ring.once.sublist (by simp)

theorem foreach_linked {β : Type} {body : β → Nat → Option (ForInStep β)} {a fuel : Nat} {b : β}
    (linked : Linked (next p m) (prev p m) a xs r) (out : r ∉ xs) (enough : xs.length < fuel) :
    foreach p m r body fuel (next p m a) b = visit body xs b := by
  induction xs generalizing a fuel b with obtain ⟨fuel,rfl⟩ := Nat.exists_eq_add_of_lt enough
  | nil => simp [foreach, visit, linked.1]
  | cons x xs ih =>
    obtain ⟨ahead,_,rest⟩ := linked
    have other : x ≠ r := by
      intro same
      exact out (by simp [same])
    simp only [length_cons, foreach, visit, ahead, if_neg other]
    cases body b x with
    | none => rfl
    | some result => ?_
    cases result with
    | done c => rfl
    | yield c => ?_
    apply ih rest
    · intro member
      exact out (.tail x member)
    · omega

theorem foreach_ring {β : Type} {body : β → Nat → Option (ForInStep β)} {fuel : Nat} {b : β}
    (ring : Ring p m r xs) (enough : xs.length < fuel) :
    foreach p m r body fuel (next p m r) b = visit body xs b :=
  foreach_linked ring.linked (nodup_cons.mp ring.once).1 enough

end
end LibCircularList
