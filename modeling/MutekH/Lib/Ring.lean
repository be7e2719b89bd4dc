import Mathlib.Data.List.Basic
import Mathlib.Algebra.Ring.Nat

/-!
Rings of `g` cells. What a ring holds is the list of `n` cells from index `r` on,
around the end; a block copied in behind it, or out at its front, without passing
the end of the array extends or shortens this list.
-/
namespace LibRing
open List
variable {B : Type} {g : Nat}

theorem same_cell {i j : Nat} (below : i ≤ j) (lap : j < i + g) (same : i % g = j % g) : i = j := by
  have mod : (j - i) % g = 0 := Nat.sub_mod_eq_zero_of_mod_eq same.symm
  rw [Nat.mod_eq_of_lt (by omega)] at mod
  omega

def contents (g : Nat) (buffer : Nat → B) (r n : Nat) : List B :=
  (List.range n).map (fun i => buffer ((r + i) % g))

/-- A block copied to index `w` of the array. -/
def copyIn (buffer : Nat → B) (w : Nat) (block : List B) (i : Nat) : B :=
  if w ≤ i then (block[i - w]?).getD (buffer i) else buffer i

/-- A block of `n` cells copied from index `r` of the array. -/
def copyOut (buffer : Nat → B) (r n : Nat) : List B := (List.range n).map (fun i => buffer (r + i))

/-- The index after the last cell is 0. -/
def wrap (g i : Nat) : Nat := if i = g then 0 else i

theorem contents_length (buffer : Nat → B) (r n : Nat) : (contents g buffer r n).length = n := by
  simp [contents]

theorem copyOut_length (buffer : Nat → B) (r n : Nat) : (copyOut buffer r n).length = n := by
  simp [copyOut]

theorem wrap_eq_mod {i : Nat} (inside : i ≤ g) : wrap g i = i % g := by
  unfold wrap
  split
  · rename_i last
    rw [last, Nat.mod_self]
  · rw [Nat.mod_eq_of_lt (by omega)]

theorem wrap_lt {i : Nat} (positive : 0 < g) (inside : i ≤ g) : wrap g i < g := by
  rw [wrap_eq_mod inside]
  exact Nat.mod_lt i positive

theorem copyIn_outside {buffer : Nat → B} {w : Nat} {block : List B} {i : Nat}
    (outside : i < w ∨ w + block.length ≤ i) : copyIn buffer w block i = buffer i := by
  unfold copyIn
  split
  · rw [List.getElem?_eq_none (by omega)]
    rfl
  · rfl

theorem copyIn_inside {buffer : Nat → B} {w : Nat} {block : List B} {k : Nat}
    (inside : k < block.length) : copyIn buffer w block (w + k) = block[k] := by
  simp [copyIn, inside]

theorem contents_copyIn {buffer : Nat → B} {r n w : Nat} {block : List B}
    (behind : w = (r + n) % g) (room : n + block.length ≤ g) (straight : w + block.length ≤ g) :
    contents g (copyIn buffer w block) r (n + block.length) = contents g buffer r n ++ block := by
  apply ext_getElem
  · simp [contents]
  intro i left _
  have bound : i < n + block.length := by simpa [contents] using left
  by_cases old : i < n
  · rw [getElem_append_left (by rwa [contents_length])]
    simp only [contents, getElem_map, getElem_range]
    apply copyIn_outside
    by_contra inside
    -- the cell would be that of an index behind `n`, less than a lap away
    obtain ⟨k,cell⟩ : ∃ k, (r + i) % g = w + k := ⟨(r + i) % g - w,by omega⟩
    have behind_cell : (r + i) % g = (r + n + k) % g := by
      rw [cell, ← Nat.mod_add_mod, ← behind, Nat.mod_eq_of_lt (by omega)]
    have := same_cell (by omega) (by omega) behind_cell
    omega
  · rw [getElem_append_right (by rw [contents_length]; omega)]
    have cell : (r + i) % g = w + (i - n) := by
      have split : r + i = r + n + (i - n) := by omega
      rw [split, ← Nat.mod_add_mod, ← behind, Nat.mod_eq_of_lt (by omega)]
    simp only [contents, getElem_map, getElem_range, cell, length_map, length_range]
    exact copyIn_inside (by omega)

theorem contents_copyOut {buffer : Nat → B} {r n k : Nat} (held : k ≤ n) (straight : r + k ≤ g) :
    contents g buffer r n = copyOut buffer r k ++ contents g buffer (wrap g (r + k)) (n - k) := by
  apply ext_getElem
  · simp [contents, copyOut, held]
  intro i left _
  by_cases front : i < k
  · rw [getElem_append_left (by rwa [copyOut_length])]
    simp only [contents, copyOut, getElem_map, getElem_range]
    rw [Nat.mod_eq_of_lt (by omega)]
  · rw [getElem_append_right (by rw [copyOut_length]; omega)]
    have index : (wrap g (r + k) + (i - k)) % g = (r + i) % g := by
      rw [wrap_eq_mod straight, Nat.mod_add_mod, Nat.add_assoc, Nat.add_sub_cancel' (by omega)]
    simp [contents, copyOut, index]

end LibRing
