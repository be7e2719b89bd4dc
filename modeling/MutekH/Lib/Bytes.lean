import Mathlib.Data.List.Basic

/-!
Lists as memory: a piece is read out of a list, a block is stored into it.
-/
namespace LibBytes
open List

section
variable {α : Type} {xs block : List α} {i n k : Nat}

/-- The `n` elements from index `i` on, as far as there are any. -/
def slice (xs : List α) (i n : Nat) : List α := (xs.drop i).take n

/-- The block is stored from index `i` on, over what was there. -/
def patch (xs : List α) (i : Nat) (block : List α) : List α :=
  xs.take i ++ block ++ xs.drop (i + block.length)

theorem slice_length (xs : List α) (i n : Nat) : (slice xs i n).length = min n (xs.length - i) := by
  simp [slice]

theorem getElem?_slice : (slice xs i n)[k]? = if k < n then xs[i + k]? else none := by
  rw [slice, List.getElem?_take, List.getElem?_drop]

theorem getElem?_patch (inside : i ≤ xs.length) : (patch xs i block)[k]? =
      if k < i then xs[k]? else if k < i + block.length then block[k - i]? else xs[k]? := by
  have start : (xs.take i).length = i := by rw [length_take, Nat.min_eq_left inside]
  unfold patch
  rw [append_assoc]
  by_cases before : k < i
  · rw [if_pos before, List.getElem?_append_left (by omega), List.getElem?_take_of_lt before]
  rw [if_neg before, List.getElem?_append_right (by omega), start]
  by_cases within : k < i + block.length
  · rw [if_pos within, List.getElem?_append_left (by omega)]
  · rw [if_neg within, List.getElem?_append_right (by omega), List.getElem?_drop]
    congr 1
    omega

theorem patch_length (inside : i ≤ xs.length) :
    (patch xs i block).length = max xs.length (i + block.length) := by
  simp only [patch, length_append, length_take, length_drop]
  omega

theorem take_patch (inside : i ≤ n) (room : n ≤ xs.length) :
    (patch xs i block).take (max n (i + block.length)) = patch (xs.take n) i block := by
  have short : (xs.take n).length = n := by rw [length_take, Nat.min_eq_left room]
  refine ext_getElem? ?_
  intro k
  rw [List.getElem?_take, getElem?_patch (by omega), getElem?_patch (by omega), List.getElem?_take]
  by_cases before : k < i
  · rw [if_pos before, if_pos before, if_pos (by omega), if_pos (by omega)]
  rw [if_neg before, if_neg before]
  by_cases within : k < i + block.length
  · rw [if_pos within, if_pos within, if_pos (by omega)]
  · rw [if_neg within, if_neg within]
    by_cases first : k < n
    · rw [if_pos first, if_pos (by omega)]
    · rw [if_neg first, if_neg (by omega)]

theorem slice_take (xs : List α) (i n k : Nat) :
    slice (xs.take n) i k = slice xs i (min k (n - i)) := by
  rw [slice, slice, drop_take, take_take]

theorem slice_add (xs : List α) (i m n : Nat) :
    slice xs i (m + n) = slice xs i m ++ slice xs (i + m) n := by
  simp [slice, take_add]

theorem patch_patch (inside : i ≤ xs.length) (next : List α) :
    patch (patch xs i block) (i + block.length) next = patch xs i (block ++ next) := by
  have front : (xs.take i ++ block).length = i + block.length := by
    simp only [length_append, length_take]
    omega
  unfold patch
  rw [take_left' front, drop_append, front, drop_eq_nil_of_le (by omega)]
  simp [Nat.add_assoc]

end

/- Lists of blocks of one length. -/

section
variable {α : Type} {blocks : List (List α)} {size i r n : Nat}

theorem getElem?_flatten (even : ∀ b ∈ blocks, b.length = size) (inside : r < size) :
    blocks.flatten[i * size + r]? = blocks[i]?.bind (fun b => b[r]?) := by
  induction blocks generalizing i with
  | nil => simp
  | cons b rest ih => ?_
  have first : b.length = size := even b (by simp)
  cases i with
  | zero =>
    rw [flatten_cons, List.getElem?_append_left (by omega)]
    simp
  | succ i => ?_
  have here : (i + 1) * size + r - b.length = i * size + r := by
    rw [Nat.succ_mul]
    omega
  rw [flatten_cons, List.getElem?_append_right (by rw [Nat.succ_mul]; omega), here,
    ih (fun b mem => even b (by simp [mem])), List.getElem?_cons_succ]

theorem flatten_length (even : ∀ b ∈ blocks, b.length = size) :
    blocks.flatten.length = blocks.length * size := by
  induction blocks with
  | nil => simp
  | cons b rest ih =>
    rw [flatten_cons, length_append, ih (fun b mem => even b (by simp [mem])),
      even b (by simp), length_cons, Nat.succ_mul, Nat.add_comm]

theorem slice_flatten_within (even : ∀ b ∈ blocks, b.length = size) {b : List α}
    (found : blocks[i]? = some b) (inside : r + n ≤ size) :
    slice blocks.flatten (i * size + r) n = slice b r n := by
  refine ext_getElem? ?_
  intro k
  rw [getElem?_slice, getElem?_slice]
  by_cases short : k < n
  · rw [if_pos short, if_pos short, Nat.add_assoc, getElem?_flatten even (by omega), found]
    rfl
  · rw [if_neg short, if_neg short]

theorem slice_flatten_whole (even : ∀ b ∈ blocks, b.length = size) (i n : Nat) :
    slice blocks.flatten (i * size) (n * size) = (slice blocks i n).flatten := by
  induction n generalizing i with
  | zero => simp [slice]
  | succ n ih => ?_
  rw [Nat.add_comm n 1, slice_add, flatten_append, ← ih, Nat.add_mul, slice_add, Nat.add_mul,
    Nat.one_mul]
  congr 1
  cases found : blocks[i]? with
  | none =>
    have beyond : blocks.length ≤ i := List.getElem?_eq_none_iff.mp found
    have total := flatten_length even
    have outside : blocks.flatten.length ≤ i * size := by
      rw [total]
      exact Nat.mul_le_mul_right size beyond
    rw [slice, slice, drop_eq_nil_of_le outside, drop_eq_nil_of_le beyond]
    simp
  | some b =>
    have whole := slice_flatten_within (r := 0) (n := size) even found (by omega)
    obtain ⟨inside,same⟩ := List.getElem?_eq_some_iff.mp found
    have length : b.length = size := even b (by rw [← same]; exact getElem_mem inside)
    rw [Nat.add_zero] at whole
    rw [whole, slice, slice, drop_zero, take_of_length_le (by omega),
      drop_eq_getElem_cons inside, same]
    simp

end

/-- The number that bytes denote, the lowest first. -/
def little : List UInt8 → Nat
  | [] => 0
  | b :: bs => b.toNat + 256 * little bs

end LibBytes
