import Mathlib.Data.List.TakeWhile

/-!
The words of a list between separators, however many separators stand between, before or
after them.
-/
namespace LibFields
open List

section
variable {α : Type} [DecidableEq α] {sep : α} {xs word : List α}

def fields (sep : α) (xs : List α) : List (List α) :=
  (xs.splitOn sep).filter (fun word => !word.isEmpty)

@[simp] theorem fields_nil (sep : α) : fields sep [] = [] := rfl

theorem clean_of_absent (absent : sep ∉ word) : ∀ x ∈ word, (x == sep) = false := by
  intro x mem
  rw [beq_eq_false_iff_ne]
  rintro rfl
  exact absent mem

theorem fields_append_cons (absent : sep ∉ word) (filled : word ≠ []) (xs : List α) :
    fields sep (word ++ sep :: xs) = word :: fields sep xs := by
  unfold fields List.splitOn
  rw [splitOnP_append_cons_of_forall_mem (clean_of_absent absent) sep (beq_self_eq_true sep)]
  exact filter_cons_of_pos (by simpa using filled)

theorem fields_single (absent : sep ∉ word) (filled : word ≠ []) : fields sep word = [word] := by
  unfold fields List.splitOn
  rw [splitOnP_eq_singleton (clean_of_absent absent)]
  exact filter_cons_of_pos (by simpa using filled)

@[simp] theorem fields_cons_self (sep : α) (xs : List α) : fields sep (sep :: xs) =
    fields sep xs := by
  unfold fields List.splitOn
  rw [splitOnP_cons_eq_if_modifyHead, if_pos (beq_self_eq_true sep)]
  rfl

theorem fields_dropWhile (sep : α) (xs : List α) :
    fields sep (xs.dropWhile (· == sep)) = fields sep xs := by
  induction xs with
  | nil => rfl
  | cons x xs ih =>
    by_cases same : x = sep
    · rw [same, fields_cons_self, dropWhile_cons_of_pos (by simp), ih]
    · rw [dropWhile_cons_of_neg (by simpa using same)]

theorem fields_takeWhile {x : α} (differ : x ≠ sep) (xs : List α) :
    fields sep (x :: xs) = (x :: xs).takeWhile (· != sep) ::
      fields sep ((x :: xs).dropWhile (· != sep)) := by
  have absent : sep ∉ (x :: xs).takeWhile (· != sep) := by
    intro mem
    simpa using mem_takeWhile_imp mem
  have filled : (x :: xs).takeWhile (· != sep) ≠ [] := by
    rw [takeWhile_cons_of_pos (by simpa using differ)]
    exact cons_ne_nil _ _
  have whole := takeWhile_append_dropWhile (p := (· != sep)) (l := x :: xs)
  cases rest : (x :: xs).dropWhile (· != sep) with
  | nil =>
    rw [rest, append_nil] at whole
    rw [fields_nil, ← fields_single absent filled, whole]
  | cons y ys => ?_
  have stop : y = sep := by
    have head := head_dropWhile_not (· != sep) (l := x :: xs) (by simp [rest])
    simpa [rest] using head
  rw [rest, stop] at whole
  rw [stop, fields_cons_self, ← fields_append_cons absent filled, whole]

theorem fields_eq_nil_iff : fields sep xs = [] ↔ ∀ x ∈ xs, x = sep := by
  induction xs with
  | nil => simp
  | cons x xs ih => ?_
  by_cases same : x = sep
  · simp [same, ih]
  · rw [fields_takeWhile same]
    simp [same]

end

/- Where a scan stops. -/

theorem drop_length_takeWhile {α : Type} (p : α → Bool) (xs : List α) :
    xs.drop (xs.takeWhile p).length = xs.dropWhile p := by
  have split : (xs.takeWhile p ++ xs.dropWhile p).drop (xs.takeWhile p).length = xs.dropWhile p :=
    drop_left
  rwa [takeWhile_append_dropWhile] at split

theorem take_length_takeWhile {α : Type} (p : α → Bool) (xs : List α) :
    xs.take (xs.takeWhile p).length = xs.takeWhile p := by
  have split : (xs.takeWhile p ++ xs.dropWhile p).take (xs.takeWhile p).length = xs.takeWhile p :=
    take_left
  rwa [takeWhile_append_dropWhile] at split

end LibFields
