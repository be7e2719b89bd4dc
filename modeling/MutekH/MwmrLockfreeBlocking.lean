import MutekH.MwmrLockfreeStream

/-!
The blocking transfers of the lock-free FIFO. `mwmr_read` and `mwmr_write` loop over units until the
whole buffer is transferred. They advance both the pointer and the count of bytes done by the size
of a unit and give `ptr + done` to the next one, so that a second unit is out of place.
-/
namespace MutekMwmrLockfreeBlocking
open List LibMachine MutekMwmrLockfree MutekMwmrLockfreeStream

structure Loop where
  ptr : Nat
  done : Nat

def Loop.place (l : Loop) : Nat := l.ptr + l.done

def Loop.advance (l : Loop) (xfer_size : Nat) : Loop :=
  if xfer_size = 0 then l else ⟨l.ptr + xfer_size, l.done + xfer_size⟩

section
variable {B : Type}

def storeAt (mem : Nat → B) (address : Nat) (bytes : List B) : Nat → B := fun a =>
  if address ≤ a then bytes.getD (a - address) (mem a) else mem a

/-- `mwmr_read`, with what its calls of `mwmr_read_unit` obtain; `none` while it waits for more. -/
def mwmr_read (lensw : Nat) : Loop → List (List B) → (Nat → B) → Option (Nat → B)
  | l, [], mem => if l.done < lensw then none else some mem
  | l, unit :: units, mem =>
      if l.done < lensw then mwmr_read lensw (l.advance unit.length) units
        (storeAt mem l.place unit)
      else some mem

/-- The bytes that `mwmr_write` passes to its calls of `mwmr_write_unit`, which take `sizes` of
    them. -/
def mwmr_write (lensw : Nat) (mem : Nat → B) : Loop → List Nat → List B
  | _, [] => []
  | l, size :: sizes =>
      if l.done < lensw then
        (List.range size).map (fun k => mem (l.place + k)) ++
          mwmr_write lensw mem (l.advance size) sizes
      else []

/-- The buffer gets the units one after the other and nothing else is written. -/
def ReadContract (base lensw : Nat) (units : List (List B)) (mem : Nat → B) : Prop :=
  mwmr_read lensw ⟨base, 0⟩ units mem = some (storeAt mem base units.flatten)

/-- The buffer is passed once and in order, and nothing else is read. -/
def WriteContract (base lensw : Nat) (sizes : List Nat) (mem : Nat → B) : Prop :=
  mwmr_write lensw mem ⟨base, 0⟩ sizes = (List.range lensw).map fun k => mem (base + k)

def Undivided (units : List (List B)) : Prop := (units.filter fun unit => !unit.isEmpty).length ≤ 1

theorem storeAt_nil (mem : Nat → B) (address : Nat) : storeAt mem address [] = mem := by
  funext a
  simp [storeAt]

theorem loops_skip (lensw : Nat) (mem' : Nat → B) (units : List (List B)) :
    ∀ (l : Loop) (mem : Nat → B),
      mwmr_read lensw l units mem = mwmr_read lensw l (units.filter fun unit => !unit.isEmpty) mem ∧
      mwmr_write lensw mem' l (units.map List.length) =
        mwmr_write lensw mem' l ((units.filter fun unit => !unit.isEmpty).map List.length) := by
  induction units with
  | nil =>
    intro l mem
    exact ⟨rfl,rfl⟩
  | cons unit units ih => ?_
  intro l mem
  cases unit with
  | cons byte bytes =>
    simp only [map_cons, mwmr_read, mwmr_write]
    rw [(ih _ _).1, (ih (l.advance _) mem).2]
    exact ⟨rfl,rfl⟩
  | nil => ?_
  obtain ⟨read,write⟩ := ih l mem
  simp only [filter_cons, isEmpty_nil, Bool.not_true, Bool.false_eq_true, if_false, ← read, ← write,
    map_cons, mwmr_read, mwmr_write, storeAt_nil]
  -- a loop that is done stops at whatever comes next
  constructor
  · split
    · rfl
    · rename_i done
      cases units <;> simp [mwmr_read, done]
  · split
    · rfl
    · rename_i done
      cases units <;> simp [mwmr_write, done]

theorem filter_flatten (units : List (List B)) :
    (units.filter fun unit => !unit.isEmpty).flatten = units.flatten := by
  induction units with
  | nil => rfl
  | cons unit units ih => cases unit <;> simp [ih]

/-- Each unit is placed twice as far from the start of the buffer as it should be. -/
theorem place_doubled (sizes : List Nat) :
    ∀ l : Loop, (sizes.foldl Loop.advance l).place = l.place + 2 * sizes.sum := by
  induction sizes with
  | nil =>
    intro l
    rfl
  | cons size sizes ih => ?_
  intro l
  rw [foldl_cons, ih, sum_cons]
  unfold Loop.advance Loop.place
  split
  · omega
  · simp only
    omega

/-- Before each unit, the loops are twice as far in memory as the bytes already moved. A buffer that
    one unit moves is transferred exactly. -/
theorem blocking_transfer (base : Nat) (units : List (List B)) (mem : Nat → B) :
    (∀ k, (((units.map List.length).take k).foldl Loop.advance ⟨base, 0⟩).place =
      base + 2 * ((units.map List.length).take k).sum) ∧
    (Undivided units → ReadContract base units.flatten.length units mem ∧
      WriteContract base units.flatten.length (units.map List.length) mem) := by
  refine ⟨fun k => place_doubled _ ⟨base,0⟩,?_⟩
  intro undivided
  obtain ⟨read,write⟩ := loops_skip units.flatten.length mem units ⟨base,0⟩ mem
  rw [ReadContract, WriteContract, read, write, ← filter_flatten]
  unfold Undivided at undivided
  generalize units.filter (fun unit => !unit.isEmpty) = moving at undivided
  match moving, undivided with
  | [], _ => exact ⟨by simp [mwmr_read, storeAt_nil],rfl⟩
  | [unit], _ =>
    cases unit with
    | nil => exact ⟨by simp [mwmr_read, storeAt_nil],rfl⟩
    | cons byte bytes => simp [mwmr_read, mwmr_write, Loop.advance, Loop.place]

end

theorem blocking_transfer_waiting : ReadContract 0 2 [[], [7, 8]] (fun _ => 0) :=
  ((blocking_transfer 0 [[], [7, 8]] fun _ => 0).2 (by unfold Undivided; decide)).1

def oneByte (t : Nat) : List (Act Nat Nat) :=
  [.step t, .step t, .step t, .step t, .copy t 0, .step t, .step t, .step t, .step t]

def twoUnits : List (Act Nat Nat) :=
  .mwmr_write_unit 0 (fun _ => 7) 1 :: oneByte 0 ++ .mwmr_read_unit 1 2 :: oneByte 1 ++
    .mwmr_write_unit 0 (fun _ => 8) 1 :: oneByte 0 ++ .mwmr_read_unit 1 1 :: oneByte 1

/-- The second byte is stored behind the buffer. -/
theorem second_unit_misplaced :
    Reached (machine 2 Nat Nat) (after (machine 2 Nat Nat) empty twoUnits) ∧
    ((after (machine 2 Nat Nat) empty twoUnits).completed.filter (·.side = .data)).map Done.bytes =
      [[8], [7]] ∧
    (mwmr_read 2 ⟨0, 0⟩ [[7], [8]] (fun _ => 0)).map (fun mem => (mem 0, mem 1, mem 2)) =
      some (7, 0, 8) := by
  refine ⟨?_,by decide,by decide⟩
  apply reached_of_allowed (machine 2 Nat Nat) empty twoUnits
  · simp [machine, Boot, empty]
  · decide

end MutekMwmrLockfreeBlocking
