import Mathlib.Algebra.Ring.Nat

/-!
Partition tables (drivers/block/partition/block-partition.c). A disk is what `dev_block_spin_read`
finds in each sector, `none` for an error; `dev_block_lba_t` has 32 bits.
-/
namespace MutekPartitionTable
open List

def PARTITION_TYPE_EMPTY : Nat := 0x00
def PARTITION_TYPE_EXTENDED : Nat := 0x05
def PARTITION_TYPE_EXTENDED_LBA : Nat := 0x0f

structure Entry where
  type : Nat
  offset : Nat
  size : Nat

structure Table where
  part : Nat → Entry
  signature : Nat

structure Item where
  lba : Nat
  size : Nat
  type : Nat
  deriving DecidableEq

section
variable (disk : Nat → Option Table) (last max : Nat)

/-- Fails exactly when the array is full. -/
def pushback (list : List Item) (e : Item) : Option (List Item) :=
  if list.length < max then some (list ++ [e]) else none

/-- `none` when the fuel is used up. -/
def block_partition_parse_extended (lba : Nat) : Nat → List Item → Nat → Option (List Item)
  | 0, _, _ => none
  | fuel + 1, list, next_lba =>
    match disk next_lba with
    | none => some list
    | some t =>
      if t.signature ≠ 0xaa55 then some list
      else match pushback max list
          ⟨(next_lba + (t.part 0).offset) % 2 ^ 32, (t.part 0).size, (t.part 0).type⟩ with
        | none => some list
        | some list =>
          if (t.part 1).type = 0 then some list
          else
            let next_lba := (lba + (t.part 1).offset) % 2 ^ 32
            if next_lba ≥ last then some list
            else block_partition_parse_extended lba fuel list next_lba

def parseEntry (fuel : Nat) (list : List Item) (p : Entry) : Option (List Item) :=
  if p.type = PARTITION_TYPE_EMPTY then some list
  else if p.type = PARTITION_TYPE_EXTENDED ∨ p.type = PARTITION_TYPE_EXTENDED_LBA then
    if p.offset < last then block_partition_parse_extended disk last max p.offset fuel list p.offset
    else some list
  else some ((pushback max list ⟨p.offset, p.size, p.type⟩).getD list)

def block_partition_parse (fuel : Nat) : Option (List Item) :=
  match disk 0 with
  | none => some []
  | some t =>
    if t.signature ≠ 0xaa55 then some []
    else ([0, 1, 2, 3].map t.part).foldlM (parseEntry disk last max fuel) []

/- What the list should be. -/

/-- The first `n` logical partitions of the chain at `next`. -/
def chain (ext : Nat) : Nat → Nat → List Item
  | 0, _ => []
  | n + 1, next =>
    match disk next with
    | none => []
    | some t =>
      if t.signature ≠ 0xaa55 then []
      else ⟨next + (t.part 0).offset, (t.part 0).size, (t.part 0).type⟩ ::
        if (t.part 1).type = 0 ∨ last ≤ ext + (t.part 1).offset then []
        else chain ext n (ext + (t.part 1).offset)

def items (n : Nat) (p : Entry) : List Item :=
  if p.type = PARTITION_TYPE_EMPTY then []
  else if p.type = PARTITION_TYPE_EXTENDED ∨ p.type = PARTITION_TYPE_EXTENDED_LBA then
    if p.offset < last then chain disk last p.offset n p.offset else []
  else [⟨p.offset, p.size, p.type⟩]

/-- The partitions of the disk, with at most `n` of each chain. -/
def partitions (n : Nat) : List Item :=
  match disk 0 with
  | none => []
  | some t =>
    if t.signature ≠ 0xaa55 then [] else ([0, 1, 2, 3].map t.part).flatMap (items disk last n)

/- When it is. -/

/-- Nothing is listed from sector `lba`. -/
def Unread (lba : Nat) : Prop := ∀ t, disk lba = some t → t.signature ≠ 0xaa55

/-- In the chain at `next`, with room for `room` partitions in the list, no sector number overflows
    32 bits, but for a link that leads outside the disk both as it is and modulo `2 ^ 32`, or to
    nothing that is listed. -/
def Straight (ext : Nat) : Nat → Nat → Prop
  | 0, _ => True
  | room + 1, next => ∀ t, disk next = some t → t.signature = 0xaa55 →
      next + (t.part 0).offset < 2 ^ 32 ∧ ((t.part 1).type ≠ 0 →
        if ext + (t.part 1).offset < last then Straight ext room (ext + (t.part 1).offset)
        else last ≤ (ext + (t.part 1).offset) % 2 ^ 32 ∨ room = 0 ∨
          Unread disk ((ext + (t.part 1).offset) % 2 ^ 32))

def EntryStraight (room : Nat) (p : Entry) : Prop :=
  p.type = PARTITION_TYPE_EXTENDED ∨ p.type = PARTITION_TYPE_EXTENDED_LBA → p.offset < last →
    Straight disk last p.offset room p.offset

def EntriesStraight (n : Nat) : Nat → List Entry → Prop
  | _, [] => True
  | room, p :: ps => EntryStraight disk last room p ∧
      EntriesStraight n (room - (items disk last n p).length) ps

def TablesStraight (n : Nat) : Prop :=
  ∀ t, disk 0 = some t → t.signature = 0xaa55 →
    EntriesStraight disk last n max ([0, 1, 2, 3].map t.part)

end

variable {disk : Nat → Option Table} {last max : Nat}

theorem take_append_take (xs ys : List Item) :
    (xs.take max ++ ys).take max = (xs ++ ys).take max := by
  simp only [take_append, take_take, length_take, Nat.min_self]
  congr 2
  omega

theorem pushback_take (list : List Item) (e : Item) (short : list.length ≤ max) :
    (pushback max list e).getD list = (list ++ [e]).take max := by
  unfold pushback
  split
  · rw [Option.getD_some, take_of_length_le (by simpa)]
  · rw [Option.getD_none, take_left' (by omega)]

theorem extended_stops {fuel : Nat} (stop : list.length = max ∨ Unread disk link) :
    block_partition_parse_extended disk last max ext (fuel + 1) list link = some list := by
  unfold block_partition_parse_extended
  cases found : disk link with
  | none => rfl
  | some t =>
    rcases stop with full | unread
    · simp [pushback, full]
    · simp [unread t found]

theorem extended_step {fuel : Nat} (found : disk link = some t) (signed : t.signature = 0xaa55)
    (room : list.length < max) :
    block_partition_parse_extended disk last max ext (fuel + 1) list link =
      let list := list ++ [⟨(link + (t.part 0).offset) % 2 ^ 32, (t.part 0).size, (t.part 0).type⟩]
      let next := (ext + (t.part 1).offset) % 2 ^ 32
      if (t.part 1).type = 0 ∨ last ≤ next then some list
      else block_partition_parse_extended disk last max ext fuel list next := by
  rw [block_partition_parse_extended]
  simp only [found, signed, pushback, if_pos room]
  grind

theorem chain_nil (unread : Unread disk link) : chain disk last ext n link = [] := by
  unfold chain
  split
  · rfl
  split
  · rfl
  · next t found => simp [unread t found]

/-- A chain ends with the table that is not listed or when the list is full. -/
theorem extended_adds (short : list.length ≤ max) (enough : max - list.length < fuel) :
    ∃ xs, block_partition_parse_extended disk last max ext fuel list link = some (list ++ xs) ∧
      list.length + xs.length ≤ max ∧ (xs = [] → list.length < max → Unread disk link) := by
  induction fuel generalizing list link with
  | zero => omega
  | succ fuel ih =>
    by_cases stop : list.length = max ∨ Unread disk link
    · refine ⟨[],by simp [extended_stops stop],short,?_⟩
      intro _ room
      exact stop.resolve_left (by omega)
    obtain ⟨room,readable⟩ := not_or.mp stop
    simp only [Unread, not_forall, not_not] at readable
    obtain ⟨t,found,signed⟩ := readable
    rw [extended_step found signed (by omega)]
    generalize (⟨(link + (t.part 0).offset) % 2 ^ 32, (t.part 0).size, (t.part 0).type⟩ : Item) = e
    have longer : (list ++ [e]).length = list.length + 1 := length_append
    dsimp only
    split
    · exact ⟨[e],rfl,by simp only [length_singleton]; omega,by simp⟩
    · obtain ⟨xs,parsed,within,_⟩ := @ih (list ++ [e]) _ (by omega) (by omega)
      rw [parsed, append_assoc]
      exact ⟨e :: xs,rfl,by simp only [length_cons]; omega,by simp⟩

section
variable (bounded : last ≤ 2 ^ 32)
include bounded

theorem straight_take {list : List Item} {link : Nat} (short : list.length ≤ max)
    (enough : max - list.length < fuel) (deep : max - list.length ≤ n)
    (straight : Straight disk last ext (max - list.length) link) :
    block_partition_parse_extended disk last max ext fuel list link =
      some ((list ++ chain disk last ext n link).take max) := by
  induction fuel generalizing list n link with
  | zero => omega
  | succ fuel ih => ?_
  by_cases full : list.length = max
  · rw [extended_stops (Or.inl full), take_left' full]
  by_cases unread : Unread disk link
  · rw [extended_stops (Or.inr unread), chain_nil unread, append_nil, take_of_length_le short]
  simp only [Unread, not_forall, not_not] at unread
  obtain ⟨t,found,signed⟩ := unread
  obtain ⟨n,rfl⟩ : ∃ m, n = m + 1 := ⟨n - 1,by omega⟩
  obtain ⟨room,left⟩ : ∃ m, max - list.length = m + 1 := ⟨max - list.length - 1,by omega⟩
  rw [left, Straight] at straight
  obtain ⟨start,next⟩ := straight t found signed
  rw [extended_step found signed (by omega), chain, Nat.mod_eq_of_lt start]
  simp only [found, signed, ne_eq, not_true_eq_false, if_false]
  generalize (⟨link + (t.part 0).offset, (t.part 0).size, (t.part 0).type⟩ : Item) = e
  have longer : (list ++ [e]).length = list.length + 1 := length_append
  have same : max - (list ++ [e]).length = room := by omega
  by_cases unlinked : (t.part 1).type = 0
  · rw [if_pos (Or.inl unlinked), if_pos (Or.inl unlinked), take_of_length_le (by omega)]
  replace next := next unlinked
  split at next
  · next inside =>
    rw [Nat.mod_eq_of_lt (by omega), if_neg (by omega), if_neg (by omega),
      ih (n := n) (by omega) (by omega) (by omega) (same ▸ next), append_assoc, singleton_append]
  · next outside =>
    rw [if_pos (Or.inr (by omega) : _ ∨ last ≤ ext + (t.part 1).offset),
      take_of_length_le (by omega)]
    split
    · rfl
    · obtain ⟨fuel,rfl⟩ : ∃ m, fuel = m + 1 := ⟨fuel - 1,by omega⟩
      refine extended_stops ?_
      rcases next with outside | used | unread
      · omega
      · exact Or.inl (by omega)
      · exact Or.inr unread

/-- The parser adds at least the partitions of the chain, as far as there is room, and only them if
    the chain is straight. -/
theorem straight_of_chain {list : List Item} {link : Nat} (short : list.length ≤ max)
    (enough : max - list.length < fuel) (deep : max - list.length ≤ n) :
    ∃ xs, block_partition_parse_extended disk last max ext fuel list link = some (list ++ xs) ∧
      list.length + xs.length ≤ max ∧
      min max (list.length + (chain disk last ext n link).length) ≤ list.length + xs.length ∧
      (xs = chain disk last ext n link → xs.length < max - list.length →
        Straight disk last ext (max - list.length) link) := by
  induction fuel generalizing list n link with
  | zero => omega
  | succ fuel ih => ?_
  by_cases full : list.length = max
  · exact ⟨[],by simp [extended_stops (Or.inl full)],short,by simp; omega,by simp [full]⟩
  obtain ⟨room,left⟩ : ∃ m, max - list.length = m + 1 := ⟨max - list.length - 1,by omega⟩
  by_cases unread : Unread disk link
  · refine ⟨[],by simp [extended_stops (Or.inr unread)],short,?_,?_⟩
    · rw [chain_nil unread]
      exact Nat.min_le_right _ _
    intro _ _
    rw [left, Straight]
    intro t found signed
    exact absurd signed (unread t found)
  simp only [Unread, not_forall, not_not] at unread
  obtain ⟨t,found,signed⟩ := unread
  obtain ⟨n,rfl⟩ : ∃ m, n = m + 1 := ⟨n - 1,by omega⟩
  have straight : Straight disk last ext (room + 1) link ↔ link + (t.part 0).offset < 2 ^ 32 ∧
      ((t.part 1).type ≠ 0 →
        if ext + (t.part 1).offset < last then Straight disk last ext room (ext + (t.part 1).offset)
        else last ≤ (ext + (t.part 1).offset) % 2 ^ 32 ∨ room = 0 ∨
          Unread disk ((ext + (t.part 1).offset) % 2 ^ 32)) := by
    rw [Straight]
    simp [found, signed]
  rw [extended_step found signed (by omega), chain, left, straight]
  simp only [found, signed, ne_eq, not_true_eq_false, if_false]
  have start : (⟨(link + (t.part 0).offset) % 2 ^ 32, (t.part 0).size, (t.part 0).type⟩ : Item) =
      ⟨link + (t.part 0).offset, (t.part 0).size, (t.part 0).type⟩ →
      link + (t.part 0).offset < 2 ^ 32 := by
    intro same
    have listed := congrArg Item.lba same
    dsimp only at listed
    omega
  generalize (⟨link + (t.part 0).offset, (t.part 0).size, (t.part 0).type⟩ : Item) = e at start ⊢
  generalize (⟨(link + (t.part 0).offset) % 2 ^ 32, (t.part 0).size, (t.part 0).type⟩ : Item) = e'
    at start ⊢
  have longer : (list ++ [e']).length = list.length + 1 := length_append
  have same : max - (list ++ [e']).length = room := by omega
  by_cases unlinked : (t.part 1).type = 0
  · rw [if_pos (Or.inl unlinked), if_pos (Or.inl unlinked)]
    refine ⟨[e'],rfl,by simp only [length_singleton]; omega,by simp only [length_singleton]; omega,
      ?_⟩
    intro alike _
    exact ⟨start (singleton_inj.mp alike),by intro linked; exact absurd unlinked linked⟩
  by_cases inside : ext + (t.part 1).offset < last
  · obtain ⟨xs,parsed,within,least,exactly⟩ :=
      @ih n (list ++ [e']) (ext + (t.part 1).offset) (by omega) (by omega) (by omega)
    rw [Nat.mod_eq_of_lt (by omega), if_neg (by omega), if_neg (by omega), parsed, append_assoc]
    refine ⟨e' :: xs,rfl,by simp only [length_cons]; omega,by simp only [length_cons]; omega,?_⟩
    intro alike few
    obtain ⟨first,rest⟩ := cons.inj alike
    rw [length_cons] at few
    refine ⟨start first,?_⟩
    intro _
    rw [if_pos inside, ← same]
    exact exactly rest (by omega)
  rw [if_pos (Or.inr (by omega) : _ ∨ last ≤ ext + (t.part 1).offset), if_neg inside]
  by_cases outside : last ≤ (ext + (t.part 1).offset) % 2 ^ 32
  · rw [if_pos (Or.inr outside)]
    refine ⟨[e'],rfl,by simp only [length_singleton]; omega,by simp only [length_singleton]; omega,
      ?_⟩
    intro alike _
    exact ⟨start (singleton_inj.mp alike),fun _ => Or.inl outside⟩
  · -- The link is followed although it leads outside the disk.
    obtain ⟨xs,parsed,within,empty⟩ :=
      @extended_adds disk last max fuel ext (list ++ [e']) _ (by omega) (by omega)
    rw [if_neg (by omega), parsed, append_assoc]
    refine ⟨e' :: xs,rfl,by simp only [length_cons]; omega,
      by simp only [length_cons, length_nil]; omega,?_⟩
    intro alike few
    obtain ⟨first,rest⟩ := cons.inj alike
    rw [length_cons] at few
    exact ⟨start first,fun _ => Or.inr (Or.inr (empty rest (by omega)))⟩

theorem entry_take (enough : max < fuel) (deep : max ≤ n) (short : list.length ≤ max) {p : Entry}
    (straight : EntryStraight disk last (max - list.length) p) :
    parseEntry disk last max fuel list p = some ((list ++ items disk last n p).take max) := by
  have whole : (list ++ []).take max = list := by rw [append_nil, take_of_length_le short]
  unfold parseEntry items
  split
  · rw [whole]
  split
  · split
    · exact straight_take bounded short (by omega) (by omega) (straight ‹_› ‹_›)
    · rw [whole]
  · rw [pushback_take list _ short]

theorem straight_of_entry (enough : max < fuel) (deep : max ≤ n) (short : list.length ≤ max)
    (p : Entry) :
    ∃ xs, parseEntry disk last max fuel list p = some (list ++ xs) ∧ list.length + xs.length ≤ max ∧
      min max (list.length + (items disk last n p).length) ≤ list.length + xs.length ∧
      (xs = items disk last n p → xs.length < max - list.length →
        EntryStraight disk last (max - list.length) p) := by
  unfold parseEntry items EntryStraight
  split
  · next empty =>
    refine ⟨[],by simp,short,Nat.min_le_right _ _,?_⟩
    intro _ _ extended
    exact absurd (empty ▸ extended) (by decide)
  split
  · next extended =>
    split
    · obtain ⟨xs,parsed,within,least,exactly⟩ :=
        straight_of_chain bounded short (by omega : _ < fuel) (by omega : _ ≤ n)
      exact ⟨xs,parsed,within,least,fun same few _ _ => exactly same few⟩
    · next outside =>
      exact ⟨[],by simp,short,Nat.min_le_right _ _,fun _ _ _ inside => absurd inside outside⟩
  · next primary =>
    unfold pushback
    split
    · exact ⟨_,rfl,by simp; omega,Nat.min_le_right _ _,fun _ _ extended => absurd extended primary⟩
    · exact ⟨[],by simp,short,by simp; omega,fun _ _ extended => absurd extended primary⟩

theorem entries_take (enough : max < fuel) (deep : max ≤ n) (ps : List Entry) :
    ∀ list : List Item, list.length ≤ max → EntriesStraight disk last n (max - list.length) ps →
      ps.foldlM (parseEntry disk last max fuel) list =
        some ((list ++ ps.flatMap (items disk last n)).take max) := by
  induction ps with
  | nil =>
    intro list short _
    simp [take_of_length_le short]
  | cons p ps ih =>
    rintro list short ⟨first,rest⟩
    rw [foldlM_cons, entry_take bounded enough deep short first, flatMap_cons, ← append_assoc,
      ← take_append_take (list ++ _)]
    refine ih _ (length_take_le _ _) ?_
    rw [length_take, length_append]
    rwa [show max - min max (list.length + (items disk last n p).length) =
      max - list.length - (items disk last n p).length by omega]

/-- An entry that adds too much shows in the length of the list. -/
theorem straight_of_entries (enough : max < fuel) (deep : max ≤ n) (ps : List Entry) :
    ∀ list : List Item, list.length ≤ max →
      ∃ xs, ps.foldlM (parseEntry disk last max fuel) list = some (list ++ xs) ∧
        min max (list.length + (ps.flatMap (items disk last n)).length) ≤ list.length + xs.length ∧
        (xs = ps.flatMap (items disk last n) → xs.length < max - list.length →
          EntriesStraight disk last n (max - list.length) ps) := by
  induction ps with
  | nil =>
    intro list short
    exact ⟨[],by simp,Nat.min_le_right _ _,fun _ _ => trivial⟩
  | cons p ps ih =>
    intro list short
    obtain ⟨xs,parsed,within,least,entry⟩ := straight_of_entry bounded enough deep short p
    obtain ⟨ys,later,more,entries⟩ := ih (list ++ xs) (by rw [length_append]; exact within)
    refine ⟨xs ++ ys,?_,?_,?_⟩
    · rw [foldlM_cons, parsed, ← append_assoc]
      exact later
    · simp only [flatMap_cons, length_append] at more ⊢
      omega
    · intro same few
      simp only [flatMap_cons] at same
      have lengths := congrArg length same
      simp only [length_append] at lengths more few
      obtain ⟨first,rest⟩ := append_inj same (by omega)
      refine ⟨entry first (by omega),?_⟩
      have left := entries rest (by rw [length_append]; omega)
      rwa [length_append, first, ← Nat.sub_sub] at left

/-- The list is what it should be if the tables that are followed are straight, for chains that
    end and for chains that loop, and only then if the array does not get full. -/
theorem partitions_parsed (fuel n : Nat) (enough : max < fuel) (deep : max ≤ n) :
    (TablesStraight disk last max n →
      block_partition_parse disk last max fuel = some ((partitions disk last n).take max)) ∧
    ((partitions disk last n).length < max →
      block_partition_parse disk last max fuel = some ((partitions disk last n).take max) →
      TablesStraight disk last max n) := by
  unfold block_partition_parse partitions TablesStraight
  cases disk 0 with
  | none => simp
  | some t => ?_
  dsimp only
  by_cases signed : t.signature ≠ 0xaa55
  · simp [signed]
  rw [if_neg signed, if_neg signed]
  constructor
  · intro straight
    have entries := straight t rfl (not_not.mp signed)
    rw [entries_take bounded enough deep _ [] (Nat.zero_le _) entries, nil_append]
  · intro few parsed t' same _
    obtain rfl := Option.some.inj same
    obtain ⟨xs,listed,_,entries⟩ := straight_of_entries bounded enough deep
      ([0, 1, 2, 3].map t.part) [] (Nat.zero_le _)
    rw [listed, nil_append, take_of_length_le (by omega)] at parsed
    have all := Option.some.inj parsed
    exact entries all (all ▸ few)

end

theorem parse_ends (disk : Nat → Option Table) (last max : Nat) :
    ∃ xs, block_partition_parse disk last max (max + 1) = some xs ∧ xs.length ≤ max := by
  have all : ∀ (ps : List Entry) (list : List Item), list.length ≤ max →
      ∃ xs, ps.foldlM (parseEntry disk last max (max + 1)) list = some xs ∧ xs.length ≤ max := by
    intro ps
    induction ps with intro list short
    | nil => exact ⟨list,rfl,short⟩
    | cons p ps ih =>
      obtain ⟨xs,parsed,within⟩ :
          ∃ xs, parseEntry disk last max (max + 1) list p = some xs ∧ xs.length ≤ max := by
        unfold parseEntry
        split_ifs
        · exact ⟨list,rfl,short⟩
        · obtain ⟨xs,parsed,within,_⟩ := extended_adds short (by omega : _ < max + 1)
          exact ⟨_,parsed,by rwa [length_append]⟩
        · exact ⟨list,rfl,short⟩
        · exact ⟨_,rfl,pushback_take list _ short ▸ length_take_le _ _⟩
      rw [foldlM_cons, parsed]
      exact ih xs within
  have start := Nat.zero_le max
  unfold block_partition_parse
  split
  · exact ⟨[],rfl,start⟩
  split
  · exact ⟨[],rfl,start⟩
  · exact all _ [] start

def table (type offset : Nat) : Table :=
  ⟨fun i => if i ≤ 1 then ⟨type, offset, 8⟩ else ⟨0, 0, 0⟩, 0xaa55⟩

/-- A chain that loops fills the list. -/
theorem partitions_parsed_loop :
    block_partition_parse (fun _ => some (table 5 1)) 10 3 4 =
      some [⟨2, 8, 5⟩, ⟨3, 8, 5⟩, ⟨3, 8, 5⟩] :=
  (partitions_parsed (by decide) 4 3 (by decide) (by decide)).1 (by
    rintro t ⟨⟩ _
    simp [EntriesStraight, EntryStraight, Straight, table, items, chain, PARTITION_TYPE_EMPTY,
      PARTITION_TYPE_EXTENDED, PARTITION_TYPE_EXTENDED_LBA])

/-- A link outside the disk is followed if the sum overflows. -/
theorem link_wraps :
    block_partition_parse (fun lba => some (table 5 (if lba = 0 then 4 else 2 ^ 32 - 3))) 10 3 4 =
        some [⟨1, 8, 5⟩, ⟨2 ^ 32 - 2, 8, 5⟩, ⟨2 ^ 32 - 2, 8, 5⟩] ∧
      (partitions (fun lba => some (table 5 (if lba = 0 then 4 else 2 ^ 32 - 3))) 10 3).take 3 =
        [⟨2 ^ 32 + 1, 8, 5⟩, ⟨2 ^ 32 + 1, 8, 5⟩] := by
  decide +kernel

end MutekPartitionTable
