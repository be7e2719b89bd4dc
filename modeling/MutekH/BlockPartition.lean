import MutekH.Lib.FixedWidth
import MutekH.Lib.Memory
import Mathlib.Data.List.Range

/-!
Block requests to a partition of a ramdisk. Block addresses have 32 bits and block
counts are of type `size_t`, with `z` bits; sums are computed in the wider of the
two. The partition driver adds its first block to the address and hands the
request to the ramdisk, which checks what is left of it again and copies the
blocks.
-/
namespace MutekBlockPartition
open Function List LibFixedWidth LibMemory

def ENOTSUP : Int := 8
def ERANGE : Int := 34

def DEV_BLOCK_READ : Nat := 1
def DEV_BLOCK_WRITE : Nat := 2
def DEV_BLOCK_OPMASK : Nat := 3

structure Request where
  type : Nat
  lba : Nat
  count : Nat
  progress : Int
  deriving DecidableEq, Repr

structure Params where
  blk_size : Nat
  blk_count : Nat
  deriving DecidableEq, Repr

/-- The memory of the ramdisk and the data blocks of the request, byte by byte; the offsets in that
    memory of the blocks that were copied; and the calls of `rq->callback`: the progress at that
    moment and the number of blocks. -/
structure World where
  mem : Nat → Nat
  data : Nat → Nat → Nat
  touched : List Nat
  calls : List (Int × Nat)

def callback (s : World) (rq : Request) (count : Nat) : World :=
  { s with calls := s.calls ++ [(rq.progress, count)] }

/-- The width of `lba + b`, a sum of a `uint32_t` and a `size_t`. -/
def wide (z : Nat) : Nat := max 32 z

/-- `(lba + b) * p->blk_size`. -/
def offset (z : Nat) (p : Params) (lba b : Nat) : Nat :=
  (lba + b) % 2 ^ wide z * p.blk_size % 2 ^ wide z

/-- The loops of the two operations, with the number of rounds left. -/
def readLoop (z : Nat) (p : Params) (lba : Nat) : Nat → Nat → World → World
  | 0, _, s => s
  | n + 1, b, s =>
      readLoop z p lba n (b + 1)
        { s with
          data := update s.data b
            (copy (s.data b) 0 s.mem (offset z p lba b) p.blk_size)
          touched := s.touched ++ [offset z p lba b] }

def writeLoop (z : Nat) (p : Params) (lba : Nat) : Nat → Nat → World → World
  | 0, _, s => s
  | n + 1, b, s =>
      writeLoop z p lba n (b + 1)
        { s with
          mem := copy s.mem (offset z p lba b) (s.data b) 0 p.blk_size
          touched := s.touched ++ [offset z p lba b] }

def block_ramdisk_request (z : Nat) (p : Params) (rq : Request) (s : World) : Request × World :=
  let lba := (uint 32 (rq.lba + rq.progress)).toNat
  let count := (uint 32 (uint z (rq.count - rq.progress))).toNat
  if (lba + count) % 2 ^ 32 > p.blk_count then
    let rq := { rq with progress := -ERANGE }
    (rq, callback s rq 0)
  else
    let done := { rq with progress := sint z (rq.progress + count) }
    if rq.type &&& DEV_BLOCK_OPMASK = DEV_BLOCK_READ then
      (done, callback (readLoop z p lba count 0 s) done count)
    else if rq.type &&& DEV_BLOCK_OPMASK = DEV_BLOCK_WRITE then
      (done, callback (writeLoop z p lba count 0 s) done count)
    else
      let rq := { rq with progress := -ENOTSUP }
      (rq, callback s rq 0)

/-- `first` and `blk_count` are those of the partition, `p` the parameters of the ramdisk. -/
def block_partition_request (z : Nat) (p : Params) (first blk_count : Nat) (rq : Request)
    (s : World) : Request × World :=
  if (rq.lba + rq.count) % 2 ^ wide z > blk_count then
    let rq := { rq with progress := -ERANGE }
    (rq, callback s rq 0)
  else block_ramdisk_request z p { rq with lba := (rq.lba + first) % 2 ^ 32 } s

/-- The request ends with `-ERANGE`; nothing is copied. -/
def Refused (s : World) (out : Request × World) : Prop :=
  out.1.progress = -ERANGE ∧ out.2 = { s with calls := s.calls ++ [(-ERANGE, 0)] }

/-- The blocks of the request from block `n` of it on are copied, each from or to its own data
    block, and no other is. -/
structure Transferred (p : Params) (first : Nat) (rq : Request) (n : Nat) (s : World)
    (out : Request × World) : Prop where
  progress : out.1.progress = rq.count
  calls : out.2.calls = s.calls ++ [((rq.count : Int), rq.count - n)]
  touched : out.2.touched =
    s.touched ++ (List.range' (first + rq.lba + n) (rq.count - n)).map (· * p.blk_size)
  read : rq.type &&& DEV_BLOCK_OPMASK = DEV_BLOCK_READ → out.2.mem = s.mem ∧
    ∀ j i, out.2.data j i =
      if n ≤ j ∧ j < rq.count ∧ i < p.blk_size then s.mem ((first + rq.lba + j) * p.blk_size + i)
      else s.data j i
  write : rq.type &&& DEV_BLOCK_OPMASK = DEV_BLOCK_WRITE → out.2.data = s.data ∧
    ∀ k i, i < p.blk_size → out.2.mem (k * p.blk_size + i) =
      if first + rq.lba + n ≤ k ∧ k < first + rq.lba + rq.count then s.data (k - (first + rq.lba)) i
      else s.mem (k * p.blk_size + i)

/-- Whatever the ramdisk and the data blocks hold. -/
def Confined (z : Nat) (p : Params) (first size : Nat) (rq : Request) (n : Nat) : Prop :=
  ∀ s, Refused s (block_partition_request z p first size rq s) ∨ rq.lba + rq.count ≤ size ∧
    Transferred p first rq n s (block_partition_request z p first size rq s)

section
variable {z : Nat} {p : Params} {lba : Nat}

theorem offset_eq (memory : p.blk_count * p.blk_size ≤ 2 ^ wide z) (sized : 0 < p.blk_size)
    (inside : lba + b < p.blk_count) : offset z p lba b = (lba + b) * p.blk_size := by
  have below : (lba + b) * p.blk_size < 2 ^ wide z :=
    Nat.lt_of_lt_of_le (Nat.mul_lt_mul_of_pos_right inside sized) memory
  have small : lba + b < 2 ^ wide z :=
    Nat.lt_of_le_of_lt (Nat.le_mul_of_pos_right (lba + b) sized) below
  rw [offset, Nat.mod_eq_of_lt small, Nat.mod_eq_of_lt below]

theorem readLoop_spec (z : Nat) (p : Params) (lba n : Nat) :
    ∀ b s, (readLoop z p lba n b s).mem = s.mem ∧ (readLoop z p lba n b s).calls = s.calls ∧
      (readLoop z p lba n b s).touched = s.touched ++ (List.range' b n).map (offset z p lba) ∧
      ∀ j i, (readLoop z p lba n b s).data j i =
        if b ≤ j ∧ j < b + n ∧ i < p.blk_size then s.mem (offset z p lba j + i)
          else s.data j i := by
  induction n with
  | zero =>
    intro b s
    refine ⟨rfl,rfl,by simp [readLoop],?_⟩
    intro j i
    rw [if_neg (by omega)]
    rfl
  | succ n ih =>
    intro b s
    obtain ⟨mem,calls,touched,data⟩ := ih (b + 1) { s with
        data := update s.data b (copy (s.data b) 0 s.mem (offset z p lba b) p.blk_size)
        touched := s.touched ++ [offset z p lba b] }
    refine ⟨mem,calls,?_,?_⟩
    · rw [readLoop, touched, append_assoc]
      rfl
    intro j i
    rw [readLoop, data]
    dsimp only
    by_cases here : j = b
    · subst here
      rw [if_neg (by omega), update_self, copy]
      by_cases small : i < p.blk_size
      · rw [if_pos (by omega), if_pos (by omega), Nat.sub_zero]
      · rw [if_neg (by omega), if_neg (by omega)]
    · rw [update_of_ne here]
      by_cases later : b + 1 ≤ j ∧ j < b + 1 + n ∧ i < p.blk_size
      · rw [if_pos later, if_pos (by omega)]
      · rw [if_neg later, if_neg (by omega)]

theorem outside_block {size k q i : Nat} (small : i < size) (differ : k ≠ q) :
    ¬ (q * size ≤ k * size + i ∧ k * size + i < q * size + size) := by
  rcases Nat.lt_or_gt_of_ne differ with below | above
  · have next := Nat.mul_le_mul_right size (Nat.succ_le_of_lt below)
    rw [Nat.succ_mul] at next
    omega
  · have next := Nat.mul_le_mul_right size (Nat.succ_le_of_lt above)
    rw [Nat.succ_mul] at next
    omega

theorem writeLoop_spec (z : Nat) (p : Params) (lba n : Nat) :
    ∀ b s, (writeLoop z p lba n b s).data = s.data ∧ (writeLoop z p lba n b s).calls = s.calls ∧
      (writeLoop z p lba n b s).touched = s.touched ++ (List.range' b n).map (offset z p lba) ∧
      ((∀ j, b ≤ j → j < b + n → offset z p lba j = (lba + j) * p.blk_size) →
        ∀ k i, i < p.blk_size → (writeLoop z p lba n b s).mem (k * p.blk_size + i) =
          if lba + b ≤ k ∧ k < lba + b + n then s.data (k - lba) i
          else s.mem (k * p.blk_size + i)) := by
  induction n with
  | zero =>
    intro b s
    refine ⟨rfl,rfl,by simp [writeLoop],?_⟩
    intro _ k i _
    rw [if_neg (by omega)]
    rfl
  | succ n ih =>
    intro b s
    obtain ⟨data,calls,touched,mem⟩ := ih (b + 1) { s with
        mem := copy s.mem (offset z p lba b) (s.data b) 0 p.blk_size
        touched := s.touched ++ [offset z p lba b] }
    refine ⟨data,calls,?_,?_⟩
    · rw [writeLoop, touched, append_assoc]
      rfl
    intro placed k i small
    rw [writeLoop, mem (by intro j low high; exact placed j (by omega) (by omega)) k i small]
    by_cases later : lba + (b + 1) ≤ k ∧ k < lba + (b + 1) + n
    · rw [if_pos later, if_pos (by omega)]
    rw [if_neg later]
    simp only [copy]
    rw [placed b (by omega) (by omega)]
    by_cases here : k = lba + b
    · subst here
      rw [if_pos (by omega), if_pos (by omega)]
      congr 1 <;> omega
    · rw [if_neg (outside_block small here), if_neg (by omega)]

theorem offsets_eq (placed : ∀ j, 0 ≤ j → j < 0 + n → offset z p lba j = (lba + j) * p.blk_size) :
    (List.range' 0 n).map (offset z p lba) = (List.range' lba n).map (· * p.blk_size) := by
  have shifted : List.range' lba n = (List.range' 0 n).map (lba + ·) := by
    rw [map_add_range', Nat.add_zero]
  rw [shifted, map_map]
  apply map_congr_left
  intro j member
  obtain ⟨low,high⟩ := mem_range'_1.mp member
  exact placed j low high

theorem not_read {rq : Request} (write : rq.type &&& DEV_BLOCK_OPMASK = DEV_BLOCK_WRITE) :
    rq.type &&& DEV_BLOCK_OPMASK ≠ DEV_BLOCK_READ := by
  rw [write]
  decide

end

section
variable {z : Nat} {p : Params} {first size : Nat} {rq : Request} {n : Nat}
  (inside : first + size ≤ p.blk_count) (disk : p.blk_count < 2 ^ 32) (address : rq.lba < 2 ^ 32)
  (count : rq.count < 2 ^ z) (progress : rq.progress = n) (started : n ≤ rq.count)
include inside disk address count progress started

/-- A request that the partition hands over is not refused by the ramdisk: its sum is that of the
    partition's check, moved by the first block. -/
theorem handed_over {s : World} (passed : (rq.lba + rq.count) % 2 ^ wide z ≤ size) :
    block_partition_request z p first size rq s =
      let lba := (first + rq.lba + n) % 2 ^ 32
      let left := (rq.count - n) % 2 ^ 32
      let done := { rq with lba := (rq.lba + first) % 2 ^ 32, progress := sint z (n + left) }
      if rq.type &&& DEV_BLOCK_OPMASK = DEV_BLOCK_READ then
        (done, callback (readLoop z p lba left 0 s) done left)
      else if rq.type &&& DEV_BLOCK_OPMASK = DEV_BLOCK_WRITE then
        (done, callback (writeLoop z p lba left 0 s) done left)
      else
        let rq := { rq with lba := (rq.lba + first) % 2 ^ 32, progress := -ENOTSUP }
        (rq, callback s rq 0) := by
  have whole : uint z (rq.count - rq.progress) = (rq.count - n : Nat) := by
    have cast : (rq.count : Int) < 2 ^ z := by exact_mod_cast count
    rw [uint_of_range (by omega) (by omega)]
    omega
  have left : (uint 32 (uint z (rq.count - rq.progress))).toNat = (rq.count - n) % 2 ^ 32 := by
    rw [whole, uint]
    omega
  have lba : (uint 32 (((rq.lba + first) % 2 ^ 32 : Nat) + rq.progress)).toNat =
      (first + rq.lba + n) % 2 ^ 32 := by
    rw [uint]
    omega
  have sum : ((first + rq.lba + n) % 2 ^ 32 + (rq.count - n) % 2 ^ 32) % 2 ^ 32 ≤ p.blk_count := by
    obtain ⟨k,multiple⟩ : 2 ^ 32 ∣ 2 ^ wide z := Nat.pow_dvd_pow 2 (Nat.le_max_left 32 z)
    have wider : 2 ^ z ≤ 2 ^ wide z := Nat.pow_le_pow_right (by decide) (Nat.le_max_right 32 z)
    rcases Nat.lt_or_ge (rq.lba + rq.count) (2 ^ wide z) with exact_sum | wrapped
    · rw [Nat.mod_eq_of_lt exact_sum] at passed
      omega
    · rw [Nat.mod_eq_sub_mod wrapped, Nat.mod_eq_of_lt (by omega)] at passed
      omega
  unfold block_partition_request block_ramdisk_request
  simp only [left, lba]
  rw [if_neg (by omega), if_neg (by omega), progress]


variable (operation : rq.type &&& DEV_BLOCK_OPMASK = DEV_BLOCK_READ ∨
  rq.type &&& DEV_BLOCK_OPMASK = DEV_BLOCK_WRITE)
include operation

/-- Every request that the partition's check lets through is carried out by the ramdisk. -/
theorem not_refused (fits : Fits z n) (passed : (rq.lba + rq.count) % 2 ^ wide z ≤ size)
    (s : World) : ¬ Refused s (block_partition_request z p first size rq s) := by
  rintro ⟨code,world⟩
  have untouched := congrArg World.touched world
  rw [handed_over inside disk address count progress started passed] at code untouched
  dsimp only at code untouched
  generalize (first + rq.lba + n) % 2 ^ 32 = lba at untouched code
  generalize (rq.count - n) % 2 ^ 32 = left at untouched code
  have final : sint z (n + left) = -ERANGE ∧ left = 0 := by
    rcases operation with read | write
    · rw [if_pos read] at code untouched
      simp only [callback, (readLoop_spec z p lba left 0 s).2.2.1, append_right_eq_self,
        map_eq_nil_iff, range'_eq_nil_iff] at untouched
      exact ⟨code,untouched⟩
    · have other := not_read write
      rw [if_neg other, if_pos write] at code untouched
      simp only [callback, (writeLoop_spec z p lba left 0 s).2.2.1, append_right_eq_self,
        map_eq_nil_iff, range'_eq_nil_iff] at untouched
      exact ⟨code,untouched⟩
  obtain ⟨final,rfl⟩ := final
  rw [Int.natCast_zero, Int.add_zero, sint_of_fits fits, ERANGE] at final
  omega

/-- A request inside the partition. -/
theorem carried_out (within : rq.lba + rq.count ≤ size) (s : World) :
    block_partition_request z p first size rq s =
      let done := { rq with lba := first + rq.lba, progress := sint z rq.count }
      (done, callback (if rq.type &&& DEV_BLOCK_OPMASK = DEV_BLOCK_READ then
          readLoop z p (first + rq.lba + n) (rq.count - n) 0 s
        else writeLoop z p (first + rq.lba + n) (rq.count - n) 0 s) done (rq.count - n)) := by
  have large : 2 ^ 32 ≤ 2 ^ wide z := Nat.pow_le_pow_right (by decide) (Nat.le_max_left 32 z)
  have passed : (rq.lba + rq.count) % 2 ^ wide z ≤ size := by
    rw [Nat.mod_eq_of_lt (by omega)]
    exact within
  have last : (n : Int) + (rq.count - n : Nat) = rq.count := by omega
  have lba : (first + rq.lba + n) % 2 ^ 32 = first + rq.lba + n := Nat.mod_eq_of_lt (by omega)
  have moved : (rq.lba + first) % 2 ^ 32 = first + rq.lba := by omega
  have left : (rq.count - n) % 2 ^ 32 = rq.count - n := Nat.mod_eq_of_lt (by omega)
  rw [handed_over inside disk address count progress started passed]
  simp only [lba, moved, left, last]
  rcases operation with read | write
  · rw [if_pos read, if_pos read]
  · have other := not_read write
    rw [if_neg other, if_pos write, if_neg other]

section
variable (within : rq.lba + rq.count ≤ size) (placed : ∀ j, 0 ≤ j → j < 0 + (rq.count - n) →
    offset z p (first + rq.lba + n) j = (first + rq.lba + n + j) * p.blk_size)
include within placed

theorem transferred (last : Fits z rq.count) (whole : n = 0 ∨ n = rq.count) (s : World) :
    Transferred p first rq n s (block_partition_request z p first size rq s) := by
  rw [carried_out inside disk address count progress started operation within, sint_of_fits last]
  rcases operation with read | write
  · obtain ⟨mem,calls,touched,data⟩ := readLoop_spec z p (first + rq.lba + n) (rq.count - n) 0 s
    rw [if_pos read]
    refine ⟨rfl,by simp [callback, calls],by simp [callback, touched, offsets_eq placed],?_,?_⟩
    · intro _
      refine ⟨mem,?_⟩
      intro j i
      simp only [callback, data]
      by_cases copied : n ≤ j ∧ j < rq.count ∧ i < p.blk_size
      · rw [if_pos (by omega), if_pos copied, placed j (by omega) (by omega),
          show first + rq.lba + n + j = first + rq.lba + j by omega]
      · rw [if_neg (by omega), if_neg copied]
    · intro write
      rw [read] at write
      cases write
  · have other := not_read write
    obtain ⟨data,calls,touched,mem⟩ := writeLoop_spec z p (first + rq.lba + n) (rq.count - n) 0 s
    rw [if_neg other]
    refine ⟨rfl,by simp [callback, calls],by simp [callback, touched, offsets_eq placed],?_,?_⟩
    · intro read
      exact absurd read other
    · intro _
      refine ⟨data,?_⟩
      intro k i small
      simp only [callback, mem placed k i small]
      by_cases copied : first + rq.lba + n ≤ k ∧ k < first + rq.lba + rq.count
      · rw [if_pos (by omega), if_pos copied,
          show k - (first + rq.lba + n) = k - (first + rq.lba) by omega]
      · rw [if_neg (by omega), if_neg copied]

theorem whole_of_transferred (sized : 0 < p.blk_size) (moved : ∀ s,
      Transferred p first rq n s (block_partition_request z p first size rq s)) :
    Fits z rq.count ∧ (n = 0 ∨ n = rq.count) := by
  have carried := carried_out inside disk address count progress started operation within
  constructor
  · have same := (moved ⟨fun _ => 0,fun _ _ => 0,[],[]⟩).progress
    rw [carried] at same
    rcases Nat.eq_zero_or_pos z with rfl | wide
    · rw [show rq.count = 0 by omega]
      exact fits_zero 0
    · exact (sint_eq_self_iff wide _).mp same
  · -- The first data block is used, which is not that of block `n`.
    by_contra later
    rcases operation with read | write
    · have block := ((moved ⟨fun _ => 1,fun _ _ => 0,[],[]⟩).read read).2 0 0
      rw [if_neg (by omega), carried] at block
      simp only [if_pos read, callback, (readLoop_spec ..).2.2.2] at block
      rw [if_pos (by omega)] at block
      cases block
    · have block := ((moved ⟨fun _ => 0,fun j _ => j,[],[]⟩).write write).2
        (first + rq.lba + n) 0 sized
      have other := not_read write
      rw [if_pos (by omega), carried] at block
      simp only [if_neg other, callback] at block
      rw [(writeLoop_spec ..).2.2.2 placed _ _ sized, if_pos (by omega)] at block
      dsimp only at block
      omega

end
end

/-- A request to a partition that lies on the disk, with a progress from 0 to its count, is confined
    to the partition and exact if and only if: inside the partition, it is carried out at once or
    has nothing left to do, and its count is a progress; beyond it, the sum of its address and its
    count is still too large after it has wrapped. -/
theorem partition_confined (z : Nat) (p : Params) (first size : Nat) (rq : Request) (n : Nat)
    (inside : first + size ≤ p.blk_count) (disk : p.blk_count < 2 ^ 32) (sized : 0 < p.blk_size)
    (memory : p.blk_count * p.blk_size ≤ 2 ^ wide z)
    (address : rq.lba < 2 ^ 32) (count : rq.count < 2 ^ z) (progress : rq.progress = n)
    (fits : Fits z n) (started : n ≤ rq.count)
    (operation : rq.type &&& DEV_BLOCK_OPMASK = DEV_BLOCK_READ ∨
      rq.type &&& DEV_BLOCK_OPMASK = DEV_BLOCK_WRITE) :
    Confined z p first size rq n ↔
      if rq.lba + rq.count ≤ size then Fits z rq.count ∧ (n = 0 ∨ n = rq.count)
      else size < (rq.lba + rq.count) % 2 ^ wide z := by
  have large : 2 ^ 32 ≤ 2 ^ wide z := Nat.pow_le_pow_right (by decide) (Nat.le_max_left 32 z)
  have refuses := not_refused inside disk address count progress started operation fits
  split
  · next within =>
    have placed : ∀ j, 0 ≤ j → j < 0 + (rq.count - n) →
        offset z p (first + rq.lba + n) j = (first + rq.lba + n + j) * p.blk_size := by
      intro j _ high
      exact offset_eq memory sized (by omega)
    constructor
    · intro confined
      refine whole_of_transferred inside disk address count progress started operation within placed
        sized ?_
      intro s
      have passed : (rq.lba + rq.count) % 2 ^ wide z ≤ size := by
        rw [Nat.mod_eq_of_lt (by omega)]
        exact within
      exact ((confined s).resolve_left (refuses passed s)).2
    · rintro ⟨last,whole⟩ s
      exact Or.inr ⟨within,transferred inside disk address count progress started operation within
        placed last whole s⟩
  · next beyond =>
    constructor
    · intro confined
      by_contra passed
      have refused := (confined ⟨fun _ => 0,fun _ _ => 0,[],[]⟩).resolve_right (by omega)
      exact refuses (by omega) _ refused
    · intro beyond s
      rw [block_partition_request, if_pos beyond]
      exact Or.inl ⟨rfl,rfl⟩

def small : Params := ⟨4, 16⟩

def filled : World := ⟨fun a => a / 4, fun _ _ => 99, [], []⟩

theorem partition_confined_write : Confined 32 small 4 8 ⟨2, 1, 3, 0⟩ 0 :=
  (partition_confined 32 small 4 8 ⟨2, 1, 3, 0⟩ 0 (by decide) (by decide) (by decide) (by decide)
    (by decide) (by decide) rfl (by decide) (by decide) (by decide)).mpr (by decide)

/-- The sum of address and count wraps, with a `size_t` of 32 bits and of 64 bits: block 3, before
    the partition, is read. A request for blocks 0 and 1 that has processed block 0 puts block 1 in
    the first data block. -/
theorem partition_leaks :
    ((block_partition_request 32 small 4 8 ⟨1, 2 ^ 32 - 1, 1, 0⟩ filled).1.progress = 1 ∧
      (block_partition_request 32 small 4 8 ⟨1, 2 ^ 32 - 1, 1, 0⟩ filled).2.touched = [12] ∧
      (block_partition_request 32 small 4 8 ⟨1, 2 ^ 32 - 1, 1, 0⟩ filled).2.data 0 0 = 3) ∧
    ((block_partition_request 64 small 4 8
        ⟨1, 2 ^ 32 - 1, 2 ^ 64 - 2 ^ 32 + 1, 0⟩ filled).1.progress = 1 ∧
      (block_partition_request 64 small 4 8
        ⟨1, 2 ^ 32 - 1, 2 ^ 64 - 2 ^ 32 + 1, 0⟩ filled).2.touched = [12]) ∧
    ((block_partition_request 32 small 4 8 ⟨1, 0, 2, 1⟩ filled).1.progress = 2 ∧
      (block_partition_request 32 small 4 8 ⟨1, 0, 2, 1⟩ filled).2.data 0 0 = 5 ∧
      (block_partition_request 32 small 4 8 ⟨1, 0, 2, 1⟩ filled).2.data 1 0 = 99) := by
  refine ⟨⟨?_,?_,?_⟩,⟨?_,?_⟩,?_,?_,?_⟩ <;> decide +kernel

end MutekBlockPartition
