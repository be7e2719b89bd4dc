import MutekH.Lib.Machine
import MutekH.Lib.Align
import MutekH.WaitQueue

/-!
Physical page allocator. One table word per page is either a link of the free
list, marked by its top bit, or the reference count of a page in use. Table
indices, sizes and words are 32 bits wide on every target with an MMU; physical
addresses have `w` bits. The table is a function because the code can read the
word past its end.
-/
namespace MutekPageAlloc
open Function LibMachine LibAlign MutekWaitQueue

def u32 (x : Nat) : Nat := x % 2 ^ 32

def MMU_PAGESIZE : Nat := 4096

def alignValueUp (w x : Nat) : Nat := alignUp w 12 x

def alignValueLow (w x : Nat) : Nat := alignLow w 12 x

def vmem_ppage_isfree (x : Nat) : Prop := x &&& 0x80000000 ≠ 0

instance (x : Nat) : Decidable (vmem_ppage_isfree x) := inferInstanceAs (Decidable (_ ≠ _))

def vmem_ppage_value (x : Nat) : Nat := x &&& 0x7fffffff

def vmem_ppage_set (isfree value : Nat) : Nat := u32 ((isfree <<< 31) ||| value)

structure Region where
  paddr : Nat
  size : Nat
  count : Nat
  free_count : Nat
  free_head : Nat
  table : Nat → Nat
  locked : Bool

/-- The region of an aligned range, `mem` being the words found in the memory
    obtained for the table. -/
def ppage_region_init (w paddr paddr_end : Nat) (mem : Option (Nat → Nat)) : Except Int Region :=
  let first := alignValueUp w paddr
  let last := alignValueLow w paddr_end
  let size := u32 (last - first)
  let count := size / MMU_PAGESIZE
  match mem with
  | none => .error (-ENOMEM)
  | some words =>
      let linked := fun i => if i < count then vmem_ppage_set 1 (i + 1) else words i
      .ok ⟨first, size, count, count, 0,
        update linked (u32 (count + (2 ^ 32 - 1))) (vmem_ppage_set 1 0), false⟩

variable (w : Nat) (s : System) (r : Region) (paddr : Nat)

def pageOf : Nat :=
  u32 ((paddr + (2 ^ w - r.paddr)) % 2 ^ w / MMU_PAGESIZE)

def addressOf (page : Nat) : Nat :=
  (r.paddr + u32 (page * MMU_PAGESIZE)) % 2 ^ w

/- Every call that takes the lock of the region is `none` while it is held, and
   so is a call that has not returned after `fuel` rounds of one of its loops. -/

def ppage_alloc : Option (Region × Except Int Nat) :=
  if r.locked then none
  else if 0 < r.free_count then
    some ({ r with
        free_head := vmem_ppage_value (r.table r.free_head)
        table := update r.table r.free_head (vmem_ppage_set 0 1)
        free_count := r.free_count - 1 },
      .ok (addressOf w r r.free_head))
  else some (r, .error (-ENOMEM))

def search (r : Region) (size : Nat) : Nat → Nat → Nat → Option (Option Nat)
  | 0, first, i => if i < first + size then none else some (some first)
  | fuel + 1, first, i =>
      if i < first + size then
        if vmem_ppage_isfree (r.table i) then search r size fuel first (i + 1)
        else if r.count < i + size then some none
        else search r size fuel (i + 1) (i + 1)
      else some (some first)

/-- The word the pointer `n` of the unlinking loop points to: `free_head` or the
    table word of a page. -/
def readLink : Option Nat → Nat
  | none => r.free_head
  | some page => r.table page

def writeLink (value : Nat) : Option Nat → Region
  | none => { r with free_head := value }
  | some page => { r with table := update r.table page value }

def setWord (page value : Nat) : Region :=
  { r with table := update r.table page value }

/-- The loop that takes the `size` pages from `first` up to `last` off the free
    list, `c` of them being done. -/
def unlink (first last size : Nat) : Nat → Option Nat → Nat → Region → Option Region
  | 0, _, c, r => if c < size then none else some r
  | fuel + 1, n, c, r =>
      if c < size then
        let i := vmem_ppage_value (readLink r n)
        if first ≤ i ∧ i < last then
          unlink first last size fuel n (c + 1)
            (setWord (writeLink r (vmem_ppage_value (r.table i)) n) i (vmem_ppage_set 0 1))
        else unlink first last size fuel (some i) c r
      else some r

def ppage_contiguous_alloc (w fuel : Nat) (r : Region) (size : Nat) :
    Option (Region × Except Int Nat) :=
  if r.free_count < size then some (r, .error (-ENOMEM))
  else if r.locked then none
  else
    match search r size fuel 0 0 with
    | none => none
    -- The error label is past the release of the lock.
    | some none => some ({ r with locked := true }, .error (-ENOMEM))
    | some (some first) =>
        match unlink first (first + size) size fuel none 0 r with
        | none => none
        | some r' => some ({ r' with free_count := r'.free_count - size },
            .ok (addressOf w r first))

def ppage_inrange : Prop :=
  r.paddr ≤ paddr ∧ paddr < r.paddr + r.size

instance (r : Region) (paddr : Nat) : Decidable (ppage_inrange r paddr) :=
  instDecidableAnd

def ppage_reserve (w fuel : Nat) (r : Region) (paddr paddr_end : Nat) : Option (Region × Int) :=
  let start := alignValueUp w paddr
  let stop := alignValueLow w paddr_end
  let size := u32 ((stop - start) / MMU_PAGESIZE)
  let p := pageOf w r start
  let last := u32 (p + size)
  if r.locked then none
  else if ∀ i, p ≤ i → i < last → vmem_ppage_isfree (r.table i) then
    match unlink p last size fuel none 0 r with
    | none => none
    | some r' => some ({ r' with free_count := u32 (r'.free_count + (2 ^ 32 - size)) }, 0)
  else some (r, -ENOMEM)

def ppage_refnew : Option Region :=
  let p := pageOf w r paddr
  if r.locked then none else some (setWord r p (u32 (r.table p + 1)))

def ppage_refdrop : Option Region :=
  let p := pageOf w r paddr
  let left := u32 (r.table p + (2 ^ 32 - 1))
  if r.locked then none
  else if left = 0 then
    some { setWord r p (vmem_ppage_set 1 r.free_head) with
      free_head := p, free_count := r.free_count + 1 }
  else some (setWord r p left)

/-- A region and, for each of its pages, the references handed out and not dropped since. -/
structure System where
  region : Region
  refs : Nat → Nat

inductive Call where
  | alloc
  | contiguous (size fuel : Nat)
  | reserve (paddr paddr_end fuel : Nat)
  | refnew (paddr : Nat)
  | refdrop (paddr : Nat)
  deriving DecidableEq, Repr

def granted : Call → List Nat
  | .alloc =>
      match ppage_alloc w r with
      | some (_, .ok paddr) => [pageOf w r paddr]
      | _ => []
  | .contiguous size fuel =>
      match ppage_contiguous_alloc w fuel r size with
      | some (_, .ok paddr) => List.range' (pageOf w r paddr) size
      | _ => []
  | .reserve paddr paddr_end fuel =>
      match ppage_reserve w fuel r paddr paddr_end with
      | some (_, res) =>
          if res = 0 then
            List.range' (pageOf w r (alignValueUp w paddr))
              ((alignValueLow w paddr_end - alignValueUp w paddr) / MMU_PAGESIZE)
          else []
      | none => []
  | .refnew _ => []
  | .refdrop _ => []

def operate : Call → Option Region
  | .alloc => (ppage_alloc w r).map Prod.fst
  | .contiguous size fuel => (ppage_contiguous_alloc w fuel r size).map Prod.fst
  | .reserve paddr paddr_end fuel => (ppage_reserve w fuel r paddr paddr_end).map Prod.fst
  | .refnew paddr => ppage_refnew w r paddr
  | .refdrop paddr => ppage_refdrop w r paddr

def countRefs : Call → Nat → Nat
  | .refnew paddr => update s.refs (pageOf w s.region paddr)
      (s.refs (pageOf w s.region paddr) + 1)
  | .refdrop paddr => update s.refs (pageOf w s.region paddr)
      (s.refs (pageOf w s.region paddr) - 1)
  | a => fun p => if p ∈ granted w s.region a then 1 else s.refs p

/-- The assertions of the code, addresses and sizes within their types, and a
    reference is copied or dropped only while there is one. -/
def CanCall : Call → Prop
  | .alloc => True
  | .contiguous size _ => size < 2 ^ 32
  | .reserve paddr paddr_end _ => paddr < 2 ^ w ∧ paddr_end < 2 ^ w ∧
      alignValueUp w paddr < alignValueLow w paddr_end
  | .refnew paddr => ppage_inrange s.region paddr ∧ 1 ≤ s.refs (pageOf w s.region paddr)
  | .refdrop paddr => ppage_inrange s.region paddr ∧ 1 ≤ s.refs (pageOf w s.region paddr)

instance (w : Nat) (s : System) : (a : Call) → Decidable (CanCall w s a)
  | .alloc => inferInstanceAs (Decidable True)
  | .contiguous _ _ => inferInstanceAs (Decidable (_ < _))
  | .reserve _ _ _ => instDecidableAnd
  | .refnew _ => instDecidableAnd
  | .refdrop _ => instDecidableAnd

/-- A region just set up for the range, none of its pages handed out. -/
structure Boot (w paddr paddr_end : Nat) (s : System) : Prop where
  range : paddr < 2 ^ w ∧ paddr_end < 2 ^ w
  asserted : alignValueUp w paddr < alignValueLow w paddr_end
  region : ∃ mem, ppage_region_init w paddr paddr_end mem = .ok s.region
  refs : ∀ p, s.refs p = 0

def machine : Machine System Call where
  start s := ∃ paddr paddr_end, Boot w paddr paddr_end s
  enabled s a := CanCall w s a ∧ (operate w s.region a).isSome
  next s a := ⟨(operate w s.region a).getD s.region, countRefs w s a⟩

/-- The pages met by following `steps` table links from `page`. -/
def follow (table : Nat → Nat) : Nat → Nat → List Nat
  | _, 0 => []
  | page, steps + 1 => page :: follow table (vmem_ppage_value (table page)) steps

def visits : List Nat := follow r.table r.free_head r.free_count

/-- The free list visits the pages marked free, each once, and every other page
    carries its reference count. -/
structure Kept (s : System) : Prop where
  inside : ∀ p ∈ visits s.region, p < s.region.count
  once : (visits s.region).Nodup
  free : ∀ p, p < s.region.count →
    (p ∈ visits s.region ↔ vmem_ppage_isfree (s.region.table p))
  counted : ∀ p, p < s.region.count → p ∉ visits s.region →
    s.region.table p = s.refs p ∧ 1 ≤ s.refs p

def Unreferenced (a : Call) : Prop :=
  ∀ p ∈ granted w s.region a, s.refs p = 0

/-- The window `ppage_contiguous_alloc` picks: the lowest one whose words all have
    the free bit. It may include the word past the end of the table. -/
def Picked (size first : Nat) : Prop :=
  first + size ≤ r.count + 1 ∧ (∀ k, k < size → vmem_ppage_isfree (r.table (first + k))) ∧
    ∀ f, f < first → ∃ k, k < size ∧ ¬ vmem_ppage_isfree (r.table (f + k))

/-- The pages a call would take off the free list are pages of the region. -/
def InRegion : Call → Prop
  | .contiguous size _ => size ≤ s.region.free_count →
      ∀ first, Picked s.region size first → first + size ≤ s.region.count
  | .reserve paddr paddr_end _ => s.region.paddr ≤ alignValueUp w paddr ∧
      alignValueLow w paddr_end ≤ s.region.paddr + s.region.size
  | _ => True

/-- The `size` pages from `first` are the first ones on the free list. -/
def AtHead (size first : Nat) : Prop :=
  ∀ p ∈ (visits r).take size, first ≤ p ∧ p < first + size

/-- Where the allocator is right: the pages it takes are pages of the region and are the first ones
    on the free list, and no reference count reaches the free bit. -/
def InDomain : Call → Prop
  | .alloc => True
  | .contiguous size fuel => InRegion w s (.contiguous size fuel) ∧
      (size ≤ s.region.free_count → ∀ first, Picked s.region size first →
        AtHead s.region size first)
  | .reserve paddr paddr_end fuel => InRegion w s (.reserve paddr paddr_end fuel) ∧
      ((∀ p, s.region.paddr + p * MMU_PAGESIZE < alignValueLow w paddr_end →
          alignValueUp w paddr ≤ s.region.paddr + p * MMU_PAGESIZE →
          vmem_ppage_isfree (s.region.table p)) →
        AtHead s.region ((alignValueLow w paddr_end - alignValueUp w paddr) / MMU_PAGESIZE)
          ((alignValueUp w paddr - s.region.paddr) / MMU_PAGESIZE))
  | .refnew paddr => s.refs (pageOf w s.region paddr) + 1 < 2 ^ 31
  | .refdrop _ => True

end MutekPageAlloc
