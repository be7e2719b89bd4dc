import MutekH.Lib.Machine
import Mathlib.Algebra.Ring.Nat
import Mathlib.Data.Fintype.Basic
import Mathlib.Logic.Function.Basic

/-!
Address spaces of the x86 port. Each context has a page directory and a page table that
mirrors it, so that the page tables can be reached at fixed addresses. The kernel part of
a directory is a copy of the kernel context's: a context remembers how many entries it has
copied, `k_count`, and copies the ones above when it is initialised or switched to.
-/
namespace MutekMmuX86
open Function LibMachine

def MMU_USER_END_PDE : Nat := 1022
def MMU_MIRROR_PDE : Nat := 1023

def MMU_PAGE_ATTR_W : Nat := 0x02
def MMU_PAGE_ATTR_NOCACHE : Nat := 0x08
def MMU_PAGE_ATTR_USERLEVEL : Nat := 0x10
def MMU_PAGE_ATTR_DIRTY : Nat := 0x20
def MMU_PAGE_ATTR_ACCESSED : Nat := 0x40
def MMU_PAGE_ATTR_PRESENT : Nat := 0x80

def ENOMEM : Int := 4

/-- `cpu_x86_page_entry_t`. The three views of the union give the same bits different names;
    `address` is the one of 20 bits, so a 4 MB page has a multiple of 1024 there. -/
structure Entry where
  present : Bool := false
  writable : Bool := false
  userlevel : Bool := false
  nocache : Bool := false
  accessed : Bool := false
  dirty : Bool := false
  pagsize4m : Bool := false
  «global» : Bool := false
  address : Nat := 0
  deriving DecidableEq

structure Context where
  pagedir : Nat → Entry
  mirror : Nat → Entry
  pagedir_paddr : Nat
  k_count : Nat

def mmu_is_user_vaddr (user_start user_end vaddr : Nat) : Bool :=
  decide (user_start ≤ vaddr) && decide (vaddr < user_end)

/-- The configuration. `w` is the width of `uint_fast16_t`. A page table has kernel pages only or
    user pages only. -/
structure Config where
  w : Nat
  wide : 16 ≤ w
  initial_pde : Nat
  initial_le : initial_pde ≤ 1023
  user_start : Nat
  user_end : Nat
  apart : ∀ page other, page % 4096 = 0 → other % 4096 = 0 → page / 2 ^ 22 = other / 2 ^ 22 →
    mmu_is_user_vaddr user_start user_end page = mmu_is_user_vaddr user_start user_end other
  k_pagedir : Nat
  k_mirror : Nat

section
variable (g : Config)

def isUser (vaddr : Nat) : Bool := mmu_is_user_vaddr g.user_start g.user_end vaddr

/-- A page directory index of the kernel. The last entry is not one: it leads to the mirror. -/
def KernelIndex (i : Nat) : Prop := i ≤ MMU_USER_END_PDE ∧ isUser g (i * 2 ^ 22) = false

instance (i : Nat) : Decidable (KernelIndex g i) := instDecidableAnd

def pageOf (frame : Nat) : Entry := { present := true, writable := true, address := frame }

def mmu_global_init : Context where
  pagedir i :=
    if i < g.initial_pde then
      { present := true, writable := true, pagsize4m := true, «global» := true,
        address := i * 2 ^ 10 }
    else if i = MMU_MIRROR_PDE then pageOf (g.k_mirror / 2 ^ 12)
    else {}
  mirror i := if i = MMU_MIRROR_PDE then pageOf (g.k_mirror / 2 ^ 12) else {}
  pagedir_paddr := g.k_pagedir
  k_count := g.initial_pde

def copyRange (source into : Nat → Entry) (first n : Nat) : Nat → Entry :=
  fun i => if first ≤ i ∧ i < first + n then source i else into i

def mmu_x86_update_k_context (k ctx : Context) : Context :=
  let diff := (k.k_count + 2 ^ g.w - ctx.k_count) % 2 ^ g.w
  if diff = 0 then ctx
  else
    { ctx with
      pagedir := copyRange k.pagedir ctx.pagedir ctx.k_count diff
      mirror := copyRange k.mirror ctx.mirror ctx.k_count diff
      k_count := (ctx.k_count + diff) % 2 ^ g.w }

def emptyContext (pagedir_paddr mirror_paddr : Nat) : Context where
  pagedir i := if i = MMU_MIRROR_PDE then pageOf (mirror_paddr / 2 ^ 12) else {}
  mirror i := if i = MMU_MIRROR_PDE then pageOf (mirror_paddr / 2 ^ 12) else {}
  pagedir_paddr := pagedir_paddr
  k_count := 0

def enterTable (ctx : Context) (i frame : Nat) (userlevel : Bool) : Context :=
  { ctx with
    pagedir := update ctx.pagedir i
      { ctx.pagedir i with
        present := true, writable := true, userlevel := userlevel, address := frame }
    mirror := update ctx.mirror i
      { ctx.mirror i with present := true, writable := true, address := frame } }

def raiseCount (ctx : Context) (i : Nat) : Context :=
  if ctx.k_count ≤ i then { ctx with k_count := i + 1 } else ctx

def copyToKernel (k ctx : Context) (i : Nat) : Context :=
  { k with
    pagedir := update k.pagedir i (ctx.pagedir i)
    mirror := update k.mirror i (ctx.mirror i)
    k_count := ctx.k_count }

variable {k ctx : Context}

theorem update_k_context_eq (le : ctx.k_count ≤ k.k_count) (bounded : k.k_count ≤ 1023) :
    mmu_x86_update_k_context g k ctx = { ctx with
        pagedir := copyRange k.pagedir ctx.pagedir ctx.k_count (k.k_count - ctx.k_count)
        mirror := copyRange k.mirror ctx.mirror ctx.k_count (k.k_count - ctx.k_count)
        k_count := k.k_count } := by
  have room : 2 ^ 16 ≤ 2 ^ g.w := Nat.pow_le_pow_right (by decide) g.wide
  have diff : (k.k_count + 2 ^ g.w - ctx.k_count) % 2 ^ g.w = k.k_count - ctx.k_count := by
    have shift : k.k_count + 2 ^ g.w - ctx.k_count = k.k_count - ctx.k_count + 2 ^ g.w := by omega
    rw [shift, Nat.add_mod_right]
    exact Nat.mod_eq_of_lt (by omega)
  simp only [mmu_x86_update_k_context, diff]
  split
  next same =>
    have equal : k.k_count = ctx.k_count := by omega
    have nothing : ∀ source into : Nat → Entry, copyRange source into ctx.k_count 0 = into := by
      intro source into
      funext i
      simp only [copyRange]
      rw [if_neg (by omega)]
    rw [same, nothing, nothing, equal]
  next =>
    have total : (ctx.k_count + (k.k_count - ctx.k_count)) % 2 ^ g.w = k.k_count := by
      rw [Nat.add_sub_cancel' le]
      exact Nat.mod_eq_of_lt (by omega)
    rw [total]

@[simp] theorem raiseCount_k_count (ctx : Context) (i : Nat) :
    (raiseCount ctx i).k_count = max ctx.k_count (i + 1) := by
  simp only [raiseCount]
  split
  · simp only; omega
  · omega

@[simp] theorem raiseCount_pagedir (ctx : Context) (i : Nat) : (raiseCount ctx i).pagedir =
    ctx.pagedir := by
  simp only [raiseCount]
  split <;> rfl

@[simp] theorem raiseCount_mirror (ctx : Context) (i : Nat) : (raiseCount ctx i).mirror =
    ctx.mirror := by
  simp only [raiseCount]
  split <;> rfl

/-- The kernel part of a context: a copy of the kernel's entries up to its count, and nothing
    above. -/
structure Copy (k ctx : Context) : Prop where
  below : ∀ i, KernelIndex g i → i < ctx.k_count → ctx.pagedir i = k.pagedir i ∧
    ctx.mirror i = k.mirror i
  above : ∀ i, KernelIndex g i → ctx.k_count ≤ i → ctx.pagedir i = {} ∧ ctx.mirror i = {}

theorem kernel_index_ne_mirror (index : KernelIndex g i) : i ≠ MMU_MIRROR_PDE := by
  have le := index.1
  simp only [MMU_USER_END_PDE] at le
  simp only [MMU_MIRROR_PDE]
  omega

theorem copy_entries (kernel : Copy g k k) (copy : Copy g k ctx)
    (equal : ctx.k_count = k.k_count) (i : Nat) (index : KernelIndex g i) :
    ctx.pagedir i = k.pagedir i ∧ ctx.mirror i = k.mirror i := by
  by_cases low : i < ctx.k_count
  · exact copy.below i index low
  · obtain ⟨pagedir,mirror⟩ := copy.above i index (by omega)
    obtain ⟨kpagedir,kmirror⟩ := kernel.above i index (by omega)
    rw [pagedir, mirror, kpagedir, kmirror]
    exact ⟨rfl,rfl⟩

theorem empty_copy (k : Context) (pagedir_paddr mirror_paddr : Nat) :
    Copy g k (emptyContext pagedir_paddr mirror_paddr) := by
  refine ⟨?_,?_⟩
  · intro i _ low
    exact absurd low (Nat.not_lt_zero i)
  · intro i index _
    have away := kernel_index_ne_mirror g index
    simp [emptyContext, away]

theorem update_copy (copy : Copy g k ctx) (le : ctx.k_count ≤ k.k_count)
    (bounded : k.k_count ≤ 1023) :
    Copy g k (mmu_x86_update_k_context g k ctx) := by
  rw [update_k_context_eq g le bounded]
  have range : ctx.k_count + (k.k_count - ctx.k_count) = k.k_count := by omega
  refine ⟨?_,?_⟩
  · intro i index low
    simp only [copyRange, range]
    by_cases new : ctx.k_count ≤ i
    · rw [if_pos ⟨new,low⟩, if_pos ⟨new,low⟩]
      exact ⟨rfl,rfl⟩
    · rw [if_neg (fun h => new h.1), if_neg (fun h => new h.1)]
      exact copy.below i index (by omega)
  · intro i index high
    simp only at high
    simp only [copyRange]
    rw [if_neg (by omega), if_neg (by omega)]
    exact copy.above i index (by omega)

theorem enterTable_other (ctx : Context) (away : j ≠ i) (frame : Nat) (userlevel : Bool) :
    (enterTable ctx i frame userlevel).pagedir j = ctx.pagedir j ∧
      (enterTable ctx i frame userlevel).mirror j = ctx.mirror j := by
  simp only [enterTable, update_of_ne away]
  trivial

structure Agree (ctx other : Context) : Prop where
  count : other.k_count = ctx.k_count
  entries : ∀ i, KernelIndex g i → other.pagedir i = ctx.pagedir i ∧ other.mirror i = ctx.mirror i

theorem copy_congr (kernel : Agree g k k') (context : Agree g ctx ctx')
    (copy : Copy g k ctx) : Copy g k' ctx' := by
  refine ⟨?_,?_⟩
  · intro i index low
    obtain ⟨pagedir,mirror⟩ := context.entries i index
    obtain ⟨kpagedir,kmirror⟩ := kernel.entries i index
    rw [pagedir, mirror, kpagedir, kmirror]
    exact copy.below i index (by rw [← context.count]; exact low)
  · intro i index high
    obtain ⟨pagedir,mirror⟩ := context.entries i index
    rw [pagedir, mirror]
    exact copy.above i index (by rw [← context.count]; exact high)

variable {vaddr : Nat}

theorem enter_user_agree (ctx : Context) (page : vaddr % 4096 = 0) (user : isUser g vaddr = true)
    (frame : Nat) : Agree g ctx (enterTable ctx (vaddr / 2 ^ 22) frame true) := by
  refine ⟨rfl,?_⟩
  intro i index
  have away : i ≠ vaddr / 2 ^ 22 := by
    intro equal
    have base : isUser g (i * 2 ^ 22) = isUser g vaddr := by
      apply g.apart
      · omega
      · exact page
      · omega
    rw [index.2, user] at base
    exact Bool.false_ne_true base
  exact enterTable_other ctx away frame true

theorem copy_of_not_passed
    (same : ∀ j, j ≠ i → k'.pagedir j = k.pagedir j ∧ k'.mirror j = k.mirror j)
    (notPassed : ctx.k_count ≤ i) (copy : Copy g k ctx) :
    Copy g k' ctx := by
  refine ⟨?_,copy.above⟩
  intro j index low
  obtain ⟨pagedir,mirror⟩ := same j (by omega)
  rw [pagedir, mirror]
  exact copy.below j index low

theorem enter_copy (kernel : Copy g k k) (copy : Copy g k ctx) (equal : ctx.k_count = k.k_count)
    (pagedir : k'.pagedir i = (raiseCount (enterTable ctx i frame false) i).pagedir i)
    (mirror : k'.mirror i = (raiseCount (enterTable ctx i frame false) i).mirror i)
    (same : ∀ j, j ≠ i → k'.pagedir j = k.pagedir j ∧ k'.mirror j = k.mirror j) :
    Copy g k' (raiseCount (enterTable ctx i frame false) i) := by
  refine ⟨?_,?_⟩
  · intro j index _
    by_cases new : j = i
    · rw [new, pagedir, mirror]
      exact ⟨rfl,rfl⟩
    · obtain ⟨kpagedir,kmirror⟩ := same j new
      obtain ⟨pagedir,mirror⟩ := enterTable_other ctx new frame false
      rw [raiseCount_pagedir, raiseCount_mirror, pagedir, mirror, kpagedir, kmirror]
      exact copy_entries g kernel copy equal j index
  · intro j index high
    rw [raiseCount_k_count] at high
    have new : j ≠ i := by omega
    have old : ctx.k_count ≤ j := by simp only [enterTable] at high; omega
    obtain ⟨pagedir,mirror⟩ := enterTable_other ctx new frame false
    rw [raiseCount_pagedir, raiseCount_mirror, pagedir, mirror]
    exact copy.above j index old

set_option linter.unusedSectionVars false
variable {C Cpu : Type} [DecidableEq C] [DecidableEq Cpu]

/-- The contexts, `none` being the kernel's, and the current one of each processor. `tables` are the
    page tables by their frames. The indices of the kernel page tables allocated so far are
    history. -/
structure Space (C Cpu : Type) where
  ctx : Option C → Context
  inited : C → Bool
  cur : Cpu → Option C
  tables : Nat → Nat → Entry
  allocated : List Nat

/-- `pages` are the physical addresses of the two pages, if they can be allocated. -/
def mmu_context_init (s : Space C Cpu) (c : C) (pages : Option (Nat × Nat)) : Int × Space C Cpu :=
  match pages with
  | none => (-ENOMEM, s)
  | some (pagedir_paddr, mirror_paddr) =>
    let ctx := mmu_x86_update_k_context g (s.ctx none) (emptyContext pagedir_paddr mirror_paddr)
    (0, { s with
      ctx := update s.ctx (some c) ctx
      inited := update s.inited c true })

def mmu_context_switch_to (s : Space C Cpu) (p : Cpu) (c : Option C) : Space C Cpu :=
  if c = s.cur p then s
  else
    { s with
      ctx := if c = none then s.ctx
        else update s.ctx c (mmu_x86_update_k_context g (s.ctx none) (s.ctx c))
      cur := update s.cur p c }

def enterKernelTable (ctx : Option C → Context) (c : Option C) (i frame : Nat) :
    Option C → Context :=
  let entered := raiseCount (enterTable (ctx c) i frame false) i
  let ctx := update ctx c entered
  if c = none then ctx else update ctx none (copyToKernel (ctx none) entered i)

/-- `page` is the physical address of the new page table, if one can be allocated. -/
def mmu_x86_alloc_pagetable (s : Space C Cpu) (p : Cpu) (vaddr : Nat) (page : Option Nat) :
    Int × Space C Cpu :=
  let i := vaddr / 2 ^ 22
  match page with
  | none => (-ENOMEM, s)
  | some paddr =>
    let frame := paddr / 2 ^ 12
    let s := { s with tables := update s.tables frame fun _ => {} }
    if isUser g vaddr then
      (0, { s with ctx := update s.ctx (s.cur p) (enterTable (s.ctx (s.cur p)) i frame true) })
    else
      (0, { s with
        ctx := enterKernelTable s.ctx (s.cur p) i frame
        allocated := i :: s.allocated })

def pagedirFor (s : Space C Cpu) (p : Cpu) (vaddr : Nat) : Nat → Entry :=
  if isUser g vaddr then (s.ctx (s.cur p)).pagedir else (s.ctx none).pagedir

def Missing (s : Space C Cpu) (p : Cpu) (vaddr : Nat) : Prop :=
  (pagedirFor g s p vaddr (vaddr / 2 ^ 22)).present = false

instance (s : Space C Cpu) (p : Cpu) (vaddr : Nat) : Decidable (Missing g s p vaddr) :=
  inferInstanceAs (Decidable (_ = false))

def mmu_x86_alloc_vpage (s : Space C Cpu) (p : Cpu) (vaddr : Nat) (page : Option Nat) :
    Int × Space C Cpu :=
  if Missing g s p vaddr then mmu_x86_alloc_pagetable g s p vaddr page else (0, s)

/-- The page table entry is written through the mirror of the current context. -/
def writeEntry (s : Space C Cpu) (p : Cpu) (vaddr paddr attr : Nat) : Space C Cpu :=
  let frame := ((s.ctx (s.cur p)).mirror (vaddr / 2 ^ 22)).address
  let pte := vaddr / 2 ^ 12 % 1024
  let e :=
    { s.tables frame pte with
      address := paddr / 2 ^ 12
      present := attr &&& MMU_PAGE_ATTR_PRESENT != 0
      writable := attr &&& MMU_PAGE_ATTR_W != 0
      userlevel := attr &&& MMU_PAGE_ATTR_USERLEVEL != 0
      dirty := attr &&& MMU_PAGE_ATTR_DIRTY != 0
      accessed := attr &&& MMU_PAGE_ATTR_ACCESSED != 0
      nocache := attr &&& MMU_PAGE_ATTR_NOCACHE != 0 }
  { s with tables := update s.tables frame (update (s.tables frame) pte e) }

def mmu_vpage_set (s : Space C Cpu) (p : Cpu) (vaddr paddr attr : Nat) (page : Option Nat) :
    Int × Space C Cpu :=
  let (error, s) := mmu_x86_alloc_vpage g s p vaddr page
  if error ≠ 0 then (-ENOMEM, s) else (0, writeEntry s p vaddr paddr attr)

/- Runs. -/

inductive Act (C Cpu : Type) where
  | init (c : C) (pages : Option (Nat × Nat))
  | switch_to (p : Cpu) (c : Option C)
  | vpage_set (p : Cpu) (vaddr paddr attr : Nat) (page : Option Nat)

/-- The assertions of `mmu_vpage_set` hold, and its entry can be reached through the mirror, in
    which the entry of a new page table is made by the call itself. -/
structure Settable (s : Space C Cpu) (p : Cpu) (vaddr paddr : Nat) : Prop where
  page : vaddr % 4096 = 0
  frame : paddr % 1024 = 0
  below : vaddr / 2 ^ 22 ≤ MMU_USER_END_PDE
  above : Missing g s p vaddr → g.initial_pde ≤ vaddr / 2 ^ 22
  absent : Missing g s p vaddr → ((s.ctx (s.cur p)).pagedir (vaddr / 2 ^ 22)).present = false
  reachable : ¬ Missing g s p vaddr → ((s.ctx (s.cur p)).mirror (vaddr / 2 ^ 22)).present = true

instance (s : Space C Cpu) (p : Cpu) (vaddr paddr : Nat) : Decidable (Settable g s p vaddr paddr) :=
  decidable_of_iff
    (vaddr % 4096 = 0 ∧ paddr % 1024 = 0 ∧ vaddr / 2 ^ 22 ≤ MMU_USER_END_PDE ∧
      (Missing g s p vaddr → g.initial_pde ≤ vaddr / 2 ^ 22) ∧
      (Missing g s p vaddr → ((s.ctx (s.cur p)).pagedir (vaddr / 2 ^ 22)).present = false) ∧
      (¬ Missing g s p vaddr → ((s.ctx (s.cur p)).mirror (vaddr / 2 ^ 22)).present = true))
    ⟨fun h => ⟨h.1, h.2.1, h.2.2.1, h.2.2.2.1, h.2.2.2.2.1, h.2.2.2.2.2⟩,
      fun h => ⟨h.page, h.frame, h.below, h.above, h.absent, h.reachable⟩⟩

/-- A context that a processor is using is not initialised again, and only contexts that have been
    initialised are switched to. -/
def machine : Machine (Space C Cpu) (Act C Cpu) where
  start s := s.ctx none = mmu_global_init g ∧ (∀ c, s.inited c = false) ∧ (∀ p, s.cur p = none) ∧
    s.allocated = []
  enabled s a :=
    match a with
    | .init c _ => ∀ p, s.cur p ≠ some c
    | .switch_to _ c => ∀ x ∈ c, s.inited x = true
    | .vpage_set p vaddr paddr _ _ => Settable g s p vaddr paddr
  next s a :=
    match a with
    | .init c pages => (mmu_context_init g s c pages).2
    | .switch_to p c => mmu_context_switch_to g s p c
    | .vpage_set p vaddr paddr attr page => (mmu_vpage_set g s p vaddr paddr attr page).2

instance [Fintype Cpu] (s : Space C Cpu) (a : Act C Cpu) : Decidable ((machine g).enabled s a) :=
  match a with
  | .init c _ => inferInstanceAs (Decidable (∀ p, s.cur p ≠ some c))
  | .switch_to _ c => inferInstanceAs (Decidable (∀ x ∈ c, s.inited x = true))
  | .vpage_set p vaddr paddr _ _ => inferInstanceAs (Decidable (Settable g s p vaddr paddr))

/-- Every kernel entry of the kernel context, and its mirror entry, is in a context. -/
def Visible (s : Space C Cpu) (c : Option C) : Prop :=
  ∀ i, KernelIndex g i →
    (((s.ctx none).pagedir i).present = true → (s.ctx c).pagedir i = (s.ctx none).pagedir i) ∧
    (((s.ctx none).mirror i).present = true → (s.ctx c).mirror i = (s.ctx none).mirror i)

/-- The context of a processor has as many kernel entries as the kernel context. -/
def UpToDate (s : Space C Cpu) (p : Cpu) : Prop :=
  (s.ctx (s.cur p)).k_count = (s.ctx none).k_count

def NotPassed (s : Space C Cpu) (p : Cpu) (i : Nat) : Prop :=
  ∀ c, s.inited c = true → some c ≠ s.cur p → (s.ctx (some c)).k_count ≤ i

/-- A kernel page table is allocated at an index that no other context has gone past, by a processor
    whose context is up to date; so is a context that is switched to by its own processor. -/
def InOrder (s : Space C Cpu) (a : Act C Cpu) : Prop :=
  match a with
  | .init _ _ => True
  | .switch_to p c => c = s.cur p → UpToDate s p
  | .vpage_set p vaddr _ _ page => Missing g s p vaddr → isUser g vaddr = false → page ≠ none →
      UpToDate s p ∧ NotPassed s p (vaddr / 2 ^ 22)

instance (s : Space C Cpu) (p : Cpu) : Decidable (UpToDate s p) :=
  inferInstanceAs (Decidable (_ = _))

instance [Fintype C] (s : Space C Cpu) (p : Cpu) (i : Nat) : Decidable (NotPassed s p i) :=
  inferInstanceAs (Decidable (∀ c, s.inited c = true → some c ≠ s.cur p →
    (s.ctx (some c)).k_count ≤ i))

instance [Fintype C] (s : Space C Cpu) (a : Act C Cpu) : Decidable (InOrder g s a) :=
  match a with
  | .init _ _ => isTrue trivial
  | .switch_to _ _ => inferInstanceAs (Decidable (_ → _))
  | .vpage_set _ _ _ _ _ => inferInstanceAs (Decidable (_ → _ → _ → _))

/- What the operations do to the contexts. -/

/-- The kernel context, or a context that has been initialised. -/
def Ready (s : Space C Cpu) (c : Option C) : Prop := ∀ x ∈ c, s.inited x = true

theorem kernel_ready (s : Space C Cpu) : Ready s none := by
  intro x member
  cases member

def put (s : Space C Cpu) (c : C) (x : Context) : Space C Cpu :=
  { s with ctx := update s.ctx (some c) x, inited := update s.inited c true }

def setCur (s : Space C Cpu) (p : Cpu) (c : Option C) : Space C Cpu :=
  { s with cur := update s.cur p c }

def bringUp (s : Space C Cpu) (c : Option C) : Space C Cpu :=
  match c with
  | none => s
  | some x => put s x (mmu_x86_update_k_context g (s.ctx none) (s.ctx (some x)))

@[simp] theorem put_kernel (s : Space C Cpu) (c : C) (x : Context) : (put s c x).ctx none =
    s.ctx none := by
  simp [put]

@[simp] theorem put_self (s : Space C Cpu) (c : C) (x : Context) :
    (put s c x).ctx (some c) = x := by
  simp [put]

variable {s : Space C Cpu} {x : Context} {d : Option C}

theorem put_other {c : C} (other : d ≠ some c) : (put s c x).ctx d = s.ctx d :=
  update_of_ne other _ _

theorem ready_put {c : C} (ready : Ready s d) : Ready (put s c x) d := by
  intro y member
  by_cases same : y = c
  · simp [put, same]
  · simpa [put, update_of_ne same] using ready y member

theorem ready_of_put {c : C} (other : d ≠ some c) (ready : Ready (put s c x) d) : Ready s d := by
  intro y member
  have away : y ≠ c := by
    intro equal
    rw [equal] at member
    exact other member
  simpa [put, update_of_ne away] using ready y member

variable {c : Option C}

theorem switch_to_eq (ready : Ready s c) (change : c ≠ s.cur p) :
    mmu_context_switch_to g s p c = setCur (bringUp g s c) p c := by
  rw [mmu_context_switch_to, if_neg change]
  cases c with
  | none => rfl
  | some x => ?_
  have again : update s.inited x true = s.inited := by
    rw [← ready x rfl]
    exact update_eq_self x s.inited
  simp only [setCur, bringUp, put, again]
  rw [if_neg (Option.some_ne_none x)]

theorem vpage_set_frame (s : Space C Cpu) (p : Cpu) (vaddr paddr attr : Nat) (page : Option Nat) :
    let t := (mmu_vpage_set g s p vaddr paddr attr page).2
    let u := (mmu_x86_alloc_vpage g s p vaddr page).2
    t.ctx = u.ctx ∧ t.inited = u.inited ∧ t.cur = u.cur ∧ t.allocated = u.allocated := by
  intro t u
  simp only [t, mmu_vpage_set]
  split <;> exact ⟨rfl,rfl,rfl,rfl⟩

theorem vpage_set_cases (s : Space C Cpu) (p : Cpu) (vaddr paddr attr : Nat) (page : Option Nat) :
    let t := (mmu_vpage_set g s p vaddr paddr attr page).2
    let i := vaddr / 2 ^ 22
    t.inited = s.inited ∧ t.cur = s.cur ∧ ((t.ctx = s.ctx ∧ t.allocated = s.allocated) ∨
       (isUser g vaddr = true ∧ t.allocated = s.allocated ∧ ∃ frame, t.ctx =
          update s.ctx (s.cur p) (enterTable (s.ctx (s.cur p)) i frame true)) ∨
       (isUser g vaddr = false ∧ Missing g s p vaddr ∧ page ≠ none ∧
         t.allocated = i :: s.allocated ∧
          ∃ frame, t.ctx = enterKernelTable s.ctx (s.cur p) i frame)) := by
  intro t i
  obtain ⟨ctx,inited,cur,allocated⟩ := vpage_set_frame g s p vaddr paddr attr page
  rw [ctx, inited, cur, allocated, mmu_x86_alloc_vpage]
  by_cases missing : Missing g s p vaddr
  · rw [if_pos missing]
    cases page with
    | none => exact ⟨rfl,rfl,.inl ⟨rfl,rfl⟩⟩
    | some table => ?_
    dsimp only [mmu_x86_alloc_pagetable]
    cases user : isUser g vaddr with
    | true => exact ⟨rfl,rfl,.inr (.inl ⟨rfl,rfl,_,rfl⟩)⟩
    | false => exact ⟨rfl,rfl,.inr (.inr ⟨rfl,missing,Option.some_ne_none table,rfl,_,rfl⟩)⟩
  · rw [if_neg missing]
    exact ⟨rfl,rfl,.inl ⟨rfl,rfl⟩⟩

theorem enterKernelTable_cur (ctx : Option C → Context) (c : Option C) (i frame : Nat) :
    enterKernelTable ctx c i frame c = raiseCount (enterTable (ctx c) i frame false) i := by
  simp only [enterKernelTable]
  split
  · rw [update_self]
  next user => rw [update_of_ne user, update_self]

theorem enterKernelTable_kernel (ctx : Option C → Context) (x : C) (i frame : Nat) :
    enterKernelTable ctx (some x) i frame none =
      copyToKernel (ctx none) (raiseCount (enterTable (ctx (some x)) i frame false) i) i := by
  simp only [enterKernelTable]
  rw [if_neg (Option.some_ne_none x), update_self, update_of_ne (Option.some_ne_none x).symm]

theorem enterKernelTable_other (ctx : Option C → Context) (i frame : Nat) (other : d ≠ c)
    (user : d ≠ none) : enterKernelTable ctx c i frame d = ctx d := by
  simp only [enterKernelTable]
  split
  · rw [update_of_ne other]
  · rw [update_of_ne user, update_of_ne other]

theorem enterKernelTable_k_count (ctx : Option C → Context) (c : Option C) (i frame : Nat) :
    (enterKernelTable ctx c i frame none).k_count = max (ctx c).k_count (i + 1) := by
  cases c with
  | none => simp [enterKernelTable_cur, enterTable]
  | some x => simp [enterKernelTable_kernel, copyToKernel, enterTable]

theorem enterKernelTable_entries (ctx : Option C → Context) (c : Option C) (i frame : Nat) :
    let entered := enterKernelTable ctx c i frame
    (entered none).pagedir i = (entered c).pagedir i ∧
      (entered none).mirror i = (entered c).mirror i ∧
      ∀ j, j ≠ i → (entered none).pagedir j = (ctx none).pagedir j ∧
        (entered none).mirror j = (ctx none).mirror j := by
  intro entered
  cases c with
  | none =>
    refine ⟨rfl,rfl,?_⟩
    intro j away
    simp only [entered]
    rw [enterKernelTable_cur, raiseCount_pagedir, raiseCount_mirror]
    exact enterTable_other (ctx none) away frame false
  | some x =>
    simp only [entered]
    rw [enterKernelTable_kernel, enterKernelTable_cur]
    simp only [copyToKernel, update_self, true_and]
    intro j away
    simp [update_of_ne away]

/- The counts. -/

/-- The kernel's count is the largest and is above every kernel page table. -/
structure Counts (s : Space C Cpu) : Prop where
  bounded : (s.ctx none).k_count ≤ 1023
  le : ∀ c, Ready s c → (s.ctx c).k_count ≤ (s.ctx none).k_count
  tables : ∀ i ∈ s.allocated, i < (s.ctx none).k_count
  running : ∀ p, Ready s (s.cur p)

/-- What the counts need of an action: a kernel page table is allocated by a processor that is up to
    date. -/
def Current (s : Space C Cpu) (a : Act C Cpu) : Prop :=
  match a with
  | .vpage_set p vaddr _ _ page =>
    Missing g s p vaddr → isUser g vaddr = false → page ≠ none → UpToDate s p
  | _ => True

theorem counts_start (start : (machine g).start s) : Counts s := by
  obtain ⟨kernel,inited,cur,allocated⟩ := start
  have only : ∀ c, Ready s c → c = none := by
    intro c ready
    cases c with
    | none => rfl
    | some x => simp [Ready, inited] at ready
  refine ⟨?_,?_,?_,?_⟩
  · rw [kernel]
    exact g.initial_le
  · intro c ready
    rw [only c ready]
  · simp [allocated]
  · intro p
    rw [cur p]
    exact kernel_ready s

section
variable (holds : Counts s)
include holds

theorem put_counts (c : C) (le : x.k_count ≤ (s.ctx none).k_count) : Counts (put s c x) := by
  refine ⟨?_,?_,?_,?_⟩
  · rw [put_kernel]
    exact holds.bounded
  · intro d ready
    by_cases same : d = some c
    · rw [same, put_self]
      exact le
    · rw [put_other same]
      exact holds.le d (ready_of_put same ready)
  · rw [put_kernel]
    exact holds.tables
  · intro p
    exact ready_put (holds.running p)

theorem setCur_counts (p : Cpu) (ready : Ready s c) : Counts (setCur s p c) := by
  refine ⟨holds.bounded,holds.le,holds.tables,?_⟩
  intro q
  simp only [setCur]
  by_cases same : q = p
  · rw [same, update_self]
    exact ready
  · rw [update_of_ne same]
    exact holds.running q

theorem bringUp_counts (ready : Ready s c) : Counts (bringUp g s c) ∧ Ready (bringUp g s c) c ∧
      ((bringUp g s c).ctx c).k_count = ((bringUp g s c).ctx none).k_count := by
  cases c with
  | none => exact ⟨holds,ready,rfl⟩
  | some x => ?_
  simp only [bringUp]
  rw [update_k_context_eq g (holds.le _ ready) holds.bounded]
  refine ⟨put_counts holds x (Nat.le_refl _),ready_put ready,?_⟩
  rw [put_self, put_kernel]

theorem init_counts (c : C) (pages : Option (Nat × Nat)) :
    Counts (mmu_context_init g s c pages).2 := by
  cases pages with
  | none => exact holds
  | some pages =>
    change Counts (put s c (mmu_x86_update_k_context g (s.ctx none) (emptyContext pages.1 pages.2)))
    rw [update_k_context_eq g (Nat.zero_le _) holds.bounded]
    exact put_counts holds c (Nat.le_refl _)

theorem switch_to_counts (p : Cpu) (ready : Ready s c) :
    Counts (mmu_context_switch_to g s p c) := by
  by_cases change : c = s.cur p
  · rw [mmu_context_switch_to, if_pos change]
    exact holds
  · rw [switch_to_eq g ready change]
    obtain ⟨counts,still,_⟩ := bringUp_counts g holds ready
    exact setCur_counts counts p still

theorem counts_congr (inited : t.inited = s.inited) (cur : t.cur = s.cur)
    (allocated : t.allocated = s.allocated) (count : ∀ d, (t.ctx d).k_count = (s.ctx d).k_count) :
    Counts t := by
  refine ⟨?_,?_,?_,?_⟩
  · rw [count]
    exact holds.bounded
  · intro d ready
    rw [count, count]
    rw [Ready, inited] at ready
    exact holds.le d ready
  · rw [count, allocated]
    exact holds.tables
  · intro p
    rw [Ready, inited, cur]
    exact holds.running p

theorem vpage_set_counts (can : Settable g s p vaddr paddr) (attr : Nat)
    (current : Current g s (.vpage_set p vaddr paddr attr page)) :
    Counts (mmu_vpage_set g s p vaddr paddr attr page).2 := by
  obtain ⟨inited,cur,effect⟩ := vpage_set_cases g s p vaddr paddr attr page
  obtain ⟨ctx,allocated⟩ | ⟨_,allocated,frame,ctx⟩ |
    ⟨kernel,missing,got,allocated,frame,ctx⟩ := effect
  · exact counts_congr holds inited cur allocated (fun d => by rw [ctx])
  · refine counts_congr holds inited cur allocated (fun d => ?_)
    rw [ctx]
    by_cases same : d = s.cur p
    · rw [same, update_self]
      rfl
    · rw [update_of_ne same]
  have upToDate : (s.ctx (s.cur p)).k_count = (s.ctx none).k_count := current missing kernel got
  have below : vaddr / 2 ^ 22 ≤ 1022 := can.below
  have top : ((mmu_vpage_set g s p vaddr paddr attr page).2.ctx none).k_count =
      max (s.ctx none).k_count (vaddr / 2 ^ 22 + 1) := by
    rw [ctx, enterKernelTable_k_count, upToDate]
  refine ⟨?_,?_,?_,?_⟩
  · have bounded := holds.bounded
    omega
  · intro d ready
    rw [top]
    by_cases same : d = s.cur p
    · rw [ctx, same, enterKernelTable_cur, raiseCount_k_count, ← upToDate]
      exact Nat.le_refl _
    by_cases user : d = none
    · rw [user, top]
    rw [ctx, enterKernelTable_other _ _ _ same user]
    rw [Ready, inited] at ready
    have le := holds.le d ready
    omega
  · intro i member
    rw [allocated] at member
    cases member with
    | head => omega
    | tail _ earlier =>
      have lt := holds.tables i earlier
      omega
  · intro q
    rw [Ready, inited, cur]
    exact holds.running q

end

variable {a : Act C Cpu}

theorem step_counts (holds : Counts s) (can : (machine g).enabled s a)
    (current : Current g s a) : Counts ((machine g).next s a) := by
  cases a with
  | init c pages => exact init_counts g holds c pages
  | switch_to p c => exact switch_to_counts g holds p can
  | vpage_set p vaddr paddr attr page => exact vpage_set_counts g holds can attr current

/- The entries. -/

def Copies (s : Space C Cpu) : Prop := ∀ c, Ready s c → Copy g (s.ctx none) (s.ctx c)

theorem visible_of_copies (holds : Copies g s) (ready : Ready s c)
    (upToDate : (s.ctx c).k_count = (s.ctx none).k_count) : Visible g s c := by
  intro i index
  obtain ⟨pagedir,mirror⟩ :=
    copy_entries g (holds none (kernel_ready s)) (holds c ready) upToDate i index
  exact ⟨fun _ => pagedir,fun _ => mirror⟩

theorem copies_start (start : (machine g).start s) : Copies g s := by
  obtain ⟨kernel,inited,_,_⟩ := start
  intro c ready
  cases c with
  | some x => simp [Ready, inited] at ready
  | none => ?_
  rw [kernel]
  refine ⟨fun i _ _ => ⟨rfl,rfl⟩,?_⟩
  intro i index above
  have away : i ≠ MMU_MIRROR_PDE := kernel_index_ne_mirror g index
  have low : ¬ i < g.initial_pde := Nat.not_lt.mpr above
  simp [mmu_global_init, low, away]

theorem put_copies (holds : Copies g s) (c : C) (copy : Copy g (s.ctx none) x) :
    Copies g (put s c x) := by
  intro d ready
  by_cases same : d = some c
  · rw [same, put_self]
    exact copy
  · rw [put_other same]
    exact holds d (ready_of_put same ready)

theorem bringUp_copies (counts : Counts s) (holds : Copies g s) (ready : Ready s c) :
    Copies g (bringUp g s c) := by
  cases c with
  | none => exact holds
  | some x =>
    apply put_copies g holds x
    exact update_copy g (holds _ ready) (counts.le _ ready) counts.bounded

theorem init_copies (counts : Counts s) (holds : Copies g s) (c : C)
    (pages : Option (Nat × Nat)) : Copies g (mmu_context_init g s c pages).2 := by
  cases pages with
  | none => exact holds
  | some pages =>
    apply put_copies g holds c
    exact update_copy g (empty_copy g _ _ _) (Nat.zero_le _) counts.bounded

theorem switch_to_copies (counts : Counts s) (holds : Copies g s) (p : Cpu)
    (ready : Ready s c) : Copies g (mmu_context_switch_to g s p c) := by
  by_cases change : c = s.cur p
  · rw [mmu_context_switch_to, if_pos change]
    exact holds
  · rw [switch_to_eq g ready change]
    exact bringUp_copies g counts holds ready

theorem user_table_copies (holds : Copies g s)
    (page : vaddr % 4096 = 0) (user : isUser g vaddr = true) (inited : t.inited = s.inited)
    (ctx : t.ctx = update s.ctx c (enterTable (s.ctx c) (vaddr / 2 ^ 22) frame true)) :
    Copies g t := by
  have agree : ∀ d, Agree g (s.ctx d) (t.ctx d) := by
    intro d
    rw [ctx]
    by_cases same : d = c
    · rw [same, update_self]
      exact enter_user_agree g (s.ctx c) page user frame
    · rw [update_of_ne same]
      exact ⟨rfl,fun _ _ => ⟨rfl,rfl⟩⟩
  intro d ready
  rw [Ready, inited] at ready
  exact copy_congr g (agree none) (agree d) (holds d ready)

theorem kernel_table_copies (holds : Copies g s) (running : Ready s (s.cur p))
    (upToDate : UpToDate s p) (notPassed : NotPassed s p i) (inited : t.inited = s.inited)
    (ctx : t.ctx = enterKernelTable s.ctx (s.cur p) i frame) :
    Copies g t := by
  obtain ⟨pagedir,mirror,same⟩ := enterKernelTable_entries s.ctx (s.cur p) i frame
  rw [← ctx] at pagedir mirror same
  have kernel := holds none (kernel_ready s)
  have current : t.ctx (s.cur p) = raiseCount (enterTable (s.ctx (s.cur p)) i frame false) i := by
    rw [ctx, enterKernelTable_cur]
  have entered : Copy g (t.ctx none) (t.ctx (s.cur p)) := by
    rw [current] at pagedir mirror ⊢
    exact enter_copy g kernel (holds _ running) upToDate pagedir mirror same
  intro d ready
  rw [Ready, inited] at ready
  by_cases inUse : d = s.cur p
  · rw [inUse]
    exact entered
  cases d with
  | none =>
    have count : (t.ctx none).k_count = max (s.ctx none).k_count (i + 1) := by
      rw [ctx, enterKernelTable_k_count, upToDate]
    refine ⟨fun j _ _ => ⟨rfl,rfl⟩,?_⟩
    intro j index high
    obtain ⟨kpagedir,kmirror⟩ := same j (by omega)
    rw [kpagedir, kmirror]
    exact kernel.above j index (by omega)
  | some x =>
    have unchanged : t.ctx (some x) = s.ctx (some x) := by
      rw [ctx, enterKernelTable_other _ _ _ inUse (Option.some_ne_none x)]
    rw [unchanged]
    exact copy_of_not_passed g same (notPassed x (ready x rfl) inUse) (holds _ ready)

theorem vpage_set_copies (counts : Counts s) (holds : Copies g s)
    (can : Settable g s p vaddr paddr) (attr : Nat)
    (order : InOrder g s (.vpage_set p vaddr paddr attr page)) :
    Copies g (mmu_vpage_set g s p vaddr paddr attr page).2 := by
  obtain ⟨inited,_,effect⟩ := vpage_set_cases g s p vaddr paddr attr page
  obtain ⟨ctx,_⟩ | ⟨user,_,frame,ctx⟩ | ⟨kernel,missing,got,_,frame,ctx⟩ := effect
  · intro d ready
    rw [Ready, inited] at ready
    rw [ctx]
    exact holds d ready
  · exact user_table_copies g holds can.page user inited ctx
  · obtain ⟨upToDate,notPassed⟩ := order missing kernel got
    exact kernel_table_copies g holds (counts.running p) upToDate notPassed inited ctx

theorem step_copies (counts : Counts s) (holds : Copies g s)
    (can : (machine g).enabled s a) (order : InOrder g s a) : Copies g ((machine g).next s a) := by
  cases a with
  | init c pages => exact init_copies g counts holds c pages
  | switch_to p c => exact switch_to_copies g counts holds p can
  | vpage_set p vaddr paddr attr page => exact vpage_set_copies g counts holds can attr order

theorem current_of_order (order : InOrder g s a) : Current g s a := by
  cases a with
  | init c pages | switch_to p c => trivial
  | vpage_set p vaddr paddr attr page =>
    intro missing kernel got
    exact (order missing kernel got).1

theorem reached_copies (reached : Reached (restrict (machine g) (InOrder g)) s) :
    Counts s ∧ Copies g s := by
  refine reached_invariant (fun s => Counts s ∧ Copies g s) ?_ ?_ reached
  · intro s start
    exact ⟨counts_start g start,copies_start g start⟩
  · intro s a holds can
    exact ⟨step_counts g holds.1 can.1 (current_of_order g can.2),
      step_copies g holds.1 holds.2 can.1 can.2⟩

/-- Kernel mappings are visible in every address space: a context that has just been switched to or
    initialised has every kernel entry, and the kernel's count is above every kernel page table. -/
theorem kernel_mappings_visible {s : Space C Cpu}
    (reached : Reached (restrict (machine g) (InOrder g)) s) :
    (∀ p c, (restrict (machine g) (InOrder g)).enabled s (.switch_to p c) →
      Visible g ((machine g).next s (.switch_to p c)) c) ∧
    (∀ c pages, (restrict (machine g) (InOrder g)).enabled s (.init c (some pages)) →
      Visible g ((machine g).next s (.init c (some pages))) (some c)) ∧
    ∀ i ∈ s.allocated, i < (s.ctx none).k_count := by
  obtain ⟨counts,copies⟩ := reached_copies g reached
  refine ⟨?_,?_,counts.tables⟩
  · intro p c can
    change Visible g (mmu_context_switch_to g s p c) c
    by_cases change : c = s.cur p
    · rw [mmu_context_switch_to, if_pos change]
      have upToDate := can.2 change
      rw [UpToDate, ← change] at upToDate
      exact visible_of_copies g copies can.1 upToDate
    · rw [switch_to_eq g can.1 change]
      obtain ⟨_,ready,equal⟩ := bringUp_counts g counts can.1
      exact visible_of_copies g (bringUp_copies g counts copies can.1) ready equal
  · intro c pages _
    apply visible_of_copies g (init_copies g counts copies c (some pages))
    · intro x member
      cases member
      simp [mmu_context_init]
    · change ((put s c _).ctx (some c)).k_count = ((put s c _).ctx none).k_count
      rw [put_self, put_kernel, update_k_context_eq g (Nat.zero_le _) counts.bounded]

end

/- A machine with 16 MB of memory at first and user pages from 2 GB on. -/

def pcConfig : Config where
  w := 16
  wide := Nat.le_refl 16
  initial_pde := 4
  initial_le := by decide
  user_start := 512 * 2 ^ 22
  user_end := 1023 * 2 ^ 22
  apart := by
    intro page other _ _ same
    have low : 512 * 2 ^ 22 ≤ page ↔ 512 * 2 ^ 22 ≤ other := by omega
    have high : page < 1023 * 2 ^ 22 ↔ other < 1023 * 2 ^ 22 := by omega
    simp only [mmu_is_user_vaddr, low, high]
  k_pagedir := 0x100000
  k_mirror := 0x101000

def pcStart (C Cpu : Type) : Space C Cpu where
  ctx _ := mmu_global_init pcConfig
  inited _ := false
  cur _ := none
  tables _ _ := {}
  allocated := []

theorem pcStart_start {C Cpu : Type} [DecidableEq C] [DecidableEq Cpu] :
    (machine pcConfig).start (pcStart C Cpu) :=
  ⟨rfl, fun _ => rfl, fun _ => rfl, rfl⟩

def setPage {C Cpu : Type} (p : Cpu) (i : Nat) : Act C Cpu :=
  .vpage_set p (i * 2 ^ 22) 0x200000 (MMU_PAGE_ATTR_PRESENT ||| MMU_PAGE_ATTR_W)
    (some (0x300000 + i * 2 ^ 12))

/-- A context is initialised, a kernel page table and a user page table are allocated, and the
    context is switched to. -/
def upwards : List (Act Unit Unit) :=
  [setPage () 4, .init () (some (0x400000, 0x401000)), setPage () 5, setPage () 600]

theorem kernel_mappings_visible_upwards :
    let s := after (machine pcConfig) (pcStart Unit Unit) upwards
    Reached (restrict (machine pcConfig) (InOrder pcConfig)) s ∧ s.allocated = [5, 4] ∧
      Visible pcConfig ((machine pcConfig).next s (.switch_to () (some ()))) (some ()) ∧
      ∀ i ∈ s.allocated, i < (s.ctx none).k_count := by
  have reached : Reached (restrict (machine pcConfig) (InOrder pcConfig))
      (after (machine pcConfig) (pcStart Unit Unit) upwards) :=
    reached_of_allowed (restrict (machine pcConfig) (InOrder pcConfig)) _ upwards pcStart_start
      (by decide +kernel)
  obtain ⟨switched,_,counted⟩ := kernel_mappings_visible pcConfig reached
  exact ⟨reached,by decide +kernel,
    switched () (some ()) ⟨by decide +kernel,by decide +kernel⟩,counted⟩

def downwards : List (Act Unit Unit) :=
  [setPage () 5, .init () (some (0x400000, 0x401000)), setPage () 4]

/-- Two processors use a context each. The second has not seen the kernel page table of the first,
    and its own, which is below, takes the kernel's count back. -/
def sideBySide : List (Act Bool Bool) :=
  [.init false (some (0x400000, 0x401000)), .init true (some (0x402000, 0x403000)),
    .switch_to false (some false),
    .switch_to true (some true), setPage false 5, setPage true 4]

theorem kernel_mapping_missed : (let s := after (machine pcConfig) (pcStart Unit Unit) downwards
     Reached (machine pcConfig) s ∧ (machine pcConfig).enabled s (.switch_to () (some ())) ∧
       ¬ Visible pcConfig ((machine pcConfig).next s (.switch_to () (some ()))) (some ())) ∧
    (let s := after (machine pcConfig) (pcStart Bool Bool) sideBySide
     Reached (machine pcConfig) s ∧ 5 ∈ s.allocated ∧ (s.ctx none).k_count = 5) := by
  refine ⟨⟨?_,?_,?_⟩,?_,?_,?_⟩
  · exact reached_of_allowed (machine pcConfig) _ downwards pcStart_start (by decide +kernel)
  · decide +kernel
  · intro visible
    exact absurd ((visible 4 (by decide +kernel)).1 (by decide +kernel)) (by decide +kernel)
  · exact reached_of_allowed (machine pcConfig) _ sideBySide pcStart_start (by decide +kernel)
  · decide +kernel
  · decide +kernel

end MutekMmuX86
