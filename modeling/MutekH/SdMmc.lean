import MutekH.BlockPartition
import MutekH.Lib.Machine
import Mathlib.Data.List.Nodup
import Mathlib.Algebra.BigOperators.Group.List.Basic

/-!
The request queue of the SD/MMC driver. The request at the head of the queue is in
service: its blocks are transferred one by one, each by a transfer of the SPI
controller whose end is a callback of the driver. A request is submitted in two steps,
the look at the queue and the insertion, since nothing keeps the callback from running
in between.
-/
namespace MutekSdMmc
open Function List LibMachine LibFixedWidth MutekBlockPartition

def EIO : Int := 11

def SDMMC_CMD_READ_SINGLE_BLOCK : Nat := 17
def SDMMC_CMD_WRITE_SINGLE_BLOCK : Nat := 24

/-- The part of `struct sd_mmc_rw_command_buffer_s` that tells what is transferred for whom. -/
structure Transfer where
  blockdev_rq : Nat
  cmd : Nat
  byte : Nat
  deriving DecidableEq

/-- The driver and the requests it was given, by their addresses. `transfer` is the request at the
    SPI controller; `entered` are the calls of `sd_mmc_request` that have looked at the queue, with
    what they saw. The calls of the callbacks, with the request as they find it and the number of
    blocks, and the requests in the order of their insertion are history. -/
structure Driver where
  usable : Bool
  blk_count : Nat
  read_bl_len : Nat
  rqs : Nat → Request
  queue : List Nat
  transfer : Option Transfer
  entered : List (Nat × Bool)
  calls : List (Nat × Request × Nat)
  submitted : List Nat

section
variable (z : Nat)

variable (d : Driver) (rq : Nat)

def callback (rq count : Nat) : Driver :=
  { d with calls := d.calls ++ [(rq, d.rqs rq, count)] }

def setProgress (progress : Int) : Driver :=
  { d with rqs := update d.rqs rq { d.rqs rq with progress := progress } }

def refuse (code : Int) : Driver := callback (setProgress d rq (-code)) rq 0

def sd_mmc_rw (rq cmd : Nat) : Driver :=
  let byte := (uint 32 ((d.rqs rq).lba + (d.rqs rq).progress * 2 ^ d.read_bl_len)).toNat
  { d with transfer := some ⟨rq, cmd, byte⟩ }

def sd_mmc_read : Driver := sd_mmc_rw d rq SDMMC_CMD_READ_SINGLE_BLOCK

def sd_mmc_write : Driver := sd_mmc_rw d rq SDMMC_CMD_WRITE_SINGLE_BLOCK

def sd_mmc_handle_next_req : Driver :=
  match d.queue with
  | [] => d
  | rq :: _ =>
    if ¬ d.usable then refuse d rq EIO
    else
      let lba := (uint 32 ((d.rqs rq).lba + (d.rqs rq).progress)).toNat
      let count := (uint 32 (uint z ((d.rqs rq).count - (d.rqs rq).progress))).toNat
      if (lba + count) % 2 ^ 32 > d.blk_count then refuse d rq ERANGE
      else if (d.rqs rq).type &&& DEV_BLOCK_OPMASK = DEV_BLOCK_READ then sd_mmc_read d rq
      else if (d.rqs rq).type &&& DEV_BLOCK_OPMASK = DEV_BLOCK_WRITE then sd_mmc_write d rq
      else refuse d rq ENOTSUP

def dev_blk_queue_remove : Driver := { d with queue := d.queue.erase rq }

def sd_mmc_read_done (error : Bool) : Driver :=
  match d.transfer with
  | none => d
  | some transfer =>
    let rq := transfer.blockdev_rq
    let d := { d with transfer := none }
    if error then sd_mmc_handle_next_req z (dev_blk_queue_remove (refuse d rq EIO) rq)
    else
      let d := callback (setProgress d rq (sint z ((d.rqs rq).progress + 1))) rq 1
      if uint z (d.rqs rq).progress < (d.rqs rq).count then
        if (d.rqs rq).type &&& DEV_BLOCK_OPMASK = DEV_BLOCK_READ then sd_mmc_read d rq
        else if (d.rqs rq).type &&& DEV_BLOCK_OPMASK = DEV_BLOCK_WRITE then sd_mmc_write d rq
        else d
      else sd_mmc_handle_next_req z (dev_blk_queue_remove d rq)

def dev_blk_queue_pushback (must_start : Bool) : Driver :=
  { d with
    queue := d.queue ++ [rq]
    submitted := d.submitted ++ [rq]
    entered := d.entered.erase (rq, must_start) }

def requestInsert (must_start : Bool) : Driver :=
  let d := dev_blk_queue_pushback d rq must_start
  if must_start then sd_mmc_handle_next_req z d else d

/- Runs. -/

inductive Act where
  | enter (rq : Nat) (request : Request)
  | insert (rq : Nat) (must_start : Bool)
  | done (error : Bool)

/-- A request is a new object with at least one block and none of them transferred. -/
def machine : Machine Driver Act where
  start d := d.queue = [] ∧ d.transfer = none ∧ d.entered = [] ∧ d.calls = [] ∧ d.submitted = []
  enabled d a :=
    match a with
    | .enter rq request => rq ∉ d.submitted ∧ (∀ e ∈ d.entered, e.1 ≠ rq) ∧ 1 ≤ request.count ∧
        request.progress = 0
    | .insert rq must_start => (rq, must_start) ∈ d.entered
    | .done _ => d.transfer ≠ none
  next d a :=
    match a with
    | .enter rq request =>
      { d with
        rqs := update d.rqs rq request
        entered := (rq, d.queue.isEmpty) :: d.entered }
    | .insert rq must_start => requestInsert z d rq must_start
    | .done error => sd_mmc_read_done z d error

instance (d : Driver) (a : Act) : Decidable ((machine z).enabled d a) :=
  match a with
  | .enter _ _ => instDecidableAnd
  | .insert _ _ => inferInstanceAs (Decidable (_ ∈ _))
  | .done _ => inferInstanceAs (Decidable (_ ≠ _))

def Final (call : Nat × Request × Nat) : Prop :=
  call.2.1.progress < 0 ∨ call.2.1.progress = call.2.1.count

instance (call : Nat × Request × Nat) : Decidable (Final call) := instDecidableOr

def finished : List Nat := (d.calls.filter fun call => Final call).map Prod.fst

/-- A request that is not refused, with no more blocks than an `ssize_t` can count. -/
structure Accepted (usable : Bool) (blk_count : Nat) (request : Request) : Prop where
  usable : usable = true
  range : ((uint 32 request.lba).toNat + (uint 32 (uint z request.count)).toNat) % 2 ^ 32 ≤
    blk_count
  operation : request.type &&& DEV_BLOCK_OPMASK = DEV_BLOCK_READ ∨
    request.type &&& DEV_BLOCK_OPMASK = DEV_BLOCK_WRITE
  small : Fits z request.count

instance (usable : Bool) (blk_count : Nat) (request : Request) :
    Decidable (Accepted z usable blk_count request) :=
  decidable_of_iff
    (usable = true ∧
      ((uint 32 request.lba).toNat + (uint 32 (uint z request.count)).toNat) % 2 ^ 32 ≤ blk_count ∧
      (request.type &&& DEV_BLOCK_OPMASK = DEV_BLOCK_READ ∨
        request.type &&& DEV_BLOCK_OPMASK = DEV_BLOCK_WRITE) ∧ Fits z request.count)
    ⟨fun h => ⟨h.1, h.2.1, h.2.2.1, h.2.2.2⟩, fun h => ⟨h.usable, h.range, h.operation, h.small⟩⟩

/-- Only accepted requests are submitted, and `sd_mmc_request` is not interrupted. -/
def Orderly : Act → Prop
  | .enter _ request => d.entered = [] ∧ Accepted z d.usable d.blk_count request
  | .insert _ _ => True
  | .done _ => d.entered = []

instance (d : Driver) (a : Act) : Decidable (Orderly z d a) :=
  match a with
  | .enter _ _ => instDecidableAnd
  | .insert _ _ => inferInstanceAs (Decidable True)
  | .done _ => inferInstanceAs (Decidable (d.entered = []))

def remaining (request : Request) : Nat := (request.count - request.progress).toNat

def workOf (rqs : Nat → Request) (queue : List Nat) : Nat :=
  (queue.map fun rq => remaining (rqs rq)).sum

def work : Nat := workOf d.rqs d.queue

end

section
variable {z : Nat} {d : Driver} {rq : Nat} {rest : List Nat}

structure Waiting (z : Nat) (usable : Bool) (blk_count : Nat) (request : Request) : Prop where
  accepted : Accepted z usable blk_count request
  fresh : request.progress = 0
  some_left : 1 ≤ request.count

structure Served (z : Nat) (request : Request) : Prop where
  operation : request.type &&& DEV_BLOCK_OPMASK = DEV_BLOCK_READ ∨
    request.type &&& DEV_BLOCK_OPMASK = DEV_BLOCK_WRITE
  small : Fits z request.count
  low : 0 ≤ request.progress
  high : request.progress < request.count

def AllWaiting (z : Nat) (d : Driver) (rqs : List Nat) : Prop :=
  ∀ rq ∈ rqs, Waiting z d.usable d.blk_count (d.rqs rq)

/-- What a look at the queue tells, while nothing else happens. -/
def Looked (z : Nat) (d : Driver) : Prop :=
  d.entered = [] ∨ ∃ rq, d.entered = [(rq, d.queue.isEmpty)] ∧ rq ∉ d.submitted ∧
    Waiting z d.usable d.blk_count (d.rqs rq)

structure Inv (z : Nat) (d : Driver) : Prop where
  order : d.submitted = finished d ++ d.queue
  once : d.submitted.Nodup
  idle : d.transfer = none → d.queue = []
  busy : ∀ transfer, d.transfer = some transfer → ∃ rest, d.queue = transfer.blockdev_rq :: rest ∧
    Served z (d.rqs transfer.blockdev_rq) ∧ AllWaiting z d rest
  looked : Looked z d

theorem handle_starts (queue : d.queue = rq :: rest) (usable : d.usable = true)
    (operation : (d.rqs rq).type &&& DEV_BLOCK_OPMASK = DEV_BLOCK_READ ∨
      (d.rqs rq).type &&& DEV_BLOCK_OPMASK = DEV_BLOCK_WRITE)
    (inside : ((uint 32 ((d.rqs rq).lba + (d.rqs rq).progress)).toNat +
      (uint 32 (uint z ((d.rqs rq).count - (d.rqs rq).progress))).toNat) % 2 ^ 32 ≤ d.blk_count) :
    ∃ cmd, sd_mmc_handle_next_req z d = sd_mmc_rw d rq cmd := by
  have range := Nat.not_lt.mpr inside
  rcases operation with read | write
  · refine ⟨SDMMC_CMD_READ_SINGLE_BLOCK,?_⟩
    simp only [sd_mmc_handle_next_req, queue, usable, not_true, if_false, if_neg range, if_pos read,
      sd_mmc_read]
  have other : ¬ (d.rqs rq).type &&& DEV_BLOCK_OPMASK = DEV_BLOCK_READ := by
    rw [write]
    decide
  refine ⟨SDMMC_CMD_WRITE_SINGLE_BLOCK,?_⟩
  simp only [sd_mmc_handle_next_req, queue, usable, not_true, if_false, if_neg range, if_neg other,
    if_pos write, sd_mmc_write]

theorem handle_accepted (queue : d.queue = rq :: rest)
    (waiting : Waiting z d.usable d.blk_count (d.rqs rq)) :
    ∃ cmd, sd_mmc_handle_next_req z d = sd_mmc_rw d rq cmd := by
  have accepted := waiting.accepted
  apply handle_starts queue accepted.usable accepted.operation
  rw [waiting.fresh]
  exact accepted.range

theorem waiting_served (waiting : Waiting z usable blk_count request) : Served z request := by
  have fresh := waiting.fresh
  have some_left := waiting.some_left
  exact ⟨waiting.accepted.operation,waiting.accepted.small,by omega,by omega⟩

/-- The state before the next request is taken up. -/
structure Between (z : Nat) (d : Driver) : Prop where
  order : d.submitted = finished d ++ d.queue
  once : d.submitted.Nodup
  idle : d.transfer = none
  waiting : AllWaiting z d d.queue
  alone : d.entered = []

theorem handle_inv (between : Between z d) : Inv z (sd_mmc_handle_next_req z d) ∧
    work (sd_mmc_handle_next_req z d) = work d := by
  cases queue : d.queue with
  | nil =>
    have same : sd_mmc_handle_next_req z d = d := by rw [sd_mmc_handle_next_req, queue]
    rw [same]
    refine ⟨⟨between.order,between.once,fun _ => queue,?_,.inl between.alone⟩,rfl⟩
    intro transfer outstanding
    rw [between.idle] at outstanding
    cases outstanding
  | cons rq rest =>
    have waiting := between.waiting
    rw [queue] at waiting
    have first := waiting rq (.head _)
    obtain ⟨cmd,result⟩ := handle_accepted queue first
    rw [result]
    refine ⟨⟨between.order,between.once,?_,?_,.inl between.alone⟩,rfl⟩
    · intro none_out
      cases none_out
    intro other same
    cases same
    refine ⟨rest,queue,waiting_served first,?_⟩
    intro next member
    exact waiting next (.tail _ member)

theorem enter_inv (inv : Inv z d) (alone : d.entered = []) (new : rq ∉ d.submitted)
    (accepted : Accepted z d.usable d.blk_count request) (fresh : request.progress = 0)
    (some_left : 1 ≤ request.count) :
    Inv z { d with
      rqs := update d.rqs rq request
      entered := (rq, d.queue.isEmpty) :: d.entered } := by
  have kept : ∀ other ∈ d.queue, update d.rqs rq request other = d.rqs other := by
    intro other member
    refine update_of_ne ?_ _ _
    rintro rfl
    rw [inv.order] at new
    exact new (mem_append_right _ member)
  refine ⟨inv.order,inv.once,inv.idle,?_,.inr ⟨rq,by rw [alone],new,?_⟩⟩
  · intro transfer outstanding
    obtain ⟨rest,queue,served,waiting⟩ := inv.busy transfer outstanding
    refine ⟨rest,queue,?_,?_⟩
    · dsimp only
      rw [kept transfer.blockdev_rq (by simp [queue])]
      exact served
    · intro next member
      dsimp only
      rw [kept next (by simp [queue, member])]
      exact waiting next member
  · dsimp only
    rw [update_self]
    exact ⟨accepted,fresh,some_left⟩

theorem insert_inv (inv : Inv z d) (member : (rq, must_start) ∈ d.entered) :
    Inv z (requestInsert z d rq must_start) := by
  rcases inv.looked with nobody | ⟨other,only,new,waiting⟩
  · rw [nobody] at member
    cases member
  rw [only, mem_singleton] at member
  cases member
  have alone : d.entered.erase (rq, d.queue.isEmpty) = [] := by rw [only, erase_cons_head]
  have order : d.submitted ++ [rq] = finished d ++ (d.queue ++ [rq]) := by
    rw [inv.order, append_assoc]
  have once : (d.submitted ++ [rq]).Nodup := by
    rw [nodup_append]
    refine ⟨inv.once,nodup_singleton rq,?_⟩
    intro a before b last
    rw [mem_singleton] at last
    rintro rfl
    exact new (last ▸ before)
  unfold requestInsert
  cases outstanding : d.transfer with
  | none =>
    have empty := inv.idle outstanding
    rw [empty, isEmpty_nil] at alone ⊢
    have between : Between z (dev_blk_queue_pushback d rq true) := by
      refine ⟨order,once,outstanding,?_,alone⟩
      intro next member
      simp only [dev_blk_queue_pushback, empty, nil_append, mem_singleton] at member
      rw [member]
      exact waiting
    exact (handle_inv between).1
  | some transfer =>
    obtain ⟨rest,queue,served,later⟩ := inv.busy transfer outstanding
    have some_queued : d.queue.isEmpty = false := by rw [queue]; rfl
    rw [some_queued] at alone ⊢
    refine ⟨order,once,?_,?_,.inl alone⟩
    · intro none_out
      cases outstanding.symm.trans none_out
    intro same found
    cases outstanding.symm.trans found
    refine ⟨rest ++ [rq],?_,served,?_⟩
    · simp only [dev_blk_queue_pushback, Bool.false_eq_true, if_false, queue, cons_append]
    · intro next member
      rcases mem_append.mp member with before | last
      · exact later next before
      · rw [mem_singleton.mp last]
        exact waiting

/- The end of a transfer. -/

theorem workOf_cons (rqs : Nat → Request) (rq : Nat) (queue : List Nat) :
    workOf rqs (rq :: queue) = remaining (rqs rq) + workOf rqs queue := sum_cons

theorem workOf_update (absent : rq ∉ queue) (request : Request) :
    workOf (update rqs rq request) queue = workOf rqs queue := by
  refine congrArg List.sum (map_congr_left ?_)
  intro other member
  rw [update_of_ne]
  rintro rfl
  exact absent member

theorem finished_callback (d : Driver) (rq count : Nat) : finished (callback d rq count) =
      finished d ++ if Final (rq, d.rqs rq, count) then [rq] else [] := by
  simp only [finished, callback, filter_append, map_append, filter_cons]
  by_cases last : Final (rq, d.rqs rq, count)
  · rw [if_pos last, if_pos (decide_eq_true last)]
    rfl
  · rw [if_neg last, if_neg (by simpa using last)]
    rfl

/-- A transfer without error: the next block of the request, or the next request. -/
theorem read_done_moves (outstanding : d.transfer = some ⟨rq, cmd, byte⟩)
    (served : Served z (d.rqs rq)) {after : Driver}
    (counted : after = callback
      (setProgress { d with transfer := none } rq ((d.rqs rq).progress + 1)) rq 1) :
    ((d.rqs rq).progress + 1 < (d.rqs rq).count ∧
      ∃ cmd, sd_mmc_read_done z d false = sd_mmc_rw after rq cmd) ∨
    ((d.rqs rq).progress + 1 = (d.rqs rq).count ∧
      sd_mmc_read_done z d false = sd_mmc_handle_next_req z (dev_blk_queue_remove after rq)) := by
  have low := served.low
  have high := served.high
  have range : Fits z ((d.rqs rq).progress + 1) :=
    fits_between (fits_zero z) served.small (by omega) (by omega)
  have here : after.rqs rq = { d.rqs rq with progress := (d.rqs rq).progress + 1 } := by
    rw [counted]
    exact update_self _ _ _
  have unsigned : uint z ((d.rqs rq).progress + 1) = (d.rqs rq).progress + 1 :=
    uint_of_fits (by omega) range
  simp only [sd_mmc_read_done, outstanding, sint_of_fits range, ← counted, here, unsigned]
  by_cases more : (d.rqs rq).progress + 1 < (d.rqs rq).count
  · rw [if_pos more]
    apply Or.inl
    rcases served.operation with read | write
    · rw [if_pos read]
      exact ⟨more,_,rfl⟩
    · have other : ¬ (d.rqs rq).type &&& DEV_BLOCK_OPMASK = DEV_BLOCK_READ := by
        rw [write]
        decide
      rw [if_neg other, if_pos write]
      exact ⟨more,_,rfl⟩
  · rw [if_neg more]
    exact .inr ⟨by omega,rfl⟩

section
variable {cmd byte : Nat} (inv : Inv z d) (outstanding : d.transfer = some ⟨rq, cmd, byte⟩)
include inv outstanding

theorem served_first : ∃ rest, d.queue = rq :: rest ∧ Served z (d.rqs rq) ∧ AllWaiting z d rest :=
  inv.busy _ outstanding

variable (alone : d.entered = [])
include alone

theorem remove_between {progress : Int} (count : Nat)
    (last : progress < 0 ∨ progress = (d.rqs rq).count) :
    let after := callback (setProgress { d with transfer := none } rq progress) rq count
    Between z (dev_blk_queue_remove after rq) ∧ work (dev_blk_queue_remove after rq) < work d := by
  obtain ⟨rest,queue,served,later⟩ := served_first inv outstanding
  have once := inv.once
  have order := inv.order
  rw [order, queue] at once
  have absent : rq ∉ rest := (nodup_cons.mp (nodup_append.mp once).2.1).1
  have kept : ∀ next ∈ rest, update d.rqs rq { d.rqs rq with progress := progress } next =
      d.rqs next := by
    intro next member
    refine update_of_ne ?_ _ _
    rintro rfl
    exact absent member
  have left : d.queue.erase rq = rest := by rw [queue, erase_cons_head]
  have final : Final (rq, (setProgress { d with transfer := none } rq progress).rqs rq, count) := by
    simp only [setProgress, update_self]
    exact last
  constructor
  · refine ⟨?_,inv.once,rfl,?_,alone⟩
    · show d.submitted = finished (callback _ _ _) ++ d.queue.erase rq
      rw [finished_callback, if_pos final, left, append_assoc, order, queue]
      rfl
    · intro next member
      have queued : next ∈ rest := left ▸ member
      show Waiting z d.usable d.blk_count (update d.rqs _ _ next)
      rw [kept next queued]
      exact later next queued
  · have positive : 0 < remaining (d.rqs rq) := by
      have high := served.high
      unfold remaining
      omega
    show workOf (update d.rqs _ _) (d.queue.erase rq) < workOf d.rqs d.queue
    rw [left, workOf_update absent, queue, workOf_cons]
    omega

theorem serve_next {next : Transfer} (same : next.blockdev_rq = rq)
    (more : (d.rqs rq).progress + 1 < (d.rqs rq).count) :
    let after :=
      callback (setProgress { d with transfer := none } rq ((d.rqs rq).progress + 1)) rq 1
    Inv z { after with transfer := some next } ∧
      work { after with transfer := some next } < work d := by
  obtain ⟨rest,queue,served,later⟩ := served_first inv outstanding
  have once := inv.once
  have low := served.low
  rw [inv.order, queue] at once
  have absent : rq ∉ rest := (nodup_cons.mp (nodup_append.mp once).2.1).1
  have going : ¬ Final
      (rq, (setProgress { d with transfer := none } rq ((d.rqs rq).progress + 1)).rqs rq, 1) := by
    simp only [Final, setProgress, update_self]
    omega
  constructor
  · refine ⟨?_,inv.once,?_,?_,.inl alone⟩
    · show d.submitted = finished (callback _ _ _) ++ d.queue
      rw [finished_callback, if_neg going, append_nil]
      exact inv.order
    · intro none_out
      cases none_out
    intro other found
    cases found
    rw [same]
    refine ⟨rest,queue,?_,?_⟩
    · show Served z (update d.rqs _ _ rq)
      rw [update_self]
      exact ⟨served.operation,served.small,by dsimp only; omega,more⟩
    intro next member
    show Waiting z d.usable d.blk_count (update d.rqs _ _ next)
    rw [update_of_ne]
    · exact later next member
    · rintro rfl
      exact absent member
  · show workOf (update d.rqs _ _) d.queue < workOf d.rqs d.queue
    rw [queue, workOf_cons, workOf_cons, workOf_update absent, update_self]
    unfold remaining
    dsimp only
    omega

theorem done_inv (error : Bool) :
    Inv z (sd_mmc_read_done z d error) ∧ work (sd_mmc_read_done z d error) < work d := by
  obtain ⟨_,_,served,_⟩ := served_first inv outstanding
  cases error with
  | true =>
    simp only [sd_mmc_read_done, outstanding]
    obtain ⟨between,less⟩ := remove_between inv outstanding alone 0 (.inl (by decide : - EIO < 0))
    obtain ⟨after,same⟩ := handle_inv between
    exact ⟨after,same ▸ less⟩
  | false =>
    rcases read_done_moves outstanding served rfl with ⟨more,cmd,moved⟩ | ⟨last,moved⟩
    · rw [moved]
      exact serve_next inv outstanding alone rfl more
    · rw [moved]
      obtain ⟨between,less⟩ := remove_between inv outstanding alone 1 (.inr last)
      obtain ⟨after,same⟩ := handle_inv between
      exact ⟨after,same ▸ less⟩

end

/- Runs. -/

theorem step_inv (inv : Inv z d) (can : (machine z).enabled d a) (orderly : Orderly z d a) :
    Inv z ((machine z).next d a) := by
  cases a with
  | enter rq request => exact enter_inv inv orderly.1 can.1 orderly.2 can.2.2.2 can.2.2.1
  | insert rq must_start => exact insert_inv inv can
  | done error =>
    obtain ⟨transfer,outstanding⟩ := Option.ne_none_iff_exists'.mp can
    exact (done_inv inv outstanding orderly error).1

theorem run_inv (reached : Reached (restrict (machine z) (Orderly z)) d) : Inv z d := by
  refine reached_invariant (Inv z) ?_ ?_ reached
  · intro first ⟨queue,idle,alone,calls,submitted⟩
    refine ⟨?_,by rw [submitted]; exact nodup_nil,fun _ => queue,?_,.inl alone⟩
    · rw [submitted, finished, calls, queue]
      rfl
    · intro transfer outstanding
      rw [idle] at outstanding
      cases outstanding
  · intro s a inv ⟨can,orderly⟩
    exact step_inv inv can orderly

/-- Requests that are accepted, submitted without interruption. Those with a last callback are the
    first that were submitted, each of them once and in order, and the queue is the rest; without a
    transfer the queue is empty; and every end of a transfer leaves fewer blocks to transfer. -/
theorem requests_finish_in_order (reached : Reached (restrict (machine z) (Orderly z)) d) :
    d.submitted = finished d ++ d.queue ∧ d.submitted.Nodup ∧ (d.transfer = none → d.queue = []) ∧
      (d.transfer ≠ none → d.entered = [] →
        ∀ error, work (sd_mmc_read_done z d error) < work d) := by
  have inv := run_inv reached
  refine ⟨inv.order,inv.once,inv.idle,?_⟩
  intro going alone error
  obtain ⟨transfer,outstanding⟩ := Option.ne_none_iff_exists'.mp going
  exact (done_inv inv outstanding alone error).2

/- Addresses. -/

/-- The blocks exchanged for `rq` when no transfer fails, each with its index in `data` and the byte
    of the card at which it starts, until another request is served. -/
def exchanged (z rq : Nat) : Nat → Driver → List (Int × Nat)
  | 0, _ => []
  | n + 1, d =>
    match d.transfer with
    | none => []
    | some transfer =>
      if transfer.blockdev_rq = rq then
        ((d.rqs rq).progress, transfer.byte) :: exchanged z rq n (sd_mmc_read_done z d false)
      else []

theorem exchanged_other (idle : d.transfer = none) (absent : rq ∉ d.queue) (n : Nat) :
    exchanged z rq n (sd_mmc_handle_next_req z d) = [] := by
  have refused : ∀ other code, exchanged z rq n (refuse d other code) = [] := by
    intro other code
    cases n <;> simp [exchanged, refuse, callback, setProgress, idle]
  have begun : ∀ other ∈ d.queue, ∀ cmd, exchanged z rq n (sd_mmc_rw d other cmd) = [] := by
    intro other member cmd
    have differs : other ≠ rq := fun same => absent (same ▸ member)
    cases n <;> simp [exchanged, sd_mmc_rw, differs]
  unfold sd_mmc_handle_next_req
  cases queue : d.queue with
  | nil => cases n <;> simp [exchanged, idle]
  | cons other rest => ?_
  have member : other ∈ d.queue := by simp [queue]
  simp only [sd_mmc_read, sd_mmc_write]
  repeat' split
  all_goals simp only [refused, begun other member]

theorem exchanged_rw {r : Request} (n : Nat) (queue : d.queue = rq :: rest) (once : rq ∉ rest)
    (now : d.rqs rq = { r with progress := (first : Nat) }) (served : Served z (d.rqs rq))
    (enough : r.count - first ≤ n) :
    exchanged z rq n (sd_mmc_rw d rq cmd) = (range' first (r.count - first)).map
      fun k : Nat => ((k : Int), (uint 32 (r.lba + k * 2 ^ d.read_bl_len)).toNat) := by
  induction n generalizing d first cmd with
  | zero =>
    have high := served.high
    simp only [now] at high
    omega
  | succ n ih => ?_
  have block : exchanged z rq (n + 1) (sd_mmc_rw d rq cmd) =
      ((d.rqs rq).progress, (uint 32
        ((d.rqs rq).lba + (d.rqs rq).progress * 2 ^ d.read_bl_len)).toNat) ::
        exchanged z rq n (sd_mmc_read_done z (sd_mmc_rw d rq cmd) false) := if_pos rfl
  obtain ⟨after,counted⟩ : ∃ after, after = callback
      (setProgress { d with transfer := none } rq ((d.rqs rq).progress + 1)) rq 1 := ⟨_,rfl⟩
  have next : after.rqs rq = { r with progress := (first + 1 : Nat) } := by
    simp [counted, callback, setProgress, now]
  have later : after.queue = rq :: rest := by rw [counted]; exact queue
  have same : after.read_bl_len = d.read_bl_len := by rw [counted]; rfl
  have moves := read_done_moves (d := sd_mmc_rw d rq cmd) rfl served counted
  change (d.rqs rq).progress + 1 < (d.rqs rq).count ∧ _ ∨
    (d.rqs rq).progress + 1 = (d.rqs rq).count ∧ _
    at moves
  simp only [now] at moves
  rw [block, now]
  rcases moves with ⟨more,cmd',moved⟩ | ⟨last,moved⟩
  · have size : r.count - first = r.count - (first + 1) + 1 := by omega
    have left : Served z (after.rqs rq) := by
      rw [next]
      rw [now] at served
      exact ⟨served.operation,served.small,Int.natCast_nonneg _,more⟩
    rw [moved, size, ← same]
    exact congrArg _ (ih later next left (by omega))
  · have size : r.count - first = 1 := by omega
    rw [moved, size]
    refine congrArg _ (exchanged_other ?_ ?_ n)
    · rw [counted]; rfl
    · simpa [dev_blk_queue_remove, later] using once

/-- The blocks of a request on the card are exchanged in order, each with its own bytes; another
    request is refused. -/
def Addressed (z n first rq : Nat) (d : Driver) (r : Request) : Prop :=
  if r.lba + r.count ≤ d.blk_count then
    exchanged z rq n (sd_mmc_handle_next_req z d) = (range' first (r.count - first)).map
      fun k : Nat => ((k : Int), (r.lba + k) * 2 ^ d.read_bl_len)
  else sd_mmc_handle_next_req z d = refuse d rq ERANGE

theorem address_right (lba k : Nat) : (uint 32 (lba + k * 2 ^ b)).toNat = (lba + k) * 2 ^ b ↔
    (lba = 0 ∨ b = 0) ∧ (lba + k) * 2 ^ b < 2 ^ 32 := by
  have nat : (uint 32 (lba + k * 2 ^ b)).toNat = (lba + k * 2 ^ b) % 2 ^ 32 := by
    unfold uint
    exact_mod_cast Int.toNat_natCast _
  have more : lba ≤ lba * 2 ^ b := Nat.le_mul_of_pos_right lba (Nat.two_pow_pos b)
  have same : lba = lba * 2 ^ b ↔ lba = 0 ∨ b = 0 := by
    rcases Nat.eq_zero_or_pos lba with rfl | pos
    · simp
    · rw [eq_comm, Nat.mul_eq_left (by omega), Nat.pow_eq_one]
      omega
  rw [nat, ← same, Nat.add_mul]
  clear nat same
  generalize lba * 2 ^ b = x at *
  generalize k * 2 ^ b = y
  omega

/-- A read or write of at most as many blocks as an `ssize_t` can count. -/
theorem blocks_addressed (z n first rq : Nat) (d : Driver) (r : Request) (rest : List Nat)
    (queue : d.queue = rq :: rest) (once : rq ∉ rest) (usable : d.usable = true)
    (now : d.rqs rq = { r with progress := (first : Nat) }) (card : d.blk_count < 2 ^ 32)
    (operation : r.type &&& DEV_BLOCK_OPMASK = DEV_BLOCK_READ ∨
      r.type &&& DEV_BLOCK_OPMASK = DEV_BLOCK_WRITE)
    (small : Fits z r.count) (started : first ≤ r.count) (enough : r.count - first < n) :
    Addressed z n first rq d r ↔
      if r.lba + r.count ≤ d.blk_count then
        first < r.count ∧ (r.lba = 0 ∨ d.read_bl_len = 0) ∧
          (r.lba + (r.count - 1)) * 2 ^ d.read_bl_len < 2 ^ 32
      else d.blk_count < (r.lba + r.count) % 2 ^ 32 := by
  have fits : Fits z (r.count - first) := fits_between (fits_zero z) small (by omega) (by omega)
  have test : ((uint 32 ((d.rqs rq).lba + (d.rqs rq).progress)).toNat +
      (uint 32 (uint z ((d.rqs rq).count - (d.rqs rq).progress))).toNat) % 2 ^ 32 =
      (r.lba + r.count) % 2 ^ 32 := by
    simp only [now]
    rw [uint_of_fits (by omega) fits]
    unfold uint
    omega
  have starts : (r.lba + r.count) % 2 ^ 32 ≤ d.blk_count →
      ∃ cmd, sd_mmc_handle_next_req z d = sd_mmc_rw d rq cmd := by
    intro inside
    exact handle_starts queue usable (by rw [now]; exact operation) (test ▸ inside)
  unfold Addressed
  split
  · next inside =>
    obtain ⟨cmd,begun⟩ := starts (by rw [Nat.mod_eq_of_lt (by omega)]; exact inside)
    rw [begun]
    rcases Nat.eq_or_lt_of_le started with none_left | some_left
    · obtain ⟨n,rfl⟩ : ∃ m, n = m + 1 := ⟨n - 1,by omega⟩
      simp [exchanged, sd_mmc_rw, none_left]
    · rw [exchanged_rw n queue once now (by rw [now]; exact ⟨operation,small,by simp,by simpa⟩)
        (by omega), map_inj_left]
      simp only [Prod.mk.injEq, true_and, address_right, mem_range'_1]
      constructor
      · intro each
        exact ⟨some_left,each (r.count - 1) (by omega)⟩
      · rintro ⟨-,whole,last⟩ k member
        exact ⟨whole,Nat.lt_of_le_of_lt (Nat.mul_le_mul_right _ (by omega)) last⟩
  · constructor
    · intro refused
      by_contra passes
      obtain ⟨cmd,begun⟩ := starts (by omega)
      have calls := congrArg Driver.calls (begun.symm.trans refused)
      simp [sd_mmc_rw, refuse, callback, setProgress] at calls
    · intro outside
      simp only [sd_mmc_handle_next_req, queue, usable, not_true, if_false, test, if_pos outside]

end

def card : Driver :=
  { usable := true, blk_count := 10, read_bl_len := 9, rqs := fun _ => ⟨0, 0, 0, 0⟩, queue := [],
    transfer := none, entered := [], calls := [], submitted := [] }

/-- A read of two blocks, of which the second fails, and a write that is submitted in between. -/
def twoRequests : List Act :=
  [.enter 0 ⟨1, 4, 2, 0⟩, .insert 0 true, .enter 1 ⟨2, 0, 1, 0⟩, .insert 1 false,
    .done false, .done true]

theorem requests_finish_in_order_two : ∃ d, Reached (restrict (machine 32) (Orderly 32)) d ∧
    d.calls.map (fun call => (call.1, call.2.1.progress)) = [(0, 1), (0, -11)] ∧
    d.submitted = finished d ++ d.queue ∧ d.submitted.Nodup ∧ (d.transfer = none → d.queue = []) ∧
      (d.transfer ≠ none → d.entered = [] →
        ∀ error, work (sd_mmc_read_done 32 d error) < work d) := by
  have reached := reached_of_allowed (restrict (machine 32) (Orderly 32)) card twoRequests
    ⟨rfl,rfl,rfl,rfl,rfl⟩ (by decide +kernel)
  exact ⟨_,reached,by decide +kernel,requests_finish_in_order reached⟩

/-- A request beyond the end of the card is refused and stays at the head of the queue: no transfer
    is started, and the next request, which is in range, waits for ever. -/
theorem refused_request_blocks :
    ∃ d, Run (machine 32) card
      [.enter 0 ⟨1, 20, 1, 0⟩, .insert 0 true, .enter 1 ⟨1, 0, 1, 0⟩, .insert 1 false] d ∧
    (machine 32).start card ∧ d.transfer = none ∧ d.queue = [0, 1] ∧ d.submitted = [0, 1] ∧
    finished d = [0] ∧ ¬ ∃ error, (machine 32).enabled d (.done error) := by
  refine ⟨_,run_of_allowed _ card (by decide +kernel),⟨rfl,rfl,rfl,rfl,rfl⟩,by decide +kernel,
    by decide +kernel,by decide +kernel,by decide +kernel,?_⟩
  rintro ⟨error,outstanding⟩
  exact outstanding (by decide +kernel)

def loaded (r : Request) : Driver := { card with rqs := fun _ => r, queue := [0] }

theorem blocks_addressed_two : Addressed 32 3 0 0 (loaded ⟨1, 0, 2, 0⟩) ⟨1, 0, 2, 0⟩ :=
  (blocks_addressed 32 3 0 0 (loaded ⟨1, 0, 2, 0⟩) ⟨1, 0, 2, 0⟩ [] rfl
    (by decide) rfl rfl (by decide)
    (by decide) (by decide) (by decide) (by decide)).mpr (by decide)

/-- Block 4 is looked for at byte 4, and the number of the last block of a request can overflow. -/
theorem blocks_misplaced :
    exchanged 32 0 2 (sd_mmc_handle_next_req 32 (loaded ⟨1, 4, 2, 0⟩)) = [(0, 4), (1, 516)] ∧
      (sd_mmc_handle_next_req 32 (loaded ⟨1, 2 ^ 32 - 1, 2, 0⟩)).transfer =
        some ⟨0, 17, 2 ^ 32 - 1⟩ := by
  decide +kernel

end MutekSdMmc
