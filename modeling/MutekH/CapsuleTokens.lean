import MutekH.CapsuleJoin

/-!
The tokens of the runners. A unit of `free_cpu` becomes a context, the token of the context
serves a runner, and the runner gives the unit back; so the units, the contexts on their way
and the runners that have been served are as many as the processors.
-/
namespace MutekCapsule
open Function List LibMachine LibFixedWidth LibWeights MutekSemaphore MutekWaitQueue

section
set_option linter.unusedSectionVars false
variable {Cpu Ctxt Group : Type} [DecidableEq Cpu] [DecidableEq Ctxt] [DecidableEq Group]
  [Fintype Cpu]

def between : Phase → Bool
  | .popping | .working | .giving => true
  | _ => false

def started : Phase → Bool
  | .starting => false
  | _ => true

def busy (t : Tokens Cpu) : Int := ∑ i, one (between (t.phase i) = true)

def begun (t : Tokens Cpu) : Int := ∑ i, one (started (t.phase i) = true)

def balance (t : Tokens Cpu) : Int := t.free_cpu.count + busy t + (t.obtained - t.taken) - begun t

theorem busy_setPhase (t : Tokens Cpu) (i : Cpu) (phase : Phase) :
    busy (setPhase t i phase) =
      busy t - one (between (t.phase i) = true) + one (between phase = true) :=
  sum_update (fun p => one (between p = true)) t.phase i phase

theorem begun_setPhase (t : Tokens Cpu) (i : Cpu) (phase : Phase) :
    begun (setPhase t i phase) =
      begun t - one (started (t.phase i) = true) + one (started phase = true) :=
  sum_update (fun p => one (started p = true)) t.phase i phase

theorem balance_setPhase (t : Tokens Cpu) (i : Cpu) (phase : Phase) :
    balance (setPhase t i phase) =
      balance t - (one (between (t.phase i) = true) - one (started (t.phase i) = true)) +
      (one (between phase = true) - one (started phase = true)) := by
  rw [balance, busy_setPhase, begun_setPhase, balance]
  simp only [setPhase]
  omega

def starting : Starter → Int
  | .creating | .giving => 1
  | _ => 0

def flow (t : Tokens Cpu) : Int := t.has_job.count + starting t.starter - (t.obtained - t.taken)

structure Queues (t : Tokens Cpu) : Prop where
  free : Unitary t.free_cpu
  jobs : Unitary t.has_job
  starter : t.free_cpu.wait = [] ∨ ((∃ x, t.free_cpu.wait = [x]) ∧ t.starter = .waiting)
  runners : ∀ x ∈ t.has_job.wait, t.phase x.thread = .waiting
  once : (t.has_job.wait.map Waiter.thread).Nodup

variable {w : Nat} {t : Tokens Cpu}

theorem giveFree_spec (queues : Queues t) (fits : Fits w (t.free_cpu.count + 1)) :
    Queues (giveFree w t) ∧ balance (giveFree w t) = balance t + 1 ∧ flow (giveFree w t) = flow t ∧
      (giveFree w t).phase = t.phase := by
  have nonneg := queues.free.nonneg
  obtain ⟨empty,given⟩ | ⟨x,rest,waiting,zero,given⟩ := give_one queues.free fits
  · have done : giveFree w t = { t with free_cpu := ⟨t.free_cpu.count + 1,[]⟩ } := by
      rw [giveFree, given]
      rfl
    rw [done]
    refine ⟨⟨unitary_up (by omega),queues.jobs,.inl rfl,queues.runners,queues.once⟩,?_,rfl,rfl⟩
    simp only [balance, busy, begun]
    omega
  -- the unit goes to `app_start`
  obtain none | ⟨⟨y,only⟩,asleep⟩ := queues.starter
  · rw [none] at waiting
    cases waiting
  rw [only] at waiting
  cases waiting
  have done : giveFree w t =
      { t with free_cpu := ⟨0,[]⟩, starter := .creating, obtained := t.obtained + 1 } := by
    rw [giveFree, given]
    rfl
  rw [done]
  refine ⟨⟨unitary_zero [],queues.jobs,.inl rfl,queues.runners,queues.once⟩,?_,?_,rfl⟩
  · simp only [balance, busy, begun]
    omega
  · simp only [flow, asleep, starting]
    omega

theorem giveJob_spec (queues : Queues t) (fits : Fits w (t.has_job.count + 1)) :
    Queues (giveJob w t) ∧ balance (giveJob w t) = balance t ∧ flow (giveJob w t) = flow t + 1 ∧
      ∀ i, (giveJob w t).phase i = t.phase i ∨
        (t.phase i = .waiting ∧ (giveJob w t).phase i = .popping) := by
  have nonneg := queues.jobs.nonneg
  obtain ⟨empty,given⟩ | ⟨x,rest,waiting,zero,given⟩ := give_one queues.jobs fits
  · have done : giveJob w t = { t with has_job := ⟨t.has_job.count + 1,[]⟩ } := by
      rw [giveJob, given]
      rfl
    rw [done]
    refine ⟨⟨queues.free,unitary_up (by omega),queues.starter,?_,nodup_nil⟩,rfl,?_,
      fun i => .inl rfl⟩
    · intro x member
      cases member
    · simp only [flow]
      omega
  -- the token goes to a runner
  have asleep := queues.runners x (by simp [waiting])
  have done : giveJob w t =
      { setPhase t x.thread .popping with has_job := ⟨0,rest⟩, taken := t.taken + 1 } := by
    rw [giveJob, given]
    rfl
  have once := queues.once
  rw [waiting, map_cons, nodup_cons] at once
  rw [done]
  refine ⟨⟨queues.free,unitary_zero rest,queues.starter,?_,once.2⟩,?_,?_,?_⟩
  · intro y member
    have other : y.thread ≠ x.thread := by
      intro same
      exact once.1 (mem_map.mpr ⟨y,member,same⟩)
    simp only [setPhase, update_of_ne other]
    exact queues.runners y (by rw [waiting]; exact .tail x member)
  · have moved := balance_setPhase t x.thread .popping
    rw [asleep] at moved
    have before : one (between .waiting = true) - one (started .waiting = true) = -1 := rfl
    have after : one (between .popping = true) - one (started .popping = true) = 0 := rfl
    simp only [balance, busy, begun, setPhase] at moved ⊢
    omega
  · simp only [flow, setPhase]
    omega
  · intro i
    by_cases same : i = x.thread
    · right
      rw [same]
      exact ⟨asleep,update_self _ _ _⟩
    · left
      exact update_of_ne same _ _

variable {i : Cpu}

theorem takeJob_spec (queues : Queues t) (phase : t.phase i = .taking)
    (fits : Fits w (t.has_job.count - 1)) :
    Queues (takeJob w t i) ∧ balance (takeJob w t i) = balance t ∧ flow (takeJob w t i) = flow t ∧
      ∀ j, (takeJob w t i).phase j = t.phase j ∨ (j = i ∧ (takeJob w t i).phase j ≠ .working) := by
  have others : ∀ x ∈ t.has_job.wait, x.thread ≠ i := by
    intro x member same
    have asleep := queues.runners x member
    rw [same, phase] at asleep
    cases asleep
  have moves : ∀ (u : Tokens Cpu) (p : Phase), u.phase = t.phase → p ≠ .working →
      ∀ j, (setPhase u i p).phase j = t.phase j ∨
        (j = i ∧ (setPhase u i p).phase j ≠ .working) := by
    intro u p same awake j
    by_cases here : j = i
    · right
      refine ⟨here,?_⟩
      simp only [setPhase, here, update_self]
      exact awake
    · left
      simp only [setPhase, update_of_ne here, same]
  have before : one (between .taking = true) - one (started .taking = true) = -1 := rfl
  obtain ⟨some,taken⟩ | ⟨zero,taken⟩ := take_one queues.jobs fits i
  · have done : takeJob w t i =
        setPhase
          { t with has_job := ⟨t.has_job.count - 1,t.has_job.wait⟩, taken := t.taken + 1 }
          i .popping := by
      rw [takeJob, taken]
    have empty : t.has_job.wait = [] := by
      obtain none | zero := queues.jobs.waits
      · exact none
      · omega
    rw [done]
    refine ⟨⟨queues.free,⟨?_,.inl empty⟩,queues.starter,?_,queues.once⟩,?_,?_,
      moves _ _ rfl (by decide)⟩
    · simp only [setPhase]
      omega
    · intro x member
      simp only [setPhase, empty] at member
      cases member
    · rw [balance_setPhase, phase]
      have after : one (between .popping = true) - one (started .popping = true) = 0 := rfl
      rw [before, after]
      simp only [balance, busy, begun]
      omega
    · simp only [flow, setPhase]
      omega
  have done : takeJob w t i =
      setPhase { t with has_job := ⟨0,t.has_job.wait ++ [⟨i,1⟩]⟩ } i .waiting := by
    rw [takeJob, taken]
  rw [done]
  refine ⟨⟨queues.free,unitary_zero _,queues.starter,?_,?_⟩,?_,?_,moves _ _ rfl (by decide)⟩
  · intro x member
    simp only [setPhase, mem_append, mem_singleton] at member ⊢
    obtain before | new := member
    · rw [update_of_ne (others x before)]
      exact queues.runners x before
    · rw [new, update_self]
  · simp only [setPhase, map_append, map_cons, map_nil]
    rw [nodup_append]
    refine ⟨queues.once,nodup_singleton i,?_⟩
    intro a member b only
    obtain ⟨x,before,same⟩ := mem_map.mp member
    rw [mem_singleton.mp only, ← same]
    exact others x before
  · rw [balance_setPhase, phase]
    have after : one (between .waiting = true) - one (started .waiting = true) = -1 := rfl
    rw [before, after]
    exact Int.sub_add_cancel _ _
  · simp only [flow, setPhase, zero]

theorem takeFree_spec (queues : Queues t) (starter : t.starter = .taking)
    (fits : Fits w (t.free_cpu.count - 1)) :
    Queues (takeFree w t) ∧ balance (takeFree w t) = balance t ∧ flow (takeFree w t) = flow t ∧
      (takeFree w t).phase = t.phase := by
  have empty : t.free_cpu.wait = [] := by
    obtain none | ⟨_,asleep⟩ := queues.starter
    · exact none
    · rw [starter] at asleep
      cases asleep
  obtain ⟨some,taken⟩ | ⟨zero,taken⟩ := take_one queues.free fits ()
  · have done : takeFree w t = { t with
          free_cpu := ⟨t.free_cpu.count - 1,t.free_cpu.wait⟩
          starter := .creating
          obtained := t.obtained + 1 } := by
      rw [takeFree, taken]
    rw [done]
    refine ⟨⟨⟨?_,.inl empty⟩,queues.jobs,.inl empty,queues.runners,queues.once⟩,?_,?_,rfl⟩
    · simp only
      omega
    · simp only [balance, busy, begun]
      omega
    · simp only [flow, starter, starting]
      omega
  · have done : takeFree w t =
        { t with free_cpu := ⟨0,t.free_cpu.wait ++ [⟨(),1⟩]⟩, starter := .waiting } := by
      rw [takeFree, taken]
    rw [done]
    refine ⟨⟨unitary_zero _,queues.jobs,.inr ⟨⟨⟨(),1⟩,?_⟩,rfl⟩,queues.runners,queues.once⟩,?_,?_,
      rfl⟩
    · simp [empty]
    · simp only [balance, busy, begun, zero]
    · simp only [flow, starter, starting]

theorem probeTake_spec (queues : Queues t) (some : 1 ≤ t.free_cpu.count)
    (fits : Fits w (t.free_cpu.count - 1)) :
    let u :=
      { t with free_cpu := (semaphore_try_take w t.free_cpu 1).1, obtained := t.obtained + 1 }
    Queues u ∧ balance u = balance t ∧ flow u = flow t - 1 := by
  intro u
  have taken : (semaphore_try_take w t.free_cpu 1).1 = ⟨t.free_cpu.count - 1,t.free_cpu.wait⟩ := by
    rw [semaphore_try_take, if_neg (by omega), sint_of_fits fits]
  have empty : t.free_cpu.wait = [] := by
    obtain none | zero := queues.free.waits
    · exact none
    · omega
  have done : u = { t with
      free_cpu := ⟨t.free_cpu.count - 1,t.free_cpu.wait⟩
      obtained := t.obtained + 1 } := by
    simp only [u, taken]
  rw [done]
  refine ⟨⟨⟨?_,.inl empty⟩,queues.jobs,.inl empty,queues.runners,queues.once⟩,?_,?_⟩
  · simp only
    omega
  · simp only [balance, busy, begun]
    omega
  · simp only [flow]
    omega

/- The contexts on their way. -/

def carry : Step Ctxt → Int
  | .probing | .counting _ | .dividing => 1
  | _ => 0

def carried (k : Work Cpu Ctxt Group) : Int := k.held.length + tally (fun f => carry f.step) k.stack

def outstanding (s : Pool Cpu Ctxt Group) : Int :=
  carried s.work + starting s.tokens.starter + s.tokens.has_job.count

def numbered (k : Work Cpu Ctxt Group) (n : Nat) : Int :=
  weigh (fun j => one (j.serial = n)) k.held + weigh (fun j => one (j.serial = n)) k.jobs +
    listed n k.runs

def Serials (k : Work Cpu Ctxt Group) : Prop := ∀ n, numbered k n = one (n < k.born)

variable {k : Work Cpu Ctxt Group} {f : Frame Ctxt Group} {below : List (Frame Ctxt Group)}

section
variable {t : Work Cpu Ctxt Group} {new : Frame Ctxt Group} (top : k.stack i = f :: below)
  (held : t.held = k.held) (stack : t.stack = update k.stack i (new :: below))
include top held stack

theorem carried_top : carried t = carried k - carry f.step + carry new.step := by
  simp only [carried, held, stack, tally_top _ top]
  omega

theorem carried_same (same : carry new.step = carry f.step) : carried t = carried k := by
  rw [carried_top top held stack, same]
  exact Int.sub_add_cancel _ _

end

variable {job : Job Ctxt Group}

theorem carried_queue (member : job ∈ k.held) : carried (queue k job) = carried k - 1 := by
  have some := length_pos_of_mem member
  simp only [carried, queue, length_erase_of_mem member]
  omega

theorem serials_queue (serials : Serials k) (member : job ∈ k.held) : Serials (queue k job) := by
  intro n
  have same : numbered (queue k job) n = numbered k n := by
    simp only [numbered, queue, weigh_erase _ member, weigh_cons]
    omega
  exact same.trans (serials n)

theorem serials_begin (serials : Serials k)
    (popped : k.jobs = job :: rest) (below : List (Frame Ctxt Group)) :
    Serials (begin k i job rest below) := by
  intro n
  have same : numbered (begin k i job rest below) n = numbered k n := by
    simp only [numbered, begin, setStack, listed, popped, weigh_cons]
    omega
  exact same.trans (serials n)

theorem serials_hold {t : Work Cpu Ctxt Group} (serials : Serials k)
    (held : t.held = job :: k.held) (serial : job.serial = k.born) (born : t.born = k.born + 1)
    (jobs : t.jobs = k.jobs) (runs : t.runs = k.runs) : Serials t := by
  intro n
  have before := serials n
  have next : one (n < k.born + 1) = one (n < k.born) + one (job.serial = n) := by
    rw [serial]
    simp only [one]
    by_cases less : n < k.born
    · rw [if_pos less, if_pos (by omega), if_neg (by omega)]
      rfl
    · by_cases same : k.born = n
      · rw [if_neg less, if_pos (by omega), if_pos same]
        rfl
      · rw [if_neg less, if_neg (by omega), if_neg same]
        rfl
  simp only [numbered] at before ⊢
  rw [held, jobs, runs, born, weigh_cons]
  omega

theorem carried_hold (t : Work Cpu Ctxt Group)
    (held : t.held = job :: k.held) (stack : t.stack = k.stack) : carried t = carried k + 1 := by
  simp only [carried, held, stack, length_cons]
  omega

theorem carried_begin (job : Job Ctxt Group) (rest : List (Job Ctxt Group))
    (below : List (Frame Ctxt Group)) :
    carried (begin k i job rest below) =
      carried k - weigh (fun f => carry f.step) (k.stack i) +
        weigh (fun f => carry f.step) below := by
  simp only [carried, begin, setStack, tally_update, weigh_cons, carry]
  omega

theorem carried_create (top : k.stack i = f :: below) (step : f.step = .probing) (g : Group)
    (fresh : Ctxt) :
    carried (createJob k i f below g fresh) = carried k ∧
      (Serials k → Serials (createJob k i f below g fresh)) := by
  rw [createJob, ctxt_create]
  cases free : k.free_jobs with
  | nil | cons c rest =>
    refine ⟨carried_same top rfl rfl ?_,fun serials => serials⟩
    rw [step]
    rfl

theorem callWork_books (serials : Serials k) (top : k.stack i = f :: below) (g : Group)
    (fresh : Ctxt) :
    carried (callWork w k i f below g fresh) = carried k - one (f.step = .dividing) ∧
    Serials (callWork w k i f below g fresh) := by
  have elsewhere : f.step ≠ .dividing → carried k - one (f.step = .dividing) = carried k := by
    intro other
    rw [one, if_neg other, Int.sub_zero]
  cases step : f.step with
  | free => simp [callWork, step, one, serials]
  | probing =>
    obtain ⟨same,numbers⟩ := carried_create top step g fresh
    simp only [callWork, step, same, one]
    exact ⟨by simp,numbers serials⟩
  | counting c =>
    simp only [callWork, step]
    refine ⟨?_,serials_hold serials rfl rfl rfl rfl rfl⟩
    let made : Work Cpu Ctxt Group :=
      { giveJoin w k g (-1) with held := ⟨c,some g,[],k.born⟩ :: k.held, born := k.born + 1 }
    have madeTop : made.stack i = f :: below := top
    have moved := carried_top (t := setStack made i ({ f with step := .free } :: below))
      madeTop rfl rfl
    rw [carried_hold made rfl rfl, step] at moved
    change carried (setStack made i ({ f with step := .free } :: below)) = _
    rw [moved]
    simp [carry, one]
  | dividing =>
    simp only [callWork, step]
    refine ⟨?_,serials⟩
    have moved := carried_top (t := setStack k i ({ f with step := .free } :: below)) top rfl rfl
    rw [moved, step]
    simp [carry, one]
  | joining =>
    rw [← step, elsewhere (by simp [step])]
    simp only [callWork, step, tryJoin]
    split <;> exact ⟨carried_same top rfl rfl (by rw [step]; rfl),serials⟩
  | polling =>
    rw [← step, elsewhere (by simp [step])]
    simp only [callWork, step, poll]
    cases popped : k.jobs with
    | nil => exact ⟨carried_same top rfl rfl (by rw [step]; rfl),serials⟩
    | cons job rest =>
      refine ⟨?_,serials_begin serials popped _⟩
      rw [carried_begin, top, weigh_cons, step]
      exact Int.sub_add_cancel _ _
  | joined =>
    rw [← step, elsewhere (by simp [step])]
    simp only [callWork, step, leaveGroup]
    cases under : k.parent g with
    | none | some parent => exact ⟨carried_same top rfl rfl (by rw [step]; rfl),serials⟩
  | ending =>
    rw [← step, elsewhere (by simp [step])]
    simp only [callWork, step]
    exact ⟨carried_same top rfl rfl (by rw [step]; rfl),serials⟩
  | leaving =>
    simp only [callWork, step]
    refine ⟨?_,serials⟩
    simp [carried, setStack, tally_update, top, carry, step, one]

theorem callWork_stack (top : k.stack i = f :: below) (g : Group) (fresh : Ctxt) :
    ∃ frames, (callWork w k i f below g fresh).stack = update k.stack i frames ∧
      (f.step = .leaving → frames = below) := by
  have same : update k.stack i (f :: below) = k.stack := by
    rw [← top]
    exact update_eq_self i k.stack
  cases step : f.step with
  | free => exact ⟨f :: below,by simp [callWork, step, same],by simp⟩
  | probing =>
    simp only [callWork, step, createJob, ctxt_create]
    cases k.free_jobs with
    | nil | cons c rest => exact ⟨_,rfl,by simp⟩
  | counting c | dividing | ending => exact ⟨_,by simp only [callWork, step]; rfl,by simp⟩
  | joining =>
    simp only [callWork, step, tryJoin]
    split <;> exact ⟨_,rfl,by simp⟩
  | polling =>
    simp only [callWork, step, poll]
    cases k.jobs with
    | nil | cons job rest => exact ⟨_,rfl,by simp⟩
  | joined =>
    simp only [callWork, step, leaveGroup]
    cases k.parent g with
    | none | some parent => exact ⟨_,rfl,by simp⟩
  | leaving => exact ⟨below,by simp only [callWork, step]; rfl,fun _ => rfl⟩

end

end MutekCapsule
