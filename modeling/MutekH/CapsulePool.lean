import MutekH.CapsuleTokens

/-!
Whole runs of the pool. The invariant of the groups, the books of the tokens and the numbers
of the jobs are kept together by every step of a runner, of `app_start` and of a job.
-/
namespace MutekCapsule
open Function LibMachine LibFixedWidth LibWeights MutekSemaphore MutekWaitQueue

section
set_option linter.unusedSectionVars false
variable {Cpu Ctxt Group : Type} [DecidableEq Cpu] [DecidableEq Ctxt] [DecidableEq Group]
  [Fintype Cpu]

theorem listed_le_one {α : Type} [DecidableEq α] {xs : List α} (once : xs.Nodup) (x : α) :
    listed x xs ≤ 1 := by
  induction xs with
  | nil => simp [listed]
  | cons y xs ih => ?_
  rw [List.nodup_cons] at once
  rw [listed, weigh_cons]
  by_cases same : y = x
  · have none : weigh (fun z => one (z = x)) xs = 0 := by
      apply weigh_zero
      intro z member
      refine if_neg ?_
      intro equal
      rw [equal, ← same] at member
      exact once.1 member
    rw [none, one_pos same]
    decide
  · rw [one, if_neg same, Int.zero_add]
    exact ih once.2

theorem nodup_of_listed {α : Type} [DecidableEq α] {xs : List α} (le : ∀ x, listed x xs ≤ 1) :
    xs.Nodup := by
  induction xs with
  | nil => exact List.nodup_nil
  | cons y xs ih => ?_
  have split : ∀ x, listed x (y :: xs) = one (y = x) + listed x xs := fun x => weigh_cons _ y xs
  rw [List.nodup_cons]
  refine ⟨?_,?_⟩
  · intro member
    have again : one (y = y) ≤ listed y xs :=
      weigh_mem (φ := fun z => one (z = y)) (fun _ => one_nonneg _) member
    have whole := le y
    rw [split, one_pos rfl] at whole
    rw [one_pos rfl] at again
    omega
  · apply ih
    intro x
    have whole := le x
    have first := one_nonneg (y = x)
    rw [split] at whole
    omega

/- The next step of a call. -/

variable {w : Nat} {k : Work Cpu Ctxt Group} {i : Cpu} {f : Frame Ctxt Group}
  {below : List (Frame Ctxt Group)}

theorem tryJoin_inv (inv : Inv k) (top : k.stack i = f :: below) (step : f.step = .joining)
    (group : k.group f.job.ctxt = some g) (fits : Fits w (max ((k.join g).count - 1) 0)) :
    Inv (tryJoin w k i f below g) := by
  have fitting := (inv.shape.placed i f (by simp [top])).fitting
  rw [step] at fitting
  rw [tryJoin]
  by_cases enough : (k.join g).count - 1 < 0
  · simp only [if_pos (try_take_fails enough)]
    exact restep_inv inv top (by rw [step]; rfl) rfl fitting
  · have done := try_take_succeeds (w := w) enough
    rw [max_eq_left (by omega)] at fits
    simp only [done]
    exact joined_inv inv top step group (by omega) fits

theorem poll_inv (inv : Inv k) (top : k.stack i = f :: below) (step : f.step = .polling) :
    Inv (poll k i f below) := by
  have fitting := (inv.shape.placed i f (by simp [top])).fitting
  rw [step] at fitting
  have back : Inv (setStack k i ({ f with step := .joining } :: below)) :=
    restep_inv inv top (by rw [step]; rfl) rfl fitting
  rw [poll]
  cases popped : k.jobs with
  | nil => exact back
  | cons job rest => ?_
  -- the job runs on top of the call that waits
  have joining : ∀ x ∈ (setStack k i ({ f with step := .joining } :: below)).stack i,
      x.step = .joining := by
    intro x member
    simp only [setStack, update_self] at member
    cases member with
    | head => rfl
    | tail _ later =>
      apply inv.shape.below i x
      rw [top]
      exact later
  have begun := begin_inv back popped joining
  simp only [begin, setStack, update_self, update_idem] at begun ⊢
  exact begun

theorem callWork_inv (inv : Inv k) (top : k.stack i = f :: below)
    (group : k.group f.job.ctxt = some g) (unknown : f.step = .probing → FreshCtxt k fresh)
    (fits : Fits w (joinSum k g f.step)) : Inv (callWork w k i f below g fresh) := by
  unfold callWork
  cases step : f.step with rw [step] at fits
  | free =>
    exact inv
  | probing =>
    exact createJob_inv inv top step group (unknown step)
  | counting c =>
    exact countJob_inv inv top step group fits
  | dividing =>
    exact restep_inv inv top (by rw [step]; rfl) rfl trivial
  | joining =>
    exact tryJoin_inv inv top step group fits
  | polling =>
    exact poll_inv inv top step
  | joined =>
    refine leaveGroup_inv inv top step group ?_
    intro none
    rw [joinSum, if_pos none] at fits
    exact fits
  | ending =>
    exact ending_inv inv top step group fits
  | leaving =>
    exact leaving_inv inv top step

/- The pool. -/

structure Good (s : Pool Cpu Ctxt Group) : Prop where
  inv : Inv s.work
  queues : Queues s.tokens
  balanced : balance s.tokens = 0
  flowing : carried s.work + flow s.tokens = 0
  idle : ∀ i, s.tokens.phase i ≠ .working → s.work.stack i = []
  serials : Serials s.work

variable {s : Pool Cpu Ctxt Group}

theorem good_start (boot : Boot s) : Good s := by
  obtain ⟨⟨jobs,held,calls,freeJobs,freeGroups,born,runs⟩,free,hasJob,phases,starter,obtained,
    taken⟩ := boot
  have quiet : ∀ φ : Frame Ctxt Group → Int, tally φ s.work.stack = 0 := by
    intro φ
    simp [tally, calls]
  have none : ∀ ω ν, census ω ν s.work = 0 := by
    intro ω ν
    rw [census, held, jobs, quiet]
    rfl
  refine ⟨⟨⟨?_,?_,?_,?_,?_⟩,⟨?_,?_,?_⟩⟩,⟨?_,?_,?_,?_,?_⟩,?_,?_,?_,?_⟩
  · intro c
    rw [inUse, none, Int.zero_add]
    exact listed_le_one freeJobs c
  · intro g
    rw [owned, none, Int.zero_add]
    exact listed_le_one freeGroups g
  · intro j member
    rw [held, jobs] at member
    simp at member
  · intro i f member
    rw [calls i] at member
    cases member
  · intro i f member
    rw [calls i] at member
    cases member
  · intro g some
    rw [owned, none] at some
    cases some
  · intro g some
    rw [pending, none] at some
    cases some
  · intro g some
    rw [took, quiet] at some
    cases some
  · rw [free]
    exact unitary_zero []
  · rw [hasJob]
    exact unitary_zero []
  · left
    rw [free]
    rfl
  · intro x member
    rw [hasJob] at member
    cases member
  · rw [hasJob]
    exact List.nodup_nil
  · simp [balance, busy, begun, free, phases, obtained, taken, between, started, semaphore_init]
  · simp [carried, flow, held, quiet, hasJob, starter, obtained, taken, starting, semaphore_init]
  · intro i _
    exact calls i
  · intro n
    rw [numbered, held, jobs, runs, born]
    simp [listed, one]

variable {t : Tokens Cpu}

theorem queues_setPhase (queues : Queues t) (awake : t.phase i ≠ .waiting) (phase : Phase) :
    Queues (setPhase t i phase) := by
  refine ⟨queues.free,queues.jobs,queues.starter,?_,queues.once⟩
  intro x member
  have asleep := queues.runners x member
  have other : x.thread ≠ i := by
    intro same
    rw [same] at asleep
    exact awake asleep
  simp only [setPhase, update_of_ne other]
  exact asleep

theorem queues_starter (queues : Queues t) (awake : t.starter ≠ .waiting) (starter : Starter) :
    Queues { t with starter := starter } := by
  refine ⟨queues.free,queues.jobs,.inl ?_,queues.runners,queues.once⟩
  obtain none | ⟨_,asleep⟩ := queues.starter
  · exact none
  · exact absurd asleep awake

theorem good_tokens (good : Good s) (queues : Queues t) (balanced : balance t = balance s.tokens)
    (flowing : flow t = flow s.tokens)
    (working : ∀ i, s.tokens.phase i = .working → t.phase i = .working) :
    Good { s with tokens := t } := by
  refine ⟨good.inv,queues,balanced.trans good.balanced,?_,?_,good.serials⟩
  · have before := good.flowing
    rw [← flowing] at before
    exact before
  · intro i resting
    apply good.idle i
    intro busy
    exact resting (working i busy)

theorem working_setPhase (resting : t.phase i ≠ .working) (phase : Phase) (j : Cpu)
    (working : t.phase j = .working) : (setPhase t i phase).phase j = .working := by
  have other : j ≠ i := by
    intro same
    rw [same] at working
    exact resting working
  simp only [setPhase, update_of_ne other]
  exact working

theorem give_good (good : Good s)
    (phase : s.tokens.phase i = .starting ∨ s.tokens.phase i = .giving)
    (fits : Fits w (s.tokens.free_cpu.count + 1)) :
    Good { s with tokens := setPhase (giveFree w s.tokens) i .taking } := by
  obtain ⟨queues,balanced,flowing,same⟩ := giveFree_spec good.queues fits
  have weight : one (between (s.tokens.phase i) = true) -
      one (started (s.tokens.phase i) = true) = 0 := by
    obtain starting | giving := phase
    · rw [starting]
      rfl
    · rw [giving]
      rfl
  have resting : s.tokens.phase i ≠ .waiting ∧ s.tokens.phase i ≠ .working := by
    obtain starting | giving := phase
    · simp [starting]
    · simp [giving]
  refine good_tokens good (queues_setPhase queues (by rw [same]; exact resting.1) .taking)
    ?_ flowing ?_
  · have after : one (between .taking = true) - one (started .taking = true) = -1 := rfl
    rw [balance_setPhase, same]
    omega
  · intro j working
    exact working_setPhase resting.2 .taking j working

theorem begin_good (good : Good s) (phase : s.tokens.phase i = .popping)
    (popped : s.work.jobs = job :: rest) :
    Good { s with work := begin s.work i job rest [], tokens := setPhase s.tokens i .working } := by
  have empty : s.work.stack i = [] := good.idle i (by simp [phase])
  refine ⟨?_,queues_setPhase good.queues (by simp [phase]) .working,?_,?_,?_,
    serials_begin good.serials popped []⟩
  · have begun := begin_inv good.inv popped (i := i) (by simp [empty])
    rw [empty] at begun
    exact begun
  · rw [balance_setPhase, phase]
    exact (Int.sub_add_cancel _ _).trans good.balanced
  · have same : carried (begin s.work i job rest []) = carried s.work := by
      rw [carried_begin, empty]
      exact Int.sub_add_cancel _ _
    simp only [same]
    exact good.flowing
  · intro j resting
    have other : j ≠ i := by
      intro same
      rw [same] at resting
      simp [setPhase] at resting
    simp only [setPhase, begin, setStack, update_of_ne other] at resting ⊢
    exact good.idle j resting

theorem runner_good (good : Good s) (range : InRange w s (.runner i)) :
    Good (runnerStep w s i) := by
  obtain ⟨free,jobs,_⟩ := range
  rw [runnerStep]
  cases phase : s.tokens.phase i with
  | starting =>
    simp only [freeSum, phase, true_or, if_true] at free
    exact give_good good (.inl phase) free
  | giving =>
    simp only [freeSum, phase, or_true, if_true] at free
    exact give_good good (.inr phase) free
  | taking =>
    simp only [jobSum, phase, if_true] at jobs
    obtain ⟨queues,balanced,flowing,phases⟩ := takeJob_spec good.queues phase jobs
    refine good_tokens good queues balanced flowing ?_
    intro j working
    obtain same | ⟨here,_⟩ := phases j
    · rw [same]
      exact working
    · rw [here, phase] at working
      cases working
  | popping =>
    cases popped : s.work.jobs with
    | nil =>
      refine good_tokens good (queues_setPhase good.queues (by simp [phase]) .giving) ?_ rfl ?_
      · rw [balance_setPhase, phase]
        exact Int.sub_add_cancel _ _
      · exact working_setPhase (by simp [phase]) .giving
    | cons job rest => exact begin_good good phase popped
  | waiting | working => exact good

/- `app_start`. -/

theorem createMain_books (k : Work Cpu Ctxt Group) (fresh : Ctxt) (freshGroup : Group) :
    ∃ job, (createMain k fresh freshGroup).held = job :: k.held ∧ job.serial = k.born ∧
      (createMain k fresh freshGroup).born = k.born + 1 ∧
        (createMain k fresh freshGroup).jobs = k.jobs ∧
      (createMain k fresh freshGroup).runs = k.runs ∧ (createMain k fresh freshGroup).stack =
        k.stack := by
  rw [createMain, ctxt_create]
  cases k.free_jobs with
  | nil | cons c rest => exact ⟨_,rfl,rfl,rfl,rfl,rfl,rfl⟩

section
variable (good : Good s)
include good

theorem starter_good (can : enabled s (.starter fresh freshGroup))
    (range : InRange w s (.starter fresh freshGroup)) :
    Good (starterStep w s fresh freshGroup) := by
  obtain ⟨free,jobs,_⟩ := range
  rw [starterStep]
  cases starter : s.tokens.starter with
  | taking =>
    simp only [freeSum, starter] at free
    obtain ⟨queues,balanced,flowing,phases⟩ := takeFree_spec good.queues starter free
    refine good_tokens good queues balanced flowing ?_
    intro j working
    rw [phases]
    exact working
  | creating =>
    simp only [enabled, starter, reduceCtorEq, false_or, true_and] at can
    obtain ⟨job,held,serial,born,queued,runs,stack⟩ := createMain_books s.work fresh freshGroup
    refine ⟨createMain_inv good.inv can.1 can.2,
      queues_starter good.queues (by simp [starter]) .dividing,
      good.balanced,?_,?_,serials_hold good.serials held serial born queued runs⟩
    · have before := good.flowing
      simp only [carried_hold _ held stack, flow, starter, starting] at before ⊢
      omega
    · intro j resting
      simp only [stack]
      exact good.idle j resting
  | giving =>
    simp only [jobSum, starter] at jobs
    have left : Queues { s.tokens with starter := .gone } :=
      queues_starter good.queues (by simp [starter]) .gone
    obtain ⟨queues,balanced,flowing,phases⟩ := giveJob_spec left jobs
    refine good_tokens good queues balanced ?_ ?_
    · rw [flowing]
      simp only [flow, starter, starting]
      omega
    intro j working
    obtain same | ⟨asleep,_⟩ := phases j
    · rw [same]
      exact working
    · simp only [working] at asleep
      cases asleep
  | waiting | dividing | gone => exact good

theorem divideMain_good
    (starter : s.tokens.starter = .dividing) (member : job ∈ s.work.held) :
    Good { s with work := queue s.work job, tokens := { s.tokens with starter := .giving } } := by
  refine ⟨queue_inv good.inv member,queues_starter good.queues (by simp [starter]) .giving,
    good.balanced,?_,
    good.idle,serials_queue good.serials member⟩
  have before := good.flowing
  simp only [carried_queue member, flow, starter, starting] at before ⊢
  omega

/- The calls of the jobs. -/

section
variable (top : s.work.stack i = f :: below)
include top

theorem working_top : s.tokens.phase i = .working := by
  by_contra resting
  have empty := good.idle i resting
  rw [top] at empty
  cases empty

theorem good_work
    (inv : Inv k) (queues : Queues t) (balanced : balance t = balance s.tokens)
    (flowing : carried k + flow t = carried s.work + flow s.tokens) (serials : Serials k)
    (stack : k.stack = update s.work.stack i frames) (phases : ∀ j, s.tokens.phase j = .working →
      t.phase j = .working ∨ (j = i ∧ frames = [])) : Good { s with work := k, tokens := t } := by
  refine ⟨inv,queues,balanced.trans good.balanced,flowing.trans good.flowing,?_,serials⟩
  intro j resting
  simp only [stack]
  have working := working_top good top
  by_cases same : j = i
  · rw [same] at resting ⊢
    rw [update_self]
    obtain still | ⟨_,none⟩ := phases i working
    · exact absurd still resting
    · exact none
  rw [update_of_ne same]
  apply good.idle j
  intro busy
  obtain still | ⟨here,_⟩ := phases j busy
  · exact resting still
  · exact same here

theorem good_call
    (inv : Inv k) (same : carried k = carried s.work) (serials : Serials k)
    (stack : k.stack = update s.work.stack i frames) : Good { s with work := k } :=
  good_work good top inv good.queues rfl (by rw [same]) serials stack
    (fun _ working => .inl working)

theorem probe_good (step : f.step = .free)
    (fits : Fits w (max (s.tokens.free_cpu.count - 1) 0)) : Good (capsule_probe w s i f below) := by
  rw [capsule_probe]
  split
  · exact good
  by_cases enough : s.tokens.free_cpu.count - 1 < 0
  · simp only [if_pos (try_take_fails enough)]
    exact good
  have done := try_take_succeeds (w := w) enough
  rw [max_eq_left (by omega)] at fits
  obtain ⟨queues,balanced,flowing⟩ := probeTake_spec good.queues (by omega) fits
  have moved := carried_top
    (t := setStack s.work i ({ f with step := .probing } :: below)) top rfl rfl
  simp only [step, carry] at moved
  simp only [done]
  refine good_work good top (restep_inv good.inv top (by rw [step]; rfl) rfl trivial)
    queues balanced ?_
    good.serials rfl (fun _ working => .inl working)
  omega

theorem call_good (step : f.step = .free)
    {call : Call Ctxt Group} (can : CanCall s.work f call) (range : InRange w s (.call i call)) :
    Good (callStep w s i f below call) := by
  have simple : plain f.step = true := by rw [step]; rfl
  cases call with
  | probe => exact probe_good good top step range.1
  | divide job =>
    have queued := queue_inv good.inv can.1
    have queuedTop : (queue s.work job).stack i = f :: below := top
    refine good_call good top (restep_inv queued queuedTop simple rfl trivial) ?_
      (serials_queue good.serials can.1) rfl
    have moved := carried_top (t := capsule_divide s.work i f below job) queuedTop rfl rfl
    rw [carried_queue can.1] at moved
    simp only [step, carry] at moved
    omega
  | split fresh =>
    refine good_call good top (split_inv good.inv top step can)
      (carried_same top rfl rfl ?_) good.serials rfl
    rw [step]
  | join | finish =>
    refine good_call good top (restep_inv good.inv top simple rfl can)
      (carried_same top rfl rfl ?_) good.serials rfl
    rw [step]
    rfl

end

end

theorem callTokens_spec (queues : Queues t) (working : t.phase i = .working)
    (below : List (Frame Ctxt Group)) (fits : f.step = .dividing → Fits w (t.has_job.count + 1)) :
    Queues (callTokens w t i f below) ∧ balance (callTokens w t i f below) = balance t ∧
      flow (callTokens w t i f below) = flow t + one (f.step = .dividing) ∧
      ∀ j, t.phase j = .working →
        (callTokens w t i f below).phase j = .working ∨
          (j = i ∧ f.step = .leaving ∧ below = []) := by
  by_cases dividing : f.step = .dividing
  · obtain ⟨given,balanced,flowing,phases⟩ := giveJob_spec queues (fits dividing)
    simp only [callTokens, dividing]
    refine ⟨given,balanced,flowing,?_⟩
    intro j busy
    left
    obtain same | ⟨asleep,_⟩ := phases j
    · rw [same]
      exact busy
    · rw [busy] at asleep
      cases asleep
  rw [one, if_neg dividing, Int.add_zero]
  by_cases last : f.step = .leaving ∧ below = []
  · have done : callTokens w t i f below = setPhase t i .giving := by
      simp [callTokens, last.1, last.2]
    rw [done]
    refine ⟨queues_setPhase queues (by simp [working]) .giving,?_,rfl,?_⟩
    · rw [balance_setPhase, working]
      exact Int.sub_add_cancel _ _
    intro j busy
    by_cases same : j = i
    · exact .inr ⟨same,last⟩
    · left
      simp only [setPhase, update_of_ne same]
      exact busy
  · have done : callTokens w t i f below = t := by
      rw [callTokens]
      split
      · exact absurd ‹_› dividing
      · exact if_neg fun none => last ⟨‹_›,none⟩
      · rfl
    rw [done]
    exact ⟨queues,rfl,rfl,fun _ busy => .inl busy⟩

theorem go_good (good : Good s) (can : enabled s (.go i fresh))
    (range : InRange w s (.go i fresh)) :
    Good (goStep w s i fresh) := by
  obtain ⟨_,jobs,join⟩ := range
  rw [goStep]
  cases top : s.work.stack i with
  | nil => exact good
  | cons f below => ?_
  cases group : s.work.group f.job.ctxt with
  | none => simpa only [group] using good
  | some g => ?_
  simp only [enabled, top, List.head?_cons, Option.mem_def, Option.some.injEq,
    exists_eq_left'] at can
  simp only [jobSum, top, List.head?_cons, Option.mem_def, Option.some.injEq,
    exists_eq_left'] at jobs
  have fits : Fits w (joinSum s.work g f.step) := join f (by simp [top]) g (by simp [group])
  have given : f.step = .dividing → Fits w (s.tokens.has_job.count + 1) := by
    intro dividing
    rw [if_pos dividing] at jobs
    exact jobs
  obtain ⟨queues,balanced,flowing,phases⟩ :=
    callTokens_spec good.queues (working_top good top) below given
  obtain ⟨carrying,serials⟩ := callWork_books good.serials top g fresh
  obtain ⟨frames,stack,last⟩ := callWork_stack top g fresh
  simp only [group]
  refine good_work good top (callWork_inv good.inv top group can.2 fits) queues balanced ?_
    serials stack ?_
  · rw [carrying]
    omega
  · intro j working
    obtain still | ⟨here,leaving,none⟩ := phases j working
    · exact .inl still
    · exact .inr ⟨here,(last leaving).trans none⟩

theorem next_good (good : Good s) (can : enabled s a)
    (range : InRange w s a) : Good (next w s a) := by
  cases a with
  | block blocked => exact ⟨good.inv,good.queues,good.balanced,good.flowing,good.idle,good.serials⟩
  | starter fresh freshGroup => exact starter_good good can range
  | divideMain job => exact divideMain_good good can.1 can.2.1
  | runner i => exact runner_good good range
  | call i call =>
    rw [next]
    cases top : s.work.stack i with
    | nil => exact good
    | cons f below =>
      simp only [enabled, top, List.head?_cons, Option.mem_def, Option.some.injEq,
        exists_eq_left'] at can
      exact call_good good top can.1 can.2 range
  | go i fresh => exact go_good good can range

theorem reached_good (reached : Reached (restrict (machine w) (InRange w)) s) : Good s := by
  refine reached_invariant Good (fun _ => good_start) ?_ reached
  intro s a good can
  exact next_good good can.1 can.2

/- What follows. -/

theorem joined_alone (inv : Inv k) (member : f ∈ k.stack i)
    (step : f.step = .joined) (group : k.group f.job.ctxt = some g) :
    (∀ j, j ∈ k.held ∨ j ∈ k.jobs → j.home ≠ some g) ∧
      (∀ x, ∀ y ∈ k.stack x, y.job.home = some g → y.step = .leaving) ∧
      (∀ x, ∀ y ∈ k.stack x, k.group y.job.ctxt = some g → y.step = .leaving ∨ y.step = .joined) ∧
      (k.join g).count = 0 := by
  obtain ⟨_,taken,owner,none⟩ := joined_facts inv member step group
  obtain ⟨jobs,frames⟩ := census_parts (homeOf_nonneg g) (homeIn_nonneg g) k
  have zero : census (homeOf g) (homeIn g) k = 0 := none
  refine ⟨?_,?_,?_,?_⟩
  · intro j present home
    have le := jobs j present
    rw [homeOf, one_pos home] at le
    omega
  · intro x y present home
    by_contra inside
    have le := home_pending present home inside
    omega
  · intro x y present current
    by_contra other
    rw [not_or] at other
    rw [(inv.shape.placed x y present).sound.group] at current
    have untaken := cur_untaken inv present current other.1 other.2
    omega
  · rw [(counter inv.counts (by omega)).1]
    omega

theorem runs_nodup (serials : Serials k) : k.runs.Nodup := by
  apply nodup_of_listed
  intro n
  have whole := serials n
  have held := weigh_nonneg (φ := fun j => one (j.serial = n)) (fun _ => one_nonneg _) k.held
  have jobs := weigh_nonneg (φ := fun j => one (j.serial = n)) (fun _ => one_nonneg _) k.jobs
  have most : one (n < k.born) ≤ 1 := by
    rw [one]
    split <;> decide
  rw [numbered] at whole
  omega

theorem busy_card (t : Tokens Cpu) :
    busy t = (Finset.univ.filter fun i => between (t.phase i) = true).card := by
  simp [busy, one]

theorem begun_card (all : ∀ i, t.phase i ≠ .starting) : begun t = Fintype.card Cpu := by
  have each : ∀ i, one (started (t.phase i) = true) = 1 := by
    intro i
    cases phase : t.phase i with
    | starting => exact absurd phase (all i)
    | taking | waiting | popping | working | giving => rfl
  simp [begun, each]

/-- A join returns when the jobs of its group have ended, no job is run twice, and the units of
    `free_cpu` are shared by the runners and the contexts on their way. -/
theorem fork_join (w : Nat) {s : Pool Cpu Ctxt Group}
    (reached : Reached (restrict (machine w) (InRange w)) s) :
    (∀ i, ∀ f ∈ s.work.stack i, f.step = .joined → ∃ g, s.work.group f.job.ctxt = some g ∧
      (∀ j, j ∈ s.work.held ∨ j ∈ s.work.jobs → j.home ≠ some g) ∧
      (∀ x, ∀ y ∈ s.work.stack x, y.job.home = some g → y.step = .leaving) ∧
      (∀ x, ∀ y ∈ s.work.stack x, s.work.group y.job.ctxt = some g → y.step = .leaving ∨
        y.step = .joined) ∧
      (s.work.join g).count = 0) ∧
    s.work.runs.Nodup ∧
    outstanding s = s.tokens.obtained - s.tokens.taken ∧
    ((∀ i, s.tokens.phase i ≠ .starting) →
      s.tokens.free_cpu.count +
        (Finset.univ.filter fun i => between (s.tokens.phase i) = true).card +
        outstanding s = Fintype.card Cpu) := by
  have good := reached_good reached
  have flowing := good.flowing
  rw [flow] at flowing
  have away : outstanding s = s.tokens.obtained - s.tokens.taken := by
    rw [outstanding]
    omega
  refine ⟨?_,runs_nodup good.serials,away,?_⟩
  · intro i f member step
    have sound := (good.inv.shape.placed i f member).sound
    obtain ⟨g,current⟩ := Option.ne_none_iff_exists'.mp sound.member
    have group : s.work.group f.job.ctxt = some g := sound.group.trans current
    exact ⟨g,group,joined_alone good.inv member step group⟩
  · intro all
    have balanced := good.balanced
    rw [balance, busy_card, begun_card all] at balanced
    omega

end

def booted : Pool Bool Nat Nat where
  work :=
    { jobs := []
      free_jobs := []
      free_groups := []
      group := fun _ => none
      parent := fun _ => none
      join := fun _ => semaphore_init 1
      stack := fun _ => []
      held := []
      born := 0
      runs := [] }
  tokens :=
    { free_cpu := semaphore_init 0
      has_job := semaphore_init 0
      phase := fun _ => .starting
      starter := .taking
      obtained := 0
      taken := 0 }
  probes_blocked := false

def divided : List (Act Bool Nat Nat) :=
  [.runner false, .runner true, .starter 0 0, .starter 0 0, .divideMain ⟨0, none, [0], 0⟩,
    .starter 0 0, .runner false, .runner false, .call false (.split 1), .call false .probe,
    .go false 1, .go false 1, .call false (.divide ⟨1, some 1, [], 1⟩), .go false 0,
    .call false .join, .go false 0, .go false 0, .call false .finish, .go false 0, .go false 0,
    .go false 0]

def joinedPool : Pool Bool Nat Nat := after (restrict (machine 8) (InRange 8)) booted divided

theorem fork_join_recursive :
    (∃ f ∈ joinedPool.work.stack false, f.step = .joined) ∧ joinedPool.work.runs = [1, 0] ∧
      joinedPool.tokens.free_cpu.count +
        (Finset.univ.filter fun i => between (joinedPool.tokens.phase i) = true).card +
        outstanding joinedPool = 2 := by
  have reached : Reached (restrict (machine 8) (InRange 8)) joinedPool :=
    reached_of_allowed _ booted divided
      ⟨⟨rfl,rfl,fun _ => rfl,List.nodup_nil,List.nodup_nil,rfl,rfl⟩,rfl,rfl,
        fun _ => rfl,rfl,rfl,rfl⟩
      (by decide +kernel)
  refine ⟨by decide +kernel,by decide +kernel,?_⟩
  exact (fork_join 8 reached).2.2.2 (by decide +kernel)

end MutekCapsule
