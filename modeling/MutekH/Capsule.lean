import MutekH.Lib.Weights
import MutekH.Semaphore
import Mathlib.Algebra.Ring.Int.Defs
import Mathlib.Data.Fintype.Basic

/-!
Fork/join groups. A runner on each processor takes a token of `has_job` and pops a job; a
job that waits for its group in `capsule_group_join` pops and runs other jobs meanwhile, on
top of itself. A job counts for the group that was current when its context was obtained.
-/
namespace MutekCapsule
open Function LibMachine LibFixedWidth LibWeights MutekSemaphore MutekWaitQueue

/-- A context that has been obtained. `ctxt` is its address. What it counts for, the groups it has
    split off (the innermost first) and its number are history; the main job counts for no group and
    has the group it is given by `app_start`. -/
structure Job (Ctxt Group : Type) where
  ctxt : Ctxt
  home : Option Group
  splits : List Group
  serial : Nat
  deriving DecidableEq

/-- What a running job does next: anything, or the rest of a call. -/
inductive Step (Ctxt : Type) where
  | free
  | probing
  | counting (c : Ctxt)
  | dividing
  | joining
  | polling
  | joined
  | ending
  | leaving
  deriving DecidableEq

structure Frame (Ctxt Group : Type) where
  job : Job Ctxt Group
  step : Step Ctxt
  deriving DecidableEq

inductive Phase where
  | starting
  | taking
  | waiting
  | popping
  | working
  | giving
  deriving DecidableEq

inductive Starter where
  | taking
  | waiting
  | creating
  | dividing
  | giving
  | gone
  deriving DecidableEq

/-- The jobs and the groups. `group` is the field of the contexts, `parent` and `join` are the
    fields of the groups; `stack` are the calls of `do_one_job` of a runner, the innermost first.
    The contexts that have been obtained and not divided yet are `held`. The next number of a job
    and the numbers of the jobs that were run are history. -/
structure Work (Cpu Ctxt Group : Type) where
  jobs : List (Job Ctxt Group)
  free_jobs : List Ctxt
  free_groups : List Group
  group : Ctxt → Option Group
  parent : Group → Option Group
  join : Group → Semaphore Unit
  stack : Cpu → List (Frame Ctxt Group)
  held : List (Job Ctxt Group)
  born : Nat
  runs : List Nat

/-- The tokens. The numbers of contexts obtained and of tokens of `has_job` taken are history. -/
structure Tokens (Cpu : Type) where
  free_cpu : Semaphore Unit
  has_job : Semaphore Cpu
  phase : Cpu → Phase
  starter : Starter
  obtained : Nat
  taken : Nat

structure Pool (Cpu Ctxt Group : Type) where
  work : Work Cpu Ctxt Group
  tokens : Tokens Cpu
  probes_blocked : Bool

section
variable {Cpu Ctxt Group : Type} [DecidableEq Cpu] [DecidableEq Ctxt] [DecidableEq Group]

/- The semaphores of the runners. -/

variable (w : Nat) (t : Tokens Cpu) (s : Pool Cpu Ctxt Group) (k : Work Cpu Ctxt Group) (i : Cpu)
   (f : Frame Ctxt Group) (below : List (Frame Ctxt Group)) (job : Job Ctxt Group) (g : Group)

def setPhase (phase : Phase) : Tokens Cpu :=
  { t with phase := update t.phase i phase }

def giveFree : Tokens Cpu :=
  let (sem, woken) := semaphore_give w t.free_cpu 1
  { t with
    free_cpu := sem
    starter := if woken = [] then t.starter else .creating
    obtained := t.obtained + woken.length }

def giveJob : Tokens Cpu :=
  let (sem, woken) := semaphore_give w t.has_job 1
  { t with
    has_job := sem
    phase := woken.foldl (fun phase x => update phase x.thread .popping) t.phase
    taken := t.taken + woken.length }

def takeJob : Tokens Cpu :=
  match semaphore_take w t.has_job i 1 with
  | (sem, .waits) => setPhase { t with has_job := sem } i .waiting
  | (sem, .returned _) => setPhase { t with has_job := sem, taken := t.taken + 1 } i .popping

def takeFree : Tokens Cpu :=
  match semaphore_take w t.free_cpu () 1 with
  | (sem, .waits) => { t with free_cpu := sem, starter := .waiting }
  | (sem, .returned _) =>
    { t with free_cpu := sem, starter := .creating, obtained := t.obtained + 1 }

/- The jobs and the groups. -/

def setStack (frames : List (Frame Ctxt Group)) : Work Cpu Ctxt Group :=
  { k with stack := update k.stack i frames }

/-- The memory for a context, from the free list or from `mem_alloc`. -/
def ctxt_create (fresh : Ctxt) : Ctxt × Work Cpu Ctxt Group :=
  match k.free_jobs with
  | [] => (fresh, { k with group := update k.group fresh none })
  | c :: rest => (c, { k with free_jobs := rest, group := update k.group c none })

def group_create (fresh : Group) (parent : Option Group) :
    Group × Work Cpu Ctxt Group :=
  let (g, rest) := match k.free_groups with
    | [] => (fresh, [])
    | g :: rest => (g, rest)
  (g, { k with
    free_groups := rest
    join := update k.join g (semaphore_init 1)
    parent := update k.parent g parent })

/-- The context and the group that `app_start` makes for the main job. -/
def createMain (fresh : Ctxt) (freshGroup : Group) : Work Cpu Ctxt Group :=
  let (c, k) := ctxt_create k fresh
  let (g, k) := group_create k freshGroup none
  { k with
    group := update k.group c (some g)
    held := ⟨c, none, [g], k.born⟩ :: k.held
    born := k.born + 1 }

def queue : Work Cpu Ctxt Group :=
  { k with held := k.held.erase job, jobs := job :: k.jobs }

def begin (rest : List (Job Ctxt Group))
    (below : List (Frame Ctxt Group)) : Work Cpu Ctxt Group :=
  setStack { k with jobs := rest, runs := job.serial :: k.runs } i (⟨job, .free⟩ :: below)

/-- The context of `capsule_probe`, before it counts. -/
def createJob (fresh : Ctxt) : Work Cpu Ctxt Group :=
  let (c, k) := ctxt_create k fresh
  setStack { k with group := update k.group c (some g) } i ({ f with step := .counting c } :: below)

def giveJoin (value : Int) : Work Cpu Ctxt Group :=
  { k with join := update k.join g (semaphore_give w (k.join g) value).1 }

/-- The end of `capsule_probe`: the context counts for the group, and is returned. -/
def countJob (c : Ctxt) : Work Cpu Ctxt Group :=
  let k := giveJoin w k g (-1)
  setStack { k with held := ⟨c, some g, [], k.born⟩ :: k.held, born := k.born + 1 } i
    ({ f with step := .free } :: below)

def capsule_group_split (fresh : Group) : Work Cpu Ctxt Group :=
  let (g, k) := group_create k fresh (k.group f.job.ctxt)
  setStack { k with group := update k.group f.job.ctxt (some g) } i
    (⟨{ f.job with splits := g :: f.job.splits }, .free⟩ :: below)

def tryJoin : Work Cpu Ctxt Group :=
  let (sem, error) := semaphore_try_take w (k.join g) 1
  if error ≠ 0 then setStack k i ({ f with step := .polling } :: below)
  else setStack { k with join := update k.join g sem } i ({ f with step := .joined } :: below)

def poll :
    Work Cpu Ctxt Group :=
  match k.jobs with
  | [] => setStack k i ({ f with step := .joining } :: below)
  | job :: rest => begin k i job rest ({ f with step := .joining } :: below)

/-- The end of `capsule_group_join`: a group that has a parent is released, the counter of the other
    one is restored. -/
def leaveGroup : Work Cpu Ctxt Group :=
  match k.parent g with
  | some parent =>
    setStack
      { k with
        free_groups := g :: k.free_groups
        group := update k.group f.job.ctxt (some parent) } i
      (⟨{ f.job with splits := f.job.splits.tail }, .free⟩ :: below)
  | none => setStack (giveJoin w k g 1) i ({ f with step := .free } :: below)

/-- The next step of the call a job is in, `g` being its current group. -/
def callWork (fresh : Ctxt) : Work Cpu Ctxt Group :=
  match f.step with
  | .free => k
  | .probing => createJob k i f below g fresh
  | .counting c => countJob w k i f below g c
  | .dividing => setStack k i ({ f with step := .free } :: below)
  | .joining => tryJoin w k i f below g
  | .polling => poll k i f below
  | .joined => leaveGroup w k i f below g
  | .ending => setStack (giveJoin w k g 1) i ({ f with step := .leaving } :: below)
  | .leaving => setStack { k with free_jobs := f.job.ctxt :: k.free_jobs } i below

/-- What it does to the tokens: `capsule_divide` gives one, and the runner goes on after its last
    job. -/
def callTokens :
    Tokens Cpu :=
  match f.step with
  | .dividing => giveJob w t
  | .leaving => if below = [] then setPhase t i .giving else t
  | _ => t

/- The processes. -/

def runnerStep : Pool Cpu Ctxt Group :=
  match s.tokens.phase i with
  | .starting => { s with tokens := setPhase (giveFree w s.tokens) i .taking }
  | .taking => { s with tokens := takeJob w s.tokens i }
  | .popping =>
    match s.work.jobs with
    | [] => { s with tokens := setPhase s.tokens i .giving }
    | job :: rest =>
      { s with work := begin s.work i job rest [], tokens := setPhase s.tokens i .working }
  | .giving => { s with tokens := setPhase (giveFree w s.tokens) i .taking }
  | .waiting => s
  | .working => s

def starterStep (fresh : Ctxt) (freshGroup : Group) : Pool Cpu Ctxt Group :=
  match s.tokens.starter with
  | .taking => { s with tokens := takeFree w s.tokens }
  | .creating =>
    { s with work := createMain s.work fresh freshGroup, tokens := { s.tokens with
      starter := .dividing } }
  | .giving => { s with tokens := giveJob w { s.tokens with starter := .gone } }
  | .waiting => s
  | .dividing => s
  | .gone => s

def capsule_probe : Pool Cpu Ctxt Group :=
  if s.probes_blocked then s
  else
    let (sem, error) := semaphore_try_take w s.tokens.free_cpu 1
    if error ≠ 0 then s
    else
      { s with
        work := setStack s.work i ({ f with step := .probing } :: below)
        tokens := { s.tokens with free_cpu := sem, obtained := s.tokens.obtained + 1 } }

def capsule_divide : Work Cpu Ctxt Group :=
  setStack (queue k job) i ({ f with step := .dividing } :: below)

inductive Call (Ctxt Group : Type) where
  | probe
  | divide (job : Job Ctxt Group)
  | split (fresh : Group)
  | join
  | finish

/-- `block` is `capsule_sys_block` or `capsule_sys_unblock`; `divideMain` is the `capsule_divide` of
    `app_start`; `go` is the next step of the call the innermost job of a runner is in. -/
inductive Act (Cpu Ctxt Group : Type) where
  | block (blocked : Bool)
  | starter (fresh : Ctxt) (freshGroup : Group)
  | divideMain (job : Job Ctxt Group)
  | runner (i : Cpu)
  | call (i : Cpu) (call : Call Ctxt Group)
  | go (i : Cpu) (fresh : Ctxt)

def callStep :
    Call Ctxt Group → Pool Cpu Ctxt Group
  | .probe => capsule_probe w s i f below
  | .divide job => { s with work := capsule_divide s.work i f below job }
  | .split fresh => { s with work := capsule_group_split s.work i f below fresh }
  | .join => { s with work := setStack s.work i ({ f with step := .joining } :: below) }
  | .finish => { s with work := setStack s.work i ({ f with step := .ending } :: below) }

def goStep (fresh : Ctxt) : Pool Cpu Ctxt Group :=
  match s.work.stack i with
  | [] => s
  | f :: below =>
    match s.work.group f.job.ctxt with
    | none => s
    | some g =>
      { s with
        work := callWork w s.work i f below g fresh
        tokens := callTokens w s.tokens i f below }

def next : Act Cpu Ctxt Group → Pool Cpu Ctxt Group
  | .block blocked => { s with probes_blocked := blocked }
  | .starter fresh freshGroup => starterStep w s fresh freshGroup
  | .divideMain job =>
    { s with work := queue s.work job, tokens := { s.tokens with starter := .giving } }
  | .runner i => runnerStep w s i
  | .call i call =>
    match s.work.stack i with
    | [] => s
    | f :: below => callStep w s i f below call
  | .go i fresh => goStep w s i fresh

/- What is where. -/

variable [Fintype Cpu]

def one (p : Prop) [Decidable p] : Int := if p then 1 else 0

/-- The sum of a weight over the jobs that wait and of another over the calls of `do_one_job`. -/
def census (ω : Job Ctxt Group → Int) (ν : Frame Ctxt Group → Int) (k : Work Cpu Ctxt Group) :
    Int :=
  weigh ω k.held + weigh ω k.jobs + tally ν k.stack

def ctxtOf (c : Ctxt) (j : Job Ctxt Group) : Int := one (j.ctxt = c)

def ctxtIn (c : Ctxt) (f : Frame Ctxt Group) : Int :=
  one (f.job.ctxt = c) + one (f.step = .counting c)

def inUse (k : Work Cpu Ctxt Group) (c : Ctxt) : Int := census (ctxtOf c) (ctxtIn c) k

def splitOf (g : Group) (j : Job Ctxt Group) : Int := weigh (fun x => one (x = g)) j.splits

def owned (k : Work Cpu Ctxt Group) (g : Group) : Int :=
  census (splitOf g) (fun f => splitOf g f.job) k

def homeOf (g : Group) (j : Job Ctxt Group) : Int := one (j.home = some g)

def homeIn (g : Group) (f : Frame Ctxt Group) : Int :=
  if f.step = .leaving then 0 else homeOf g f.job

def pending (k : Work Cpu Ctxt Group) (g : Group) : Int := census (homeOf g) (homeIn g) k

def joinedIn (g : Group) (f : Frame Ctxt Group) : Int :=
  if f.step = .joined then one (f.job.splits.head? = some g) else 0

def took (k : Work Cpu Ctxt Group) (g : Group) : Int := tally (joinedIn g) k.stack

/-- `mem_alloc` gives memory that is not in use. -/
def FreshCtxt (k : Work Cpu Ctxt Group) (c : Ctxt) : Prop := k.free_jobs = [] → inUse k c = 0

def FreshGroup (k : Work Cpu Ctxt Group) (g : Group) : Prop := k.free_groups = [] → owned k g = 0

instance (k : Work Cpu Ctxt Group) (c : Ctxt) : Decidable (FreshCtxt k c) :=
  inferInstanceAs (Decidable (_ → _))

instance (k : Work Cpu Ctxt Group) (g : Group) : Decidable (FreshGroup k g) :=
  inferInstanceAs (Decidable (_ → _))

/-- A job divides the contexts obtained by probes, joins groups it has split off and ends when it
    has joined all of them. -/
def CanCall (k : Work Cpu Ctxt Group) (f : Frame Ctxt Group) : Call Ctxt Group → Prop
  | .probe => True
  | .divide job => job ∈ k.held ∧ job.home ≠ none
  | .split fresh => FreshGroup k fresh
  | .join => f.job.splits ≠ []
  | .finish => f.job.splits = []

instance (k : Work Cpu Ctxt Group) (f : Frame Ctxt Group) (call : Call Ctxt Group) :
    Decidable (CanCall k f call) :=
  match call with
  | .probe => isTrue trivial
  | .divide _ => instDecidableAnd
  | .split fresh => inferInstanceAs (Decidable (FreshGroup k fresh))
  | .join => inferInstanceAs (Decidable (_ ≠ _))
  | .finish => inferInstanceAs (Decidable (_ = _))

def enabled (s : Pool Cpu Ctxt Group) : Act Cpu Ctxt Group → Prop
  | .block _ => True
  | .starter fresh freshGroup =>
    s.tokens.starter = .taking ∨ s.tokens.starter = .giving ∨
      (s.tokens.starter = .creating ∧ FreshCtxt s.work fresh ∧ FreshGroup s.work freshGroup)
  | .divideMain job => s.tokens.starter = .dividing ∧ job ∈ s.work.held ∧ job.home = none
  | .runner i => s.tokens.phase i ≠ .waiting ∧ s.tokens.phase i ≠ .working
  | .call i call => ∃ f ∈ (s.work.stack i).head?, f.step = .free ∧ CanCall s.work f call
  | .go i fresh =>
    ∃ f ∈ (s.work.stack i).head?, f.step ≠ .free ∧ (f.step = .probing → FreshCtxt s.work fresh)

instance (s : Pool Cpu Ctxt Group) (a : Act Cpu Ctxt Group) : Decidable (enabled s a) :=
  match a with
  | .block _ => isTrue trivial
  | .starter _ _ => instDecidableOr
  | .divideMain _ => instDecidableAnd
  | .runner _ => instDecidableAnd
  | .call i call =>
    inferInstanceAs (Decidable (∃ f ∈ (s.work.stack i).head?, f.step = .free ∧
      CanCall s.work f call))
  | .go i fresh =>
    inferInstanceAs (Decidable (∃ f ∈ (s.work.stack i).head?,
      f.step ≠ .free ∧ (f.step = .probing → FreshCtxt s.work fresh)))

def Boot (s : Pool Cpu Ctxt Group) : Prop :=
  (s.work.jobs = [] ∧ s.work.held = [] ∧ (∀ i, s.work.stack i = []) ∧ s.work.free_jobs.Nodup ∧
    s.work.free_groups.Nodup ∧ s.work.born = 0 ∧ s.work.runs = []) ∧
  s.tokens.free_cpu = semaphore_init 0 ∧ s.tokens.has_job = semaphore_init 0 ∧
  (∀ i, s.tokens.phase i = .starting) ∧ s.tokens.starter = .taking ∧ s.tokens.obtained = 0 ∧
    s.tokens.taken = 0

def machine (w : Nat) : Machine (Pool Cpu Ctxt Group) (Act Cpu Ctxt Group) where
  start := Boot
  enabled := enabled
  next := next w

instance (w : Nat) (s : Pool Cpu Ctxt Group) (a : Act Cpu Ctxt Group) :
    Decidable ((machine w).enabled s a) :=
  inferInstanceAs (Decidable (enabled s a))

/- The counters stay in range. -/

/-- The value a step gives to the counter of a group. -/
def joinSum (k : Work Cpu Ctxt Group) (g : Group) : Step Ctxt → Int
  | .counting _ => (k.join g).count - 1
  | .joining => max ((k.join g).count - 1) 0
  | .joined => if k.parent g = none then (k.join g).count + 1 else 0
  | .ending => (k.join g).count + 1
  | _ => 0

def freeSum (t : Tokens Cpu) : Act Cpu Ctxt Group → Int
  | .starter _ _ => if t.starter = .taking then t.free_cpu.count - 1 else 0
  | .runner i => if t.phase i = .starting ∨ t.phase i = .giving then t.free_cpu.count + 1 else 0
  | .call _ .probe => max (t.free_cpu.count - 1) 0
  | _ => 0

def jobSum (s : Pool Cpu Ctxt Group) : Act Cpu Ctxt Group → Int
  | .starter _ _ => if s.tokens.starter = .giving then s.tokens.has_job.count + 1 else 0
  | .runner i => if s.tokens.phase i = .taking then s.tokens.has_job.count - 1 else 0
  | .go i _ =>
    if ∃ f ∈ (s.work.stack i).head?, f.step = .dividing then s.tokens.has_job.count + 1 else 0
  | _ => 0

def JoinFits (w : Nat) (s : Pool Cpu Ctxt Group) : Act Cpu Ctxt Group → Prop
  | .go i _ =>
    ∀ f ∈ (s.work.stack i).head?, ∀ g ∈ s.work.group f.job.ctxt, Fits w (joinSum s.work g f.step)
  | _ => True

instance (w : Nat) (s : Pool Cpu Ctxt Group) (a : Act Cpu Ctxt Group) :
    Decidable (JoinFits w s a) :=
  match a with
  | .go i _ =>
    inferInstanceAs (Decidable (∀ f ∈ (s.work.stack i).head?, ∀ g ∈ s.work.group f.job.ctxt,
      Fits w (joinSum s.work g f.step)))
  | .block _ | .starter _ _ | .divideMain _ | .runner _ | .call _ _ => isTrue trivial

/-- No counter leaves the range of `semaphore_count_t`. -/
def InRange (w : Nat) (s : Pool Cpu Ctxt Group) (a : Act Cpu Ctxt Group) : Prop :=
  Fits w (freeSum s.tokens a) ∧ Fits w (jobSum s a) ∧ JoinFits w s a

instance (w : Nat) (s : Pool Cpu Ctxt Group) (a : Act Cpu Ctxt Group) : Decidable (InRange w s a) :=
  instDecidableAnd

end

end MutekCapsule
