import MutekH.Capsule

/-!
The counter of a group. It starts at 1, each context obtained for the group takes one unit
and each job that ends gives one back, so it is 1 again exactly when no job counts for the
group any more; only then can the join of the job that has split the group off go on.
-/
namespace MutekCapsule
open Function LibMachine LibFixedWidth LibWeights MutekSemaphore

section
set_option linter.unusedSectionVars false
variable {Cpu Ctxt Group : Type} [DecidableEq Cpu] [DecidableEq Ctxt] [DecidableEq Group]
  [Fintype Cpu]

/- The sums as the stacks change. -/

theorem one_nonneg (p : Prop) [Decidable p] : 0 ≤ one p := by
  rw [one]
  split <;> decide

theorem one_pos [Decidable p] (holds : p) : one p = 1 := if_pos holds

theorem census_setStack (ω : Job Ctxt Group → Int) (ν : Frame Ctxt Group → Int)
    (k : Work Cpu Ctxt Group) (i : Cpu) (frames : List (Frame Ctxt Group)) :
    census ω ν (setStack k i frames) = census ω ν k - weigh ν (k.stack i) + weigh ν frames := by
  simp only [census, setStack, tally_update]
  omega

variable {k : Work Cpu Ctxt Group} {i : Cpu} {f : Frame Ctxt Group}
  {below : List (Frame Ctxt Group)}

theorem tally_top (φ : Frame Ctxt Group → Int) (top : k.stack i = f :: below)
    (new : Frame Ctxt Group) :
    tally φ (update k.stack i (new :: below)) = tally φ k.stack - φ f + φ new := by
  rw [tally_update, top, weigh_cons, weigh_cons]
  omega

theorem census_top (ω : Job Ctxt Group → Int) (ν : Frame Ctxt Group → Int)
    (top : k.stack i = f :: below) (new : Frame Ctxt Group) :
    census ω ν (setStack k i (new :: below)) = census ω ν k - ν f + ν new := by
  rw [census_setStack, top, weigh_cons, weigh_cons]
  omega

theorem census_parts (jobs : ∀ j, 0 ≤ ω j) (frames : ∀ f, 0 ≤ ν f) (k : Work Cpu Ctxt Group) :
    (∀ j, j ∈ k.held ∨ j ∈ k.jobs → ω j ≤ census ω ν k) ∧
      ∀ i, ∀ f ∈ k.stack i, ν f ≤ census ω ν k := by
  have held := weigh_nonneg jobs k.held
  have queued := weigh_nonneg jobs k.jobs
  have running := tally_nonneg frames k.stack
  rw [census]
  refine ⟨?_,?_⟩
  · intro j present
    obtain member | member := present
    · have le := weigh_mem jobs member
      omega
    · have le := weigh_mem jobs member
      omega
  · intro i f member
    have le := weigh_mem frames member
    have more := weigh_le_tally frames k.stack i
    omega

theorem ctxtOf_nonneg (c : Ctxt) (j : Job Ctxt Group) : 0 ≤ ctxtOf c j := one_nonneg _

theorem ctxtIn_nonneg (c : Ctxt) (f : Frame Ctxt Group) : 0 ≤ ctxtIn c f :=
  Int.add_nonneg (one_nonneg _) (one_nonneg _)

theorem splitOf_nonneg (g : Group) (j : Job Ctxt Group) : 0 ≤ splitOf g j :=
  weigh_nonneg (fun _ => one_nonneg _) _

theorem homeOf_nonneg (g : Group) (j : Job Ctxt Group) : 0 ≤ homeOf g j := one_nonneg _

theorem homeIn_nonneg (g : Group) (f : Frame Ctxt Group) : 0 ≤ homeIn g f := by
  rw [homeIn]
  split
  · decide
  · exact homeOf_nonneg g f.job

theorem joinedIn_nonneg (g : Group) (f : Frame Ctxt Group) : 0 ≤ joinedIn g f := by
  rw [joinedIn]
  split
  · exact one_nonneg _
  · decide

theorem census_nonneg (jobs : ∀ j, 0 ≤ ω j)
    (frames : ∀ f, 0 ≤ ν f) (k : Work Cpu Ctxt Group) : 0 ≤ census ω ν k := by
  have held := weigh_nonneg jobs k.held
  have queued := weigh_nonneg jobs k.jobs
  have running := tally_nonneg frames k.stack
  rw [census]
  omega

theorem unused (none : inUse k c = 0) : (∀ j, j ∈ k.held ∨ j ∈ k.jobs → j.ctxt ≠ c) ∧
      ∀ i, ∀ f ∈ k.stack i, f.job.ctxt ≠ c ∧ f.step ≠ .counting c := by
  obtain ⟨jobs,frames⟩ := census_parts (ctxtOf_nonneg c) (ctxtIn_nonneg c) k
  have zero : census (ctxtOf c) (ctxtIn c) k = 0 := none
  refine ⟨?_,?_⟩
  · intro j present same
    have le := jobs j present
    rw [ctxtOf, one_pos same] at le
    omega
  intro i f member
  have le := frames i f member
  rw [ctxtIn] at le
  have first := one_nonneg (f.job.ctxt = c)
  have second := one_nonneg (f.step = .counting c)
  refine ⟨?_,?_⟩
  · intro same
    rw [one_pos same] at le
    omega
  · intro same
    rw [one_pos same] at le
    omega

variable {g : Group} {j : Job Ctxt Group}

theorem splitOf_pos (member : g ∈ j.splits) : 1 ≤ splitOf g j := by
  have le := weigh_mem (φ := fun x => one (x = g)) (fun _ => one_nonneg _) member
  rwa [one_pos rfl] at le

theorem unowned (none : owned k g = 0) :
    (∀ j, j ∈ k.held ∨ j ∈ k.jobs → g ∉ j.splits) ∧ ∀ i, ∀ f ∈ k.stack i, g ∉ f.job.splits := by
  obtain ⟨jobs,frames⟩ := census_parts (splitOf_nonneg g) (fun f => splitOf_nonneg g f.job) k
  have zero : census (splitOf g) (fun f => splitOf g f.job) k = 0 := none
  refine ⟨?_,?_⟩
  · intro j present member
    have le := jobs j present
    have pos := splitOf_pos member
    omega
  · intro i f present member
    have le := frames i f present
    have pos := splitOf_pos member
    omega

/- The shape of the jobs. -/

def cur (j : Job Ctxt Group) : Option Group := j.splits.head?.or j.home

/-- The parents of the groups a job has split off lead to the group it counts for. -/
def Line (parent : Group → Option Group) (home : Option Group) : List Group → Prop
  | [] => True
  | g :: rest => parent g = rest.head?.or home ∧ Line parent home rest

structure Sound (group : Ctxt → Option Group) (parent : Group → Option Group) (j : Job Ctxt Group) :
    Prop where
  group : group j.ctxt = cur j
  member : cur j ≠ none
  line : Line parent j.home j.splits

/-- A job that joins has split a group off; a job that ends has joined all of them. -/
def Fitting (splits : List Group) : Step Ctxt → Prop
  | .joining | .polling | .joined => splits ≠ []
  | .ending | .leaving => splits = []
  | _ => True

structure Placed (group : Ctxt → Option Group) (parent : Group → Option Group)
    (f : Frame Ctxt Group) : Prop where
  sound : Sound group parent f.job
  fitting : Fitting f.job.splits f.step
  made : ∀ c, f.step = .counting c → group c = cur f.job

def listed {α : Type} [DecidableEq α] (x : α) (xs : List α) : Int := weigh (fun y => one (y = x)) xs

structure Shape (k : Work Cpu Ctxt Group) : Prop where
  places : ∀ c, inUse k c + listed c k.free_jobs ≤ 1
  owners : ∀ g, owned k g + listed g k.free_groups ≤ 1
  waiting : ∀ j, j ∈ k.held ∨ j ∈ k.jobs → Sound k.group k.parent j
  placed : ∀ i, ∀ f ∈ k.stack i, Placed k.group k.parent f
  below : ∀ i, ∀ f ∈ (k.stack i).tail, f.step = .joining

structure Counts (k : Work Cpu Ctxt Group) : Prop where
  count : ∀ g, 0 < owned k g → k.join g = ⟨1 - pending k g - took k g, []⟩
  homes : ∀ g, 0 < pending k g → 0 < owned k g
  alone : ∀ g, 0 < took k g → pending k g = 0

theorem listed_nonneg {α : Type} [DecidableEq α] (x : α) (xs : List α) : 0 ≤ listed x xs :=
  weigh_nonneg (fun _ => one_nonneg _) xs

theorem setStack_mem {j : Cpu} {frames : List (Frame Ctxt Group)}
    {P : List (Frame Ctxt Group) → Prop} (new : P frames) (old : P (k.stack j)) :
    P ((setStack k i frames).stack j) := by
  simp only [setStack]
  by_cases same : j = i
  · rw [same, update_self]
    exact new
  · rw [update_of_ne same]
    exact old

theorem shape_setStack (shape : Shape k) (i : Cpu) {frames : List (Frame Ctxt Group)}
    (places : ∀ c, weigh (ctxtIn c) frames ≤ weigh (ctxtIn c) (k.stack i))
    (owners : ∀ g, weigh (fun f => splitOf g f.job) frames ≤
      weigh (fun f => splitOf g f.job) (k.stack i))
    (placed : ∀ f ∈ frames, Placed k.group k.parent f) (below : ∀ f ∈ frames.tail,
      f.step = .joining) :
    Shape (setStack k i frames) := by
  refine ⟨?_,?_,shape.waiting,?_,?_⟩
  · intro c
    have le := shape.places c
    have less := places c
    rw [inUse, census_setStack]
    rw [inUse] at le
    simp only [setStack]
    omega
  · intro g
    have le := shape.owners g
    have less := owners g
    rw [owned, census_setStack]
    rw [owned] at le
    simp only [setStack]
    omega
  · intro j
    exact setStack_mem (P := fun frames => ∀ f ∈ frames, Placed k.group k.parent f) placed
      (shape.placed j)
  · intro j
    exact setStack_mem (P := fun frames => ∀ f ∈ frames.tail, f.step = .joining) below
      (shape.below j)

theorem shape_join (shape : Shape k) (join : Group → Semaphore Unit) :
    Shape { k with join := join } :=
  ⟨shape.places, shape.owners, shape.waiting, shape.placed, shape.below⟩

theorem shape_restep (shape : Shape k) (top : k.stack i = f :: below) {step : Step Ctxt}
    (before : ∀ c, f.step ≠ .counting c) (after : ∀ c, step ≠ .counting c)
    (fitting : Fitting f.job.splits step) :
    Shape (setStack k i ({ f with step := step } :: below)) := by
  have placed := shape.placed i f (by simp [top])
  apply shape_setStack shape
  · intro c
    have weight : ctxtIn c { f with step := step } = ctxtIn c f := by
      simp [ctxtIn, one, before c, after c]
    rw [top, weigh_cons, weigh_cons, weight]
  · intro g
    rw [top, weigh_cons, weigh_cons]
  · intro x member
    cases member with
    | head => exact ⟨placed.sound,fitting,fun c counting => absurd counting (after c)⟩
    | tail _ later => exact shape.placed i x (by rw [top]; exact .tail f later)
  · intro x member
    exact shape.below i x (by rw [top]; exact member)

theorem counts_congr {t : Work Cpu Ctxt Group} (counts : Counts k) (join : t.join = k.join)
    (own : ∀ g, owned t g = owned k g) (pend : ∀ g, pending t g = pending k g)
    (took : ∀ g, took t g = took k g) :
    Counts t := by
  refine ⟨?_,?_,?_⟩
  · intro g
    rw [own, pend, took, join]
    exact counts.count g
  · intro g
    rw [own, pend]
    exact counts.homes g
  · intro g
    rw [took, pend]
    exact counts.alone g

def plain : Step Ctxt → Bool
  | .counting _ | .joined | .leaving => false
  | _ => true

theorem plain_ne {step : Step Ctxt} (simple : plain step = true) :
    (∀ c, step ≠ .counting c) ∧ step ≠ .leaving ∧ step ≠ .joined := by
  refine ⟨?_,?_,?_⟩
  · intro c equal
    rw [equal] at simple
    cases simple
  · intro equal
    rw [equal] at simple
    cases simple
  · intro equal
    rw [equal] at simple
    cases simple

structure Inv (k : Work Cpu Ctxt Group) : Prop where
  shape : Shape k
  counts : Counts k

attribute [local simp] homeIn

theorem restep_inv (inv : Inv k) (top : k.stack i = f :: below) {step : Step Ctxt}
    (before : plain f.step = true) (after : plain step = true)
    (fitting : Fitting f.job.splits step) :
    Inv (setStack k i ({ f with step := step } :: below)) := by
  obtain ⟨notCounting,notLeaving,notJoined⟩ := plain_ne before
  obtain ⟨notCounting',notLeaving',notJoined'⟩ := plain_ne after
  refine ⟨shape_restep inv.shape top notCounting notCounting' fitting,?_⟩
  refine counts_congr inv.counts rfl ?_ ?_ ?_
  · intro g
    rw [owned, census_top _ _ top]
    exact Int.sub_add_cancel _ _
  · intro g
    have weight : homeIn g { f with step := step } = homeIn g f := by simp [notLeaving, notLeaving']
    rw [pending, census_top _ _ top, weight]
    exact Int.sub_add_cancel _ _
  · intro g
    have weight : joinedIn g { f with step := step } = joinedIn g f := by simp [joinedIn, notJoined,
      notJoined']
    rw [took, setStack, tally_top _ top, weight]
    exact Int.sub_add_cancel _ _

theorem queue_inv (inv : Inv k) {job : Job Ctxt Group} (member : job ∈ k.held) :
    Inv (queue k job) := by
  have same : ∀ ω ν, census ω ν (queue k job) = census ω ν k := by
    intro ω ν
    simp only [census, queue, weigh_erase ω member, weigh_cons]
    omega
  refine ⟨⟨?_,?_,?_,inv.shape.placed,inv.shape.below⟩,?_⟩
  · intro c
    rw [inUse, same]
    exact inv.shape.places c
  · intro g
    rw [owned, same]
    exact inv.shape.owners g
  · intro j present
    apply inv.shape.waiting
    obtain later | queued := present
    · exact .inl (List.mem_of_mem_erase later)
    · cases queued with
      | head => exact .inl member
      | tail _ before => exact .inr before
  · exact counts_congr inv.counts rfl (fun g => same _ _) (fun g => same _ _) (fun g => rfl)

attribute [local simp] joinedIn

theorem begin_inv (inv : Inv k) {job : Job Ctxt Group} {rest : List (Job Ctxt Group)}
    (popped : k.jobs = job :: rest) (joining : ∀ f ∈ k.stack i, f.step = .joining) :
    Inv (begin k i job rest (k.stack i)) := by
  have sound := inv.shape.waiting job (.inr (by simp [popped]))
  have moved : ∀ ω ν, ν ⟨job,.free⟩ = ω job →
      census ω ν (begin k i job rest (k.stack i)) = census ω ν k := by
    intro ω ν same
    rw [begin, census_setStack, weigh_cons, same]
    simp only [census, popped, weigh_cons]
    omega
  have own : ∀ g, owned (begin k i job rest (k.stack i)) g = owned k g := fun g => moved _ _ rfl
  refine ⟨⟨?_,?_,?_,?_,?_⟩,?_⟩
  · intro c
    have same : inUse (begin k i job rest (k.stack i)) c = inUse k c :=
      moved _ _ (by simp [ctxtIn, ctxtOf, one])
    rw [same]
    exact inv.shape.places c
  · intro g
    rw [own]
    exact inv.shape.owners g
  · intro j present
    apply inv.shape.waiting
    obtain held | queued := present
    · exact .inl held
    · exact .inr (by rw [popped]; exact .tail job queued)
  · intro j
    refine setStack_mem (P := fun frames => ∀ f ∈ frames, Placed k.group k.parent f) ?_
      (inv.shape.placed j)
    intro f member
    cases member with
    | head => exact ⟨sound,trivial,by intro c counting; cases counting⟩
    | tail _ later => exact inv.shape.placed i f later
  · intro j
    exact setStack_mem (P := fun frames => ∀ f ∈ frames.tail, f.step = .joining) joining
      (inv.shape.below j)
  · refine counts_congr inv.counts rfl own (fun g => moved _ _ (by simp)) ?_
    intro g
    simp [took, begin, setStack, tally_update]

/- Contexts and groups that are set. -/

variable {group : Ctxt → Option Group} {parent : Group → Option Group}

theorem sound_update (sound : Sound group parent j) (other : j.ctxt ≠ c) (v : Option Group) :
    Sound (update group c v) parent j :=
  ⟨by rw [update_of_ne other]; exact sound.group, sound.member, sound.line⟩

theorem placed_update (placed : Placed group parent f)
    (other : f.job.ctxt ≠ c ∧ f.step ≠ .counting c) (v : Option Group) :
    Placed (update group c v) parent f := by
  refine ⟨sound_update placed.sound other.1 v,placed.fitting,?_⟩
  intro x counting
  have away : x ≠ c := by
    intro same
    rw [same] at counting
    exact other.2 counting
  rw [update_of_ne away]
  exact placed.made x counting

theorem line_update (v : Option Group) :
    ∀ {splits : List Group}, Line parent home splits → g ∉ splits →
      Line (update parent g v) home splits := by
  intro splits
  induction splits with
  | nil => intro _ _; trivial
  | cons x rest ih => ?_
  intro line away
  have other : x ≠ g := by
    intro same
    exact away (by simp [same])
  refine ⟨?_,ih line.2 (fun member => away (.tail x member))⟩
  rw [update_of_ne other]
  exact line.1

theorem sound_parent (sound : Sound group parent j) (away : g ∉ j.splits) (v : Option Group) :
    Sound group (update parent g v) j :=
  ⟨sound.group, sound.member, line_update v sound.line away⟩

theorem placed_parent (placed : Placed group parent f) (away : g ∉ f.job.splits)
    (v : Option Group) :
    Placed group (update parent g v) f :=
  ⟨sound_parent placed.sound away v, placed.fitting, placed.made⟩

theorem elsewhere (shape : Shape k) (top : k.stack i = f :: below) :
    (∀ j, j ∈ k.held ∨ j ∈ k.jobs → j.ctxt ≠ f.job.ctxt) ∧
      ∀ x, ∀ y ∈ (setStack k i below).stack x, y.job.ctxt ≠ f.job.ctxt ∧
        y.step ≠ .counting f.job.ctxt := by
  have le := shape.places f.job.ctxt
  have free := listed_nonneg f.job.ctxt k.free_jobs
  have own : 1 ≤ ctxtIn f.job.ctxt f := by
    have counting := one_nonneg (f.step = .counting f.job.ctxt)
    rw [ctxtIn, one_pos rfl]
    omega
  have dropped : inUse (setStack k i below) f.job.ctxt =
      inUse k f.job.ctxt - ctxtIn f.job.ctxt f := by
    rw [inUse, census_setStack, top, weigh_cons, inUse]
    omega
  have some : 0 ≤ inUse (setStack k i below) f.job.ctxt :=
    census_nonneg (ctxtOf_nonneg f.job.ctxt) (ctxtIn_nonneg f.job.ctxt) _
  exact unused (k := setStack k i below) (by omega)

theorem free_unused {α : Type} [DecidableEq α] {sum : α → Int} (least : ∀ x, 0 ≤ sum x)
    {free rest : List α} {c : α} (le : ∀ x, sum x + listed x free ≤ 1)
    (taken : free = c :: rest ∨ (free = [] ∧ rest = [] ∧ sum c = 0)) :
    sum c = 0 ∧ ∀ x, sum x + one (c = x) + listed x rest ≤ 1 := by
  obtain first | ⟨empty,last,zero⟩ := taken
  · have bound : ∀ x, sum x + one (c = x) + listed x rest ≤ 1 := by
      intro x
      have old := le x
      rw [first, listed, weigh_cons] at old
      rw [listed]
      omega
    have own := bound c
    have more := listed_nonneg c rest
    have used := least c
    rw [one_pos rfl] at own
    exact ⟨by omega,bound⟩
  · refine ⟨zero,?_⟩
    intro x
    have old := le x
    rw [empty] at old
    rw [last]
    by_cases same : c = x
    · rw [← same, zero, one_pos rfl, listed, weigh_nil]
      decide
    · rw [one, if_neg same]
      omega

theorem ctxt_create_spec (places : ∀ c, inUse k c + listed c k.free_jobs ≤ 1)
    {fresh : Ctxt} (unknown : FreshCtxt k fresh) :
    ∃ c rest, ctxt_create k fresh =
      (c, { k with free_jobs := rest, group := update k.group c none }) ∧
      inUse k c = 0 ∧ ∀ x, inUse k x + one (c = x) + listed x rest ≤ 1 := by
  have least := fun c => census_nonneg (ctxtOf_nonneg c) (ctxtIn_nonneg c) k
  cases free : k.free_jobs with
  | nil =>
    have spec := free_unused least places (.inr ⟨free,rfl,unknown free⟩)
    exact ⟨fresh,[],by simp [ctxt_create, free],spec⟩
  | cons c rest =>
    have spec := free_unused least places (.inl free)
    exact ⟨c,rest,by simp [ctxt_create, free],spec⟩

theorem group_create_spec (owners : ∀ g, owned k g + listed g k.free_groups ≤ 1)
    {fresh : Group} (unknown : FreshGroup k fresh) (parent : Option Group) :
    ∃ g rest, group_create k fresh parent = (g, { k with
          free_groups := rest
          join := update k.join g (semaphore_init 1)
          parent := update k.parent g parent }) ∧
      owned k g = 0 ∧ ∀ x, owned k x + one (g = x) + listed x rest ≤ 1 := by
  have least := fun g => census_nonneg (splitOf_nonneg g) (fun f => splitOf_nonneg g f.job) k
  cases free : k.free_groups with
  | nil =>
    have spec := free_unused least owners (.inr ⟨free,rfl,unknown free⟩)
    exact ⟨fresh,[],by simp [group_create, free],spec⟩
  | cons g rest =>
    have spec := free_unused least owners (.inl free)
    exact ⟨g,rest,by simp [group_create, free],spec⟩

theorem shape_top {new : Frame Ctxt Group} (top : k.stack i = f :: below)
    (places : ∀ c, inUse k c - ctxtIn c f + ctxtIn c new + listed c k.free_jobs ≤ 1)
    (owners : ∀ g, owned k g - splitOf g f.job + splitOf g new.job + listed g k.free_groups ≤ 1)
    (waiting : ∀ j, j ∈ k.held ∨ j ∈ k.jobs → Sound k.group k.parent j)
    (placed : Placed k.group k.parent new)
    (others : ∀ x, ∀ y ∈ (setStack k i below).stack x, Placed k.group k.parent y)
    (joining : ∀ x, ∀ y ∈ (k.stack x).tail, y.step = .joining) :
    Shape (setStack k i (new :: below)) := by
  refine ⟨?_,?_,waiting,?_,?_⟩
  · intro c
    rw [inUse, census_top _ _ top]
    exact places c
  · intro g
    rw [owned, census_top _ _ top]
    exact owners g
  · intro x y member
    by_cases same : x = i
    · rw [same] at member
      simp only [setStack, update_self] at member
      cases member with
      | head => exact placed
      | tail _ later => exact others i y (by simp only [setStack, update_self]; exact later)
    · apply others x y
      simp only [setStack, update_of_ne same] at member ⊢
      exact member
  · intro x
    refine setStack_mem (P := fun frames => ∀ y ∈ frames.tail, y.step = .joining) ?_ (joining x)
    have old := joining i
    rw [top] at old
    exact old

theorem dropped_mem (top : k.stack i = f :: below) (member : y ∈ (setStack k i below).stack x) :
    y ∈ k.stack x := by
  by_cases same : x = i
  · rw [same] at member ⊢
    simp only [setStack, update_self] at member
    rw [top]
    exact .tail f member
  · simpa only [setStack, update_of_ne same] using member

theorem sums_top (top : k.stack i = f :: below) (new : Frame Ctxt Group) (g : Group) :
    owned (setStack k i (new :: below)) g = owned k g - splitOf g f.job + splitOf g new.job ∧
    pending (setStack k i (new :: below)) g = pending k g - homeIn g f + homeIn g new ∧
    took (setStack k i (new :: below)) g = took k g - joinedIn g f + joinedIn g new :=
  ⟨census_top _ _ top new, census_top _ _ top new, tally_top _ top new⟩

/- The steps of the calls. -/

theorem createJob_inv (inv : Inv k) (top : k.stack i = f :: below) (step : f.step = .probing)
    (group : k.group f.job.ctxt = some g) {fresh : Ctxt} (unknown : FreshCtxt k fresh) :
    Inv (createJob k i f below g fresh) := by
  obtain ⟨c,rest,created,zero,bound⟩ := ctxt_create_spec inv.shape.places unknown
  obtain ⟨jobs,frames⟩ := unused zero
  have placed := inv.shape.placed i f (by simp [top])
  let made : Work Cpu Ctxt Group := { k with free_jobs := rest, group := update k.group c (some g) }
  have done : createJob k i f below g fresh =
      setStack made i ({ f with step := .counting c } :: below) := by
    simp only [createJob, created, update_idem, made]
  have madeTop : made.stack i = f :: below := top
  rw [done]
  refine ⟨?_,?_⟩
  · apply shape_top madeTop
    · intro x
      have le := bound x
      have weight : ctxtIn x { f with step := .counting c } = ctxtIn x f + one (c = x) := by
        simp [ctxtIn, step, one]
      change inUse k x - _ + _ + listed x rest ≤ 1
      rw [weight]
      omega
    · intro x
      have le := inv.shape.owners x
      change owned k x - splitOf x f.job + splitOf x f.job + listed x k.free_groups ≤ 1
      omega
    · intro j present
      exact sound_update (inv.shape.waiting j present) (jobs j present) _
    · refine ⟨sound_update placed.sound (frames i f (by simp [top])).1 _,trivial,?_⟩
      intro x counting
      cases counting
      change update k.group c (some g) c = cur f.job
      rw [update_self, ← placed.sound.group, group]
    · intro x y member
      have before := dropped_mem (k := k) top member
      exact placed_update (inv.shape.placed x y before) (frames x y before) _
    · exact inv.shape.below
  · have sums := sums_top madeTop { f with step := .counting c }
    refine counts_congr inv.counts rfl ?_ ?_ ?_
    · intro x
      rw [(sums x).1]
      exact Int.sub_add_cancel _ _
    · intro x
      have weight : homeIn x { f with step := .counting c } = homeIn x f := by simp [step]
      rw [(sums x).2.1, weight]
      exact Int.sub_add_cancel _ _
    · intro x
      have weight : joinedIn x { f with step := .counting c } = joinedIn x f := by simp [step]
      rw [(sums x).2.2, weight]
      exact Int.sub_add_cancel _ _

/- The counter of a group. -/

theorem joinedIn_le (g : Group) (f : Frame Ctxt Group) : 0 ≤ splitOf g f.job - joinedIn g f := by
  have least := splitOf_nonneg g f.job
  rw [joinedIn]
  split
  · by_cases head : f.job.splits.head? = some g
    · have pos := splitOf_pos (List.mem_of_mem_head? head)
      rw [one_pos head]
      omega
    · rw [one, if_neg head]
      omega
  · omega

theorem owned_split (k : Work Cpu Ctxt Group) (g : Group) :
    owned k g = weigh (splitOf g) k.held + weigh (splitOf g) k.jobs +
      tally (fun f => splitOf g f.job - joinedIn g f) k.stack + took k g := by
  rw [owned, census, tally_sub, took]
  omega

theorem took_le_owned (k : Work Cpu Ctxt Group) (g : Group) : took k g ≤ owned k g := by
  have held := weigh_nonneg (splitOf_nonneg g) k.held
  have jobs := weigh_nonneg (splitOf_nonneg g) k.jobs
  have rest := tally_nonneg (joinedIn_le g) k.stack
  rw [owned_split]
  omega

theorem cur_cases (current : cur j = some g) :
    g ∈ j.splits ∨ (j.splits = [] ∧ j.home = some g) := by
  rw [cur] at current
  cases splits : j.splits with
  | nil => exact .inr ⟨rfl,by simpa [splits] using current⟩
  | cons x rest =>
    left
    simp [splits] at current
    simp [current]

theorem home_pending (member : f ∈ k.stack i) (home : f.job.home = some g)
    (inside : f.step ≠ .leaving) :
    1 ≤ pending k g := by
  have le := (census_parts (homeOf_nonneg g) (homeIn_nonneg g) k).2 i f member
  rw [homeIn, if_neg inside, homeOf, one_pos home] at le
  exact le

theorem cur_owned (counts : Counts k)
    (member : f ∈ k.stack i) (current : cur f.job = some g) (inside : f.step ≠ .leaving) :
    0 < owned k g := by
  obtain own | ⟨_,home⟩ := cur_cases current
  · have le := (census_parts (splitOf_nonneg g) (fun f => splitOf_nonneg g f.job) k).2 i f member
    have pos := splitOf_pos own
    have whole : owned k g = census (splitOf g) (fun f => splitOf g f.job) k := rfl
    omega
  · apply counts.homes
    have pos := home_pending member home inside
    omega

theorem cur_untaken (inv : Inv k) (member : f ∈ k.stack i) (current : cur f.job = some g)
    (inside : f.step ≠ .leaving) (before : f.step ≠ .joined) :
    took k g = 0 := by
  have least : 0 ≤ took k g := tally_nonneg (joinedIn_nonneg g) k.stack
  obtain own | ⟨_,home⟩ := cur_cases current
  · -- the job owns the group, which has one owner
    have single := inv.shape.owners g
    have free := listed_nonneg g k.free_groups
    have held := weigh_nonneg (splitOf_nonneg g) k.held
    have jobs := weigh_nonneg (splitOf_nonneg g) k.jobs
    have share : splitOf g f.job - joinedIn g f ≤
        tally (fun f => splitOf g f.job - joinedIn g f) k.stack :=
      Int.le_trans (weigh_mem (joinedIn_le g) member) (weigh_le_tally (joinedIn_le g) k.stack i)
    have pos := splitOf_pos own
    have outside : joinedIn g f = 0 := by rw [joinedIn, if_neg before]
    have sum := owned_split k g
    omega
  · -- the job counts for the group
    have pos := home_pending member home inside
    by_cases taken : 0 < took k g
    · have none := inv.counts.alone g taken
      omega
    · omega

variable {w : Nat}

theorem give_join (wait : sem.wait = []) (fits : Fits w (sem.count + value)) :
    (semaphore_give w sem value).1 = ⟨sem.count + value, []⟩ := by
  simp [semaphore_give, giveLoop, wait, sint_of_fits fits]

theorem counter (counts : Counts k) (owner : 0 < owned k g) :
    (k.join g).count = 1 - pending k g - took k g ∧ (k.join g).wait = [] := by
  rw [counts.count g owner]
  exact ⟨rfl,rfl⟩

theorem counts_shift {t : Work Cpu Ctxt Group} (counts : Counts k) {value : Semaphore Unit}
    {a b c : Int} (join : t.join = update k.join g value)
    (own : ∀ x, owned t x = owned k x + a * one (g = x))
    (pend : ∀ x, pending t x = pending k x + b * one (g = x))
    (taken : ∀ x, took t x = took k x + c * one (g = x))
    (count : 0 < owned k g + a → value = ⟨1 - (pending k g + b) - (took k g + c), []⟩)
    (homes : 0 < pending k g + b → 0 < owned k g + a)
    (alone : 0 < took k g + c → pending k g + b = 0) :
    Counts t := by
  have here : ∀ n : Int, n * one (g = g) = n := by
    intro n
    rw [one_pos rfl, Int.mul_one]
  have away : ∀ x, x ≠ g → ∀ n m : Int, m + n * one (g = x) = m := by
    intro x other n m
    rw [one, if_neg (Ne.symm other), Int.mul_zero, Int.add_zero]
  refine ⟨?_,?_,?_⟩
  · intro x
    rw [own, pend, taken, join]
    by_cases same : x = g
    · rw [same, here, here, here, update_self]
      exact count
    · rw [away x same, away x same, away x same, update_of_ne same]
      exact counts.count x
  · intro x
    rw [own, pend]
    by_cases same : x = g
    · rw [same, here, here]
      exact homes
    · rw [away x same, away x same]
      exact counts.homes x
  · intro x
    rw [pend, taken]
    by_cases same : x = g
    · rw [same, here, here]
      exact alone
    · rw [away x same, away x same]
      exact counts.alone x

theorem counts_top {made : Work Cpu Ctxt Group} {new : Frame Ctxt Group} {value : Semaphore Unit}
    {a b c : Int} (counts : Counts k) (top : k.stack i = f :: below)
    (same : made.held = k.held ∧ made.jobs = k.jobs ∧ made.stack = k.stack)
    (join : made.join = update k.join g value)
    (own : ∀ x, splitOf x new.job = splitOf x f.job + a * one (g = x))
    (pend : ∀ x, homeIn x new = homeIn x f + b * one (g = x))
    (taken : ∀ x, joinedIn x new = joinedIn x f + c * one (g = x))
    (count : 0 < owned k g + a → value = ⟨1 - (pending k g + b) - (took k g + c), []⟩)
    (homes : 0 < pending k g + b → 0 < owned k g + a)
    (alone : 0 < took k g + c → pending k g + b = 0) :
    Counts (setStack made i (new :: below)) := by
  obtain ⟨held,jobs,stack⟩ := same
  have madeTop : made.stack i = f :: below := by rw [stack, top]
  have sum : ∀ ω ν, census ω ν made = census ω ν k := by
    intro ω ν
    rw [census, census, held, jobs, stack]
  refine counts_shift counts join ?_ ?_ ?_ count homes alone
  · intro x
    rw [(sums_top madeTop new x).1, own, owned, sum, owned]
    omega
  · intro x
    rw [(sums_top madeTop new x).2.1, pend, pending, sum, pending]
    omega
  · intro x
    rw [(sums_top madeTop new x).2.2, taken, took, stack, took]
    omega

theorem unowned_counts (counts : Counts k) (none : owned k g = 0) :
    pending k g = 0 ∧ took k g = 0 := by
  have some : 0 ≤ pending k g := census_nonneg (homeOf_nonneg g) (homeIn_nonneg g) k
  have least : 0 ≤ took k g := tally_nonneg (joinedIn_nonneg g) k.stack
  have less := took_le_owned k g
  by_cases counted : 0 < pending k g
  · have owner := counts.homes g counted
    omega
  · omega

section
variable (inv : Inv k) (top : k.stack i = f :: below)
include inv top

theorem countJob_inv {c : Ctxt} (step : f.step = .counting c)
    (group : k.group f.job.ctxt = some g) (fits : Fits w ((k.join g).count - 1)) :
    Inv (countJob w k i f below g c) := by
  have member : f ∈ k.stack i := by simp [top]
  have placed := inv.shape.placed i f member
  have current : cur f.job = some g := by rw [← placed.sound.group, group]
  have owner := cur_owned inv.counts member current (by simp [step])
  have untaken := cur_untaken inv member current (by simp [step]) (by simp [step])
  let new : Job Ctxt Group := ⟨c,some g,[],k.born⟩
  let made : Work Cpu Ctxt Group :=
    { giveJoin w k g (-1) with held := new :: k.held, born := k.born + 1 }
  have madeTop : made.stack i = f :: below := top
  have sums := sums_top madeTop { f with step := .free }
  have held : ∀ ω ν, census ω ν made = census ω ν k + ω new := by
    intro ω ν
    simp only [census, made, giveJoin, weigh_cons]
    omega
  change Inv (setStack made i ({ f with step := .free } :: below))
  refine ⟨?_,?_⟩
  · apply shape_top madeTop
    · intro x
      have le := inv.shape.places x
      have weight : ctxtIn x f = ctxtIn x { f with step := .free } + ctxtOf x new := by
        simp [ctxtIn, ctxtOf, step, one, new]
      rw [inUse, held]
      change census _ _ k + _ - _ + _ + listed x k.free_jobs ≤ 1
      rw [inUse] at le
      omega
    · intro x
      have le := inv.shape.owners x
      have weight : splitOf x new = 0 := rfl
      rw [owned, held]
      change census _ _ k + 0 - splitOf x f.job + splitOf x f.job + listed x k.free_groups ≤ 1
      rw [owned] at le
      omega
    · intro j present
      obtain present | queued := present
      · cases present with
        | head =>
          have shown := placed.made c step
          exact ⟨shown.trans current,by simp [cur],trivial⟩
        | tail _ before => exact inv.shape.waiting j (.inl before)
      · exact inv.shape.waiting j (.inr queued)
    · exact ⟨placed.sound,trivial,by intro x counting; cases counting⟩
    · intro x y later
      exact inv.shape.placed x y (dropped_mem top later)
    · exact inv.shape.below
  · refine counts_shift (a := 0) (b := 1) (c := 0) inv.counts rfl ?_ ?_ ?_ ?_ ?_ ?_
    · intro x
      have weight : splitOf x new = 0 := rfl
      rw [(sums x).1, owned, held, owned]
      simp only
      omega
    · intro x
      have weight : homeIn x { f with step := .free } = homeIn x f := by simp [step]
      have one : homeOf x new = one (g = x) := by simp [homeOf, new]
      rw [(sums x).2.1, pending, held, pending]
      omega
    · intro x
      have weight : joinedIn x { f with step := .free } = joinedIn x f := by simp [step]
      rw [(sums x).2.2]
      change took k x - _ + _ = _
      omega
    · intro _
      obtain ⟨count,wait⟩ := counter inv.counts owner
      rw [give_join wait fits]
      congr 1
      omega
    · intro _
      omega
    · intro taken
      omega

theorem ending_inv (step : f.step = .ending) (group : k.group f.job.ctxt = some g)
    (fits : Fits w ((k.join g).count + 1)) :
    Inv (setStack (giveJoin w k g 1) i ({ f with step := .leaving } :: below)) := by
  have member : f ∈ k.stack i := by simp [top]
  have placed := inv.shape.placed i f member
  have none : f.job.splits = [] := by
    have fitting := placed.fitting
    rw [step] at fitting
    exact fitting
  have home : f.job.home = some g := by
    have current := placed.sound.group
    rw [group, cur, none] at current
    exact current.symm
  have counted := home_pending member home (by simp [step])
  have owner := inv.counts.homes g (by omega)
  refine ⟨shape_restep (k := giveJoin w k g 1) (shape_join inv.shape _) top (by simp [step])
    (by simp) none,?_⟩
  refine counts_top (a := 0) (b := -1) (c := 0) inv.counts top ⟨rfl,rfl,rfl⟩ rfl ?_ ?_ ?_ ?_ ?_ ?_
  · intro x
    simp
  · intro x
    rw [homeIn, homeIn, if_pos rfl, if_neg (by simp [step]), homeOf, home]
    by_cases same : g = x <;> simp [same]
  · intro x
    simp [step]
  · intro _
    obtain ⟨count,wait⟩ := counter inv.counts owner
    rw [give_join wait fits]
    congr 1
    omega
  · intro _
    omega
  · intro taken
    have zero := inv.counts.alone g (by omega)
    omega

theorem leaving_inv (step : f.step = .leaving) :
    Inv (setStack { k with free_jobs := f.job.ctxt :: k.free_jobs } i below) := by
  have placed := inv.shape.placed i f (by simp [top])
  have none : f.job.splits = [] := by
    have fitting := placed.fitting
    rw [step] at fitting
    exact fitting
  have sum : ∀ ω ν, census ω ν
      (setStack { k with free_jobs := f.job.ctxt :: k.free_jobs } i below) =
      census ω ν k - ν f := by
    intro ω ν
    rw [census_setStack]
    change census ω ν k - weigh ν (k.stack i) + weigh ν below = _
    rw [top, weigh_cons]
    omega
  have own : ∀ x, owned (setStack { k with free_jobs := f.job.ctxt :: k.free_jobs } i below) x =
      owned k x := by
    intro x
    have weight : splitOf x f.job = 0 := by rw [splitOf, none]; rfl
    rw [owned, sum, weight, Int.sub_zero, owned]
  refine ⟨⟨?_,?_,inv.shape.waiting,?_,?_⟩,?_⟩
  · intro x
    have le := inv.shape.places x
    have weight : ctxtIn x f = one (f.job.ctxt = x) := by simp [ctxtIn, step, one]
    rw [inUse, sum]
    change _ + listed x (f.job.ctxt :: k.free_jobs) ≤ 1
    rw [inUse, listed] at le
    rw [listed, weigh_cons]
    omega
  · intro x
    rw [own]
    exact inv.shape.owners x
  · intro x y later
    exact inv.shape.placed x y (dropped_mem top later)
  · intro x
    have inner : ∀ y ∈ below, y.step = .joining := by
      intro y later
      exact inv.shape.below i y (by rw [top]; exact later)
    refine setStack_mem (P := fun frames => ∀ y ∈ frames.tail, y.step = .joining) ?_
      (inv.shape.below x)
    intro y later
    exact inner y (List.mem_of_mem_tail later)
  · refine counts_congr inv.counts rfl own ?_ ?_
    · intro x
      have weight : homeIn x f = 0 := by simp [step]
      rw [pending, sum, weight, Int.sub_zero, pending]
    · intro x
      have weight : joinedIn x f = 0 := by simp [step]
      change tally (joinedIn x) (update k.stack i below) = tally (joinedIn x) k.stack
      rw [tally_update, top, weigh_cons]
      omega

end

theorem splits_head (some : j.splits ≠ []) (current : cur j = .some g) :
    ∃ rest, j.splits = g :: rest := by
  cases splits : j.splits with
  | nil => exact absurd splits some
  | cons x rest =>
    rw [cur, splits] at current
    cases current
    exact ⟨rest,rfl⟩

theorem joined_inv (inv : Inv k) (top : k.stack i = f :: below) (step : f.step = .joining)
    (group : k.group f.job.ctxt = some g) (enough : 1 ≤ (k.join g).count)
    (fits : Fits w ((k.join g).count - 1)) :
    Inv (setStack { k with join := update k.join g (semaphore_try_take w (k.join g) 1).1 } i
      ({ f with step := .joined } :: below)) := by
  have member : f ∈ k.stack i := by simp [top]
  have placed := inv.shape.placed i f member
  have current : cur f.job = some g := by rw [← placed.sound.group, group]
  have split : f.job.splits ≠ [] := by
    have fitting := placed.fitting
    rw [step] at fitting
    exact fitting
  obtain ⟨rest,splits⟩ := splits_head split current
  have owner := cur_owned inv.counts member current (by simp [step])
  have some : 0 ≤ pending k g := census_nonneg (homeOf_nonneg g) (homeIn_nonneg g) k
  obtain ⟨count,wait⟩ := counter inv.counts owner
  refine ⟨?_,?_⟩
  · exact shape_restep (k := { k with join := update k.join g _ }) (shape_join inv.shape _) top
      (by simp [step])
      (by simp) split
  refine counts_top (a := 0) (b := 0) (c := 1) inv.counts top ⟨rfl,rfl,rfl⟩ rfl ?_ ?_ ?_ ?_ ?_ ?_
  · intro x
    simp
  · intro x
    simp [step]
  · intro x
    simp [step, splits]
  · intro _
    have taken : (semaphore_try_take w (k.join g) 1).1 = ⟨(k.join g).count - 1,[]⟩ := by
      rw [semaphore_try_take, if_neg (by omega), sint_of_fits fits, wait]
    rw [taken]
    congr 1
    omega
  · intro _
    omega
  · intro _
    omega

theorem joined_facts (inv : Inv k)
    (member : f ∈ k.stack i) (step : f.step = .joined) (group : k.group f.job.ctxt = some g) :
    (∃ rest, f.job.splits = g :: rest) ∧ took k g = 1 ∧ owned k g = 1 ∧ pending k g = 0 := by
  have placed := inv.shape.placed i f member
  have current : cur f.job = some g := by rw [← placed.sound.group, group]
  have split : f.job.splits ≠ [] := by
    have fitting := placed.fitting
    rw [step] at fitting
    exact fitting
  obtain ⟨rest,splits⟩ := splits_head split current
  have this : joinedIn g f = 1 := by simp [step, splits, one]
  have share : joinedIn g f ≤ took k g :=
    Int.le_trans (weigh_mem (joinedIn_nonneg g) member)
      (weigh_le_tally (joinedIn_nonneg g) k.stack i)
  have less := took_le_owned k g
  have single := inv.shape.owners g
  have free := listed_nonneg g k.free_groups
  exact ⟨⟨rest,splits⟩,by omega,by omega,inv.counts.alone g (by omega)⟩

section
variable (inv : Inv k) (top : k.stack i = f :: below) (step : f.step = .joined)
  (grouped : k.group f.job.ctxt = some g)
include inv top step grouped

theorem restore_inv (fits : Fits w ((k.join g).count + 1)) :
    Inv (setStack (giveJoin w k g 1) i ({ f with step := .free } :: below)) := by
  have member : f ∈ k.stack i := by simp [top]
  obtain ⟨⟨rest,splits⟩,taken,owner,none⟩ := joined_facts inv member step grouped
  refine ⟨shape_restep (k := giveJoin w k g 1) (shape_join inv.shape _) top (by simp [step])
    (by simp) trivial,?_⟩
  refine counts_top (a := 0) (b := 0) (c := -1) inv.counts top ⟨rfl,rfl,rfl⟩ rfl ?_ ?_ ?_ ?_ ?_ ?_
  · intro x
    simp
  · intro x
    simp [step]
  · intro x
    rw [joinedIn, joinedIn, if_pos step, splits]
    by_cases same : g = x <;> simp [same]
  · intro _
    obtain ⟨count,wait⟩ := counter inv.counts (by omega : 0 < owned k g)
    rw [give_join wait fits]
    congr 1
    omega
  · intro _
    omega
  · intro _
    omega

theorem release_inv {parent : Group} (under : k.parent g = some parent) : Inv (setStack { k with
        free_groups := g :: k.free_groups
        group := update k.group f.job.ctxt (some parent) } i
      (⟨{ f.job with splits := f.job.splits.tail }, .free⟩ :: below)) := by
  have member : f ∈ k.stack i := by simp [top]
  obtain ⟨⟨rest,splits⟩,taken,owner,none⟩ := joined_facts inv member step grouped
  have placed := inv.shape.placed i f member
  obtain ⟨jobs,frames⟩ := elsewhere inv.shape top
  have line := placed.sound.line
  rw [splits] at line
  have back : cur ({ f.job with splits := f.job.splits.tail } : Job Ctxt Group) = some parent := by
    rw [splits]
    exact line.1.symm.trans under
  let made : Work Cpu Ctxt Group :=
    { k with free_groups := g :: k.free_groups, group := update k.group f.job.ctxt (some parent) }
  let new : Frame Ctxt Group := ⟨{ f.job with splits := f.job.splits.tail },.free⟩
  have madeTop : made.stack i = f :: below := top
  have weight : ∀ x, splitOf x f.job = one (g = x) + splitOf x new.job := by
    intro x
    simp [splitOf, new, splits]
  change Inv (setStack made i (new :: below))
  refine ⟨?_,?_⟩
  · apply shape_top madeTop
    · intro x
      have le := inv.shape.places x
      have same : ctxtIn x new = ctxtIn x f := by simp [ctxtIn, new, step]
      change inUse k x - _ + _ + listed x k.free_jobs ≤ 1
      omega
    · intro x
      have le := inv.shape.owners x
      change owned k x - _ + _ + listed x (g :: k.free_groups) ≤ 1
      rw [weight]
      rw [listed] at le ⊢
      rw [weigh_cons]
      omega
    · intro j present
      exact sound_update (inv.shape.waiting j present) (jobs j present) _
    · refine ⟨⟨?_,?_,?_⟩,trivial,by intro x counting; cases counting⟩
      · change update k.group f.job.ctxt (some parent) f.job.ctxt = _
        rw [update_self]
        exact back.symm
      · rw [back]
        exact Option.some_ne_none parent
      · simp only [new, splits]
        exact line.2
    · intro x y later
      exact placed_update (inv.shape.placed x y (dropped_mem top later)) (frames x y later) _
    · exact inv.shape.below
  · refine counts_top (a := -1) (b := 0) (c := -1) inv.counts top ⟨rfl,rfl,rfl⟩
      (update_eq_self g k.join).symm ?_ ?_ ?_ ?_ ?_ ?_
    · intro x
      rw [weight]
      omega
    · intro x
      simp [new, step, homeOf]
    · intro x
      rw [joinedIn, joinedIn, if_pos step, splits]
      by_cases same : g = x <;> simp [same]
    · intro some
      omega
    · intro some
      omega
    · intro _
      omega

theorem leaveGroup_inv (fits : k.parent g = none → Fits w ((k.join g).count + 1)) :
    Inv (leaveGroup w k i f below g) := by
  rw [leaveGroup]
  cases under : k.parent g with
  | none => exact restore_inv inv top step grouped (fits under)
  | some parent => exact release_inv inv top step grouped under

end

theorem split_inv (inv : Inv k) (top : k.stack i = f :: below) (step : f.step = .free)
    (unknown : FreshGroup k fresh) : Inv (capsule_group_split k i f below fresh) := by
  obtain ⟨g,rest,created,zero,bound⟩ :=
    group_create_spec inv.shape.owners unknown (k.group f.job.ctxt)
  have member : f ∈ k.stack i := by simp [top]
  have placed := inv.shape.placed i f member
  obtain ⟨jobs,frames⟩ := elsewhere inv.shape top
  obtain ⟨noJob,noFrame⟩ := unowned zero
  let made : Work Cpu Ctxt Group :=
    { k with
      free_groups := rest
      join := update k.join g (semaphore_init 1)
      parent := update k.parent g (k.group f.job.ctxt)
      group := update k.group f.job.ctxt (some g) }
  let new : Frame Ctxt Group := ⟨{ f.job with splits := g :: f.job.splits },.free⟩
  have madeTop : made.stack i = f :: below := top
  have weight : ∀ x, splitOf x new.job = one (g = x) + splitOf x f.job := by
    intro x
    simp [splitOf, new]
  have done : capsule_group_split k i f below fresh = setStack made i (new :: below) := by
    simp [capsule_group_split, created, made, new]
  rw [done]
  refine ⟨?_,?_⟩
  · apply shape_top madeTop
    · intro x
      have le := inv.shape.places x
      have same : ctxtIn x new = ctxtIn x f := by simp [ctxtIn, new, step]
      change inUse k x - _ + _ + listed x k.free_jobs ≤ 1
      omega
    · intro x
      have le := bound x
      change owned k x - _ + _ + listed x rest ≤ 1
      rw [weight]
      omega
    · intro j present
      exact sound_update (sound_parent (inv.shape.waiting j present) (noJob j present) _)
        (jobs j present) _
    · refine ⟨⟨?_,?_,?_,?_⟩,trivial,by intro x counting; cases counting⟩
      · change update k.group f.job.ctxt (some g) f.job.ctxt = _
        rw [update_self]
        rfl
      · exact Option.some_ne_none g
      · change update k.parent g (k.group f.job.ctxt) g = _
        rw [update_self, placed.sound.group]
        rfl
      · exact line_update _ placed.sound.line (noFrame i f member)
    · intro x y later
      have before := dropped_mem top later
      exact placed_update (placed_parent (inv.shape.placed x y before) (noFrame x y before) _)
        (frames x y later) _
    · exact inv.shape.below
  · obtain ⟨noPending,noTook⟩ := unowned_counts inv.counts zero
    refine counts_top (a := 1) (b := 0) (c := 0) inv.counts top ⟨rfl,rfl,rfl⟩ rfl ?_ ?_ ?_ ?_ ?_ ?_
    · intro x
      rw [weight]
      omega
    · intro x
      simp [new, step, homeOf]
    · intro x
      simp [step]
    · intro _
      rw [noPending, noTook]
      rfl
    · intro some
      omega
    · intro some
      omega

theorem createMain_inv (inv : Inv k) {fresh : Ctxt} {freshGroup : Group}
    (unknown : FreshCtxt k fresh) (unknownGroup : FreshGroup k freshGroup) :
    Inv (createMain k fresh freshGroup) := by
  obtain ⟨c,rest,created,zero,bound⟩ := ctxt_create_spec inv.shape.places unknown
  obtain ⟨jobs,frames⟩ := unused zero
  let free : Work Cpu Ctxt Group := { k with free_jobs := rest, group := update k.group c none }
  have freshFree : FreshGroup free freshGroup := unknownGroup
  obtain ⟨g,left,createdGroup,zeroGroup,boundGroup⟩ :=
    group_create_spec (k := free) inv.shape.owners freshFree none
  obtain ⟨noJob,noFrame⟩ := unowned zeroGroup
  let new : Job Ctxt Group := ⟨c,none,[g],k.born⟩
  let made : Work Cpu Ctxt Group :=
    { k with
      free_jobs := rest
      free_groups := left
      join := update k.join g (semaphore_init 1)
      parent := update k.parent g none
      group := update k.group c (some g)
      held := new :: k.held
      born := k.born + 1 }
  have done : createMain k fresh freshGroup = made := by
    simp only [free] at createdGroup
    simp [createMain, created, createdGroup, made, new]
  have sum : ∀ ω ν, census ω ν made = census ω ν k + ω new := by
    intro ω ν
    simp only [census, made, weigh_cons]
    omega
  rw [done]
  refine ⟨⟨?_,?_,?_,?_,inv.shape.below⟩,?_⟩
  · intro x
    rw [inUse, sum]
    exact bound x
  · intro x
    have weight : splitOf x new = one (g = x) := by simp [splitOf, new]
    rw [owned, sum, weight]
    exact boundGroup x
  · intro j present
    have known : j = new ∨ (j ∈ k.held ∨ j ∈ k.jobs) := by
      obtain held | queued := present
      · cases held with
        | head => exact .inl rfl
        | tail _ before => exact .inr (.inl before)
      · exact .inr (.inr queued)
    obtain equal | before := known
    · rw [equal]
      refine ⟨?_,Option.some_ne_none g,?_,trivial⟩
      · change update k.group c (some g) c = _
        rw [update_self]
        rfl
      · change update k.parent g none g = _
        rw [update_self]
        rfl
    · exact sound_update (sound_parent (inv.shape.waiting j before) (noJob j before) _)
        (jobs j before) _
  · intro x y before
    exact placed_update (placed_parent (inv.shape.placed x y before) (noFrame x y before) _)
      (frames x y before) _
  · obtain ⟨noPending,noTook⟩ := unowned_counts inv.counts zeroGroup
    refine counts_shift (a := 1) (b := 0) (c := 0) inv.counts rfl ?_ ?_ ?_ ?_ ?_ ?_
    · intro x
      have weight : splitOf x new = one (g = x) := by simp [splitOf, new]
      rw [owned, sum, owned]
      omega
    · intro x
      have weight : homeOf x new = 0 := by simp [homeOf, one]
      rw [pending, sum, pending]
      omega
    · intro x
      change took k x = _
      omega
    · intro _
      rw [noPending, noTook]
      rfl
    · intro some
      omega
    · intro some
      omega

end

end MutekCapsule
