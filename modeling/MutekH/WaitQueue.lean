import Mathlib.Data.List.Basic

/-!
What the blocking primitives see of the scheduler. A wait queue is the DLIST
`sched_queue`: `sched_wait_unlock` pushes the calling context back on it, and
`sched_wake` pops its head. Every primitive below works under the lock of its
queue, so one call is one atomic action; a context that was pushed runs again
only once some later call has popped it.
-/
namespace MutekWaitQueue
universe u
variable {T : Type u}

/-- Error codes of hexo/error.h. Some callers return them negated. -/
def ENOENT : Int := 2
def EBUSY : Int := 3
def ENOMEM : Int := 4
def EDEADLK : Int := 6
def EPERM : Int := 7

inductive Outcome where
  | returned (res : Int)
  | waits
  deriving DecidableEq, Repr

def sched_wait_unlock (queue : List T) (self : T) : List T := queue ++ [self]

def sched_wake : List T → Option T × List T
  | [] => (none, [])
  | t :: rest => (some t, rest)

@[simp] theorem wake_empty : sched_wake ([] : List T) = (none, []) := rfl

@[simp] theorem wake_head (t : T) (rest : List T) : sched_wake (t :: rest) = (some t, rest) := rfl

end MutekWaitQueue
