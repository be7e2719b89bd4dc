import Mathlib.Logic.Relation

/-!
Locks that are taken in an order. A thread waits for one that holds the lock it wants; where
every thread wants a lock above those it holds, nobody waits for itself through others, and the
threads that are waited for end in one that does not wait.
-/
namespace LibLockOrder
universe u v
variable {T : Type u} {L : Type v} {held : T → List L} {wants : T → Option L} {rank : L → Nat}

def WaitsFor (held : T → List L) (wants : T → Option L) (t u : T) : Prop :=
  ∃ l ∈ wants t, l ∈ held u

def Above (held : T → List L) (wants : T → Option L) (rank : L → Nat) : Prop :=
  ∀ t, ∀ l ∈ wants t, ∀ m ∈ held t, rank m < rank l

theorem wanted_le_held (above : Above held wants rank) {t u : T}
    (chain : Relation.TransGen (WaitsFor held wants) t u) :
    ∃ l ∈ wants t, ∃ m ∈ held u, rank l ≤ rank m := by
  induction chain with
  | single waits =>
    obtain ⟨l,wanted,holds⟩ := waits
    exact ⟨l,wanted,l,holds,Nat.le_refl _⟩
  | tail _ waits ih =>
    obtain ⟨l,wanted,m,holds,less⟩ := ih
    obtain ⟨n,next,holds'⟩ := waits
    exact ⟨l,wanted,n,holds',Nat.le_trans less (Nat.le_of_lt (above _ n next m holds))⟩

theorem no_cycle (above : Above held wants rank) (t : T) :
    ¬ Relation.TransGen (WaitsFor held wants) t t := by
  intro cycle
  obtain ⟨l,wanted,m,holds,less⟩ := wanted_le_held above cycle
  have more := above t l wanted m holds
  omega

theorem chain_ends (above : Above held wants rank) {bound : Nat} (small : ∀ l, rank l < bound)
    {t u : T} (waits : WaitsFor held wants t u) :
    ∃ v, Relation.ReflTransGen (WaitsFor held wants) u v ∧ ∀ x, ¬ WaitsFor held wants v x := by
  obtain ⟨l,wanted,holds⟩ := waits
  -- The wanted locks go up, and there are not more than `bound` ranks.
  induction left : bound - rank l using Nat.strongRecOn generalizing t u l with
  | ind k ih =>
    by_cases going : ∃ x, WaitsFor held wants u x
    · obtain ⟨x,m,next,there⟩ := going
      have up := above u m next l holds
      have below := small m
      obtain ⟨v,path,stops⟩ := ih (bound - rank m) (by omega) m next there rfl
      exact ⟨v,path.head ⟨m,next,there⟩,stops⟩
    · exact ⟨u,.refl,fun x waits => going ⟨x,waits⟩⟩

end LibLockOrder
