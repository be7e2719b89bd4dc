import MutekH.Tcp

/-!
Which segments an acknowledgement removes from the queue of unacknowledged ones
(libtcp/libtcp.c).
-/
namespace MutekTcpAcknowledge
open MutekTcp

/-- The loop of `tcp_acknowledge` with the segments that it frees, whose timers it cancels. A
    segment that stays at the head of the queue is looked at for ever. -/
def tcp_acknowledge_timers (z last_ack : Nat) : List TcpSeg →
    Except Fault (List TcpSeg × List TcpSeg)
  | [] => .ok ([], [])
  | seg :: unacked =>
    if last_ack ≥ (seg.seq + seg.data.length) % 2 ^ z then
      (tcp_acknowledge_timers z last_ack unacked).map (fun r => (seg :: r.1, r.2))
    else .error .endless

/-- The whole range of the segment is before `ack`, in the order of numbers of 32 bits. -/
def Precedes (ack : Nat) (seg : TcpSeg) : Prop :=
  word (ack + (2 ^ 32 - word (seg.seq + seg.data.length))) < 2 ^ 31

instance (ack : Nat) : DecidablePred (Precedes ack) := fun _ => Nat.decLt _ _

def Consecutive : List TcpSeg → Prop
  | a :: b :: rest => b.seq = word (a.seq + a.data.length) ∧ Consecutive (b :: rest)
  | _ => True

variable {z last_ack : Nat} {segments : List TcpSeg}

theorem timers_of_covered
    (covered : ∀ seg ∈ segments, (seg.seq + seg.data.length) % 2 ^ z ≤ last_ack) :
    tcp_acknowledge_timers z last_ack segments = .ok (segments, []) := by
  induction segments with
  | nil => rfl
  | cons seg unacked ih =>
    have later := ih (fun other mem => covered other (.tail seg mem))
    rw [tcp_acknowledge_timers, if_pos (covered seg List.mem_cons_self), later]
    rfl

theorem loop_eq_timers (z last_ack : Nat) (segments : List TcpSeg) :
    tcp_acknowledge_loop z last_ack segments =
      (tcp_acknowledge_timers z last_ack segments).map Prod.snd := by
  induction segments with
  | nil => rfl
  | cons seg unacked ih => ?_
  rw [tcp_acknowledge_loop, tcp_acknowledge_timers, ih]
  split
  · cases tcp_acknowledge_timers z last_ack unacked <;> rfl
  · rfl

theorem acknowledge_of_covered {s : TcpSession}
    (covered : ∀ seg ∈ s.unacked, (seg.seq + seg.data.length) % 2 ^ z ≤ s.last_ack) :
    tcp_acknowledge z s = .ok { s with unacked := [] } := by
  rw [tcp_acknowledge, loop_eq_timers, timers_of_covered covered]
  rfl

/-- Exactly the segments before the acknowledgement are removed if and only if all of them are
    before it, in the order of the numbers and as plain numbers. Otherwise the loop does not end or
    removes too much. -/
theorem tcp_acknowledge_exact (z : Nat) (s : TcpSession) :
    (tcp_acknowledge_timers z s.last_ack s.unacked =
        .ok (s.unacked.filter (Precedes s.last_ack), s.unacked.filter (¬ Precedes s.last_ack ·)) ∧
      tcp_acknowledge z s = .ok { s with unacked := s.unacked.filter (¬ Precedes s.last_ack ·) }) ↔
    ∀ seg ∈ s.unacked, Precedes s.last_ack seg ∧
      (seg.seq + seg.data.length) % 2 ^ z ≤ s.last_ack := by
  constructor
  · rintro ⟨cancelled,done⟩
    have covered := (acknowledge_ends done).2
    rw [timers_of_covered covered] at cancelled
    have all := (Prod.mk.inj (Except.ok.inj cancelled)).1
    intro seg mem
    rw [all] at mem
    obtain ⟨queued,before⟩ := List.mem_filter.mp mem
    exact ⟨of_decide_eq_true before,covered seg queued⟩
  · intro each
    have covered := fun seg mem => (each seg mem).2
    have removed : s.unacked.filter (Precedes s.last_ack) = s.unacked :=
      List.filter_eq_self.mpr (fun seg mem => decide_eq_true (each seg mem).1)
    have kept : s.unacked.filter (¬ Precedes s.last_ack ·) = [] :=
      List.filter_eq_nil_iff.mpr (fun seg mem => by simp [(each seg mem).1])
    rw [removed, kept]
    exact ⟨timers_of_covered covered,acknowledge_of_covered covered⟩

/-- An established connection. -/
def session (last_ack : Nat) (unacked : List TcpSeg) : TcpSession :=
  ⟨.established, 105, 7, 7, 4096, 512, 6, 4096, 512, [], unacked, [], [], 0, none, 0,
    last_ack, true, true,
    false, [], []⟩

def pair : List TcpSeg := [⟨[1, 2, 3], 100, false⟩, ⟨[4, 5], 103, false⟩]

/-- A partial or an old acknowledgement is looked at for ever; an old one from before a wrap
    removes a segment that the peer has not received. -/
theorem acknowledge_not_exact :
    Consecutive pair ∧
      tcp_acknowledge 64 (session 103 pair) = .error .endless ∧
      tcp_acknowledge 64 (session 100 pair) = .error .endless ∧
      ¬ Precedes 0xfffffff0 ⟨[1, 2, 3], 2, false⟩ ∧
      tcp_acknowledge 64 (session 0xfffffff0 [⟨[1, 2, 3], 2, false⟩]) =
        .ok (session 0xfffffff0 []) := by
  exact ⟨⟨rfl,trivial⟩,by decide,by decide,by decide,by decide⟩

end MutekTcpAcknowledge
