import MutekH.Tcp

/-!
The receiving side of a TCP session, together with what the application and the timers do on the
sending side. A segment waits at the distance of its number from the number that is expected next,
so the queue describes pieces of the stream beyond what was delivered.
-/
namespace MutekTcpReceive
open List LibBytes LibMachine MutekTcp

def delivered : List Output → List UInt8
  | [] => []
  | .receive data :: log => data ++ delivered log
  | _ :: log => delivered log

def acks : List Output → List Nat
  | [] => []
  | .controlpkt operation _ ack _ :: log => if operation = .syn then acks log else ack :: acks log
  | .datapkt _ _ ack _ :: log => ack :: acks log
  | _ :: log => acks log

theorem delivered_append (before after : List Output) :
    delivered (before ++ after) = delivered before ++ delivered after := by
  induction before with
  | nil => rfl
  | cons o before ih => cases o <;> simp [delivered, ih]

theorem acks_append (before after : List Output) :
    acks (before ++ after) = acks before ++ acks after := by
  induction before with
  | nil => rfl
  | cons o before ih => ?_
  cases o with
  | controlpkt operation seq ack win =>
    by_cases first : operation = .syn
    · simp [acks, ih, first]
    · simp [acks, ih, first]
  | datapkt data seq ack win | connect | receive data | close | accept | close_timeout =>
    simp [acks, ih]

/- What sending leaves alone. -/

structure Sends (s s' : TcpSession) : Prop where
  state : s'.state = s.state
  to_ack : s'.to_ack = s.to_ack
  send_win : s'.send_win = s.send_win
  recv_offset : s'.recv_offset = s.recv_offset
  oos : s'.oos = s.oos
  receive : s'.receive = s.receive
  delivered : delivered s'.log = delivered s.log
  acks : ∀ a ∈ acks s'.log, a ∈ acks s.log ∨ a = s.to_ack

section
variable {s s' s'' : TcpSession} {w z : Nat}

theorem sends_refl (s : TcpSession) : Sends s s :=
  ⟨rfl,rfl,rfl,rfl,rfl,rfl,rfl,fun _ mem => .inl mem⟩

theorem sends_trans (first : Sends s s') (second : Sends s' s'') : Sends s s'' where
  state := second.state.trans first.state
  to_ack := second.to_ack.trans first.to_ack
  send_win := second.send_win.trans first.send_win
  recv_offset := second.recv_offset.trans first.recv_offset
  oos := second.oos.trans first.oos
  receive := second.receive.trans first.receive
  delivered := second.delivered.trans first.delivered
  acks := by
    intro a mem
    rcases second.acks a mem with old | new
    · exact first.acks a old
    · exact .inr (new.trans first.to_ack)

theorem controlpkt_sends (operation : Operation) (s : TcpSession) :
    Sends s (tcp_send_controlpkt operation s) := by
  unfold tcp_send_controlpkt mem_alloc
  cases s.memory.headD true with
  | false => exact ⟨rfl,rfl,rfl,rfl,rfl,rfl,rfl,fun _ mem => .inl mem⟩
  | true => ?_
  refine ⟨rfl,rfl,rfl,rfl,rfl,rfl,?_,?_⟩
  · simp [emit, delivered_append, delivered]
  · intro a mem
    by_cases first : operation = .syn
    · exact .inl (by simpa [emit, acks_append, acks, first] using mem)
    · simpa [emit, acks_append, acks, first] using mem

theorem datapkt_sends (data : List UInt8) (s : TcpSession) : Sends s (tcp_send_datapkt data s) := by
  unfold tcp_send_datapkt mem_alloc
  cases s.memory.headD true with
  | false => exact ⟨rfl,rfl,rfl,rfl,rfl,rfl,rfl,fun _ mem => .inl mem⟩
  | true => ?_
  refine ⟨rfl,rfl,rfl,rfl,rfl,rfl,?_,?_⟩
  · simp [emit, delivered_append, delivered]
  · intro a mem
    simpa [emit, acks_append, acks] using mem

theorem enqueue_sends (s : TcpSession) : Sends s (tcp_enqueue_send_buffer s) := by
  unfold tcp_enqueue_send_buffer mem_alloc
  cases s.memory.headD true with
  | false | true => exact ⟨rfl,rfl,rfl,rfl,rfl,rfl,rfl,fun _ mem => .inl mem⟩

theorem do_send_segment_sends (done : tcp_do_send_segment seg s = .ok s') : Sends s s' := by
  unfold tcp_do_send_segment at done
  split at done
  · cases done
    exact sends_refl s
  cases seg with
  | none => cases done
  | some seg => ?_
  cases done
  obtain ⟨state,to_ack,send_win,recv_offset,oos,receive,data,acks⟩ :=
    datapkt_sends seg.data s
  exact ⟨state,to_ack,send_win,recv_offset,oos,receive,data,acks⟩

theorem pop_sends (s : TcpSession) : Sends s (pop_unsent s).2 :=
  ⟨rfl,rfl,rfl,rfl,rfl,rfl,rfl,fun _ mem => .inl mem⟩

theorem do_send_sends (done : tcp_do_send s = .ok s') : Sends s s' := by
  refine sends_trans (pop_sends s) ?_
  unfold tcp_do_send at done
  generalize pop_unsent s = popped at done ⊢
  obtain ⟨seg,s⟩ := popped
  cases seg with
  | some seg => exact do_send_segment_sends done
  | none => ?_
  dsimp only at done ⊢
  split at done
  · exact sends_trans (enqueue_sends s) (sends_trans (pop_sends _) (do_send_segment_sends done))
  · split at done
    · cases done
      exact controlpkt_sends .ack s
    · exact do_send_segment_sends done

theorem period_sends (done : tcp_period s = .ok s') : Sends s s' := by
  unfold tcp_period at done
  split at done
  · exact do_send_sends done
  · cases done
    exact sends_refl s

theorem retransmission_sends (done : tcp_retransmission z i s = .ok s') : Sends s s' := by
  unfold tcp_retransmission at done
  split at done
  · cases done
    exact sends_refl s
  · split at done
    · cases done
    · cases done
      exact datapkt_sends _ s

theorem fill_sends (buffer chunk : List UInt8) (s : TcpSession) :
    Sends s (fill buffer chunk s) := by
  have stored : Sends s { s with
      send_buffer := some (patch buffer s.send_offset chunk)
      send_offset := s.send_offset + chunk.length } :=
    ⟨rfl,rfl,rfl,rfl,rfl,rfl,rfl,fun _ mem => .inl mem⟩
  unfold fill
  dsimp only
  split
  · exact sends_trans stored (enqueue_sends _)
  · exact stored

theorem send_loop_sends (data : List UInt8) (fuel i : Nat)
    (done : tcp_send_loop w data fuel i s = .ok s') : Sends s s' := by
  induction fuel generalizing i s with
  | zero => cases done
  | succ fuel ih => ?_
  unfold tcp_send_loop at done
  split at done
  · dsimp only at done
    split at done
    · cases done
    · exact sends_trans (fill_sends _ _ s) (ih _ done)
  · cases done
    exact sends_refl _

theorem reserve_sends (s : TcpSession) : Sends s (reserve s).2 := by
  unfold reserve mem_alloc
  split
  · cases s.memory.headD true with
    | true | false => exact ⟨rfl,rfl,rfl,rfl,rfl,rfl,rfl,fun _ mem => .inl mem⟩
  · exact sends_refl s

theorem send_sends (done : tcp_send w data s = .ok (result, s')) : Sends s s' := by
  unfold tcp_send at done
  split at done
  · cases done
    exact sends_refl s
  refine sends_trans (reserve_sends s) ?_
  generalize reserve s = reserved at done ⊢
  obtain ⟨buffer,s⟩ := reserved
  cases buffer with
  | false =>
    cases done
    exact sends_refl _
  | true =>
    obtain ⟨left,looped,ran⟩ := bind_ok done
    cases ran
    exact send_loop_sends data _ _ looped

end

/- The stream. -/

def Covered (arrived : List (Nat × Nat)) (n : Nat) : Prop :=
  ∀ i < n, ∃ q ∈ arrived, q.1 ≤ i ∧ i < q.1 + q.2

/-- A segment waits for the bytes before it: the next ones are those at `n`, with number
    `to_ack`. -/
structure Waits (stream : List UInt8) (arrived : List (Nat × Nat)) (n to_ack : Nat) (e : TcpSeg) :
    Prop where
  later : to_ack ≤ e.seq
  fits : e.seq + e.data.length < 2 ^ 32
  some_bytes : 0 < e.data.length
  short : e.data.length ≤ TCP_DFL_WINDOW
  push : e.push = true
  bytes : e.data = slice stream (n + (e.seq - to_ack)) e.data.length
  arrived : (n + (e.seq - to_ack), e.data.length) ∈ arrived

def Apart (a b : TcpSeg) : Prop := a.seq + a.data.length ≤ b.seq

/-- What was delivered is the beginning of the stream, and the queue has later pieces. -/
structure Receiving (stream : List UInt8) (first : Nat) (arrived : List (Nat × Nat))
    (oos : List TcpSeg) (s : TcpSession) : Prop where
  state : s.state = .established
  receive : s.receive = true
  send_win : s.send_win = TCP_DFL_WINDOW
  recv_offset : s.recv_offset = 0
  to_ack : s.to_ack = word (first + (delivered s.log).length)
  beginning : delivered s.log <+: stream
  covered : Covered arrived (delivered s.log).length
  acks : ∀ a ∈ acks s.log, ∃ n, a = word (first + n) ∧ Covered arrived n
  waits : ∀ e ∈ oos, Waits stream arrived (delivered s.log).length s.to_ack e
  apart : oos.Pairwise Apart

section
variable {stream : List UInt8} {first n to_ack z : Nat} {arrived arrived' : List (Nat × Nat)}
  {oos : List TcpSeg} {e seg : TcpSeg} {s s' : TcpSession}

theorem covered_mono (more : arrived ⊆ arrived') (covered : Covered arrived n) :
    Covered arrived' n := by
  intro i small
  obtain ⟨q,mem,inside⟩ := covered i small
  exact ⟨q,more mem,inside⟩

theorem covered_add (covered : Covered arrived n) (mem : (n, k) ∈ arrived) :
    Covered arrived (n + k) := by
  intro i small
  by_cases old : i < n
  · exact covered i old
  · exact ⟨(n, k),mem,by omega,small⟩

theorem waits_shift (waits : Waits stream arrived n to_ack e) (later : to_ack + k ≤ e.seq) :
    Waits stream arrived (n + k) (to_ack + k) e := by
  have place : n + k + (e.seq - (to_ack + k)) = n + (e.seq - to_ack) := by omega
  refine ⟨later,waits.fits,waits.some_bytes,waits.short,waits.push,?_,?_⟩
  · rw [place]
    exact waits.bytes
  · rw [place]
    exact waits.arrived

theorem receiving_mono (more : arrived ⊆ arrived') (going : Receiving stream first arrived oos s) :
    Receiving stream first arrived' oos s where
  state := going.state
  receive := going.receive
  send_win := going.send_win
  recv_offset := going.recv_offset
  to_ack := going.to_ack
  beginning := going.beginning
  covered := covered_mono more going.covered
  acks := by
    intro a mem
    obtain ⟨n,number,covered⟩ := going.acks a mem
    exact ⟨n,number,covered_mono more covered⟩
  waits := fun e mem => { going.waits e mem with arrived := more (going.waits e mem).arrived }
  apart := going.apart

theorem sends_receiving (sends : Sends s s') (going : Receiving stream first arrived oos s) :
    Receiving stream first arrived oos s' := by
  obtain ⟨state,to_ack,send_win,recv_offset,-,receive,data,acks⟩ := sends
  refine ⟨state.trans going.state,receive.trans going.receive,send_win.trans going.send_win,
    recv_offset.trans going.recv_offset,?_,?_,?_,?_,?_,going.apart⟩
  · rw [to_ack, data]
    exact going.to_ack
  · rw [data]
    exact going.beginning
  · rw [data]
    exact going.covered
  · intro a mem
    rcases acks a mem with old | new
    · exact going.acks a old
    · exact ⟨_,new.trans going.to_ack,going.covered⟩
  · rw [data, to_ack]
    exact going.waits

theorem mem_insert_segment : e ∈ insert_segment seg oos ↔ e = seg ∨ e ∈ oos := by
  induction oos with
  | nil => simp [insert_segment]
  | cons f oos ih => ?_
  unfold insert_segment
  split
  · rw [mem_cons, ih, mem_cons]
    constructor
    · rintro (here | new | old)
      · exact .inr (.inl here)
      · exact .inl new
      · exact .inr (.inr old)
    · rintro (new | here | old)
      · exact .inr (.inl new)
      · exact .inl here
      · exact .inr (.inr old)
  · rw [mem_cons]

theorem insert_apart (apart : oos.Pairwise Apart) (new : 0 < seg.data.length)
    (some_bytes : ∀ e ∈ oos, 0 < e.data.length)
    (free : ∀ e ∈ oos, Apart seg e ∨ Apart e seg) : (insert_segment seg oos).Pairwise Apart := by
  induction oos with
  | nil => simp [insert_segment]
  | cons f oos ih => ?_
  obtain ⟨first,rest⟩ := pairwise_cons.mp apart
  have here := free f mem_cons_self
  have bytes := some_bytes f mem_cons_self
  unfold insert_segment
  split
  case isTrue before =>
    refine pairwise_cons.mpr ⟨?_,ih rest (fun e mem => some_bytes e (.tail f mem))
      (fun e mem => free e (.tail f mem))⟩
    intro e mem
    rcases mem_insert_segment.mp mem with rfl | old
    · rcases here with after | after
      · unfold Apart at after
        omega
      · exact after
    · exact first e old
  case isFalse before =>
    have next : Apart seg f := by
      rcases here with after | after
      · exact after
      · unfold Apart at after
        omega
    refine pairwise_cons.mpr ⟨?_,apart⟩
    intro e mem
    rcases mem_cons.mp mem with rfl | later
    · exact next
    · have beyond := first e later
      unfold Apart at next beyond ⊢
      omega

theorem push_data_delivers (some_bytes : 0 < data.length)
    (short : data.length ≤ s.send_win) (receive : s.receive = true) :
    ∃ buffer, tcp_push_data data true s = .ok { s with
      recv_buffer := buffer
      recv_offset := 0
      send_win := TCP_DFL_WINDOW
      log := s.log ++ [.receive data] } := by
  have rest : ∀ t, tcp_push_data_loop data true (data.length + 1) data.length t = .ok t := by
    intro t
    unfold tcp_push_data_loop
    rw [if_neg (Nat.lt_irrefl _)]
  refine ⟨patch s.recv_buffer s.recv_offset (slice data 0 data.length),?_⟩
  unfold tcp_push_data tcp_push_data_loop
  simp only [some_bytes, Nat.sub_zero, if_neg (by omega : ¬ data.length > s.send_win), Nat.zero_add,
    take_in, receive]
  exact rest _

structure Delivers (data : List UInt8) (s s' : TcpSession) : Prop where
  state : s'.state = s.state
  receive : s'.receive = s.receive
  send_win : s'.send_win = TCP_DFL_WINDOW
  recv_offset : s'.recv_offset = 0
  log : s'.log = s.log ++ [.receive data]
  to_ack : s'.to_ack = word (s.to_ack + data.length)

theorem delivers_receiving (delivers : Delivers data s s')
    (going : Receiving stream first arrived oos s)
    (next : data = slice stream (delivered s.log).length data.length)
    (arrives : ((delivered s.log).length, data.length) ∈ arrived)
    (later : ∀ e ∈ oos, s.to_ack + data.length ≤ e.seq) :
    Receiving stream first arrived oos s' := by
  have more : delivered s'.log = delivered s.log ++ data := by
    rw [delivers.log]
    simp [delivered_append, delivered]
  have length : (delivered s'.log).length = (delivered s.log).length + data.length := by
    rw [more, length_append]
  refine ⟨delivers.state.trans going.state,delivers.receive.trans going.receive,delivers.send_win,
    delivers.recv_offset,?_,?_,?_,?_,?_,going.apart⟩
  · rw [delivers.to_ack, length, going.to_ack]
    unfold word
    rw [Nat.mod_add_mod, Nat.add_assoc]
  · have start := prefix_iff_eq_take.mp going.beginning
    have both : delivered s.log ++ data = stream.take ((delivered s.log).length + data.length) := by
      conv => lhs; rw [start, next]
      rw [take_add]
      rfl
    rw [more, both]
    exact take_prefix _ _
  · rw [length]
    exact covered_add going.covered arrives
  · intro a mem
    refine going.acks a ?_
    simpa [delivers.log, acks_append, acks] using mem
  · intro e mem
    have waits := going.waits e mem
    have fits := waits.fits
    have here := later e mem
    have number : s'.to_ack = s.to_ack + data.length := by
      rw [delivers.to_ack]
      exact Nat.mod_eq_of_lt (by omega)
    rw [length, number]
    exact waits_shift waits here

theorem receiving_oos (going : Receiving stream first arrived oos s) :
    Receiving stream first arrived oos { s with oos := more } :=
  ⟨going.state, going.receive, going.send_win, going.recv_offset, going.to_ack, going.beginning,
    going.covered, going.acks, going.waits, going.apart⟩

theorem push_oos_receiving (wide : 32 ≤ z) (force_ack : Bool)
    (going : Receiving stream first arrived oos s) :
    ∃ force_ack' s', libtcp_push_oos z oos force_ack s = .ok (force_ack', s') ∧
      Receiving stream first arrived s'.oos s' := by
  induction oos generalizing s force_ack with
  | nil => exact ⟨force_ack,_,rfl,receiving_oos going⟩
  | cons e oos ih => ?_
  have waits := going.waits e mem_cons_self
  have later := waits.later
  have fits := waits.fits
  have some_bytes := waits.some_bytes
  have short := waits.short
  obtain ⟨beyond,apart⟩ := pairwise_cons.mp going.apart
  have going' : Receiving stream first arrived oos s :=
    { going with waits := fun f mem => going.waits f (.tail e mem), apart := apart }
  unfold libtcp_push_oos
  by_cases next : e.seq ≤ s.to_ack
  · have here : e.seq = s.to_ack := Nat.le_antisymm next later
    have room : 2 ^ 32 ≤ 2 ^ z := Nat.pow_le_pow_right (by decide) wide
    have sum : (e.seq + e.data.length) % 2 ^ z = e.seq + e.data.length :=
      Nat.mod_eq_of_lt (by omega)
    have all : slice e.data 0 e.data.length = e.data := by simp [slice]
    have bytes := waits.bytes
    have arrives := waits.arrived
    rw [here, Nat.sub_self] at bytes arrives
    obtain ⟨buffer,pushed⟩ := push_data_delivers some_bytes (by rw [going.send_win]; exact short)
      going.receive
    have beyond' : ∀ f ∈ oos, s.to_ack + e.data.length ≤ f.seq := by
      intro f mem
      rw [← here]
      exact beyond f mem
    have moved : ∀ t, Delivers e.data s t → Receiving stream first arrived oos t :=
      fun t delivers => delivers_receiving delivers going' bytes arrives beyond'
    rw [if_pos next, if_neg (by omega), waits.push]
    simp only [here, Nat.sub_self, Nat.sub_zero, all, pushed]
    exact ih true (moved _ ⟨rfl,rfl,rfl,rfl,rfl,rfl⟩)
  · rw [if_neg next]
    exact ⟨force_ack,_,rfl,receiving_oos going⟩

theorem receiving_keeps {position length : Nat} (going : Receiving stream first arrived oos s)
    (some_bytes : 0 < length) (short : length ≤ TCP_DFL_WINDOW)
    (inside : position + length ≤ stream.length)
    (free : ∀ q ∈ arrived, position + length ≤ q.1 ∨ q.1 + q.2 ≤ position)
    (beyond : (delivered s.log).length < position)
    (round : (first + position) / 2 ^ 32 = (first + (delivered s.log).length) / 2 ^ 32)
    (fits : word (first + position) + length < 2 ^ 32) :
    s.to_ack < word (first + position) ∧ Receiving stream first ((position, length) :: arrived)
      (insert_segment ⟨slice stream position length, word (first + position), true⟩ oos) s := by
  have size : (slice stream position length).length = length := by
    rw [slice_length]
    omega
  have number : word (first + position) = s.to_ack + (position - (delivered s.log).length) := by
    rw [going.to_ack]
    unfold word
    omega
  have place : (delivered s.log).length + (word (first + position) - s.to_ack) = position := by
    omega
  have going' : Receiving stream first ((position, length) :: arrived) oos s :=
    receiving_mono (subset_cons_self _ _) going
  refine ⟨by omega,{ going' with waits := ?_, apart := ?_ }⟩
  · intro e mem
    rcases mem_insert_segment.mp mem with rfl | old
    · refine ⟨by dsimp only; omega,by rw [size]; exact fits,by rw [size]; exact some_bytes,
        by rw [size]; exact short,rfl,?_,?_⟩
      · rw [size, place]
      · rw [size, place]
        exact mem_cons_self
    · exact going'.waits e old
  refine insert_apart going.apart (by rw [size]; exact some_bytes)
    (fun e mem => (going.waits e mem).some_bytes) ?_
  intro e mem
  have waits := going.waits e mem
  change word (first + position) + (slice stream position length).length ≤ e.seq ∨
    e.seq + e.data.length ≤ word (first + position)
  rcases free _ waits.arrived with before | after
  · left
    omega
  · right
    omega

theorem covered_before {position length : Nat} (covered : Covered arrived n)
    (some_bytes : 0 < length)
    (free : ∀ q ∈ arrived, position + length ≤ q.1 ∨ q.1 + q.2 ≤ position) :
    n ≤ position := by
  by_contra early
  obtain ⟨q,mem,low,high⟩ := covered position (by omega)
  rcases free q mem with before | after <;> omega

theorem push_data_receiving (wide : 32 ≤ z)
    (going : Receiving stream first arrived s.oos s) (some_bytes : 0 < data.length)
    (short : data.length ≤ TCP_DFL_WINDOW) (push : hdr.push = true)
    (next : data = slice stream (delivered s.log).length data.length)
    (arrives : ((delivered s.log).length, data.length) ∈ arrived)
    (later : ∀ e ∈ s.oos, s.to_ack + data.length ≤ e.seq)
    (state : t.state = s.state) (receive : t.receive = s.receive)
    (window : t.send_win = s.send_win) (oos : t.oos = s.oos) (log : t.log = s.log)
    (to_ack : t.to_ack = word (s.to_ack + data.length))
    (done : libtcp_push_data z hdr data t = .ok s') : Receiving stream first arrived s'.oos s' := by
  obtain ⟨buffer,pushed⟩ := push_data_delivers some_bytes
    (by rw [window, going.send_win]; exact short) (receive.trans going.receive)
  rw [← oos] at going later
  unfold libtcp_push_data at done
  rw [push, pushed] at done
  simp only [Bind.bind, Except.bind] at done
  have delivers : Delivers data s { t with
      recv_buffer := buffer, recv_offset := 0, send_win := TCP_DFL_WINDOW,
      log := t.log ++ [.receive data] } := ⟨state,receive,rfl,rfl,by rw [log],to_ack⟩
  have moved := delivers_receiving delivers going next arrives later
  obtain ⟨force_ack,u,looped,drained⟩ := push_oos_receiving wide false moved
  rw [looped] at done
  cases done
  split
  · have sends := controlpkt_sends .ack u
    rw [sends.oos]
    exact sends_receiving sends drained
  · exact drained

end

/- Runs: segments of the stream arrive, the application sends and timers fire. -/

inductive Event where
  | segment (position length : Nat) (push : Bool) (ack win : Nat) (memory : List Bool)
  | send (data : List UInt8) (memory : List Bool)
  | period (memory : List Bool)
  | retransmission (i : Nat) (memory : List Bool)

structure World where
  session : TcpSession
  arrived : List (Nat × Nat)

def header (first position ack win : Nat) (push : Bool) : TcpHdr :=
  { th_seq := word (first + position), th_ack := ack, th_win := win, fin := false, syn := false,
    push := push, ack := true, option := none }

section
variable (w z : Nat) (stream : List UInt8) (first : Nat)

def exec (s : World) : Event → Except Fault World
  | .segment position length push ack win memory => do
    let session ← libtcp_push z (header first position ack win push) (slice stream position length)
      (given memory s.session)
    .ok ⟨session, (position, length) :: s.arrived⟩
  | .send data memory => do
    let (_, session) ← tcp_send w data (given memory s.session)
    .ok { s with session := session }
  | .period memory => do
    let session ← tcp_period (given memory s.session)
    .ok { s with session := session }
  | .retransmission i memory => do
    let session ← tcp_retransmission z i (given memory s.session)
    .ok { s with session := session }

/-- A connection that was just established: nothing was delivered, the number `first` is expected.
    The sending side is in any state. -/
structure Fresh (s : TcpSession) : Prop where
  state : s.state = .established
  receive : s.receive = true
  send_win : s.send_win = TCP_DFL_WINDOW
  recv_offset : s.recv_offset = 0
  to_ack : s.to_ack = word first
  oos : s.oos = []
  delivered : delivered s.log = []
  acks : ∀ a ∈ acks s.log, a = word first

def tcpMachine : Machine World Event :=
  ofExec (fun s => Fresh first s.session ∧ s.arrived = []) (exec w z stream first)

instance (s : World) (e : Event) : Decidable ((tcpMachine w z stream first).enabled s e) :=
  inferInstanceAs (Decidable (_ = true))

end

/-- A piece of the stream that was not received before, of a size below the window, pushed to the
    application. It is the next one, or its numbers follow the expected one without a wrap. -/
def NewPiece (first : Nat) (s : World) (position length : Nat) (push : Bool) : Prop :=
  0 < length ∧ length ≤ TCP_DFL_WINDOW ∧ push = true ∧
    (∀ q ∈ s.arrived, position + length ≤ q.1 ∨ q.1 + q.2 ≤ position) ∧
    (position = (delivered s.session.log).length ∨
      (first + position) / 2 ^ 32 = (first + (delivered s.session.log).length) / 2 ^ 32 ∧
        word (first + position) + length < 2 ^ 32)

instance (first : Nat) (s : World) (position length : Nat) (push : Bool) :
    Decidable (NewPiece first s position length push) :=
  instDecidableAnd

/-- Segments are new pieces of the stream, or acknowledgements without data. -/
def InDomain (stream : List UInt8) (first : Nat) (s : World) : Event → Prop
  | .segment position length push _ _ _ => position + length ≤ stream.length ∧
      (NewPiece first s position length push ∨
        length = 0 ∧ position = (delivered s.session.log).length)
  | _ => True

instance (stream : List UInt8) (first : Nat) (s : World) : (e : Event) →
    Decidable (InDomain stream first s e)
  | .segment _ _ _ _ _ _ => instDecidableAnd
  | .send _ _ => isTrue trivial
  | .period _ => isTrue trivial
  | .retransmission _ _ => isTrue trivial

section
variable {w z : Nat} {stream : List UInt8} {first : Nat} {s s' : World} {session : TcpSession}

theorem connect_fresh (fresh : Fresh first (tcp_on_receive session)) :
    Fresh first (tcp_on_receive (emit .connect (tcp_send_controlpkt .ack session))) := by
  have sends := controlpkt_sends .ack session
  refine ⟨sends.state.trans fresh.state,rfl,sends.send_win.trans fresh.send_win,
    sends.recv_offset.trans fresh.recv_offset,sends.to_ack.trans fresh.to_ack,
      sends.oos.trans fresh.oos,?_,?_⟩
  · change delivered (_ ++ [.connect]) = []
    rw [delivered_append, sends.delivered]
    exact append_eq_nil_iff.mpr ⟨fresh.delivered,rfl⟩
  intro a mem
  change a ∈ acks (_ ++ [.connect]) at mem
  rw [acks_append, mem_append] at mem
  rcases mem with old | none_
  · rcases sends.acks a old with before | new
    · exact fresh.acks a before
    · exact new.trans fresh.to_ack
  · cases none_

theorem segment_in_order (wide : 32 ≤ z) {position length ack win : Nat} {push : Bool}
    {arrived : List (Nat × Nat)} {t t' : TcpSession} (inside : position + length ≤ stream.length)
    (going : Receiving stream first arrived t.oos t)
    (place : position = (delivered t.log).length)
    (piece : length = 0 ∨ 0 < length ∧ length ≤ TCP_DFL_WINDOW ∧ push = true ∧
      ∀ q ∈ arrived, position + length ≤ q.1 ∨ q.1 + q.2 ≤ position)
    (done : libtcp_push z (header first position ack win push) (slice stream position length) t
      = .ok t') :
    Receiving stream first ((position, length) :: arrived) t'.oos t' := by
  have size : (slice stream position length).length = length := by
    rw [slice_length]
    omega
  have number : word (first + position) = t.to_ack := by rw [going.to_ack, place]
  have late : ¬ (header first position ack win push).th_seq > t.to_ack := by
    change ¬ word (first + position) > t.to_ack
    omega
  have going' := receiving_mono (subset_cons_self (position, length) arrived) going
  obtain ⟨-,rest⟩ := push_established going.state rfl rfl late done
  have to_ack : (noted (header first position ack win push) length t).to_ack =
      word (t.to_ack + length) := by
    change word (word (first + position) + length) = _
    rw [number]
  rw [size] at rest
  rcases piece with none_ | ⟨some_bytes,short,push,free⟩
  · subst none_
    have empty : slice stream position 0 = [] := by simp [slice]
    rcases rest with ⟨-,rfl⟩ | ⟨full,-⟩
    · rw [Nat.add_zero, going.to_ack, word, word, Nat.mod_mod] at to_ack
      refine ⟨going.state,going.receive,going.send_win,going.recv_offset,to_ack,going.beginning,
        going'.covered,going'.acks,?_,going.apart⟩
      rw [to_ack]
      have waits := going'.waits
      rw [going.to_ack] at waits
      exact waits
    · exact absurd empty full
  rcases rest with ⟨none_,-⟩ | ⟨-,rest⟩
  · rw [none_] at size
    simp at size
    omega
  refine push_data_receiving (t := noted (header first position ack win _) length t) wide going'
    (by rw [size]; exact some_bytes) (by rw [size]; exact short) push ?_ ?_ ?_ rfl rfl rfl rfl rfl
    (by rw [size]; exact to_ack) rest
  · rw [size, ← place]
  · rw [size, ← place]
    exact mem_cons_self
  · intro e mem
    have waits := going.waits e mem
    have bytes := waits.some_bytes
    rcases free _ waits.arrived with before | after <;> omega

theorem segment_out_of_order {position length ack win : Nat} {arrived : List (Nat × Nat)}
    {t t' : TcpSession} (inside : position + length ≤ stream.length)
    (going : Receiving stream first arrived t.oos t) (some_bytes : 0 < length)
    (short : length ≤ TCP_DFL_WINDOW)
    (free : ∀ q ∈ arrived, position + length ≤ q.1 ∨ q.1 + q.2 ≤ position)
    (beyond : (delivered t.log).length < position)
    (round : (first + position) / 2 ^ 32 = (first + (delivered t.log).length) / 2 ^ 32)
    (fits : word (first + position) + length < 2 ^ 32)
    (done : libtcp_push z (header first position ack win true) (slice stream position length) t
      = .ok t') :
    Receiving stream first ((position, length) :: arrived) t'.oos t' := by
  obtain ⟨ahead,kept⟩ := receiving_keeps going some_bytes short inside free beyond round fits
  have sends := do_send_sends (push_ahead going.state ahead done)
  rw [sends.oos]
  refine sends_receiving sends ?_
  exact ⟨kept.state,kept.receive,kept.send_win,kept.recv_offset,kept.to_ack,kept.beginning,
    kept.covered,kept.acks,kept.waits,kept.apart⟩

theorem given_sends (memory : List Bool) (s : TcpSession) : Sends s (given memory s) :=
  ⟨rfl,rfl,rfl,rfl,rfl,rfl,rfl,fun _ mem => .inl mem⟩

theorem sends_going {s s' : TcpSession} {arrived : List (Nat × Nat)} (sends : Sends s s')
    (going : Receiving stream first arrived s.oos s) :
    Receiving stream first arrived s'.oos s' := by
  rw [sends.oos]
  exact sends_receiving sends going

theorem exec_receiving (wide : 32 ≤ z) {e : Event} (domain : InDomain stream first s e)
    (going : Receiving stream first s.arrived s.session.oos s.session)
    (done : exec w z stream first s e = .ok s') :
    Receiving stream first s'.arrived s'.session.oos s'.session := by
  have ready : ∀ memory, Receiving stream first s.arrived s.session.oos (given memory s.session) :=
    fun memory => sends_going (given_sends memory _) going
  cases e with obtain ⟨t,sent,ran⟩ := bind_ok done
  | segment position length push ack win memory =>
    obtain ⟨inside,piece⟩ := domain
    obtain ⟨t,pushed,ran⟩ := bind_ok done
    cases ran
    rcases piece with ⟨some_bytes,short,rfl,free,place⟩ | ⟨none_,place⟩
    · have from_ := covered_before going.covered some_bytes free
      by_cases next : position = (delivered s.session.log).length
      · exact segment_in_order (t := given memory s.session) wide inside (ready memory) next
          (.inr ⟨some_bytes,short,rfl,free⟩) pushed
      · obtain ⟨round,fits⟩ := place.resolve_left next
        exact segment_out_of_order (t := given memory s.session) inside
          (ready memory) some_bytes short free
          (Nat.lt_of_le_of_ne from_ (Ne.symm next)) round fits pushed
    · exact segment_in_order (t := given memory s.session) wide inside (ready memory) place
        (.inl none_) pushed
  | send data memory =>
    cases ran
    exact sends_going (sends_trans (given_sends memory _) (send_sends sent)) going
  | period memory =>
    cases ran
    exact sends_going (sends_trans (given_sends memory _) (period_sends sent)) going
  | retransmission i memory =>
    cases ran
    exact sends_going (sends_trans (given_sends memory _) (retransmission_sends sent)) going

theorem fresh_receiving (fresh : Fresh first session) :
    Receiving stream first [] session.oos session := by
  have none_ : (delivered session.log).length = 0 := by rw [fresh.delivered, length_nil]
  refine ⟨fresh.state,fresh.receive,fresh.send_win,fresh.recv_offset,?_,?_,?_,?_,?_,?_⟩
  · rw [none_, fresh.to_ack, Nat.add_zero]
  · rw [fresh.delivered]
    exact nil_prefix
  · rw [none_]
    intro i small
    omega
  · intro a mem
    exact ⟨0,fresh.acks a mem,fun i small => by omega⟩
  · rw [fresh.oos]
    simp
  · rw [fresh.oos]
    exact List.Pairwise.nil

theorem reached_receiving (wide : 32 ≤ z)
    (reached : Reached (restrict (tcpMachine w z stream first) (InDomain stream first)) s) :
    Receiving stream first s.arrived s.session.oos s.session := by
  refine reached_exec (fun s => Receiving stream first s.arrived s.session.oos s.session)
    ?_ ?_ reached
  · rintro s ⟨fresh,empty⟩
    rw [empty]
    exact fresh_receiving fresh
  · intro s e s' going domain done
    exact exec_receiving wide domain going done

section
variable (garbage : TcpSession) (curr_seq mtu seq ack win : Nat) (push : Bool) (option : Option Nat)

/-- The connection that `tcp_open` and the answer of the peer establish. -/
theorem handshake_fresh :
    ∃ s, libtcp_push z ⟨seq, ack, win, false, true, push, true, option⟩ []
        (tcp_open garbage curr_seq mtu) = .ok s ∧
      Fresh (seq + 1) (tcp_on_receive s) := by
  obtain ⟨o,opened⟩ : ∃ o, tcp_open garbage curr_seq mtu = o := ⟨_,rfl⟩
  have fields : o.state = .syn_sent ∧ o.unacked = [] ∧ o.send_win = TCP_DFL_WINDOW ∧
      o.recv_offset = 0 ∧ o.oos = [] ∧ delivered o.log = [] ∧
        ∀ a ∈ acks o.log, a = word (seq + 1) := by
    rw [← opened]
    unfold tcp_open tcp_send_controlpkt mem_alloc
    dsimp only
    split <;> exact ⟨rfl,rfl,rfl,rfl,rfl,rfl,forall_mem_nil _⟩
  obtain ⟨state,unacked,send_win,recv_offset,oos,none_,quiet⟩ := fields
  rw [opened]
  unfold libtcp_push tcp_acknowledge
  simp only [state, unacked, tcp_acknowledge_loop, Bind.bind, Except.bind, reduceCtorEq, if_false]
  refine ⟨_,rfl,?_⟩
  unfold libtcp_open
  simp only [if_true]
  cases option with
  | none => exact connect_fresh ⟨rfl,rfl,send_win,recv_offset,rfl,oos,none_,quiet⟩
  | some opt =>
    dsimp only
    split <;> exact connect_fresh ⟨rfl,rfl,send_win,recv_offset,rfl,oos,none_,quiet⟩

/-- From the opening on, whatever the session held before. -/
theorem opened_receives_prefix (wide : 32 ≤ z) :
    ∃ s, libtcp_push z ⟨seq, ack, win, false, true, push, true, option⟩ []
        (tcp_open garbage curr_seq mtu) = .ok s ∧
      s.state = .established ∧
      ∀ run, Allowed (restrict (tcpMachine w z stream (seq + 1)) (InDomain stream (seq + 1)))
          ⟨tcp_on_receive s, []⟩ run →
        delivered (after (tcpMachine w z stream (seq + 1))
          ⟨tcp_on_receive s, []⟩ run).session.log <+: stream := by
  obtain ⟨s,pushed,fresh⟩ := handshake_fresh garbage curr_seq mtu seq ack win push option
  refine ⟨s,pushed,fresh.state,?_⟩
  intro run allowed
  exact (reached_receiving wide (reached_of_allowed _ _ run ⟨fresh,rfl⟩ allowed)).beginning

end

/-- What the application is given is the beginning of the peer's stream, and no acknowledgement
    goes beyond what has arrived without a gap. -/
theorem tcp_receives_prefix (w z : Nat) (wide : 32 ≤ z) (stream : List UInt8) (first : Nat)
    (s : World)
    (reached : Reached (restrict (tcpMachine w z stream first) (InDomain stream first)) s) :
    delivered s.session.log <+: stream ∧ Covered s.arrived (delivered s.session.log).length ∧
      ∀ a ∈ acks s.session.log, ∃ n, a = word (first + n) ∧ Covered s.arrived n := by
  have going := reached_receiving wide reached
  exact ⟨going.beginning,going.covered,going.acks⟩

end

def idle (first : Nat) : World :=
  ⟨{ state := .established, curr_seq := 1, to_ack := word first, acked := word first,
     send_win := TCP_DFL_WINDOW, send_mss := TCP_MSS, recv_seq := first, recv_win := 1000,
     recv_mss := 600, oos := [], unacked := [], unsent := [], recv_buffer := [], recv_offset := 0,
     send_buffer := none, send_offset := 0, last_ack := 1, receive := true, close := true,
     accept := false, memory := [], log := [] }, []⟩

theorem idle_fresh (first : Nat) : Fresh first (idle first).session := by
  refine ⟨rfl,rfl,rfl,rfl,rfl,rfl,rfl,?_⟩
  intro a mem
  cases mem

theorem opened_receives_prefix_seven :
    ∃ s, libtcp_push 32 ⟨7, 0, 1000, false, true, false, true, none⟩ []
        (tcp_open (idle 0).session 5 1500) = .ok s ∧ s.state = .established ∧
      ∀ run, Allowed (restrict (tcpMachine 16 32 [9] 8) (InDomain [9] 8))
        ⟨tcp_on_receive s, []⟩ run →
        delivered (after (tcpMachine 16 32 [9] 8) ⟨tcp_on_receive s, []⟩ run).session.log <+: [9] :=
  opened_receives_prefix _ 5 1500 7 0 1000 false none (by decide)

def arrives (position length : Nat) (push : Bool) : Event := .segment position length push 1 1000 []

/-- The last two pieces arrive in the wrong order, after the number has wrapped. -/
def swapped : World :=
  after (tcpMachine 16 32 [10, 20, 30, 40, 50, 60] (2 ^ 32 - 2)) (idle (2 ^ 32 - 2))
    [arrives 0 2 true, arrives 4 2 true, arrives 2 2 true]

theorem tcp_receives_prefix_swapped :
    delivered swapped.session.log = [10, 20, 30, 40, 50, 60] ∧ acks swapped.session.log = [0, 4] ∧
      delivered swapped.session.log <+: [10, 20, 30, 40, 50, 60] ∧
      Covered swapped.arrived (delivered swapped.session.log).length ∧
      ∀ a ∈ acks swapped.session.log, ∃ n, a = word (2 ^ 32 - 2 + n) ∧
        Covered swapped.arrived n := by
  refine ⟨by decide +kernel,by decide +kernel,?_⟩
  refine tcp_receives_prefix 16 32 (by decide) [10, 20, 30, 40, 50, 60] (2 ^ 32 - 2) swapped ?_
  exact reached_of_allowed (restrict (tcpMachine 16 32 [10, 20, 30, 40, 50, 60] (2 ^ 32 - 2))
    (InDomain [10, 20, 30, 40, 50, 60] (2 ^ 32 - 2))) (idle (2 ^ 32 - 2))
    [arrives 0 2 true, arrives 4 2 true, arrives 2 2 true] ⟨idle_fresh _,rfl⟩ (by decide +kernel)

def deliveredBy (first : Nat) (segments : List Event) : List UInt8 :=
  delivered (after (tcpMachine 16 32 [10, 20, 30, 40, 50, 60] first)
    (idle first) segments).session.log

/-- A segment that is repeated is delivered twice; of two segments, the one without PUSH is lost;
    a segment whose number has wrapped is delivered before the one that precedes it, and both are
    acknowledged. A later segment is not survived when nothing is to be sent. -/
theorem segments_break_stream :
    (deliveredBy 100 [arrives 0 2 true, arrives 0 2 true] = [10, 20, 10, 20] ∧
      deliveredBy 100 [arrives 0 2 false, arrives 2 2 true] = [30, 40] ∧
      deliveredBy (2 ^ 32 - 2) [arrives 2 2 true] = [30, 40] ∧
      acks (after (tcpMachine 16 32 [10, 20, 30, 40, 50, 60] (2 ^ 32 - 2)) (idle (2 ^ 32 - 2))
        [arrives 2 2 true, .period []]).session.log = [word (2 ^ 32 - 2 + 4)] ∧
      libtcp_push 32 (header 100 2 1 1000 true) [30, 40] (idle 100).session =
        .error .null_pointer) ∧
    ¬ [10, 20, 10, 20] <+: [10, 20, 30, 40, 50, (60 : UInt8)] ∧
    ¬ [30, 40] <+: [10, 20, 30, 40, 50, (60 : UInt8)] := by
  refine ⟨⟨by decide +kernel,by decide +kernel,by decide +kernel,by decide +kernel,?_⟩,
    by decide,by decide⟩
  rfl

end MutekTcpReceive
