import MutekH.Tcp

/-!
The sending side of a TCP session. The bytes of the application go from the send buffer to the
queue of unsent segments and from there to the queue of unacknowledged ones; a segment gets its
number when it leaves the second queue.
-/
namespace MutekTcpSend
open List LibBytes LibMachine MutekTcp

/-- The data packets that were handed to IP: bytes and sequence number. -/
def packets : List Output → List (List UInt8 × Nat)
  | [] => []
  | .datapkt data seq _ _ :: log => (data, seq) :: packets log
  | _ :: log => packets log

def bytes (segments : List TcpSeg) : List UInt8 := segments.flatMap (fun seg => seg.data)

def waiting (s : TcpSession) : List UInt8 :=
  bytes s.unsent.reverse ++ (s.send_buffer.getD []).take s.send_offset

def kept (s : TcpSession) : List UInt8 := bytes s.unacked ++ waiting s

theorem packets_append (before after : List Output) :
    packets (before ++ after) = packets before ++ packets after := by
  induction before with
  | nil => rfl
  | cons o before ih => cases o <;> simp [packets, ih]

def Runs : Nat → List TcpSeg → Nat → Prop
  | a, [], b => a = b
  | a, seg :: segments, b => seg.seq = a ∧ Runs (a + seg.data.length) segments b

section
variable {a b : Nat} {segments : List TcpSeg} {seg : TcpSeg}

theorem runs_length (runs : Runs a segments b) : b = a + (bytes segments).length := by
  induction segments generalizing a with
  | nil =>
    change a = b at runs
    simp [bytes, runs]
  | cons seg segments ih =>
    obtain ⟨-,rest⟩ := runs
    rw [ih rest]
    simp [bytes, Nat.add_assoc]

theorem runs_last (runs : Runs a segments b) (some_segment : segments ≠ []) :
    ∃ seg ∈ segments, seg.seq + seg.data.length = b := by
  induction segments generalizing a with
  | nil => exact absurd rfl some_segment
  | cons seg segments ih => ?_
  obtain ⟨number,rest⟩ := runs
  by_cases last : segments = []
  · subst last
    change a + seg.data.length = b at rest
    exact ⟨seg,mem_cons_self,by omega⟩
  · obtain ⟨other,mem,end_⟩ := ih rest last
    exact ⟨other,.tail seg mem,end_⟩

theorem insert_last (runs : Runs a segments b) (some_bytes : ∀ e ∈ segments, e.data ≠ [])
    (number : seg.seq = b) : insert_segment seg segments = segments ++ [seg] ∧
      Runs a (segments ++ [seg]) (b + seg.data.length) := by
  induction segments generalizing a with
  | nil => exact ⟨rfl,number.trans runs.symm,by rw [runs]; rfl⟩
  | cons e segments ih => ?_
  obtain ⟨first,rest⟩ := runs
  have total := runs_length rest
  have full : 0 < e.data.length := length_pos_iff.mpr (some_bytes e mem_cons_self)
  obtain ⟨inserted,runs'⟩ := ih rest (fun f mem => some_bytes f (.tail e mem))
  refine ⟨?_,first,runs'⟩
  unfold insert_segment
  rw [if_pos (by omega), inserted]
  rfl

end

/- What receiving leaves alone. -/

structure Quiet (s s' : TcpSession) : Prop where
  state : s'.state = s.state
  send_mss : s'.send_mss = s.send_mss
  send_buffer : s'.send_buffer = s.send_buffer
  send_offset : s'.send_offset = s.send_offset
  unsent : s'.unsent = s.unsent
  unacked : s'.unacked = s.unacked
  curr_seq : s'.curr_seq = s.curr_seq
  packets : packets s'.log = packets s.log

section
variable {s s' s'' : TcpSession} {w z : Nat}

theorem quiet_refl (s : TcpSession) : Quiet s s := ⟨rfl, rfl, rfl, rfl, rfl, rfl, rfl, rfl⟩

theorem quiet_trans (first : Quiet s s') (second : Quiet s' s'') : Quiet s s'' where
  state := second.state.trans first.state
  send_mss := second.send_mss.trans first.send_mss
  send_buffer := second.send_buffer.trans first.send_buffer
  send_offset := second.send_offset.trans first.send_offset
  unsent := second.unsent.trans first.unsent
  unacked := second.unacked.trans first.unacked
  curr_seq := second.curr_seq.trans first.curr_seq
  packets := second.packets.trans first.packets

theorem controlpkt_quiet (operation : Operation) (s : TcpSession) :
    Quiet s (tcp_send_controlpkt operation s) := by
  unfold tcp_send_controlpkt mem_alloc
  cases s.memory.headD true with
  | false => exact ⟨rfl,rfl,rfl,rfl,rfl,rfl,rfl,rfl⟩
  | true => exact ⟨rfl,rfl,rfl,rfl,rfl,rfl,rfl,by simp [emit, packets_append, packets]⟩

theorem deliver_quiet (data : List UInt8) (s : TcpSession) : Quiet s (deliver data s) := by
  unfold deliver
  split
  · exact ⟨rfl,rfl,rfl,rfl,rfl,rfl,rfl,by simp [emit, packets_append, packets]⟩
  · exact ⟨rfl,rfl,rfl,rfl,rfl,rfl,rfl,rfl⟩

theorem take_in_quiet (data : List UInt8) (push : Bool) (chunk : List UInt8) (s : TcpSession) :
    Quiet s (take_in data push chunk s) := by
  have stored : Quiet s { s with
      recv_buffer := patch s.recv_buffer s.recv_offset chunk
      recv_offset := s.recv_offset + chunk.length
      send_win := s.send_win - chunk.length } := ⟨rfl,rfl,rfl,rfl,rfl,rfl,rfl,rfl⟩
  unfold take_in
  dsimp only
  split
  · exact quiet_trans stored (deliver_quiet data _)
  · exact stored

theorem push_data_loop_quiet {data : List UInt8}
    (done : tcp_push_data_loop data push fuel i s = .ok s') : Quiet s s' := by
  induction fuel generalizing i s with
  | zero => cases done
  | succ fuel ih => ?_
  unfold tcp_push_data_loop at done
  split at done
  · exact quiet_trans (take_in_quiet data push _ s) (ih done)
  · cases done
    exact quiet_refl _

theorem push_oos_quiet
    (done : libtcp_push_oos z oos force_ack s = .ok (force_ack', s')) : Quiet s s' := by
  induction oos generalizing s force_ack with
  | nil =>
    cases done
    exact ⟨rfl,rfl,rfl,rfl,rfl,rfl,rfl,rfl⟩
  | cons seg oos ih => ?_
  unfold libtcp_push_oos at done
  split at done
  · split at done
    · exact ih done
    · obtain ⟨t,pushed,rest⟩ := bind_ok done
      have later : Quiet t s' := by
        refine quiet_trans ?_ (ih rest)
        exact ⟨rfl,rfl,rfl,rfl,rfl,rfl,rfl,rfl⟩
      exact quiet_trans (push_data_loop_quiet pushed) later
  · cases done
    exact ⟨rfl,rfl,rfl,rfl,rfl,rfl,rfl,rfl⟩

theorem push_data_quiet {data : List UInt8}
    (done : libtcp_push_data z hdr data s = .ok s') : Quiet s s' := by
  obtain ⟨t,pushed,rest⟩ := bind_ok done
  obtain ⟨⟨force_ack,u⟩,looped,ran⟩ := bind_ok rest
  cases ran
  refine quiet_trans (push_data_loop_quiet pushed) (quiet_trans (push_oos_quiet looped) ?_)
  split
  · exact controlpkt_quiet .ack u
  · exact quiet_refl u

end

/- What is accepted. -/

/-- The send buffer is filled up to the offset, and queued segments are not empty. -/
structure Shape (s : TcpSession) : Prop where
  mss : 0 < s.send_mss
  offset : (s.send_buffer.getD []).length = s.send_offset
  full : ∀ seg ∈ s.unsent, seg.data ≠ []

structure Appends (data : List UInt8) (s s' : TcpSession) : Prop where
  state : s'.state = s.state
  unacked : s'.unacked = s.unacked
  curr_seq : s'.curr_seq = s.curr_seq
  log : s'.log = s.log
  waiting : waiting s' = waiting s ++ data
  shape : Shape s'

section
variable {s s' s'' : TcpSession} {w z : Nat} {data chunk buffer : List UInt8}

theorem appends_trans (first : Appends chunk s s') (second : Appends data s' s'') :
    Appends (chunk ++ data) s s'' where
  state := second.state.trans first.state
  unacked := second.unacked.trans first.unacked
  curr_seq := second.curr_seq.trans first.curr_seq
  log := second.log.trans first.log
  waiting := by rw [second.waiting, first.waiting, append_assoc]
  shape := second.shape

theorem appends_refl (shape : Shape s) : Appends [] s s :=
  ⟨rfl, rfl, rfl, rfl, (append_nil _).symm, shape⟩

theorem enqueue_fails (room : s.memory.headD true = false) :
    tcp_enqueue_send_buffer s = { s with memory := s.memory.tail } := by
  simp only [tcp_enqueue_send_buffer, mem_alloc, room, Bool.false_eq_true, if_false]

theorem enqueue_moves (room : s.memory.headD true = true) : tcp_enqueue_send_buffer s = { s with
      memory := s.memory.tail.tail
      unsent := ⟨(s.send_buffer.getD []).take s.send_offset, 0, false⟩ :: s.unsent
      send_offset := 0
      send_buffer := if s.memory.tail.headD true then some [] else none } := by
  simp only [tcp_enqueue_send_buffer, mem_alloc, room, if_true]

theorem enqueue_appends (shape : Shape s) (some_bytes : s.send_offset ≠ 0) :
    Appends [] s (tcp_enqueue_send_buffer s) := by
  obtain ⟨mss,offset,full⟩ := shape
  cases room : s.memory.headD true with
  | false =>
    rw [enqueue_fails room]
    exact ⟨rfl,rfl,rfl,rfl,(append_nil _).symm,mss,offset,full⟩
  | true => ?_
  rw [enqueue_moves room]
  refine ⟨rfl,rfl,rfl,rfl,?_,mss,?_,?_⟩
  · simp [waiting, bytes]
  · dsimp only
    split <;> rfl
  intro seg mem
  rcases mem_cons.mp mem with rfl | old
  · intro none_
    have length := congrArg List.length none_
    rw [length_take, length_nil] at length
    omega
  · exact full seg old

theorem fill_appends (chunk : List UInt8) (shape : Shape s) (here : s.send_buffer = some buffer) :
    Appends chunk s (fill buffer chunk s) := by
  obtain ⟨mss,offset,full⟩ := shape
  rw [here, Option.getD_some] at offset
  have stored : patch buffer s.send_offset chunk = buffer ++ chunk := by
    rw [← offset]
    simp [patch]
  have appends : Appends chunk s { s with
      send_buffer := some (patch buffer s.send_offset chunk)
      send_offset := s.send_offset + chunk.length } := by
    refine ⟨rfl,rfl,rfl,rfl,?_,mss,?_,full⟩
    · have all : (buffer ++ chunk).take (s.send_offset + chunk.length) = buffer ++ chunk := by
        rw [take_of_length_le (by rw [length_append]; omega)]
      have old : buffer.take s.send_offset = buffer := take_of_length_le (by omega)
      simp [waiting, here, stored, all, old]
    · simp [stored, offset]
  unfold fill
  dsimp only
  split
  case isTrue queue =>
    have both := appends_trans appends (enqueue_appends appends.shape (by dsimp only; omega))
    rw [append_nil] at both
    exact both
  case isFalse => exact appends

theorem send_loop_appends (small : data.length < 2 ^ w) (inside : i ≤ data.length)
    (shape : Shape s) (done : tcp_send_loop w data fuel i s = .ok s') :
    Appends (data.drop i) s s' := by
  induction fuel generalizing i s with
  | zero => cases done
  | succ fuel ih => ?_
  unfold tcp_send_loop at done
  split at done
  case isTrue more =>
    have sz1 : (data.length - i) % 2 ^ w = data.length - i := Nat.mod_eq_of_lt (by omega)
    simp only [sz1] at done
    generalize size : (if data.length - i > s.send_mss - s.send_offset then
      s.send_mss - s.send_offset else data.length - i) = chunksz at done
    have short : chunksz ≤ data.length - i := by
      rw [← size]
      split <;> omega
    have next : (i + chunksz) % 2 ^ w = i + chunksz := Nat.mod_eq_of_lt (by omega)
    have cut : data.drop i = slice data i chunksz ++ data.drop (i + chunksz) := by
      rw [← drop_drop]
      exact (take_append_drop chunksz (data.drop i)).symm
    split at done
    · cases done
    case h_2 buffer here =>
      rw [next] at done
      have filled := fill_appends (slice data i chunksz) shape here
      rw [cut]
      exact appends_trans filled (ih (by omega) filled.shape done)
  case isFalse finished =>
    cases done
    rw [drop_eq_nil_of_le (by omega)]
    exact appends_refl shape

theorem reserve_appends (shape : Shape s) : Appends [] s (reserve s).2 := by
  obtain ⟨mss,offset,full⟩ := shape
  unfold reserve mem_alloc
  split
  case isTrue none_ =>
    rw [none_] at offset
    cases s.memory.headD true with
    | true => exact ⟨rfl,rfl,rfl,rfl,by simp [waiting, none_],mss,offset,full⟩
    | false =>
      refine ⟨rfl,rfl,rfl,rfl,(append_nil _).symm,mss,?_,full⟩
      simp only [none_]
      exact offset
  case isFalse => exact appends_refl ⟨mss,offset,full⟩

theorem send_appends (small : data.length < 2 ^ w) (shape : Shape s)
    (ready : s.state = .established) (done : tcp_send w data s = .ok (result, s')) :
    Appends (if result = .done then data else []) s s' := by
  unfold tcp_send at done
  rw [if_neg (by simp [ready])] at done
  have reserved := reserve_appends shape
  generalize reserve s = reserve_ at done reserved
  obtain ⟨room,t⟩ := reserve_
  cases room with
  | false =>
    cases done
    exact reserved
  | true => ?_
  obtain ⟨u,looped,ran⟩ := bind_ok done
  cases ran
  have all := send_loop_appends small (Nat.zero_le _) reserved.shape looped
  have both := appends_trans reserved all
  exact both

end

/- The invariant. -/

/-- `accepted` are the bytes of the application, the first `confirmed` of them acknowledged. -/
structure Sending (isn : Nat) (accepted : List UInt8) (confirmed : Nat) (s : TcpSession) :
    Prop where
  state : s.state = .established
  shape : Shape s
  small : isn + accepted.length < 2 ^ 32
  acked : confirmed ≤ accepted.length
  runs : Runs (isn + confirmed) s.unacked s.curr_seq
  full : ∀ seg ∈ s.unacked, seg.data ≠ []
  kept : accepted.drop confirmed = kept s
  sent : ∀ p ∈ packets s.log, ∃ i, p.2 = isn + i ∧ p.1 = slice accepted i p.1.length ∧
    p.2 + p.1.length ≤ s.curr_seq ∧ p.1 ≠ []
  order : (packets s.log).Pairwise (fun p q => p.2 < q.2)

section
variable {isn confirmed z w : Nat} {accepted data : List UInt8} {s s' : TcpSession} {seg : TcpSeg}

theorem sending_number (going : Sending isn accepted confirmed s) :
    s.curr_seq = isn + (confirmed + (bytes s.unacked).length) ∧
      accepted.drop (confirmed + (bytes s.unacked).length) = waiting s ∧
      confirmed + (bytes s.unacked).length + (waiting s).length = accepted.length := by
  have number := runs_length going.runs
  have rest : accepted.drop (confirmed + (bytes s.unacked).length) = waiting s := by
    rw [← drop_drop, going.kept, kept, drop_left]
  have length := congrArg List.length going.kept
  have acked := going.acked
  rw [kept, length_append, length_drop] at length
  exact ⟨by omega,rest,by omega⟩

theorem quiet_sending (quiet : Quiet s s') (going : Sending isn accepted confirmed s) :
    Sending isn accepted confirmed s' := by
  obtain ⟨state,send_mss,send_buffer,send_offset,unsent,unacked,curr_seq,packets⟩ := quiet
  obtain ⟨mss,offset,full⟩ := going.shape
  have same : waiting s' = waiting s := by
    unfold waiting
    rw [unsent, send_buffer, send_offset]
  refine ⟨state.trans going.state,⟨?_,?_,?_⟩,going.small,going.acked,?_,?_,?_,?_,?_⟩
  · rw [send_mss]
    exact mss
  · rw [send_buffer, send_offset]
    exact offset
  · rw [unsent]
    exact full
  · rw [unacked, curr_seq]
    exact going.runs
  · rw [unacked]
    exact going.full
  · rw [going.kept, kept, kept, same, unacked]
  · rw [packets, curr_seq]
    exact going.sent
  · rw [packets]
    exact going.order

theorem slice_append (inside : i + n ≤ xs.length) : slice (xs ++ ys) i n = slice xs i n := by
  unfold slice
  rw [drop_append_of_le_length (by omega), take_append_of_le_length]
  rw [length_drop]
  omega

theorem appends_sending (appends : Appends data s s') (going : Sending isn accepted confirmed s)
    (small : isn + (accepted ++ data).length < 2 ^ 32) :
    Sending isn (accepted ++ data) confirmed s' := by
  obtain ⟨state,unacked,curr_seq,log,more,shape⟩ := appends
  obtain ⟨number,-,total⟩ := sending_number going
  refine ⟨state.trans going.state,shape,small,?_,?_,?_,?_,?_,?_⟩
  · rw [length_append]
    omega
  · rw [unacked, curr_seq]
    exact going.runs
  · rw [unacked]
    exact going.full
  · rw [drop_append_of_le_length going.acked, going.kept, kept, kept, unacked, more, append_assoc]
  · rw [log, curr_seq]
    intro p mem
    obtain ⟨i,place,same,below,some_bytes⟩ := going.sent p mem
    refine ⟨i,place,?_,below,some_bytes⟩
    rw [slice_append (by omega)]
    exact same
  · rw [log]
    exact going.order

theorem transmit_fields (seg : TcpSeg) (s : TcpSession) :
    ∃ memory acked log, transmit seg s = { s with
        memory := memory
        acked := acked
        log := log
        curr_seq := word (s.curr_seq + seg.data.length)
        unacked := insert_segment { seg with seq := s.curr_seq } s.unacked } ∧
      (packets log = packets s.log ∨ packets log = packets s.log ++ [(seg.data, s.curr_seq)]) := by
  cases room : s.memory.headD true with
  | false =>
    refine ⟨s.memory.tail,s.acked,s.log,?_,.inl rfl⟩
    simp only [transmit, tcp_send_datapkt, mem_alloc, room, Bool.false_eq_true, if_false]
  | true => ?_
  refine ⟨s.memory.tail,s.to_ack,
    s.log ++ [.datapkt seg.data s.curr_seq s.to_ack s.send_win],?_,.inr ?_⟩
  · simp only [transmit, tcp_send_datapkt, mem_alloc, room, if_true, emit]
  · simp [packets_append, packets]

theorem transmit_sending (going : Sending isn accepted confirmed s) (one : s.unsent = [seg]) :
    Sending isn accepted confirmed (transmit seg { s with unsent := [] }) := by
  obtain ⟨number,rest,total⟩ := sending_number going
  obtain ⟨mss,offset,full⟩ := going.shape
  have some_bytes : seg.data ≠ [] := full seg (by rw [one]; exact mem_cons_self)
  have first : waiting s = seg.data ++ (s.send_buffer.getD []).take s.send_offset := by
    simp [waiting, one, bytes]
  have length := congrArg List.length first
  rw [length_append] at length
  have small := going.small
  have next : word (s.curr_seq + seg.data.length) = s.curr_seq + seg.data.length :=
    Nat.mod_eq_of_lt (by omega)
  obtain ⟨inserted,runs⟩ := insert_last going.runs going.full
    (rfl : ({ seg with seq := s.curr_seq } : TcpSeg).seq = s.curr_seq)
  have piece : seg.data = slice accepted
      (confirmed + (bytes s.unacked).length) seg.data.length := by
    rw [slice, rest, first, take_left]
  obtain ⟨memory,acked,log,same,sent⟩ := transmit_fields seg { s with unsent := [] }
  have before : ∀ p ∈ packets s.log, ∃ i, p.2 = isn + i ∧ p.1 = slice accepted i p.1.length ∧
      p.2 + p.1.length ≤ s.curr_seq + seg.data.length ∧ p.1 ≠ [] := by
    intro p mem
    obtain ⟨i,place,bytes,below,nonempty⟩ := going.sent p mem
    exact ⟨i,place,bytes,by omega,nonempty⟩
  rw [same]
  rw [inserted, next]
  refine ⟨going.state,⟨mss,offset,by simp⟩,small,going.acked,runs,?_,?_,?_,?_⟩
  · intro e mem
    rcases mem_append.mp mem with old | new
    · exact going.full e old
    · rw [mem_singleton.mp new]
      exact some_bytes
  · rw [going.kept, kept, kept, first]
    simp [waiting, bytes]
  · dsimp only
    intro p mem
    rcases sent with none_ | new
    · rw [none_] at mem
      exact before p mem
    · rw [new] at mem
      rcases mem_append.mp mem with old | here
      · exact before p old
      · rw [mem_singleton.mp here]
        exact ⟨_,number,piece,Nat.le_refl _,some_bytes⟩
  · dsimp only
    rcases sent with none_ | new
    · rw [none_]
      exact going.order
    rw [new]
    refine pairwise_append.mpr ⟨going.order,pairwise_singleton _ _,?_⟩
    intro p mem q here
    rw [mem_singleton.mp here]
    obtain ⟨i,-,-,below,nonempty⟩ := going.sent p mem
    have positive := length_pos_iff.mpr nonempty
    dsimp only
    omega

theorem do_send_sending (going : Sending isn accepted confirmed s) (alone : s.unsent.length ≤ 1)
    (open_ : s.recv_mss ≤ s.recv_win ∨ s.unsent = [] ∧ s.send_offset = 0)
    (done : tcp_do_send s = .ok s') : Sending isn accepted confirmed s' := by
  cases queue : s.unsent with
  | cons seg more =>
    have none_ : more = [] := by
      rw [queue, length_cons] at alone
      exact eq_nil_of_length_eq_zero (by omega)
    have window : ¬ s.recv_win < s.recv_mss := by
      rcases open_ with wide | ⟨empty,-⟩
      · omega
      · rw [queue] at empty
        cases empty
    rw [none_] at queue
    rw [do_send_queued queue] at done
    simp only [tcp_do_send_segment, window, if_false] at done
    cases done
    exact transmit_sending going queue
  | nil =>
    rw [do_send_empty queue] at done
    split at done
    case isTrue some_bytes =>
      have window : ¬ s.recv_win < s.recv_mss := by
        rcases open_ with wide | ⟨-,empty⟩
        · omega
        · exact absurd empty some_bytes.2
      have appends := enqueue_appends going.shape some_bytes.2
      have queued := appends_sending appends going (by rw [append_nil]; exact going.small)
      rw [append_nil] at queued
      cases room : s.memory.headD true with
      | false =>
        rw [enqueue_fails room] at done
        simp only [pop_unsent, queue, List.head?_nil, tcp_do_send_segment, window, if_false] at done
        cases done
      | true => ?_
      have one : (tcp_enqueue_send_buffer s).unsent =
          [⟨(s.send_buffer.getD []).take s.send_offset,0,false⟩] := by
        rw [enqueue_moves room, queue]
      have window' : ¬ (tcp_enqueue_send_buffer s).recv_win <
          (tcp_enqueue_send_buffer s).recv_mss := by
        rw [enqueue_moves room]
        exact window
      simp only [pop_unsent, one, List.head?_cons, tail_cons, tcp_do_send_segment, window',
        if_false] at done
      cases done
      exact transmit_sending queued one
    case isFalse =>
      split at done
      · cases done
        exact quiet_sending (controlpkt_quiet .ack s) going
      · unfold tcp_do_send_segment at done
        split at done
        · cases done
          exact going
        · cases done

/- Runs: the application sends, the peer answers, and timers fire. -/

inductive Event where
  | send (data : List UInt8) (memory : List Bool)
  | push (hdr : TcpHdr) (data : List UInt8) (position : Nat) (memory : List Bool)
  | period (memory : List Bool)
  | retransmission (i : Nat) (memory : List Bool)

/-- The session, the bytes that `tcp_send` has accepted, and how many of them the peer has
    acknowledged in a segment that was not kept for later. -/
structure World where
  session : TcpSession
  accepted : List UInt8
  confirmed : Nat

section
variable (w z isn : Nat)

def answer (hdr : TcpHdr) (position : Nat) : TcpHdr := { hdr with th_ack := word (isn + position) }

def exec (s : World) : Event → Except Fault World
  | .send data memory => do
    let (result, session) ← tcp_send w data (given memory s.session)
    .ok
      { s with session := session, accepted := s.accepted ++ (if result = .done then data else []) }
  | .push hdr data position memory => do
    let session ← libtcp_push z (answer isn hdr position) data (given memory s.session)
    .ok { s with
      session := session
      confirmed := if hdr.th_seq > s.session.to_ack then s.confirmed else max s.confirmed position }
  | .period memory => do
    let session ← tcp_period (given memory s.session)
    .ok { s with session := session }
  | .retransmission i memory => do
    let session ← tcp_retransmission z i (given memory s.session)
    .ok { s with session := session }

/-- A connection that was just established, with `isn` the number of the first byte to be sent. The
    receiving side is in any state. -/
structure Fresh (s : TcpSession) : Prop where
  state : s.state = .established
  send_mss : 0 < s.send_mss
  send_buffer : s.send_buffer = none
  send_offset : s.send_offset = 0
  unsent : s.unsent = []
  unacked : s.unacked = []
  curr_seq : s.curr_seq = isn
  small : isn < 2 ^ 32
  packets : packets s.log = []

def tcpMachine : Machine World Event :=
  ofExec (fun s => Fresh isn s.session ∧ s.accepted = [] ∧ s.confirmed = 0) (exec w z isn)

instance (s : World) (e : Event) : Decidable ((tcpMachine w z isn).enabled s e) :=
  inferInstanceAs (Decidable (_ = true))

/-- `tcp_do_send` finds at most one segment in its queue, and an open window if there is something
    to send. -/
def CanSend (s : TcpSession) : Prop :=
  s.unsent.length ≤ 1 ∧ (s.recv_mss ≤ s.recv_win ∨ s.unsent = [] ∧ s.send_offset = 0)

instance (s : TcpSession) : Decidable (CanSend s) := instDecidableAnd

/-- The numbers do not wrap, the peer acknowledges what was sent, and no timer of a segment fires
    before the segment is acknowledged. -/
def InDomain (s : World) : Event → Prop
  | .send data _ => data.length < 2 ^ w ∧ isn + (s.accepted ++ data).length < 2 ^ 32
  | .push hdr _ position _ => hdr.syn = false ∧ hdr.fin = false ∧
      isn + position ≤ s.session.curr_seq ∧ (hdr.th_seq > s.session.to_ack → CanSend s.session)
  | .period _ => CanSend s.session
  | .retransmission i _ => s.session.unacked.length ≤ i

instance (s : World) : (e : Event) → Decidable (InDomain w isn s e)
  | .send _ _ => instDecidableAnd
  | .push _ _ _ _ => instDecidableAnd
  | .period _ => inferInstanceAs (Decidable (CanSend s.session))
  | .retransmission _ _ => inferInstanceAs (Decidable (_ ≤ _))

end

theorem given_quiet (memory : List Bool) (s : TcpSession) : Quiet s (given memory s) :=
  ⟨rfl, rfl, rfl, rfl, rfl, rfl, rfl, rfl⟩

theorem noted_sending (going : Sending isn accepted confirmed s) (wide : 32 ≤ z) (hdr : TcpHdr)
    (length : Nat) (real : isn + position ≤ s.curr_seq)
    (all : ∀ seg ∈ s.unacked, (seg.seq + seg.data.length) % 2 ^ z ≤ word (isn + position)) :
    Sending isn accepted (max confirmed position) (noted (answer isn hdr position) length s) := by
  obtain ⟨number,rest,total⟩ := sending_number going
  have small := going.small
  have room : 2 ^ 32 ≤ 2 ^ z := Nat.pow_le_pow_right (by decide) wide
  have ack : word (isn + position) = isn + position := Nat.mod_eq_of_lt (by omega)
  have every : max confirmed position = confirmed + (bytes s.unacked).length := by
    by_cases none_ : s.unacked = []
    · rw [none_] at number ⊢
      simp only [bytes, flatMap_nil, length_nil] at number ⊢
      omega
    · obtain ⟨seg,mem,end_⟩ := runs_last going.runs none_
      have covered := all seg mem
      rw [Nat.mod_eq_of_lt (by omega)] at covered
      omega
  rw [every]
  obtain ⟨mss,offset,full⟩ := going.shape
  refine ⟨going.state,⟨mss,offset,full⟩,small,by omega,?_,?_,?_,going.sent,going.order⟩
  · exact number.symm
  · intro seg mem
    cases mem
  · rw [rest]
    exact (nil_append _).symm

theorem exec_sending (wide : 32 ≤ z) (domain : InDomain w isn t e)
    (going : Sending isn t.accepted t.confirmed t.session) (done : exec w z isn t e = .ok t') :
    Sending isn t'.accepted t'.confirmed t'.session := by
  have ready : ∀ memory, Sending isn t.accepted t.confirmed (given memory t.session) :=
    fun memory => quiet_sending (given_quiet memory _) going
  cases e with
  | send data memory =>
    obtain ⟨short,small⟩ := domain
    obtain ⟨⟨errno,u⟩,sent,ran⟩ := bind_ok done
    cases ran
    refine appends_sending (send_appends short (ready memory).shape going.state sent)
      (ready memory) ?_
    split
    · exact small
    · rw [append_nil]
      exact going.small
  | push hdr data position memory =>
    obtain ⟨syn,fin,real,can⟩ := domain
    obtain ⟨u,pushed,ran⟩ := bind_ok done
    cases ran
    by_cases ahead : hdr.th_seq > t.session.to_ack
    · obtain ⟨alone,open_⟩ := can ahead
      rw [if_pos ahead]
      have ahead' : (answer isn hdr position).th_seq > (given memory t.session).to_ack := ahead
      have sent := push_ahead (ready memory).state ahead' pushed
      have queued : Quiet t.session { given memory t.session with
          memory := memory.tail
          oos := insert_segment ⟨data,hdr.th_seq,hdr.push⟩ t.session.oos } :=
        ⟨rfl,rfl,rfl,rfl,rfl,rfl,rfl,rfl⟩
      exact do_send_sending (quiet_sending queued going) alone open_ sent
    rw [if_neg ahead]
    have late : ¬ (answer isn hdr position).th_seq > (given memory t.session).to_ack := ahead
    have plain : (answer isn hdr position).syn = false := syn
    obtain ⟨all,rest⟩ := push_established (ready memory).state plain fin late pushed
    have acknowledged := noted_sending (ready memory) wide hdr data.length real all
    rcases rest with ⟨-,rfl⟩ | ⟨-,rest⟩
    · exact acknowledged
    · exact quiet_sending (push_data_quiet rest) acknowledged
  | period memory =>
    obtain ⟨alone,open_⟩ := domain
    obtain ⟨u,sent,ran⟩ := bind_ok done
    cases ran
    unfold tcp_period at sent
    rw [if_pos (ready memory).state] at sent
    exact do_send_sending (ready memory) alone open_ sent
  | retransmission i memory =>
    have none_ : t.session.unacked[i]? = none := List.getElem?_eq_none_iff.mpr domain
    simp only [exec, tcp_retransmission, given, none_] at done
    cases done
    exact ready memory

theorem fresh_sending (fresh : Fresh isn s) : Sending isn [] 0 s := by
  obtain ⟨state,mss,buffer,offset,unsent,unacked,curr_seq,small,none_⟩ := fresh
  refine ⟨state,⟨mss,?_,?_⟩,small,Nat.le_refl 0,?_,?_,?_,?_,?_⟩
  · rw [buffer, offset]
    rfl
  · rw [unsent]
    simp
  · rw [unacked, curr_seq]
    rfl
  · rw [unacked]
    simp
  · simp [kept, waiting, bytes, unacked, unsent, buffer]
  · rw [none_]
    simp
  · rw [none_]
    exact List.Pairwise.nil

theorem reached_sending (wide : 32 ≤ z)
    (reached : Reached (restrict (tcpMachine w z isn) (InDomain w isn)) t) :
    Sending isn t.accepted t.confirmed t.session := by
  refine reached_exec (fun t => Sending isn t.accepted t.confirmed t.session) ?_ ?_ reached
  · rintro t ⟨fresh,empty,zero⟩
    rw [empty, zero]
    exact fresh_sending fresh
  · intro t e t' going domain done
    exact exec_sending wide domain going done

end

/-- Each packet has the bytes at the position of its number, every byte that is not acknowledged is
    kept once and in order, and the numbers of the packets increase. -/
theorem tcp_sends_stream (w z : Nat) (wide : 32 ≤ z) (isn : Nat) (s : World)
    (reached : Reached (restrict (tcpMachine w z isn) (InDomain w isn)) s) :
    (∀ p ∈ packets s.session.log, ∃ i, p.2 = word (isn + i) ∧ i + p.1.length ≤ s.accepted.length ∧
        p.1 = slice s.accepted i p.1.length) ∧
      s.accepted.drop s.confirmed = kept s.session ∧
      (packets s.session.log).Pairwise (fun p q => p.2 < q.2) := by
  have going := reached_sending wide reached
  obtain ⟨number,-,total⟩ := sending_number going
  have small := going.small
  refine ⟨?_,going.kept,going.order⟩
  intro p mem
  obtain ⟨i,place,same,below,-⟩ := going.sent p mem
  refine ⟨i,?_,by omega,same⟩
  rw [place]
  exact (Nat.mod_eq_of_lt (by omega)).symm

def idle (recv_win : Nat) : World :=
  ⟨{ state := .established, curr_seq := 100, to_ack := 7, acked := 7, send_win := TCP_DFL_WINDOW,
     send_mss := 2, recv_seq := 6, recv_win := recv_win, recv_mss := 600, oos := [], unacked := [],
     unsent := [], recv_buffer := [], recv_offset := 0, send_buffer := none, send_offset := 0,
     last_ack := 100, receive := true, close := true, accept := false, memory := [],
     log := [] }, [], 0⟩

theorem idle_fresh (recv_win : Nat) : Fresh 100 (idle recv_win).session :=
  ⟨rfl, by change 0 < 2; omega, rfl, rfl, rfl, rfl, rfl, by omega, rfl⟩

def acknowledges (position : Nat) : Event :=
  .push ⟨7, 0, 1000, false, false, false, true, none⟩ [] position []

def talked : World :=
  after (tcpMachine 16 32 100) (idle 1000)
    [.send [1, 2, 3] [], .period [], acknowledges 2, .send [4] [], .period []]

theorem tcp_sends_stream_talked :
    packets talked.session.log = [([1, 2], 100), ([3, 4], 102)] ∧ talked.accepted = [1, 2, 3, 4] ∧
      talked.confirmed = 2 ∧
      ((∀ p ∈ packets talked.session.log, ∃ i, p.2 = word (100 + i) ∧
          i + p.1.length ≤ talked.accepted.length ∧ p.1 = slice talked.accepted i p.1.length) ∧
        talked.accepted.drop talked.confirmed = kept talked.session ∧
        (packets talked.session.log).Pairwise (fun p q => p.2 < q.2)) := by
  refine ⟨by decide +kernel,by decide +kernel,by decide +kernel,?_⟩
  refine tcp_sends_stream 16 32 (by decide) 100 talked ?_
  exact reached_of_allowed (restrict (tcpMachine 16 32 100) (InDomain 16 100)) (idle 1000)
    [.send [1, 2, 3] [], .period [], acknowledges 2, .send [4] [], .period []]
    ⟨idle_fresh _,rfl,rfl⟩ (by decide +kernel)

/-- A call whose size is a multiple of what the counter of the loop can hold stores nothing. -/
theorem send_loop_endless {w : Nat} {data : List UInt8} (multiple : data.length % 2 ^ w = 0)
    (some_data : 0 < data.length) (fuel : Nat) {s : TcpSession} {buffer : List UInt8}
    (here : s.send_buffer = some buffer) (room : s.send_offset < s.send_mss) :
    tcp_send_loop w data fuel 0 s = .error .endless := by
  induction fuel generalizing s buffer with
  | zero => rfl
  | succ fuel ih => ?_
  have nothing : slice data 0 0 = [] := by simp [slice]
  have same : fill buffer [] s =
      { s with send_buffer := some (patch buffer s.send_offset []) } := by
    unfold fill
    rw [if_neg (by simp only [length_nil]; omega)]
    rfl
  unfold tcp_send_loop
  rw [if_pos some_data]
  simp only [Nat.sub_zero, multiple, Nat.not_lt_zero, if_false, here, nothing, same]
  exact ih rfl room

theorem send_endless {w : Nat} {data : List UInt8} (multiple : data.length % 2 ^ w = 0)
    (some_data : 0 < data.length) {s : TcpSession} (ready : s.state = .established)
    (none_ : s.send_buffer = none) (room : s.send_offset < s.send_mss)
    (memory : s.memory.headD true = true) : tcp_send w data s = .error .endless := by
  have reserved : reserve s =
      (true, { s with memory := s.memory.tail, send_buffer := some [] }) := by
    simp only [reserve, none_, mem_alloc, memory, if_true]
  unfold tcp_send
  rw [if_neg (by simp [ready]), reserved]
  dsimp only
  rw [if_pos rfl, send_loop_endless
    (s := { s with memory := s.memory.tail, send_buffer := some [] }) multiple some_data _ rfl room]
  rfl

def ran (recv_win : Nat) (events : List Event) : TcpSession :=
  (after (tcpMachine 16 32 100) (idle recv_win) events).session

/-- Of two segments that wait, the later one is sent first, with the number of the other; a segment
    is lost when the window is closed; it is repeated with another number; an answer that does not
    acknowledge everything, or a call with 65536 bytes, does not end. -/
theorem sending_breaks_stream :
    packets (ran 1000 [.send [1, 2, 3, 4] [], .period []]).log = [([3, 4], 100)] ∧
    kept (ran 100 [.send [1] [], .period []]) = [] ∧
      packets (ran 100 [.send [1] [], .period []]).log = [] ∧
    packets (ran 1000 [.send [1] [], .period [], .retransmission 0 []]).log =
      [([1], 100), ([1], 101)] ∧
    libtcp_push 32 ⟨7, 100, 1000, false, false, false, true, none⟩ []
      (ran 1000 [.send [1] [], .period []]) = .error .endless ∧
    tcp_send 16 (List.replicate 65536 0) (idle 1000).session = .error .endless := by
  refine ⟨by decide +kernel,by decide +kernel,by decide +kernel,by decide +kernel,
    by decide +kernel,?_⟩
  have length : (List.replicate 65536 (0 : UInt8)).length = 65536 := length_replicate
  exact send_endless (by rw [length]; rfl) (by rw [length]; omega) rfl rfl
    (by change 0 < 2; omega) rfl

end MutekTcpSend
