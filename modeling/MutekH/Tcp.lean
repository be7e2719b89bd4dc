import Mathlib.Algebra.Ring.Nat
import MutekH.Lib.Bytes
import MutekH.Lib.Machine

/-!
TCP sessions (libtcp/libtcp.c, with the packets of protocols/tcp.c). `uint_fast32_t` has 32 bits,
`uint_fast16_t` has `w`; the sum of a sequence number and a `size_t` has `z`.
-/
namespace MutekTcp
open LibBytes

def TCP_DFL_WINDOW : Nat := 4096

def TCP_MSS : Nat := 512

def TCP_HEADERS_LEN : Nat := 40

def word (n : Nat) : Nat := n % 2 ^ 32

inductive TcpState where
  | error | syn_sent | syn_rcvd | listen | fin_wait1 | fin_wait2 | closing | time_wait | close_wait
  | last_ack | established | closed
  deriving DecidableEq

inductive Operation where
  | syn | syn_ack | ack | fin
  deriving DecidableEq

/-- What a session does to the rest: packets for IP, calls of the application, the closing timer. -/
inductive Output where
  | controlpkt (operation : Operation) (seq ack win : Nat)
  | datapkt (data : List UInt8) (seq ack win : Nat)
  | connect
  | receive (data : List UInt8)
  | close
  | accept
  | close_timeout
  deriving DecidableEq

structure TcpHdr where
  th_seq : Nat
  th_ack : Nat
  th_win : Nat
  fin : Bool
  syn : Bool
  push : Bool
  ack : Bool
  option : Option Nat
  deriving DecidableEq

/-- `net_tcp_seg_s`. Its size is the length of `data`; `push` is that of a received segment. -/
structure TcpSeg where
  data : List UInt8
  seq : Nat
  push : Bool
  deriving DecidableEq

/-- `net_tcp_session_s`. Of a send buffer, the bytes that were stored into it. `memory` says which
    of the next allocations succeed, `log` what has gone out. -/
structure TcpSession where
  state : TcpState
  curr_seq : Nat
  to_ack : Nat
  acked : Nat
  send_win : Nat
  send_mss : Nat
  recv_seq : Nat
  recv_win : Nat
  recv_mss : Nat
  oos : List TcpSeg
  unacked : List TcpSeg
  unsent : List TcpSeg
  recv_buffer : List UInt8
  recv_offset : Nat
  send_buffer : Option (List UInt8)
  send_offset : Nat
  last_ack : Nat
  receive : Bool
  close : Bool
  accept : Bool
  memory : List Bool
  log : List Output
  deriving DecidableEq

/-- `NULL` is dereferenced, a loop does not end, or a segment is freed that is still queued. -/
inductive Fault where
  | null_pointer
  | endless
  | freed
  deriving DecidableEq

variable (z : Nat) (hdr : TcpHdr) (data : List UInt8) (s : TcpSession)

def mem_alloc : Bool × TcpSession :=
  (s.memory.headD true, { s with memory := s.memory.tail })

def given (memory : List Bool) (s : TcpSession) : TcpSession := { s with memory := memory }

def emit (o : Output) (s : TcpSession) : TcpSession := { s with log := s.log ++ [o] }

def insert_segment (segment : TcpSeg) : List TcpSeg → List TcpSeg
  | [] => [segment]
  | e :: root => if segment.seq > e.seq then e :: insert_segment segment root
      else segment :: e :: root

/- Sending. -/

def tcp_send_controlpkt (operation : Operation) (s : TcpSession) : TcpSession :=
  let (room, s) := mem_alloc s
  if room then
    emit (.controlpkt operation s.curr_seq (if operation = .syn then 0 else s.to_ack) s.send_win)
      { s with acked := s.to_ack }
  else s

def tcp_send_datapkt : TcpSession :=
  let (room, s) := mem_alloc s
  if room then emit (.datapkt data s.curr_seq s.to_ack s.send_win) { s with acked := s.to_ack }
  else s

def tcp_enqueue_send_buffer : TcpSession :=
  let (room, s) := mem_alloc s
  if room then
    let seg : TcpSeg := ⟨(s.send_buffer.getD []).take s.send_offset, 0, false⟩
    let (room, s) := mem_alloc { s with unsent := seg :: s.unsent, send_offset := 0 }
    { s with send_buffer := if room then some [] else none }
  else s

def transmit (seg : TcpSeg) (s : TcpSession) : TcpSession :=
  let s := tcp_send_datapkt seg.data s
  { s with
    curr_seq := word (s.curr_seq + seg.data.length)
    unacked := insert_segment { seg with seq := s.curr_seq } s.unacked }

def tcp_do_send_segment (seg : Option TcpSeg) (s : TcpSession) : Except Fault TcpSession :=
  if s.recv_win < s.recv_mss then .ok s
  else match seg with
    | none => .error .null_pointer
    | some seg => .ok (transmit seg s)

def pop_unsent : Option TcpSeg × TcpSession :=
  (s.unsent.head?, { s with unsent := s.unsent.tail })

def tcp_do_send : Except Fault TcpSession :=
  match pop_unsent s with
  | (some seg, s) => tcp_do_send_segment (some seg) s
  | (none, s) =>
    if s.send_buffer ≠ none ∧ s.send_offset ≠ 0 then
      let (seg, s) := pop_unsent (tcp_enqueue_send_buffer s)
      tcp_do_send_segment seg s
    else if s.to_ack ≠ s.acked then .ok (tcp_send_controlpkt .ack s)
    else tcp_do_send_segment none s

def tcp_period : Except Fault TcpSession :=
  if s.state = .established then tcp_do_send s else .ok s

def tcp_retransmission (z i : Nat) (s : TcpSession) : Except Fault TcpSession :=
  match s.unacked[i]? with
  | none => .ok s
  | some seg =>
    if (seg.seq + seg.data.length) % 2 ^ z ≤ s.last_ack then .error .freed
    else
      let offset := if seg.seq < s.last_ack then s.last_ack - seg.seq else 0
      .ok (tcp_send_datapkt (seg.data.drop offset) s)

inductive Errno where
  | done | notconn | nomem
  deriving DecidableEq

def fill (buffer chunk : List UInt8) (s : TcpSession) : TcpSession :=
  let s := { s with
    send_buffer := some (patch buffer s.send_offset chunk)
    send_offset := s.send_offset + chunk.length }
  if s.send_offset = s.send_mss then tcp_enqueue_send_buffer s else s

/-- The loop of `tcp_send` from index `i` on. A loop that takes more than `fuel` turns does not end:
    each one stores some bytes, has an allocation fail, or finds what it left. -/
def tcp_send_loop (w : Nat) (data : List UInt8) : Nat → Nat → TcpSession → Except Fault TcpSession
  | 0, _, _ => .error .endless
  | fuel + 1, i, s =>
    if i < data.length then
      let sz1 := (data.length - i) % 2 ^ w
      let sz2 := s.send_mss - s.send_offset
      let chunksz := if sz1 > sz2 then sz2 else sz1
      match s.send_buffer with
      | none => .error .null_pointer
      | some buffer =>
        tcp_send_loop w data fuel ((i + chunksz) % 2 ^ w) (fill buffer (slice data i chunksz) s)
    else .ok s

def reserve : Bool × TcpSession :=
  if s.send_buffer = none then
    let (room, s) := mem_alloc s
    (room, if room then { s with send_buffer := some [] } else s)
  else (true, s)

def tcp_send (w : Nat) (data : List UInt8) (s : TcpSession) : Except Fault (Errno × TcpSession) :=
  if s.state ≠ .established then .ok (.notconn, s)
  else
    let (buffer, s) := reserve s
    if buffer then do
      let s ← tcp_send_loop w data (data.length + s.memory.length + 1) 0 s
      .ok (.done, s)
    else .ok (.nomem, s)

/- Receiving. -/

def deliver : TcpSession :=
  { (if s.receive then emit (.receive data) s else s) with
    send_win := TCP_DFL_WINDOW, recv_offset := 0 }

/-- One turn of the loop of `tcp_push_data`: bytes are stored into the receive buffer, and the
    application is called if they are to be pushed or the window is closed. -/
def take_in (push : Bool) (chunk : List UInt8) (s : TcpSession) : TcpSession :=
  let s := { s with
    recv_buffer := patch s.recv_buffer s.recv_offset chunk
    recv_offset := s.recv_offset + chunk.length
    send_win := s.send_win - chunk.length }
  if push ∨ s.send_win = 0 then deliver data s else s

def tcp_push_data_loop (data : List UInt8) (push : Bool) :
    Nat → Nat → TcpSession → Except Fault TcpSession
  | 0, _, _ => .error .endless
  | fuel + 1, i, s =>
    if i < data.length then
      let sz1 := data.length - i
      let chunksz := if sz1 > s.send_win then s.send_win else sz1
      tcp_push_data_loop data push fuel (i + chunksz) (take_in data push (slice data i chunksz) s)
    else .ok s

def tcp_push_data (push : Bool) (s : TcpSession) : Except Fault TcpSession :=
  tcp_push_data_loop data push (data.length + 2) 0 s

def tcp_acknowledge_loop (z last_ack : Nat) : List TcpSeg → Except Fault (List TcpSeg)
  | [] => .ok []
  | seg :: unacked =>
    if last_ack ≥ (seg.seq + seg.data.length) % 2 ^ z then tcp_acknowledge_loop z last_ack unacked
    else .error .endless

def tcp_acknowledge : Except Fault TcpSession := do
  let unacked ← tcp_acknowledge_loop z s.last_ack s.unacked
  .ok { s with unacked := unacked }

def libtcp_open : TcpSession :=
  match s.state with
  | .syn_sent =>
    let s := match hdr.option with
      | some opt => if opt &&& (2 <<< 24) ≠ 0 then { s with send_mss := opt &&& 0xffff } else s
      | none => s
    if hdr.ack then
      emit .connect (tcp_send_controlpkt .ack { s with
        state := .established
        recv_seq := hdr.th_seq
        recv_win := hdr.th_win
        last_ack := hdr.th_ack
        send_buffer := none
        send_offset := 0
        to_ack := word (hdr.th_seq + 1)
        curr_seq := word (s.curr_seq + 1) })
    else
      tcp_send_controlpkt .ack { s with state := .syn_rcvd, curr_seq := word (s.curr_seq + 1) }
  | .listen =>
    let (room, s) := mem_alloc (tcp_send_controlpkt .syn_ack { s with state := .syn_rcvd })
    if room ∧ s.accept then emit .accept s else s
  | _ => s

def tcp_close_timeout : TcpSession := emit .close_timeout s

def finish : TcpSession :=
  let s := { s with state := .closed }
  tcp_close_timeout (if s.close then emit .close s else s)

def libtcp_close : TcpSession :=
  match s.state with
  | .syn_sent | .syn_rcvd =>
    tcp_close_timeout (emit .connect { tcp_send_controlpkt .fin s with state := .error })
  | .fin_wait1 =>
    let s := tcp_send_controlpkt .fin { s with state := .closing, to_ack := word (s.to_ack + 1) }
    if hdr.ack then finish s else s
  | .last_ack | .closing | .fin_wait2 =>
    finish (tcp_send_controlpkt .fin { s with to_ack := word (s.to_ack + 1) })
  | .error => s
  | _ =>
    let s := tcp_send_controlpkt .ack { s with to_ack := word (s.to_ack + 1) }
    if s.send_offset = 0 then finish (tcp_send_controlpkt .fin s)
    else { s with state := .close_wait }

/-- The loop of `libtcp_push` over the out-of-segment queue, and `force_ack`. -/
def libtcp_push_oos (z : Nat) : List TcpSeg → Bool → TcpSession → Except Fault (Bool × TcpSession)
  | [], force_ack, s => .ok (force_ack, { s with oos := [] })
  | seg :: oos, force_ack, s =>
    if seg.seq ≤ s.to_ack then
      if s.to_ack > (seg.seq + seg.data.length) % 2 ^ z then libtcp_push_oos z oos force_ack s
      else do
        let offset := s.to_ack - seg.seq
        let size := seg.data.length - offset
        let s ← tcp_push_data (slice seg.data offset size) seg.push s
        libtcp_push_oos z oos true { s with recv_seq := seg.seq, to_ack := word (seg.seq + size) }
    else .ok (force_ack, { s with oos := seg :: oos })

def libtcp_push_data :
    Except Fault TcpSession := do
  let s ← tcp_push_data data hdr.push s
  let (force_ack, s) ← libtcp_push_oos z s.oos false s
  .ok (if force_ack ∧ ¬ hdr.fin then tcp_send_controlpkt .ack s else s)

def libtcp_push :
    Except Fault TcpSession :=
  if s.state = .error then .ok s
  else if s.state = .established ∧ hdr.th_seq > s.to_ack then
    let (room, s) := mem_alloc s
    if room then tcp_do_send { s with oos := insert_segment ⟨data, hdr.th_seq, hdr.push⟩ s.oos }
    else .error .null_pointer
  else do
    let s ← tcp_acknowledge z { s with
      recv_seq := hdr.th_seq
      to_ack := word (hdr.th_seq + data.length)
      last_ack := hdr.th_ack
      recv_win := hdr.th_win }
    let s := if s.state = .syn_rcvd then { s with state := .established } else s
    let s := if hdr.syn then libtcp_open hdr s else s
    let s ← (if data = [] then .ok s else libtcp_push_data z hdr data s)
    .ok (if hdr.fin then libtcp_close hdr s else s)

/- Opening. -/

/-- The session that `tcp_open` leaves when its allocations succeed; `session` is what was in the
    memory, `curr_seq` the random number. -/
def tcp_open (session : TcpSession) (curr_seq mtu : Nat) : TcpSession :=
  tcp_send_controlpkt .syn { session with
    state := .syn_sent
    unacked := []
    unsent := []
    oos := []
    receive := false
    close := false
    accept := false
    acked := 0
    curr_seq := curr_seq
    send_win := TCP_DFL_WINDOW
    recv_buffer := []
    recv_offset := 0
    send_mss := TCP_MSS
    recv_mss := mtu - TCP_HEADERS_LEN
    log := [] }

def tcp_on_receive : TcpSession := { s with receive := true }

/- Calls that complete. -/

section
variable {s s' : TcpSession} {z : Nat}

theorem do_send_queued (queue : s.unsent = seg :: unsent) :
    tcp_do_send s = tcp_do_send_segment (some seg) { s with unsent := unsent } := by
  have popped : pop_unsent s = (some seg, { s with unsent := unsent }) := by
    unfold pop_unsent
    rw [queue]
    rfl
  unfold tcp_do_send
  rw [popped]

theorem do_send_empty (queue : s.unsent = []) :
    tcp_do_send s = if s.send_buffer ≠ none ∧ s.send_offset ≠ 0 then
        tcp_do_send_segment (pop_unsent (tcp_enqueue_send_buffer s)).1
          (pop_unsent (tcp_enqueue_send_buffer s)).2
      else if s.to_ack ≠ s.acked then .ok (tcp_send_controlpkt .ack s)
      else tcp_do_send_segment none s := by
  have popped : pop_unsent s = (none, s) := by
    unfold pop_unsent
    rw [queue]
    exact congrArg (Prod.mk none) (by rw [List.tail_nil, ← queue])
  unfold tcp_do_send
  rw [popped]

theorem acknowledge_loop_ends (done : tcp_acknowledge_loop z last_ack segments = .ok left) :
    left = [] ∧ ∀ seg ∈ segments, (seg.seq + seg.data.length) % 2 ^ z ≤ last_ack := by
  induction segments with
  | nil =>
    cases done
    exact ⟨rfl,by simp⟩
  | cons seg segments ih => ?_
  unfold tcp_acknowledge_loop at done
  split at done
  case isTrue covered =>
    obtain ⟨empty,all⟩ := ih done
    refine ⟨empty,?_⟩
    intro other mem
    rcases List.mem_cons.mp mem with rfl | later
    · exact covered
    · exact all other later
  case isFalse => cases done

theorem acknowledge_ends (done : tcp_acknowledge z s = .ok s') : s' = { s with unacked := [] } ∧
      ∀ seg ∈ s.unacked, (seg.seq + seg.data.length) % 2 ^ z ≤ s.last_ack := by
  obtain ⟨left,looped,ran⟩ := LibMachine.bind_ok done
  obtain ⟨rfl,all⟩ := acknowledge_loop_ends looped
  cases ran
  exact ⟨rfl,all⟩

/-- The session when the header of a segment that is not ahead has been looked at. -/
def noted (hdr : TcpHdr) (length : Nat) (s : TcpSession) : TcpSession :=
  { s with
    recv_seq := hdr.th_seq
    to_ack := word (hdr.th_seq + length)
    last_ack := hdr.th_ack
    recv_win := hdr.th_win
    unacked := [] }

theorem push_established {hdr : TcpHdr} {data : List UInt8} (established : s.state = .established)
    (syn : hdr.syn = false) (fin : hdr.fin = false) (late : ¬ hdr.th_seq > s.to_ack)
    (done : libtcp_push z hdr data s = .ok s') :
    (∀ seg ∈ s.unacked, (seg.seq + seg.data.length) % 2 ^ z ≤ hdr.th_ack) ∧
      (data = [] ∧ s' = noted hdr data.length s ∨
        data ≠ [] ∧ libtcp_push_data z hdr data (noted hdr data.length s) = .ok s') := by
  unfold libtcp_push at done
  rw [if_neg (by rw [established]; decide), if_neg (fun h => late h.2)] at done
  cases acknowledged : tcp_acknowledge z { s with
      recv_seq := hdr.th_seq
      to_ack := word (hdr.th_seq + data.length)
      last_ack := hdr.th_ack
      recv_win := hdr.th_win } with
  | error fault => simp [acknowledged, Bind.bind, Except.bind] at done
  | ok t =>
    obtain ⟨same,all⟩ := acknowledge_ends acknowledged
    change t = noted hdr data.length s at same
    have state : (noted hdr data.length s).state ≠ .syn_rcvd := by
      change s.state ≠ .syn_rcvd
      rw [established]
      decide
    simp only [acknowledged, same, Bind.bind, Except.bind, state, if_false, syn, fin,
      Bool.false_eq_true] at done
    refine ⟨all,?_⟩
    by_cases empty : data = []
    · rw [if_pos empty] at done
      exact .inl ⟨empty,(Except.ok.inj done).symm⟩
    rw [if_neg empty] at done
    refine .inr ⟨empty,?_⟩
    cases pushed : libtcp_push_data z hdr data (noted hdr data.length s) with
    | error fault => simp [pushed] at done
    | ok u =>
      simp only [pushed] at done
      exact done

theorem push_ahead {hdr : TcpHdr} {data : List UInt8} (established : s.state = .established)
    (ahead : hdr.th_seq > s.to_ack) (done : libtcp_push z hdr data s = .ok s') :
    tcp_do_send { s with
      memory := s.memory.tail
      oos := insert_segment ⟨data, hdr.th_seq, hdr.push⟩ s.oos } = .ok s' := by
  unfold libtcp_push mem_alloc at done
  rw [if_neg (by rw [established]; decide), if_pos ⟨established,ahead⟩] at done
  cases room : s.memory.headD true with
  | false =>
    simp only [room] at done
    cases done
  | true =>
    simp only [room] at done
    exact done

end
end MutekTcp
