import Mathlib.Algebra.Ring.Nat

/-!
Messages of several vectors on a UDP socket (libsocket/socket_udp.c). `size_t` has `z` bits, and a
vector is the bytes it points to.
-/
namespace MutekUdpVectors
open List

def MSG_OOB : Nat := 0x01
def MSG_DONTROUTE : Nat := 0x04
def MSG_TRUNC : Nat := 0x20
def MSG_EOR : Nat := 0x80
def MSG_WAITALL : Nat := 0x100
def MSG_CONFIRM : Nat := 0x800

inductive Error where
  | EINVAL
  | ENOMEM
  | EOPNOTSUPP
  | ESHUTDOWN
  | EHOSTUNREACH
  | callee (code : Nat)
  deriving DecidableEq

/-- `msg_name` tells whether there is an address. -/
structure Message where
  msg_name : Bool
  msg_iov : List (List UInt8)

structure Socket where
  shut_wr : Bool
  connected : Bool
  is_routed : Bool

/-- What the functions called return: the memory found, the errors, and the payload received. -/
structure Calls where
  mem_alloc : Nat → Option (List UInt8)
  socket_addr : Option Nat
  udp_send : Option Nat
  socket_grab_buffer : Except Nat (List UInt8)

section
variable (z flags : Nat) (calls : Calls)

/-- The packet and its size. -/
def build : List (List UInt8) → Option (List UInt8 × Nat)
  | [iov] => some (iov, iov.length)
  | iovs =>
    let n := iovs.foldl (fun n iov => (n + iov.length) % 2 ^ z) 0
    (calls.mem_alloc n).map fun buf => (buf, n)

/-- The result and the datagrams given to `udp_send`. -/
def sendmsg_udp (fd : Socket) (message : Option Message) : Except Error Nat × List (List UInt8) :=
  if flags &&& (MSG_OOB ||| MSG_EOR ||| MSG_CONFIRM) ≠ 0 then (.error .EOPNOTSUPP, [])
  else if fd.shut_wr then (.error .ESHUTDOWN, [])
  else match message with
  | none => (.error .EINVAL, [])
  | some message =>
    match build z calls message.msg_iov with
    | none => (.error .ENOMEM, [])
    | some (buf, n) =>
      let send := (match calls.udp_send with
        | some err => .error (.callee err)
        | none => .ok n, [buf.take n])
      if message.msg_name then
        match calls.socket_addr with
        | some err => (.error (.callee err), [])
        | none => send
      else if flags &&& MSG_DONTROUTE ≠ 0 ∧ fd.connected ∧ fd.is_routed then
        (.error .EHOSTUNREACH, [])
      else send

/-- The copy loop, with the bytes that were copied. -/
def scatter (data : List UInt8) : Nat → List (List UInt8) → Nat × List (List UInt8)
  | sz, [] => (sz, [])
  | sz, iov :: rest =>
    if sz < data.length then
      let chunksz :=
        if (sz + iov.length) % 2 ^ z > data.length then data.length - sz else iov.length
      let later := scatter data (sz + chunksz) rest
      (later.1, ((data.drop sz).take chunksz ++ iov.drop chunksz) :: later.2)
    else (sz, iov :: rest)

/-- The result and the vectors afterwards. -/
def recvmsg_udp (message : Option Message) : Except Error Nat × List (List UInt8) :=
  match message with
  | none => (.error (if flags &&& (MSG_OOB ||| MSG_WAITALL) ≠ 0 then .EOPNOTSUPP else .EINVAL), [])
  | some message =>
    if flags &&& (MSG_OOB ||| MSG_WAITALL) ≠ 0 then (.error .EOPNOTSUPP, message.msg_iov)
    else match calls.socket_grab_buffer, if message.msg_name then calls.socket_addr else none with
    | .error err, _ => (.error (.callee err), message.msg_iov)
    | .ok _, some err => (.error (.callee err), message.msg_iov)
    | .ok data, none =>
      let copied := scatter z data 0 message.msg_iov
      (.ok (if flags &&& MSG_TRUNC ≠ 0 then data.length else copied.1), copied.2)

end

/-- Each vector is filled before the next. -/
def fill : List UInt8 → List (List UInt8) → List (List UInt8)
  | _, [] => []
  | data, iov :: rest =>
    (data.take iov.length ++ iov.drop data.length) :: fill (data.drop iov.length) rest

theorem fill_nil (iovs : List (List UInt8)) : fill [] iovs = iovs := by
  induction iovs with
  | nil => rfl
  | cons iov rest ih => simp [fill, ih]

theorem fill_lengths (data : List UInt8) (iovs : List (List UInt8)) :
    (fill data iovs).map length = iovs.map length := by
  induction iovs generalizing data with
  | nil => rfl
  | cons iov rest ih =>
    rw [fill, map_cons, ih, length_append, length_take, length_drop]
    congr 1
    omega

theorem scatter_fill (low : sz ≤ data.length)
    (fits : ∀ iov ∈ iovs, data.length + iov.length ≤ 2 ^ z) :
    scatter z data sz iovs =
      (min data.length (sz + iovs.flatten.length), fill (data.drop sz) iovs) := by
  induction iovs generalizing sz with
  | nil => simp [scatter, fill, low]
  | cons iov rest ih => ?_
  have small := fits iov mem_cons_self
  have later := fun iov member => fits iov (.tail _ member)
  rw [scatter, flatten_cons, length_append]
  split
  · rw [Nat.mod_eq_of_lt (by omega)]
    have chunk : (if sz + iov.length > data.length then data.length - sz else iov.length) =
        min (data.length - sz) iov.length := by
      split <;> omega
    have bytes : (data.drop sz).take (min (data.length - sz) iov.length) =
        (data.drop sz).take iov.length := by
      rw [take_eq_take_iff, length_drop]
      omega
    have kept : iov.drop (min (data.length - sz) iov.length) = iov.drop (data.drop sz).length := by
      rw [drop_eq_drop_iff, length_drop]
      omega
    have left : data.drop (sz + min (data.length - sz) iov.length) =
        (data.drop sz).drop iov.length := by
      rw [drop_drop, drop_eq_drop_iff]
      omega
    have size : min data.length (sz + min (data.length - sz) iov.length + rest.flatten.length) =
        min data.length (sz + (iov.length + rest.flatten.length)) := by omega
    dsimp only
    rw [chunk, ih (by omega) later, bytes, kept, left, size]
    rfl
  · have all : sz = data.length := by omega
    rw [all, drop_length, fill_nil, Nat.min_eq_left (by omega)]

/-- What is refused, whatever the vectors hold. -/
def Refused (flags : Nat) (calls : Calls) (fd : Socket) (msg_name : Bool) : Prop :=
  flags &&& (MSG_OOB ||| MSG_EOR ||| MSG_CONFIRM) ≠ 0 ∨ fd.shut_wr = true ∨ calls.udp_send ≠ none ∨
    if msg_name then calls.socket_addr ≠ none
    else flags &&& MSG_DONTROUTE ≠ 0 ∧ fd.connected = true ∧ fd.is_routed = true

/-- Whatever the memory that is allocated holds, the message is sent as one datagram, unless it is
    refused. -/
def Sends (z flags : Nat) (calls : Calls) (fd : Socket) (message : Message) : Prop :=
  ∀ mem : Nat → List UInt8, (∀ n, (mem n).length = n) →
    let out := sendmsg_udp z flags { calls with mem_alloc := fun n => some (mem n) } fd
      (some message)
    (Refused flags calls fd message.msg_name → ∃ err, out.1 = .error err) ∧
      (¬ Refused flags calls fd message.msg_name →
        out = (.ok message.msg_iov.flatten.length, [message.msg_iov.flatten]))

theorem sendmsg_built (built : build z calls message.msg_iov = some (buf, n)) :
    (Refused flags calls fd message.msg_name →
      ∃ err, (sendmsg_udp z flags calls fd (some message)).1 = .error err) ∧
    (¬ Refused flags calls fd message.msg_name →
      sendmsg_udp z flags calls fd (some message) = (.ok n, [buf.take n])) := by
  unfold sendmsg_udp Refused
  by_cases supported : flags &&& (MSG_OOB ||| MSG_EOR ||| MSG_CONFIRM) ≠ 0
  · simp [supported]
  cases opened : fd.shut_wr with
  | true => simp [supported]
  | false =>
    by_cases outside : flags &&& MSG_DONTROUTE ≠ 0 ∧ fd.connected = true ∧ fd.is_routed = true
    all_goals cases named : message.msg_name <;> cases calls.udp_send <;>
      cases calls.socket_addr <;>
      simp [supported, built, outside, named]

theorem total_eq (iovs : List (List UInt8)) (n : Nat) (low : n < 2 ^ z) :
    iovs.foldl (fun n iov => (n + iov.length) % 2 ^ z) n = (n + iovs.flatten.length) % 2 ^ z := by
  induction iovs generalizing n with
  | nil => exact (Nat.mod_eq_of_lt low).symm
  | cons iov rest ih =>
    rw [foldl_cons, ih _ (Nat.mod_lt _ (Nat.two_pow_pos z)), Nat.mod_add_mod, flatten_cons,
      length_append, Nat.add_assoc]

theorem build_many (many : iovs.length ≠ 1) :
    build z calls iovs = (calls.mem_alloc (iovs.flatten.length % 2 ^ z)).map
      fun buf => (buf, iovs.flatten.length % 2 ^ z) := by
  have total := total_eq iovs 0 (Nat.two_pow_pos z)
  rw [Nat.zero_add] at total
  unfold build
  split
  · simp at many
  · rw [total]

theorem nil_of_replicates {bytes : List UInt8} (same : ∀ x, replicate n x = bytes) :
    bytes = [] := by
  cases n with
  | zero => exact (same 0).symm
  | succ n =>
    have both := (same 0).trans (same 1).symm
    simp [replicate_succ] at both

end MutekUdpVectors
