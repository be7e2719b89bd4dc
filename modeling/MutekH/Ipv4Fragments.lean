import Mathlib.Logic.Function.Basic
import MutekH.Lib.Bytes
import MutekH.Lib.FixedWidth

/-!
Fragments of IPv4 datagrams (protocols/ipv4.c): how `ip_send` cuts a datagram and how
`ip_fragment_pushpkt` puts fragments together. `uint_fast16_t` has `w` bits.
-/
namespace MutekIpv4
open Function LibBytes LibFixedWidth

def IP_FLAG_MF : Nat := 0x2000

def IP_FRAG_MASK : Nat := 0x1fff

/-- A packet whose header says that it is a fragment. `size` is that of the part behind the
    header, as `ip_pushpkt` has set it, and `data` are the bytes that are there. -/
structure Fragment where
  saddr : Nat
  id : Nat
  fragment : Nat
  tot_len : Nat
  ihl : Nat
  size : Nat
  data : List UInt8
  deriving DecidableEq

abbrev Key := Nat × Nat

def key (f : Fragment) : Key := (f.saddr, f.id)

def offs (f : Fragment) : Nat := (f.fragment &&& IP_FRAG_MASK) * 8

def more (f : Fragment) : Bool := (f.fragment &&& IP_FLAG_MF) ≠ 0

def datasz (w : Nat) (f : Fragment) : Nat := (uint w (f.tot_len - f.ihl * 4)).toNat

structure IpPacket where
  size : Nat
  received : Nat
  packets : List Fragment

abbrev Table := Key → Option IpPacket

/-- Bytes are stored beyond the total length, or read beyond the end of a packet. -/
inductive Fault where
  | overrun
  | overread
  deriving DecidableEq

def copy (total offs size : Nat) (data buffer : List UInt8) : Except Fault (List UInt8) :=
  if data.length < size then .error .overread
  else if total < offs + size then .error .overrun
  else .ok (patch buffer offs (data.take size))

def reassemble (total : Nat) : List Fragment → List UInt8 → Except Fault (Option (List UInt8))
  | [], buffer => .ok (some buffer)
  | frag :: packets, buffer =>
    if total ≤ offs frag then .ok none
    else do
      let buffer ← copy total (offs frag) frag.size frag.data buffer
      reassemble total packets buffer

/-- Where a packet lies: how far its payload is behind its first header, which is negative for
    a payload in another buffer at a lower address, and how many bytes the buffer has that begins
    with the headers. -/
structure Place where
  headers : Int
  buffer : Nat

/-- The allocation of `total + headers_len + 3` bytes and the copy of the headers into them. -/
def copy_headers (w total : Nat) (place : Place) : Except Fault Unit :=
  let headers_len := (uint w place.headers).toNat
  if place.buffer < headers_len then .error .overread
  else if (total + headers_len + 3) % 2 ^ max 32 w < headers_len + total then .error .overrun
  else .ok ()

/-- The payload that is delivered, if any. `room` says if a reassembly structure can be
    allocated, `memory` if the new packet can, whose bytes are `garbage` first. -/
def ip_fragment_pushpkt (w : Nat) (garbage : Nat → UInt8) (room memory : Bool) (place : Place)
    (packet : Fragment) (fragments : Table) : Except Fault (Option (List UInt8) × Table) :=
  match (fragments (key packet)).or (if room then some ⟨0, 0, []⟩ else none) with
  | none => .ok (none, fragments)
  | some p =>
    let received := (p.received + datasz w packet) % 2 ^ w
    let total := if more packet then p.size else (offs packet + datasz w packet) % 2 ^ w
    if total ≠ 0 ∧ total = received then
      let fragments := update fragments (key packet) none
      if memory then do
        copy_headers w total place
        let buffer ← copy total (offs packet) (datasz w packet) packet.data
          ((List.range total).map garbage)
        let payload ← reassemble total p.packets buffer
        .ok (payload, fragments)
      else .ok (none, fragments)
    else
      .ok (none, update fragments (key packet)
        (some ⟨total, received, packet :: p.packets⟩))

def ip_fragment_timeout (k : Key) (fragments : Table) : Table := update fragments k none

/- Sending. -/

section
variable (saddr id : Nat) (payload : List UInt8)

def ip_send_fragment (offs fragsz : Nat) (last : Bool) : Fragment where
  saddr := saddr
  id := id
  fragment := (if last then 0 else IP_FLAG_MF) ||| (offs / 8)
  tot_len := 20 + fragsz
  ihl := 5
  size := fragsz
  data := slice payload offs fragsz

def ip_send_loop (fragsz : Nat) : Nat → Nat → Option (List Fragment)
  | 0, _ => none
  | fuel + 1, offs =>
    if offs + fragsz < payload.length then
      (ip_send_loop fragsz fuel (offs + fragsz)).map
        (ip_send_fragment saddr id payload offs fragsz false :: ·)
    else some [ip_send_fragment saddr id payload offs (payload.length - offs) true]

def ip_send (mtu : Nat) : Option (List Fragment) :=
  ip_send_loop saddr id payload ((mtu - 20) / 8 * 8) payload.length 0

end
end MutekIpv4
