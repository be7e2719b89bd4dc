import Mathlib.Algebra.Ring.Nat
import Mathlib.Data.List.Basic

/-!
Address resolution on one interface (protocols/arp.c). Entries and resolutions are numbered as they
are allocated; a timer event lies in a resolution and points to the entry. Ticks have 32 bits.
-/
namespace MutekArp

def ARP_ENTRY_TIMEOUT : Nat := 120000

def ARP_MAX_RETRIES : Nat := 3

def ARPHRD_ETHER : Nat := 1

def ETHERTYPE_IP : Nat := 0x800

def ARPOP_REQUEST : Nat := 1

def ARPOP_REPLY : Nat := 2

abbrev Packet := Nat

abbrev Mac := Nat

/-- `arp_resolution_s`. -/
structure Resolution where
  id : Nat
  wait : List Packet
  retry : Nat
  deriving DecidableEq

/-- `arp_entry_s`. -/
structure Entry where
  id : Nat
  ip : Nat
  mac : Mac
  valid : Bool
  timestamp : Nat
  resolution : Option Resolution
  deriving DecidableEq

structure Timeout where
  resolution : Nat
  entry : Nat
  deriving DecidableEq

inductive Output where
  | request (ip : Nat)
  | reply (ip : Nat)
  | sent (packet : Packet) (mac : Mac)
  | unreachable (packet : Packet)
  deriving DecidableEq

structure Arp where
  table : List Entry
  timers : List Timeout
  ticks : Nat
  fresh : Nat
  log : List Output
  deriving DecidableEq

/-- A packet for the own hardware address goes back to the protocols of the interface
    (`if_sendpkt`); for packets that waited this happens in the middle of an update, which is not
    followed. -/
inductive Fault where
  | assertion
  | null_pointer
  | freed
  | looped
  deriving DecidableEq

inductive Flags where
  | default
  | in_progress
  | no_update
  deriving DecidableEq

variable (e : Entry) (s : Arp)

def age (e : Entry) : Nat := (s.ticks + (2 ^ 32 - e.timestamp)) % 2 ^ 32

def arp_table_lookup (ip : Nat) (s : Arp) : Option Entry := s.table.find? (fun e => e.ip = ip)

def arp_table_remove : Arp :=
  { s with table := s.table.eraseP (fun f => f.id = e.id) }

def store : Arp :=
  { s with table := s.table.map (fun f => if f.id = e.id then e else f) }

def timer_cancel_event (resolution : Nat) (s : Arp) : Arp :=
  { s with timers := s.timers.eraseP (fun t => t.resolution = resolution) }

def emit (outputs : List Output) (s : Arp) : Arp := { s with log := s.log ++ outputs }

def arp_entry_obj_delete : Arp :=
  match e.resolution with
  | none => s
  | some res => timer_cancel_event res.id s

/-- The end of `arp_update_table` for an entry that becomes valid. -/
def settle (mac : Mac) (s : Arp) : Entry × Arp :=
  let valid := { e with mac := mac, valid := true, resolution := none, timestamp := s.ticks }
  match e.resolution with
  | none => (valid, store valid s)
  | some res =>
    (valid, store valid (emit (res.wait.map (fun packet => .sent packet mac))
      (timer_cancel_event res.id s)))

def update (mac : Mac) (flags : Flags) (s : Arp) : Entry × Arp :=
  if flags = .in_progress then
    ({ e with valid := false, timestamp := s.ticks },
      store { e with valid := false, timestamp := s.ticks } s)
  else settle e mac s

def waitOf (e : Entry) : List Packet := (e.resolution.map (fun res => res.wait)).getD []

/-- `if_mac` is the hardware address of the interface; `room` says if an entry can be allocated. -/
def arp_update_table (if_mac : Mac) (ip : Nat) (mac : Mac) (flags : Flags) (room : Bool) (s : Arp) :
    Except Fault (Option Entry × Arp) :=
  if ip = 0 then .error .assertion
  else match arp_table_lookup ip s with
    | some e =>
      if flags = .no_update then .ok (none, s)
      else if flags ≠ .in_progress ∧ mac = if_mac ∧ waitOf e ≠ [] then .error .looped
      else
        let (e, s) := update e mac flags s
        .ok (some e, s)
    | none =>
      if room = false then .ok (none, s)
      else if ip = 0xffffffff ∨ ip = 0x7f000001 then .error .assertion
      else
        let e : Entry := ⟨s.fresh, ip, 0, false, 0, none⟩
        let (e, s) := update e mac flags { s with table := e :: s.table, fresh := s.fresh + 1 }
        .ok (some e, s)

/-- The part of `arp_get_mac` that starts a resolution for an entry. -/
def resolve (packet : Packet) (room : Bool) (s : Arp) : Arp :=
  if room then
    emit [.request e.ip] (store { e with resolution := some ⟨s.fresh, [packet], 0⟩ }
      { s with timers := s.timers ++ [⟨s.fresh, e.id⟩], fresh := s.fresh + 1 })
  else store { e with resolution := none } s

/-- `addr` and `mac` are those of the interface; `room` and `memory` say if an entry and a
    resolution can be allocated. -/
def arp_get_mac (addr : Nat) (mac : Mac) (packet : Packet) (ip : Nat) (room memory : Bool)
    (s : Arp) :
    Except Fault (Option Mac × Arp) :=
  if ip = addr then .ok (some mac, s)
  else if ip = 0xffffffff then .ok (some 0xffffffffffff, s)
  else match arp_table_lookup ip s with
    | some e =>
      if age s e < ARP_ENTRY_TIMEOUT then
        if e.valid then .ok (some e.mac, s)
        else match e.resolution with
          | none => .error .null_pointer
          | some res =>
            .ok (none,
              store { e with resolution := some { res with wait := res.wait ++ [packet] } } s)
      else .ok (none, resolve { e with valid := false } packet memory s)
    | none => do
      let (e, s) ← arp_update_table mac ip 0 .in_progress room s
      match e with
      | none => .ok (none, s)
      | some e => .ok (none, resolve e packet memory s)

def arp_timeout (i : Nat) (s : Arp) : Except Fault Arp :=
  match s.timers[i]? with
  | none => .ok s
  | some timer =>
    let s := { s with timers := s.timers.eraseIdx i }
    match s.table.find? (fun e => e.id = timer.entry) with
    | none => .error .freed
    | some entry =>
      match entry.resolution with
      | none => .error .null_pointer
      | some res =>
        if res.retry + 1 < ARP_MAX_RETRIES then
          let s := emit [.request entry.ip]
            (store { entry with resolution := some { res with retry := res.retry + 1 } } s)
          .ok { s with timers := s.timers ++ [timer] }
        else
          .ok (arp_entry_obj_delete entry
            (emit (res.wait.map .unreachable) (arp_table_remove entry s)))

def clear_stale (e : Entry) : Arp :=
  if e.valid ∧ age s e > ARP_ENTRY_TIMEOUT then arp_entry_obj_delete e (arp_table_remove e s)
  else s

def arp_stale_timeout : Arp := s.table.foldl clear_stale s

/-- `ether_arp`. -/
structure EtherArp where
  ar_hrd : Nat
  ar_pro : Nat
  ar_op : Nat
  arp_sha : Mac
  arp_spa : Nat
  arp_tpa : Nat
  deriving DecidableEq

def arp_reply (if_mac : Mac) (hdr : EtherArp) : EtherArp :=
  { hdr with
    ar_op := ARPOP_REPLY, arp_sha := if_mac, arp_spa := hdr.arp_tpa, arp_tpa := hdr.arp_spa }

/-- `arp_pushpkt` of a reply. -/
def push_reply (if_mac : Mac) (hdr : EtherArp) (room : Bool) (s : Arp) : Except Fault Arp := do
  let (_, s) ← arp_update_table if_mac hdr.arp_spa hdr.arp_sha .default room s
  .ok s

/-- `own` tells the addresses of the IP modules that are bound to the interface. A reply to the own
    hardware address comes back to this function; `again` says if an entry can be allocated then. -/
def arp_pushpkt (own : Nat → Bool) (if_mac : Mac) (hdr : EtherArp) (room again : Bool) (s : Arp) :
    Except Fault Arp :=
  if hdr.ar_hrd ≠ ARPHRD_ETHER ∨ hdr.ar_pro ≠ ETHERTYPE_IP then .ok s
  else if hdr.ar_op = ARPOP_REQUEST then
    if own hdr.arp_tpa then do
      let (_, s) ← arp_update_table if_mac hdr.arp_spa hdr.arp_sha .default room s
      if hdr.arp_sha = if_mac then push_reply if_mac (arp_reply if_mac hdr) again s
      else .ok (emit [.reply hdr.arp_tpa] s)
    else if hdr.arp_tpa ≠ 0 then do
      let (_, s) ← arp_update_table if_mac hdr.arp_spa hdr.arp_sha .no_update room s
      .ok s
    else .ok s
  else if hdr.ar_op = ARPOP_REPLY then push_reply if_mac hdr room s
  else .ok s

end MutekArp
