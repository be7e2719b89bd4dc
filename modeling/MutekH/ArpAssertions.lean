import MutekH.Arp
import Mathlib.Data.List.Nodup

/-!
Which packets violate an assertion of protocols/arp.c: one is in `arp_update_table`, one in the
constructor of an entry. A reply to the own hardware address comes back as a packet of its own, from
the address that was asked for.
-/
namespace MutekArpAssertions
open List MutekArp

/-- A sender that `arp_update_table` asserts not to occur; `room` says if an entry can be
    allocated. -/
def Refused (ip : Nat) (room : Bool) (s : Arp) : Prop :=
  ip = 0 ∨ room = true ∧ arp_table_lookup ip s = none ∧ (ip = 0xffffffff ∨ ip = 0x7f000001)

/-- The packet makes `arp_update_table` look for such a sender: its own, or that of the reply when
    it comes back. -/
def Stops (own : Nat → Bool) (if_mac : Mac) (hdr : EtherArp) (room again : Bool) (s : Arp) : Prop :=
  (hdr.ar_hrd = ARPHRD_ETHER ∧ hdr.ar_pro = ETHERTYPE_IP) ∧
    ((hdr.ar_op = ARPOP_REPLY ∨ hdr.ar_op = ARPOP_REQUEST ∧
      (own hdr.arp_tpa = true ∨ hdr.arp_tpa ≠ 0)) ∧
        Refused hdr.arp_spa room s ∨
      hdr.ar_op = ARPOP_REQUEST ∧ own hdr.arp_tpa = true ∧ hdr.arp_sha = if_mac ∧
        Refused hdr.arp_tpa again s)

/-- No packet waits for an address that the packet would resolve to the own hardware address. -/
def Quiet (if_mac : Mac) (hdr : EtherArp) (s : Arp) : Prop :=
  hdr.arp_sha = if_mac → ∀ e ∈ s.table, e.ip = hdr.arp_spa ∨ e.ip = hdr.arp_tpa → waitOf e = []

/-- Entries are distinct objects. -/
def Distinct (s : Arp) : Prop := (s.table.map Entry.id).Nodup ∧ ∀ e ∈ s.table, e.id < s.fresh

section
variable {s s' : Arp} {if_mac mac : Mac} {ip : Nat} {flags : Flags} {room : Bool}

theorem lookup_some {e : Entry} (found : arp_table_lookup ip s = some e) :
    e ∈ s.table ∧ e.ip = ip :=
  ⟨mem_of_find?_eq_some found, by simpa using find?_some found⟩

theorem lookup_none : arp_table_lookup ip s = none ↔ ∀ e ∈ s.table, e.ip ≠ ip := by
  simp [arp_table_lookup]

theorem update_table_ends (quiet : mac = if_mac → ∀ e ∈ s.table, e.ip = ip → waitOf e = []) :
    (∃ r, arp_update_table if_mac ip mac flags room s = .ok r) ↔ ¬ Refused ip room s := by
  unfold arp_update_table Refused
  by_cases zero : ip = 0
  · simp [zero]
  cases found : arp_table_lookup ip s with
  | some e =>
    obtain ⟨member,same⟩ := lookup_some found
    have kept : ¬ (flags ≠ .in_progress ∧ mac = if_mac ∧ waitOf e ≠ []) :=
      fun looped => looped.2.2 (quiet looped.2.1 e member same)
    by_cases silent : flags = .no_update <;> simp [zero, kept, silent]
  | none =>
    cases room with
    | false => simp [zero]
    | true => by_cases bad : ip = 0xffffffff ∨ ip = 0x7f000001 <;> simp [zero, bad]

theorem settle_entries (e : Entry) (ids : (s.table.map Entry.id).Nodup) (member : e ∈ s.table) :
    (∀ f ∈ (settle e mac s).2.table, waitOf f = [] ∨ f ∈ s.table) ∧
      ∀ ip, (∃ f ∈ (settle e mac s).2.table, f.ip = ip) ↔ ∃ f ∈ s.table, f.ip = ip := by
  have table : (settle e mac s).2.table = s.table.map fun f => if f.id = e.id then
      { e with mac := mac, valid := true, resolution := none, timestamp := s.ticks } else f := by
    unfold settle
    split <;> rfl
  have address : ∀ f ∈ s.table, (if f.id = e.id then
      { e with mac := mac, valid := true, resolution := none, timestamp := s.ticks }
        else f).ip = f.ip := by
    intro f old
    split
    · next same => rw [inj_on_of_nodup_map ids old member same]
    · rfl
  rw [table]
  constructor
  · intro f new
    obtain ⟨g,old,rfl⟩ := mem_map.mp new
    split
    · exact .inl rfl
    · exact .inr old
  · intro ip
    constructor
    · rintro ⟨f,new,rfl⟩
      obtain ⟨g,old,rfl⟩ := mem_map.mp new
      exact ⟨g,old,(address g old).symm⟩
    · rintro ⟨f,old,rfl⟩
      exact ⟨_,mem_map_of_mem old,address f old⟩

/-- The entries after an update: those before, of which one may wait no longer, and a new one. -/
theorem update_table_entries {r : Option Entry} (distinct : Distinct s)
    (known : flags ≠ .in_progress)
    (done : arp_update_table if_mac ip mac flags room s = .ok (r, s')) :
    (∀ e ∈ s'.table, waitOf e = [] ∨ e ∈ s.table) ∧
      ∀ other, arp_table_lookup other s' = none ↔
        arp_table_lookup other s = none ∧ (other = ip → room = false) := by
  obtain ⟨ids,below⟩ := distinct
  unfold arp_update_table at done
  split at done
  · cases done
  split at done
  · next e found =>
    obtain ⟨member,same⟩ := lookup_some found
    have present : ∀ other, arp_table_lookup other s = none ↔
        arp_table_lookup other s = none ∧ (other = ip → room = false) := by
      intro other
      refine ⟨fun missing => ⟨missing,?_⟩,And.left⟩
      rintro rfl
      rw [found] at missing
      cases missing
    split at done
    · cases done
      exact ⟨fun e here => .inr here,present⟩
    split at done
    · cases done
    simp only [update, known, if_false] at done
    cases done
    obtain ⟨waits,addresses⟩ := @settle_entries s mac e ids member
    refine ⟨waits,?_⟩
    intro other
    rw [← present other, lookup_none, lookup_none]
    simpa using not_congr (addresses other)
  · next missing =>
    split at done
    · next none_left =>
      cases done
      exact ⟨fun e here => .inr here,fun other => ⟨fun none => ⟨none,fun _ => none_left⟩,And.left⟩⟩
    split at done
    · cases done
    next room_left _ =>
    simp only [update, known, if_false] at done
    cases done
    have fresh : s.fresh ∉ s.table.map Entry.id := by
      intro used
      obtain ⟨e,member,same⟩ := mem_map.mp used
      have := below e member
      omega
    obtain ⟨waits,addresses⟩ := @settle_entries { s with
      table := ⟨s.fresh,ip,0,false,0,none⟩ :: s.table, fresh := s.fresh + 1 } mac _
      (nodup_cons.mpr ⟨fresh,ids⟩) mem_cons_self
    constructor
    · intro e here
      rcases waits e here with none | old
      · exact .inl none
      rcases mem_cons.mp old with rfl | old
      · exact .inl rfl
      · exact .inr old
    · intro other
      have absent := not_congr (addresses other)
      simp only [not_exists, not_and, forall_mem_cons] at absent
      rw [lookup_none, lookup_none, and_comm]
      refine absent.trans (and_congr_left fun _ => ?_)
      exact ⟨fun differ same => absurd same.symm differ,fun only same => room_left (only same.symm)⟩

/-- Only the first of two steps can fail. -/
theorem bind_ends {α β : Type} {x : Except Fault α} {f : α → Except Fault β}
    (total : ∀ r, x = .ok r → ∃ t, f r = .ok t) : (∃ t, (x >>= f) = .ok t) ↔ ∃ r, x = .ok r := by
  cases x with
  | error fault =>
    exact iff_of_false (fun ⟨_,failed⟩ => by cases failed) (fun ⟨_,failed⟩ => by cases failed)
  | ok r => exact iff_of_true (total r rfl) ⟨r,rfl⟩

end

/-- A packet with the operation `op` from the address `spa` that asks for the address 1. -/
def packet (op spa : Nat) : EtherArp := ⟨ARPHRD_ETHER, ETHERTYPE_IP, op, 22, spa, 1⟩

def empty : Arp := ⟨[], [], 0, 0, []⟩

end MutekArpAssertions
