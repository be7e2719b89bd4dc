import Mathlib.Algebra.Ring.Nat
import Mathlib.Algebra.Ring.Int.Defs
import Mathlib.Tactic.Tauto

/-!
The sizes given to a received packet (protocols/ipv4.c, protocols/udp.c, libudp.c). `uint_fast16_t`
has `p` bits and `size_t` has `z`.
-/
namespace MutekReceivedSizes

/-- `net_header_s`; `data` counts from the IP header. -/
structure NetHeader where
  data : Int
  size : Nat
  deriving DecidableEq

structure IpHdr where
  version : Nat
  ihl : Nat
  tot_len : Nat
  fragment : Nat
  deriving DecidableEq

structure UdpHdr where
  len : Nat
  check : Nat
  deriving DecidableEq

/-- What the checksums are computed of, and the entries with which the packet goes to another
    protocol or its payload to a callback. -/
structure Seen where
  checked : List NetHeader
  passed : List NetHeader
  deriving DecidableEq

/-- The payload goes to the callback of a descriptor, if there is one. -/
def libudp_signal (found : Bool) (payload : NetHeader) : List NetHeader :=
  if found then [payload] else []

/-- `computed_check` is that of the datagram and its pseudo header. -/
def udp_pushpkt (z : Nat) (computed_check : Nat) (found : Bool) (hdr : UdpHdr)
    (nethdr : NetHeader) :
    Seen :=
  let payload : NetHeader := ⟨nethdr.data + 8, ((hdr.len - 8 : Int) % 2 ^ z).toNat⟩
  if hdr.check ≠ 0 then
    ⟨[⟨nethdr.data, hdr.len⟩], if computed_check ≠ 0xffff then [] else libudp_signal found payload⟩
  else ⟨[], libudp_signal found payload⟩

def resize (z : Nat) (delta : Int) (h : NetHeader) : NetHeader :=
  ⟨h.data, ((h.size - delta) % 2 ^ z).toNat⟩

/-- `below` are the entries of the stages under IP. A packet that is no fragment goes to the
    protocol `pushpkt`; a fragment goes to `ip_fragment_pushpkt`. -/
def ip_pushpkt (p z : Nat) (for_me : Bool) (computed_check : Nat) (hdr : IpHdr)
    (below : List NetHeader) (own : NetHeader) (pushpkt : NetHeader → Seen) :
    Seen :=
  if hdr.version ≠ 4 ∨ for_me = false then ⟨[], []⟩
  else if computed_check ≠ 0xffff ∨ hdr.fragment &&& 0x3fff ≠ 0 then ⟨[⟨own.data, hdr.ihl * 4⟩], []⟩
  else
    let delta := ((own.size : Int) - hdr.tot_len) % 2 ^ p
    let next : NetHeader := ⟨own.data + hdr.ihl * 4,
      (((resize z delta own).size - hdr.ihl * 4 : Int) % 2 ^ z).toNat⟩
    ⟨⟨own.data, hdr.ihl * 4⟩ :: (pushpkt next).checked,
      next :: (own :: below).map (resize z delta) ++ (pushpkt next).passed⟩

/-- In a frame from `first` to `n`, counted from the IP header. -/
def Inside (first : Int) (n : Nat) (h : NetHeader) : Prop := first ≤ h.data ∧ h.data + h.size ≤ n

instance (first : Int) (n : Nat) : DecidablePred (Inside first n) := fun _ => instDecidableAnd

def Sound (first : Int) (n : Nat) (s : Seen) : Prop := ∀ h ∈ s.checked ++ s.passed, Inside first n h

section
variable {p z n : Nat} {first : Int} (wide : 16 ≤ z) (frame : first ≤ 0 ∧ n < 2 ^ z)
include wide frame

/-- A payload of `len - head` bytes behind a header of `head`. -/
theorem payload_inside {len : Nat} (start : Nat) {head : Nat} (short : len < 2 ^ 16)
    (small : head < 2 ^ 16) :
    Inside first n ⟨start + head, ((len - head : Int) % 2 ^ z).toNat⟩ ↔
      head ≤ len ∧ start + len ≤ n := by
  have least : (2 : Int) ^ 16 ≤ 2 ^ z := by exact_mod_cast Nat.pow_le_pow_right (by decide) wide
  have room : (n : Int) < 2 ^ z := by exact_mod_cast frame.2
  simp only [Inside]
  by_cases wrapped : len < head
  · rw [← Int.add_emod_right, Int.emod_eq_of_lt (by omega) (by omega)]
    omega
  · rw [Int.emod_eq_of_lt (by omega) (by omega)]
    omega

/-- The ranges of a datagram that begins at `start`. -/
theorem udp_sound (start size : Nat) {found : Bool} {hdr : UdpHdr} {computed_check : Nat}
    (short : hdr.len < 2 ^ 16) :
    Sound first n (udp_pushpkt z computed_check found hdr ⟨start, size⟩) ↔
      (hdr.check ≠ 0 → start + hdr.len ≤ n) ∧
      (found = true → hdr.check = 0 ∨ computed_check = 0xffff →
        8 ≤ hdr.len ∧ start + hdr.len ≤ n) := by
  have payload : Inside first n ⟨start + 8, ((hdr.len - 8 : Int) % 2 ^ z).toNat⟩ ↔ _ :=
    payload_inside wide frame start short (by decide)
  unfold udp_pushpkt Sound libudp_signal
  by_cases unchecked : hdr.check = 0
  · cases found <;> simp [unchecked, payload]
  · have range : Inside first n ⟨start, hdr.len⟩ ↔ start + hdr.len ≤ n := by
      simp only [Inside]
      omega
    by_cases right : computed_check = 0xffff <;> cases found <;>
      simp [unchecked, right, payload, range]

/-- The own entry has the declared length, modulo the size of its type; another entry that ends with
    the frame keeps its distance to it. -/
theorem resize_inside (fast : 16 ≤ p) (whole : n < 2 ^ p) {tot_len : Nat}
    (short : tot_len < 2 ^ 16) :
    (Inside first n (resize z (((n : Int) - tot_len) % 2 ^ p) ⟨0, n⟩) ↔ tot_len ≤ n) ∧
    (tot_len ≤ n → (resize z (((n : Int) - tot_len) % 2 ^ p) ⟨0, n⟩).size = tot_len ∧
      ∀ h : NetHeader, first ≤ h.data → h.data ≤ 0 → h.data + h.size = n → h.size < 2 ^ z →
        Inside first n (resize z (((n : Int) - tot_len) % 2 ^ p) h)) := by
  have least : (2 : Int) ^ 16 ≤ 2 ^ z := by exact_mod_cast Nat.pow_le_pow_right (by decide) wide
  have fewest : (2 : Int) ^ 16 ≤ 2 ^ p := by exact_mod_cast Nat.pow_le_pow_right (by decide) fast
  have room : (n : Int) < 2 ^ z := by exact_mod_cast frame.2
  have roomy : (n : Int) < 2 ^ p := by exact_mod_cast whole
  by_cases inside : tot_len ≤ n
  · have delta : ((n : Int) - tot_len) % 2 ^ p = n - tot_len :=
      Int.emod_eq_of_lt (by omega) (by omega)
    have own : (resize z ((n : Int) - tot_len) ⟨0,n⟩).size = tot_len := by
      simp only [resize]
      rw [Int.emod_eq_of_lt (by omega) (by omega)]
      omega
    rw [delta]
    refine ⟨?_,fun _ => ⟨own,?_⟩⟩
    · simp only [Inside, own, inside, iff_true]
      change first ≤ 0 ∧ (0 : Int) + tot_len ≤ n
      omega
    · intro h start before ends fits
      have small : (h.size : Int) < 2 ^ z := by exact_mod_cast fits
      simp only [Inside, resize]
      rw [Int.emod_eq_of_lt (by omega) (by omega)]
      omega
  · refine ⟨iff_of_false ?_ inside,by omega⟩
    have delta : ((n : Int) - tot_len) % 2 ^ p = n - tot_len + 2 ^ p := by
      rw [← Int.add_emod_right, Int.emod_eq_of_lt (by omega) (by omega)]
    have size : ((n : Int) - (n - tot_len + 2 ^ p)) % 2 ^ z = (tot_len - 2 ^ p) % 2 ^ z := by
      congr 1
      omega
    rw [delta]
    simp only [Inside, resize, size]
    have large : (n : Int) < (tot_len - 2 ^ p) % 2 ^ z := by
      rcases Nat.lt_or_ge p z with narrow | narrow
      · have twice : (2 : Int) ^ (p + 1) ≤ 2 ^ z := by
          exact_mod_cast Nat.pow_le_pow_right (by decide) narrow
        rw [Int.pow_succ] at twice
        rw [← Int.add_emod_right, Int.emod_eq_of_lt (by omega) (by omega)]
        omega
      · obtain ⟨k,multiple⟩ : (2 : Int) ^ z ∣ 2 ^ p := by exact_mod_cast Nat.pow_dvd_pow 2 narrow
        rw [multiple, Int.sub_mul_emod_self_left, Int.emod_eq_of_lt (by omega) (by omega)]
        omega
    omega

end

theorem sound_passed {first : Int} {n : Nat} {own next : NetHeader} {before : List NetHeader}
    {s : Seen} :
    Sound first n ⟨own :: s.checked, next :: before ++ s.passed⟩ ↔
      Inside first n own ∧ Inside first n next ∧ (∀ h ∈ before, Inside first n h) ∧
        Sound first n s := by
  simp only [Sound, List.forall_mem_append, List.forall_mem_cons, List.cons_append]
  tauto

end MutekReceivedSizes
