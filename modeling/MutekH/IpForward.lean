import MutekH.Route
import Mathlib.Algebra.Ring.Nat

/-!
One step of forwarding (`ip_route` of protocols/ipv4.c) without fragmentation. `uint_fast16_t` has
`w` bits; on a big endian processor the time to live is the high byte of its word.
-/
namespace MutekIpForward
open MutekRoute

/-- `words` are the other words of the header, of at most 60 bytes. -/
structure Iphdr where
  ttl : Nat
  protocol : Nat
  check : Nat
  words : List Nat
  deriving DecidableEq

def carries : Nat → Nat → Nat
  | 0, checksum => checksum
  | turns + 1, checksum =>
    if checksum < 2 ^ 16 then checksum else carries turns (checksum % 2 ^ 16 + checksum / 2 ^ 16)

/-- `packet_checksum`, of the header. -/
def packet_checksum (big : Bool) (hdr : Iphdr) : Nat :=
  let word := if big then hdr.ttl * 256 + hdr.protocol else hdr.ttl + hdr.protocol * 256
  let sum := hdr.words.sum + word + hdr.check
  carries sum sum

/-- The header that is sent, and the address whose hardware address it is sent to. -/
def ip_route (w : Nat) (route : Route) (daddr : Nat) (hdr : Iphdr) : Option (Iphdr × Nat) :=
  if hdr.ttl = 1 then none
  else
    let check := (hdr.check + 1) % 2 ^ w
    some ({ hdr with ttl := (hdr.ttl + 255) % 256, check := (check + check / 2 ^ 16) % 2 ^ 16 },
      if route.is_routed then daddr else route.router)

theorem carries_iff (turns sum : Nat) (enough : sum ≤ turns) :
    carries turns sum = 0xffff ↔ 0 < sum ∧ sum % 0xffff = 0 := by
  induction turns generalizing sum with
  | zero =>
    rw [carries]
    omega
  | succ turns ih => ?_
  rw [carries]
  split
  · omega
  · rw [ih _ (by omega)]
    omega

/-- What is sent is what should be sent, `none` being nothing. -/
def Forwarded (big : Bool) (route : Route) (daddr : Nat) (hdr : Iphdr) : Option (Iphdr × Nat) → Prop
  | none => hdr.ttl ≤ 1
  | some (sent, address) =>
    2 ≤ hdr.ttl ∧ sent = { hdr with ttl := hdr.ttl - 1, check := sent.check } ∧
      packet_checksum big sent = 0xffff ∧ address = if route.is_routed then route.router else daddr

theorem address_right (route : Route) (daddr : Nat) :
    ((if route.is_routed then daddr else route.router) =
      if route.is_routed then route.router else daddr) ↔ route.router = daddr := by
  cases route.is_routed with
  | false => exact Iff.rfl
  | true => exact eq_comm

/-- The word of the time to live has lost 1 or 256, the check has gained 1 or wrapped to 0. -/
theorem check_right (big : Bool) (hdr : Iphdr) (wide : 16 ≤ w) (alive : 2 ≤ hdr.ttl)
    (small : hdr.check < 2 ^ 16) (valid : packet_checksum big hdr = 0xffff) :
    packet_checksum big { hdr with
        ttl := hdr.ttl - 1
        check := ((hdr.check + 1) % 2 ^ w + (hdr.check + 1) % 2 ^ w / 2 ^ 16) % 2 ^ 16 } = 0xffff ↔
      big = false ∧ (16 < w ∨ hdr.check ≠ 0xffff) := by
  have folded : ((hdr.check + 1) % 2 ^ w + (hdr.check + 1) % 2 ^ w / 2 ^ 16) % 2 ^ 16 =
      if hdr.check = 0xffff then if w = 16 then 0 else 1 else hdr.check + 1 := by
    rcases Nat.eq_or_lt_of_le wide with rfl | more
    · rw [if_pos rfl]
      split <;> omega
    · have power : 2 ^ 17 ≤ 2 ^ w := Nat.pow_le_pow_right (by decide) more
      rw [Nat.mod_eq_of_lt (by omega : hdr.check + 1 < 2 ^ w), if_neg (by omega : w ≠ 16)]
      split <;> omega
  simp only [packet_checksum, carries_iff _ _ (Nat.le_refl _), folded] at valid ⊢
  clear folded
  cases big with
  | false =>
    simp only [Bool.false_eq_true, ↓reduceIte, true_and] at valid ⊢
    split
    · split <;> omega
    · omega
  | true =>
    simp only [↓reduceIte, reduceCtorEq, false_and, iff_false] at valid ⊢
    split
    · split <;> omega
    · omega

/-- Headers from 10.0.0.1 to 10.0.0.2 for UDP, as they are loaded. -/
def header (id ttl check : Nat) : Iphdr :=
  ⟨ttl, 17, check, [0x45, 0x1c00, id, 0, 0xa, 0x100, 0xa, 0x200]⟩

def header_big (ttl check : Nat) : Iphdr :=
  ⟨ttl, 17, check, [0x4500, 0x1c, 0, 0, 0xa00, 1, 0xa00, 2]⟩

def direct : Route := ⟨1, 0, 0x0a000000, false, 0xff000000, 0⟩

end MutekIpForward
