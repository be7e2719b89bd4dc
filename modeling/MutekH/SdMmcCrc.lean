import Mathlib

/-!
The checksum of a command (drivers/block/sd-mmc/sd-mmc.c), a remainder of polynomials over GF(2).
-/
namespace MutekSdMmcCrc
open Polynomial

/-- One turn of the inner loop, on `crc` and `d`. -/
def turn (s : BitVec 8 × BitVec 8) : BitVec 8 × BitVec 8 :=
  let crc := s.1 <<< 1
  (if (s.2 &&& 0x80#8) ^^^ (crc &&& 0x80#8) ≠ 0#8 then crc ^^^ 0x09#8 else crc, s.2 <<< 1)

def crc7 (data : List (BitVec 8)) : BitVec 8 :=
  let crc := data.foldl (fun crc d => (turn^[8] (crc, d)).1) 0#8
  crc <<< 1 ||| 1#8

noncomputable section

def bit (b : Bool) : ZMod 2 := b.toNat

/-- The polynomial of the seven low bits. -/
def word (c : BitVec n) : (ZMod 2)[X] := ∑ i : Fin 7, C (bit (c.getLsbD i)) * X ^ (i : Nat)

/-- The polynomial of the `n` leading bits of a byte. -/
def leading : Nat → BitVec 8 → (ZMod 2)[X]
  | 0, _ => 0
  | n + 1, d => C (bit (d.getLsbD 7)) * X ^ n + leading n (d <<< 1)

/-- The polynomial of a message, its first bit most significant. -/
def message (data : List (BitVec 8)) : (ZMod 2)[X] :=
  data.foldl (fun p d => p * X ^ 8 + leading 8 d) 0

def generator : (ZMod 2)[X] := X ^ 7 + X ^ 3 + 1

theorem bit_xor (a b : Bool) : bit (a ^^ b) = bit a + bit b := by
  revert a b
  decide

/-- The bits of the register after a turn; the eighth bit before it has no influence. -/
theorem turn_bits (crc d : BitVec 8) (i : Fin 7) :
    (turn (crc, d)).1.getLsbD i =
    ((0 < i.val && crc.getLsbD (i - 1)) ^^
      ((i.val = 0 || i.val = 3) && (d.getLsbD 7 ^^ crc.getLsbD 6))) := by
  have top : d &&& 0x80#8 = if d.getLsbD 7 then 0x80#8 else 0#8 := by
    revert d
    decide
  simp only [turn, top]
  revert crc i
  cases d.getLsbD 7 with
  | false | true => decide +kernel

theorem turn_word (crc d : BitVec 8) :
    word (turn (crc, d)).1 + generator * C (bit (d.getLsbD 7 ^^ crc.getLsbD 6)) =
      word crc * X + C (bit (d.getLsbD 7)) * X ^ 7 := by
  have two : (2 : (ZMod 2)[X]) = 0 := CharTwo.two_eq_zero
  simp only [word, turn_bits, Fin.sum_univ_seven, generator]
  simp [bit_xor]
  linear_combination (C (bit d[7]) + C (bit crc[6])) * (1 + X ^ 3) * two

theorem turns_word (n : Nat) (crc d : BitVec 8) : ∃ q, word (turn^[n] (crc, d)).1 + generator * q =
    word crc * X ^ n + leading n d * X ^ 7 := by
  induction n generalizing crc d with
  | zero => exact ⟨0,by simp [leading]⟩
  | succ n ih =>
    obtain ⟨q,divided⟩ := ih (turn (crc, d)).1 (d <<< 1)
    refine ⟨q + C (bit (d.getLsbD 7 ^^ crc.getLsbD 6)) * X ^ n,?_⟩
    rw [leading]
    change word (turn^[n] ((turn (crc, d)).1, d <<< 1)).1 + _ = _
    linear_combination divided + X ^ n * turn_word crc d

theorem data_word (data : List (BitVec 8)) :
    ∃ q, word (data.foldl (fun crc d => (turn^[8] (crc, d)).1) 0#8) + generator * q =
      message data * X ^ 7 := by
  unfold message
  induction data using List.reverseRecOn with
  | nil => exact ⟨0,by simp [word, bit]⟩
  | append_singleton data d ih =>
    obtain ⟨q,divided⟩ := ih
    rw [List.foldl_concat, List.foldl_concat]
    generalize data.foldl (fun crc d => (turn^[8] (crc, d)).1) 0#8 = crc at divided ⊢
    obtain ⟨q',turned⟩ := turns_word 8 crc d
    exact ⟨q * X ^ 8 + q',by linear_combination turned + X ^ 8 * divided⟩

theorem crc7_remainder (data : List (BitVec 8)) :
    ∃ r : BitVec 7, (crc7 data).toNat = 2 * r.toNat + 1 ∧
    word r = message data * X ^ 7 %ₘ generator := by
  have doubled : ∀ crc : BitVec 8, (crc <<< 1 ||| 1#8).toNat = 2 * (crc.setWidth 7).toNat + 1 := by
    decide
  have low : ∀ crc : BitVec 8, word (crc.setWidth 7) = word crc := fun crc => by simp [word]
  have monic : generator.Monic := by
    unfold generator
    monicity!
  have degree : degree generator = 7 := by
    unfold generator
    compute_degree!
  obtain ⟨q,divided⟩ := data_word data
  refine ⟨_,doubled _,?_⟩
  rw [low]
  refine (div_modByMonic_unique q _ monic ⟨divided,?_⟩).2.symm
  rw [degree]
  exact degree_sum_fin_lt _

end

end MutekSdMmcCrc
