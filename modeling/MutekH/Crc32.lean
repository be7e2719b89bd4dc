import MutekH.Lib.ShiftRegister

/-!
The two builds of CRC-32: bit by bit, and a byte at a time from a table. Both
shift a register with the polynomial 0x04c11db7, the leading bit first. A byte of
data enters the bitwise loop one bit at each shift and the table lookup all at
once; exclusive or makes no difference between the two.
-/
namespace MutekCrc32
open LibShiftRegister BitVec

structure Crc32Ctx where
  crc : BitVec 32
  deriving DecidableEq, Repr

def crypto_crc32_init : Crc32Ctx := ⟨0xffffffff#32⟩

def crypto_crc32_get (ctx : Crc32Ctx) : List (BitVec 8) :=
  let hash := ~~~ctx.crc
  [hash.extractLsb' 24 8, hash.extractLsb' 16 8, hash.extractLsb' 8 8, hash.extractLsb' 0 8]

/- The build with CONFIG_LIBCRYPTO_CRC32_SMALL. `int` has 32 bits, so that the shift of a
   byte by 24 places keeps it. -/

def bitLoop : Nat → BitVec 32 → BitVec 32 → BitVec 32
  | 0, crc, _ => crc
  | j + 1, crc, w =>
      bitLoop j ((crc <<< 1) ^^^ (0x04c11db7#32 &&& ~~~(((w ^^^ crc) >>> 31) - 1#32))) (w <<< 1)

def crypto_crc32_update_small (ctx : Crc32Ctx) (data : List (BitVec 8)) : Crc32Ctx :=
  ⟨data.foldl (fun (crc : BitVec 32) (byte : BitVec 8) => bitLoop 8 crc
    (byte.setWidth 32 <<< 24)) ctx.crc⟩

/- The other build. -/

def crc_be_data : Vector (BitVec 32) 256 :=
  ⟨#[
    0x00000000, 0x04c11db7, 0x09823b6e, 0x0d4326d9, 0x130476dc, 0x17c56b6b, 0x1a864db2, 0x1e475005,
    0x2608edb8, 0x22c9f00f, 0x2f8ad6d6, 0x2b4bcb61, 0x350c9b64, 0x31cd86d3, 0x3c8ea00a, 0x384fbdbd,
    0x4c11db70, 0x48d0c6c7, 0x4593e01e, 0x4152fda9, 0x5f15adac, 0x5bd4b01b, 0x569796c2, 0x52568b75,
    0x6a1936c8, 0x6ed82b7f, 0x639b0da6, 0x675a1011, 0x791d4014, 0x7ddc5da3, 0x709f7b7a, 0x745e66cd,
    0x9823b6e0, 0x9ce2ab57, 0x91a18d8e, 0x95609039, 0x8b27c03c, 0x8fe6dd8b, 0x82a5fb52, 0x8664e6e5,
    0xbe2b5b58, 0xbaea46ef, 0xb7a96036, 0xb3687d81, 0xad2f2d84, 0xa9ee3033, 0xa4ad16ea, 0xa06c0b5d,
    0xd4326d90, 0xd0f37027, 0xddb056fe, 0xd9714b49, 0xc7361b4c, 0xc3f706fb, 0xceb42022, 0xca753d95,
    0xf23a8028, 0xf6fb9d9f, 0xfbb8bb46, 0xff79a6f1, 0xe13ef6f4, 0xe5ffeb43, 0xe8bccd9a, 0xec7dd02d,
    0x34867077, 0x30476dc0, 0x3d044b19, 0x39c556ae, 0x278206ab, 0x23431b1c, 0x2e003dc5, 0x2ac12072,
    0x128e9dcf, 0x164f8078, 0x1b0ca6a1, 0x1fcdbb16, 0x018aeb13, 0x054bf6a4, 0x0808d07d, 0x0cc9cdca,
    0x7897ab07, 0x7c56b6b0, 0x71159069, 0x75d48dde, 0x6b93dddb, 0x6f52c06c, 0x6211e6b5, 0x66d0fb02,
    0x5e9f46bf, 0x5a5e5b08, 0x571d7dd1, 0x53dc6066, 0x4d9b3063, 0x495a2dd4, 0x44190b0d, 0x40d816ba,
    0xaca5c697, 0xa864db20, 0xa527fdf9, 0xa1e6e04e, 0xbfa1b04b, 0xbb60adfc, 0xb6238b25, 0xb2e29692,
    0x8aad2b2f, 0x8e6c3698, 0x832f1041, 0x87ee0df6, 0x99a95df3, 0x9d684044, 0x902b669d, 0x94ea7b2a,
    0xe0b41de7, 0xe4750050, 0xe9362689, 0xedf73b3e, 0xf3b06b3b, 0xf771768c, 0xfa325055, 0xfef34de2,
    0xc6bcf05f, 0xc27dede8, 0xcf3ecb31, 0xcbffd686, 0xd5b88683, 0xd1799b34, 0xdc3abded, 0xd8fba05a,
    0x690ce0ee, 0x6dcdfd59, 0x608edb80, 0x644fc637, 0x7a089632, 0x7ec98b85, 0x738aad5c, 0x774bb0eb,
    0x4f040d56, 0x4bc510e1, 0x46863638, 0x42472b8f, 0x5c007b8a, 0x58c1663d, 0x558240e4, 0x51435d53,
    0x251d3b9e, 0x21dc2629, 0x2c9f00f0, 0x285e1d47, 0x36194d42, 0x32d850f5, 0x3f9b762c, 0x3b5a6b9b,
    0x0315d626, 0x07d4cb91, 0x0a97ed48, 0x0e56f0ff, 0x1011a0fa, 0x14d0bd4d, 0x19939b94, 0x1d528623,
    0xf12f560e, 0xf5ee4bb9, 0xf8ad6d60, 0xfc6c70d7, 0xe22b20d2, 0xe6ea3d65, 0xeba91bbc, 0xef68060b,
    0xd727bbb6, 0xd3e6a601, 0xdea580d8, 0xda649d6f, 0xc423cd6a, 0xc0e2d0dd, 0xcda1f604, 0xc960ebb3,
    0xbd3e8d7e, 0xb9ff90c9, 0xb4bcb610, 0xb07daba7, 0xae3afba2, 0xaafbe615, 0xa7b8c0cc, 0xa379dd7b,
    0x9b3660c6, 0x9ff77d71, 0x92b45ba8, 0x9675461f, 0x8832161a, 0x8cf30bad, 0x81b02d74, 0x857130c3,
    0x5d8a9099, 0x594b8d2e, 0x5408abf7, 0x50c9b640, 0x4e8ee645, 0x4a4ffbf2, 0x470cdd2b, 0x43cdc09c,
    0x7b827d21, 0x7f436096, 0x7200464f, 0x76c15bf8, 0x68860bfd, 0x6c47164a, 0x61043093, 0x65c52d24,
    0x119b4be9, 0x155a565e, 0x18197087, 0x1cd86d30, 0x029f3d35, 0x065e2082, 0x0b1d065b, 0x0fdc1bec,
    0x3793a651, 0x3352bbe6, 0x3e119d3f, 0x3ad08088, 0x2497d08d, 0x2056cd3a, 0x2d15ebe3, 0x29d4f654,
    0xc5a92679, 0xc1683bce, 0xcc2b1d17, 0xc8ea00a0, 0xd6ad50a5, 0xd26c4d12, 0xdf2f6bcb, 0xdbee767c,
    0xe3a1cbc1, 0xe760d676, 0xea23f0af, 0xeee2ed18, 0xf0a5bd1d, 0xf464a0aa, 0xf9278673, 0xfde69bc4,
    0x89b8fd09, 0x8d79e0be, 0x803ac667, 0x84fbdbd0, 0x9abc8bd5, 0x9e7d9662, 0x933eb0bb, 0x97ffad0c,
    0xafb010b1, 0xab710d06, 0xa6322bdf, 0xa2f33668, 0xbcb4666d, 0xb8757bda, 0xb5365d03,
      0xb1f740b4], by decide +kernel⟩

def crypto_crc32_update (ctx : Crc32Ctx) (data : List (BitVec 8)) : Crc32Ctx :=
  ⟨data.foldl
    (fun (crc : BitVec 32) (byte : BitVec 8) => (crc <<< 8) ^^^ crc_be_data.get
      (byte ^^^ (crc >>> 24).setWidth 8).toFin)
    ctx.crc⟩

def poly : BitVec 32 := 0x04c11db7#32

theorem mask_of_msb (x : BitVec 32) :
    ~~~((x >>> 31) - 1#32) = if x.msb then 0xffffffff#32 else 0#32 := by
  have low : x >>> 31 = (ofBool x.msb).setWidth 32 := by
    apply eq_of_getLsbD_eq
    intro i inside
    rw [msb_eq_getLsbD_last]
    by_cases first : i = 0
    · simp [first]
    · simp [first, getLsbD_of_ge x (31 + i) (by omega)]
  rw [low]
  cases x.msb with
  | false | true => decide

theorem round_is_shift (crc w : BitVec 32) :
    (crc <<< 1) ^^^ (0x04c11db7#32 &&& ~~~(((w ^^^ crc) >>> 31) - 1#32)) =
      shift poly (crc ^^^ w) ^^^ (w <<< 1) := by
  rw [mask_of_msb, BitVec.xor_comm w crc]
  unfold shift
  have cancel : (crc ^^^ w) <<< 1 = (crc <<< 1) ^^^ (w <<< 1) := shiftLeft_xor_distrib ..
  cases (crc ^^^ w).msb with
  | false => simp [cancel, xor_assoc]
  | true => ?_
  have ones : (0x04c11db7#32 &&& 0xffffffff#32) = poly := by decide
  simp only [↓reduceIte, ones, cancel]
  rw [BitVec.xor_comm _ (w <<< 1), BitVec.xor_comm (crc <<< 1) (w <<< 1), xor_assoc,
    ← xor_assoc, BitVec.xor_self, zero_xor]

theorem bitLoop_is_shifts (n : Nat) :
    ∀ crc w, bitLoop n crc w = shifts poly n (crc ^^^ w) ^^^ (w <<< n) := by
  induction n with
  | zero =>
    intro crc w
    simp [bitLoop, shifts, xor_assoc]
  | succ n ih =>
    intro crc w
    rw [bitLoop, round_is_shift, ih, shifts, xor_assoc, BitVec.xor_self, xor_zero,
      ← shiftLeft_add, Nat.add_comm]

theorem table_is_shifts (i : Fin 256) :
    crc_be_data.get i = shifts poly 8 (BitVec.ofNat 32 i <<< 24) := by
  revert i
  decide +kernel

theorem low_mask_bit (i : Nat) : (0x00ffffff#32).getLsbD i = decide (i < 24) := by
  rw [getLsbD_ofNat, show (0x00ffffff : Nat) = 2 ^ 24 - 1 by rfl, Nat.testBit_two_pow_sub_one]
  by_cases low : i < 24
  · simp [show i < 32 by omega]
  · simp [low]

theorem leading_and_rest (crc : BitVec 32) (byte : BitVec 8) : crc ^^^ (byte.setWidth 32 <<< 24) =
      ((byte ^^^ (crc >>> 24).setWidth 8).setWidth 32 <<< 24) ^^^ (crc &&& 0x00ffffff#32) := by
  apply eq_of_getLsbD_eq
  intro i inside
  simp only [getLsbD_xor, getLsbD_and, low_mask_bit]
  by_cases low : i < 24
  · simp [low]
  · have place : 24 + (i - 24) = i := by omega
    have bit : i - 24 < 8 := by omega
    simp [low, inside, place, bit, Bool.xor_comm]

theorem rest_clear (crc : BitVec 32) (i : Nat) (small : i < 8) :
    (crc &&& 0x00ffffff#32).getMsbD i = false := by
  rw [getMsbD_and, getMsbD_eq_getLsbD (0x00ffffff#32), low_mask_bit]
  simp [show ¬ 32 - 1 - i < 24 by omega]

theorem rest_shifted (crc : BitVec 32) : (crc &&& 0x00ffffff#32) <<< 8 = crc <<< 8 := by
  apply eq_of_getLsbD_eq
  intro i inside
  simp only [getLsbD_shiftLeft, getLsbD_and, low_mask_bit]
  by_cases low : i < 8
  · simp [low]
  · simp [show i - 8 < 24 by omega]

theorem lookup_is_bitLoop (crc : BitVec 32) (byte : BitVec 8) :
    bitLoop 8 crc (byte.setWidth 32 <<< 24) =
      (crc <<< 8) ^^^ crc_be_data.get (byte ^^^ (crc >>> 24).setWidth 8).toFin := by
  have gone : (byte.setWidth 32 <<< 24) <<< 8 = 0#32 := by
    rw [← shiftLeft_add]
    exact shiftLeft_eq_zero (by decide)
  have index : BitVec.ofNat 32 (byte ^^^ (crc >>> 24).setWidth 8).toFin =
      (byte ^^^ (crc >>> 24).setWidth 8).setWidth 32 := ofNat_toNat ..
  calc bitLoop 8 crc (byte.setWidth 32 <<< 24)
      = shifts poly 8 (crc ^^^ (byte.setWidth 32 <<< 24)) := by
        rw [bitLoop_is_shifts, gone, xor_zero]
    _ = shifts poly 8 ((byte ^^^ (crc >>> 24).setWidth 8).setWidth 32 <<< 24) ^^^
          shifts poly 8 (crc &&& 0x00ffffff#32) := by
        rw [leading_and_rest, shifts_xor]
    _ = shifts poly 8 ((byte ^^^ (crc >>> 24).setWidth 8).setWidth 32 <<< 24) ^^^ (crc <<< 8) := by
        rw [shifts_of_clear poly 8 _ (rest_clear crc), rest_shifted]
    _ = (crc <<< 8) ^^^ crc_be_data.get (byte ^^^ (crc >>> 24).setWidth 8).toFin := by
        rw [table_is_shifts, index, BitVec.xor_comm]

/-- The two builds compute the same context, and a buffer may be cut anywhere. -/
theorem crc32_builds_agree (ctx : Crc32Ctx) (x y : List (BitVec 8)) :
    crypto_crc32_update_small ctx x = crypto_crc32_update ctx x ∧
      crypto_crc32_update_small (crypto_crc32_update_small ctx x) y =
        crypto_crc32_update_small ctx (x ++ y) ∧
      crypto_crc32_update (crypto_crc32_update ctx x) y = crypto_crc32_update ctx (x ++ y) := by
  refine ⟨?_,?_,?_⟩
  · unfold crypto_crc32_update_small crypto_crc32_update
    simp only [lookup_is_bitLoop]
  · simp [crypto_crc32_update_small]
  · simp [crypto_crc32_update]

-- The hash of the nine digits `123456789`.
example : crypto_crc32_get (crypto_crc32_update crypto_crc32_init
    [0x31#8, 0x32#8, 0x33#8, 0x34#8, 0x35#8, 0x36#8, 0x37#8, 0x38#8, 0x39#8]) =
      [0xfc#8, 0x89#8, 0x19#8, 0x18#8] := by decide +kernel

end MutekCrc32
