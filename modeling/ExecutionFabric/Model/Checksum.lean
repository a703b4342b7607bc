import ExecutionFabric.Lib.Wire
import ExecutionFabric.Model.Identity

/-!
# CRC-64

The reflected CRC-64/ECMA-182 checksum, a byte at a time from a table of 256 words.
Its step is injective in the checksum so far and in the byte, because no table entry
but the first has a zero top byte; so a checksum sees every substitution of one byte.
-/
namespace ExecutionFabric

open Lib

/-- The reflected ECMA-182 polynomial. -/
def crc64Poly : UInt64 := 0xC96C5795D7870F42

/-- One bit of the table computation. -/
def crc64Bit (crc : UInt64) : UInt64 :=
  if crc &&& 1 ≠ 0 then (crc >>> 1) ^^^ crc64Poly else crc >>> 1

/-- `n` bits of the table computation. -/
def crc64Bits : Nat → UInt64 → UInt64
  | 0, crc => crc
  | n + 1, crc => crc64Bits n (crc64Bit crc)

/-- The table entry at an index. -/
def crc64Table (index : UInt8) : UInt64 := crc64Bits 8 index.toUInt64

def crc64Step (crc : UInt64) (byte : UInt8) : UInt64 :=
  crc64Table (crc ^^^ byte.toUInt64).toUInt8 ^^^ (crc >>> 8)

def crc64Ecma (data : Bytes) : UInt64 :=
  data.foldl crc64Step 0xFFFFFFFFFFFFFFFF ^^^ 0xFFFFFFFFFFFFFFFF

/-! ## The step is injective -/

theorem and_one_xor (a b : UInt64) : (a ^^^ b) &&& 1 = (a &&& 1) ^^^ (b &&& 1) := by
  apply UInt64.toBitVec_inj.mp
  apply BitVec.eq_of_getElem_eq
  intro i hi
  simp only [UInt64.toBitVec_and, UInt64.toBitVec_xor, BitVec.getElem_and, BitVec.getElem_xor,
    Bool.and_xor_distrib_right]

theorem and_one_cases (a : UInt64) : a &&& 1 = 0 ∨ a &&& 1 = 1 := by
  have h : (a &&& 1).toNat = a.toNat % 2 := by
    rw [UInt64.toNat_and]
    exact Nat.and_one_is_mod _
  rcases Nat.mod_two_eq_zero_or_one a.toNat with h0 | h1
  · exact .inl (UInt64.toNat_inj.mp (h.trans h0))
  · exact .inr (UInt64.toNat_inj.mp (h.trans h1))

theorem shiftRight_xor (a b : UInt64) (n : UInt64) : (a ^^^ b) >>> n = (a >>> n) ^^^ (b >>> n) := by
  apply UInt64.toBitVec_inj.mp
  simp [BitVec.ushiftRight_xor_distrib]

/-- The table computation is linear. -/
theorem crc64Bit_xor (a b : UInt64) : crc64Bit (a ^^^ b) = crc64Bit a ^^^ crc64Bit b := by
  unfold crc64Bit
  rw [and_one_xor, shiftRight_xor]
  rcases and_one_cases a with ha | ha <;> rcases and_one_cases b with hb | hb
  · simp [ha, hb]
  · simp [ha, hb, UInt64.xor_assoc]
  · simp only [ha, hb]
    simp [UInt64.xor_assoc, UInt64.xor_comm crc64Poly]
  · have hone : (1 : UInt64) ≠ 0 := by decide
    rw [ha, hb, UInt64.xor_self, if_neg (by simp), if_pos hone, if_pos hone, UInt64.xor_assoc,
      ← UInt64.xor_assoc crc64Poly, UInt64.xor_comm crc64Poly, UInt64.xor_assoc (b >>> 1),
      UInt64.xor_self, UInt64.xor_zero]

theorem crc64Bits_xor (n : Nat) (a b : UInt64) :
    crc64Bits n (a ^^^ b) = crc64Bits n a ^^^ crc64Bits n b := by
  induction n generalizing a b with
  | zero => rfl
  | succ n ih => rw [crc64Bits, crc64Bit_xor, ih, crc64Bits, crc64Bits]

theorem crc64Table_xor (i j : UInt8) : crc64Table (i ^^^ j) = crc64Table i ^^^ crc64Table j := by
  rw [crc64Table, UInt8.toUInt64_xor, crc64Bits_xor, crc64Table, crc64Table]

/-- No table entry but the first has a zero top byte. -/
theorem crc64Table_top (i : UInt8) (h : crc64Table i >>> 56 = 0) : i = 0 := by
  have hall : ∀ n : Fin 256, crc64Table (UInt8.ofNat n) >>> 56 = 0 → n = 0 := by decide +kernel
  have hi := hall ⟨i.toNat, i.toNat_lt⟩
  rw [UInt8.ofNat_toNat] at hi
  exact UInt8.toNat_inj.mp (congrArg Fin.val (hi h))

theorem xor_eq_zero_iff (a b : UInt64) : a ^^^ b = 0 ↔ a = b := by
  constructor
  · intro h
    calc a = a ^^^ (b ^^^ b) := by rw [UInt64.xor_self, UInt64.xor_zero]
      _ = b := by rw [← UInt64.xor_assoc, h, UInt64.zero_xor]
  · intro h
    rw [h, UInt64.xor_self]

/-- The low byte and the other seven determine a word. -/
theorem eq_zero_of_halves (d : UInt64) (hlow : d.toUInt8 = 0) (hhigh : d >>> 8 = 0) : d = 0 := by
  have hl : d.toNat % 256 = 0 := by
    have := congrArg UInt8.toNat hlow
    simpa using this
  have hh : d.toNat / 256 = 0 := by
    have := congrArg UInt64.toNat hhigh
    simpa [Nat.shiftRight_eq_div_pow] using this
  apply UInt64.toNat_inj.mp
  rw [UInt64.toNat_zero]
  omega

/-- The top byte of a shifted word is zero. -/
theorem shiftRight_top (d : UInt64) : (d >>> 8) >>> 56 = 0 := by
  apply UInt64.toNat_inj.mp
  have hd := d.toNat_lt
  simp [Nat.shiftRight_eq_div_pow]
  omega

theorem crc64Table_eq_zero {i : UInt8} (h : crc64Table i = 0) : i = 0 := by
  apply crc64Table_top
  rw [h]
  rfl

theorem crc64Step_xor (c c' : UInt64) (b b' : UInt8) :
    crc64Step c b ^^^ crc64Step c' b' =
      crc64Table ((c ^^^ c').toUInt8 ^^^ (b ^^^ b')) ^^^ ((c ^^^ c') >>> 8) := by
  rw [crc64Step, crc64Step, shiftRight_xor, ← UInt64.xor_assoc, UInt64.xor_assoc (crc64Table _),
    UInt64.xor_comm (c >>> 8), ← UInt64.xor_assoc, ← crc64Table_xor, UInt64.xor_assoc]
  congr 2
  simp only [UInt64.toUInt8_xor, UInt8.toUInt8_toUInt64]
  ac_rfl

theorem crc64Step_injective_crc (b : UInt8) : Function.Injective (crc64Step · b) := by
  intro c c' h
  have hx : crc64Step c b ^^^ crc64Step c' b = 0 := (xor_eq_zero_iff _ _).mpr h
  rw [crc64Step_xor, UInt8.xor_self, UInt8.xor_zero, xor_eq_zero_iff] at hx
  have hlow : (c ^^^ c').toUInt8 = 0 := by
    apply crc64Table_top
    rw [hx, shiftRight_top]
  have hhigh : (c ^^^ c') >>> 8 = 0 := by
    rw [← hx, hlow]
    rfl
  exact (xor_eq_zero_iff _ _).mp (eq_zero_of_halves _ hlow hhigh)

theorem crc64Step_injective_byte (c : UInt64) : Function.Injective (crc64Step c) := by
  intro b b' h
  have hx : crc64Step c b ^^^ crc64Step c b' = 0 := (xor_eq_zero_iff _ _).mpr h
  rw [crc64Step_xor, UInt64.xor_self] at hx
  have hb : b ^^^ b' = 0 := by
    apply crc64Table_eq_zero
    simpa using hx
  calc b = b ^^^ (b' ^^^ b') := by rw [UInt8.xor_self, UInt8.xor_zero]
    _ = b' := by rw [← UInt8.xor_assoc, hb, UInt8.zero_xor]

/-- The checksum sees every substitution of one byte, at any length. -/
theorem crc64Ecma_set_ne {data : Bytes} {i : Nat} {b : UInt8} (h : i < data.length)
    (hne : data[i] ≠ b) : crc64Ecma (data.set i b) ≠ crc64Ecma data := by
  intro he
  refine foldl_set_ne crc64Step_injective_crc crc64Step_injective_byte 0xFFFFFFFFFFFFFFFF h hne ?_
  have hx := congrArg (· ^^^ (0xFFFFFFFFFFFFFFFF : UInt64)) he
  simpa only [crc64Ecma, UInt64.xor_assoc, UInt64.xor_self, UInt64.xor_zero] using hx

/-! ## Words and checksums in a byte string -/

/-- The little-endian word of `size` bytes at `offset`. -/
def readLe (data : Bytes) (offset size : Nat) : Nat := leWord (slice data offset size)

/-- The checksum of a byte string as it is written. -/
def checksum (data : Bytes) : Bytes := leBytes 8 (crc64Ecma data).toNat

/-- The word at `offset` is the checksum of the `size` bytes from `start` on. -/
def checksumAt (data : Bytes) (offset start size : Nat) : Bool :=
  readLe data offset 8 = (crc64Ecma (slice data start size)).toNat

theorem slice_word {data : Bytes} {offset size : Nat} (h : offset + size ≤ data.length) :
    slice data offset size = leBytes size (readLe data offset size) := by
  have hlength := length_slice_of_le h
  conv_lhs => rw [← leBytes_leWord (slice data offset size), hlength]
  rfl

theorem readLe_lt (data : Bytes) (offset size : Nat) : readLe data offset size < 256 ^ size := by
  refine (leWord_lt _).trans_le (Nat.pow_le_pow_right (by omega) ?_)
  rw [length_slice]
  omega

@[simp] theorem length_checksum (data : Bytes) : (checksum data).length = 8 := length_leBytes _ _

theorem readLe_middle (a c : Bytes) {n offset size : Nat} (ha : a.length = offset)
    (hn : n < 256 ^ size) : readLe (a ++ (leBytes size n ++ c)) offset size = n := by
  rw [readLe, slice_middle a _ c ha (length_leBytes size n), leWord_leBytes size n hn]

theorem readLe_first (c : Bytes) {n size : Nat} (hn : n < 256 ^ size) :
    readLe (leBytes size n ++ c) 0 size = n := by
  have h := slice_full (leBytes size n)
  rw [length_leBytes] at h
  rw [readLe, slice_append_left _ (by rw [length_leBytes, Nat.zero_add]), h,
    leWord_leBytes size n hn]

theorem crc64_lt (data : Bytes) : (crc64Ecma data).toNat < 256 ^ 8 := (crc64Ecma data).toNat_lt

theorem checksumAt_middle (a c : Bytes) {data : Bytes} {offset start size : Nat}
    (hslice : slice (a ++ (checksum data ++ c)) start size = data) (ha : a.length = offset) :
    checksumAt (a ++ (checksum data ++ c)) offset start size = true := by
  rw [checksumAt, hslice]
  exact decide_eq_true (readLe_middle a c ha (crc64_lt data))

end ExecutionFabric
