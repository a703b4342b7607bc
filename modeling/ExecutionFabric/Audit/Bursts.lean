import ExecutionFabric.Model.Checksum

/-!
# Checksums and bursts

The table-driven checksum is the bit-serial one. Eight steps from a common state are
injective in their eight bytes, so that two byte strings that differ within a window of
eight bytes have different checksums, whatever stands before and behind the window.
-/
namespace ExecutionFabric

open Lib

/-! ## The bit-serial checksum -/

/-- The `n` low bits of a number, the lowest first. -/
def bitsOf : Nat → Nat → List Bool
  | 0, _ => []
  | n + 1, v => decide (v % 2 = 1) :: bitsOf n (v / 2)

/-- One bit of the message enters the register at its low end. -/
def crc64Shift (crc : UInt64) (bit : Bool) : UInt64 :=
  if decide (crc &&& 1 ≠ 0) ≠ bit then (crc >>> 1) ^^^ crc64Poly else crc >>> 1

/-- The reflected CRC-64, a bit at a time. -/
def crc64Serial (data : Bytes) : UInt64 :=
  (data.flatMap fun b => bitsOf 8 b.toNat).foldl crc64Shift 0xFFFFFFFFFFFFFFFF ^^^
    0xFFFFFFFFFFFFFFFF

/-- The low bits of a word and the others are apart. -/
theorem split_xor (k : Nat) (m : Nat) {low : Nat} (h : low < 2 ^ k) :
    low ^^^ (2 ^ k * m) = 2 ^ k * m + low := by
  apply Nat.eq_of_testBit_eq
  intro i
  rw [Nat.testBit_xor, Nat.testBit_two_pow_mul_add _ h, Nat.testBit_two_pow_mul]
  by_cases hi : i < k
  · simp [hi, Nat.not_le_of_lt hi]
  · have hclear : low.testBit i = false :=
      Nat.testBit_lt_two_pow (Nat.lt_of_lt_of_le h (Nat.pow_le_pow_right (by omega) (by omega)))
    simp [hi, hclear, Nat.le_of_not_lt hi]

theorem ofNat_split (k : Nat) {v : Nat} (h : v < 2 ^ 64) :
    UInt64.ofNat v = UInt64.ofNat (v % 2 ^ k) ^^^ UInt64.ofNat (2 ^ k * (v / 2 ^ k)) := by
  have hpow : 0 < 2 ^ k := Nat.two_pow_pos k
  have hsum := Nat.div_add_mod v (2 ^ k)
  have hlow := Nat.mod_le v (2 ^ k)
  apply UInt64.toNat_inj.mp
  rw [UInt64.toNat_xor, UInt64.toNat_ofNat_of_lt' h,
    UInt64.toNat_ofNat_of_lt' (by rw [UInt64.size]; omega),
    UInt64.toNat_ofNat_of_lt' (by rw [UInt64.size]; omega), split_xor k _ (Nat.mod_lt _ hpow)]
  omega

/-- A register whose low bit is clear is only shifted. -/
theorem crc64Bit_double {n : Nat} (h : n < 2 ^ 63) :
    crc64Bit (UInt64.ofNat (2 * n)) = UInt64.ofNat n := by
  have hlow : UInt64.ofNat (2 * n) &&& 1 = 0 := by
    apply UInt64.toNat_inj.mp
    rw [UInt64.toNat_and, UInt64.toNat_ofNat_of_lt' (by rw [UInt64.size]; omega)]
    exact (Nat.and_one_is_mod _).trans (by simp)
  rw [crc64Bit, if_neg (not_not.mpr hlow)]
  apply UInt64.toNat_inj.mp
  rw [UInt64.toNat_shiftRight, UInt64.toNat_ofNat_of_lt' (by rw [UInt64.size]; omega),
    UInt64.toNat_ofNat_of_lt' (by rw [UInt64.size]; omega)]
  simp [Nat.shiftRight_eq_div_pow]

/-- Whole bytes that are clear are only shifted out. -/
theorem crc64Bits_shifted (k : Nat) {n : Nat} (h : n * 2 ^ k < 2 ^ 64) :
    crc64Bits k (UInt64.ofNat (n * 2 ^ k)) = UInt64.ofNat n := by
  induction k with
  | zero => rw [Nat.pow_zero, Nat.mul_one, crc64Bits]
  | succ k ih =>
    have hdouble : n * 2 ^ (k + 1) = 2 * (n * 2 ^ k) := by ring
    rw [hdouble] at h ⊢
    rw [crc64Bits, crc64Bit_double (by omega), ih (by omega)]

/-- A message bit is the same as the low bit of the register. -/
theorem crc64Shift_eq (crc : UInt64) (bit : Bool) :
    crc64Shift crc bit = crc64Bit (crc ^^^ UInt64.ofNat bit.toNat) := by
  have hone : (1 : UInt64) &&& 1 = 1 := by decide
  unfold crc64Shift
  cases bit with
  | false =>
    rw [show UInt64.ofNat false.toNat = 0 from rfl, UInt64.xor_zero, crc64Bit]
    simp
  | true =>
    rw [show UInt64.ofNat true.toNat = 1 from rfl, crc64Bit, and_one_xor, hone, shiftRight_xor,
      show (1 : UInt64) >>> 1 = 0 from by decide, UInt64.xor_zero]
    rcases and_one_cases crc with hcrc | hcrc <;> simp [hcrc]

/-- The bits of a number, one after the other, do what the number does at once. -/
theorem foldl_crc64Shift {n : Nat} (hn : n ≤ 64) (crc : UInt64) {v : Nat} (h : v < 2 ^ n) :
    (bitsOf n v).foldl crc64Shift crc = crc64Bits n (crc ^^^ UInt64.ofNat v) := by
  induction n generalizing crc v with
  | zero =>
    obtain rfl : v = 0 := by omega
    exact (UInt64.xor_zero).symm
  | succ n ih =>
    have hrest : v / 2 < 2 ^ n := by omega
    have hbit : (decide (v % 2 = 1)).toNat = v % 2 := by
      rcases Nat.mod_two_eq_zero_or_one v with h0 | h1
      · simp [h0]
      · simp [h1]
    have hsplit := ofNat_split 1
      (Nat.lt_of_lt_of_le h (Nat.pow_le_pow_right (by omega) hn))
    rw [Nat.pow_one] at hsplit
    have hsmall : v / 2 < 2 ^ 63 := Nat.lt_of_lt_of_le hrest (Nat.pow_le_pow_right (by omega) (by omega))
    rw [bitsOf, List.foldl_cons, ih (by omega) _ hrest, crc64Shift_eq, hbit, crc64Bits, hsplit,
      ← UInt64.xor_assoc, crc64Bit_xor (crc ^^^ UInt64.ofNat (v % 2)), crc64Bit_double hsmall]

/-- A step of the table is eight bits of the register. -/
theorem crc64Step_eq (crc : UInt64) (b : UInt8) :
    crc64Step crc b = crc64Bits 8 (crc ^^^ b.toUInt64) := by
  have hhigh : (crc ^^^ b.toUInt64) >>> 8 = crc >>> 8 := by
    rw [shiftRight_xor]
    have hzero : b.toUInt64 >>> 8 = 0 := by
      apply UInt64.toNat_inj.mp
      have hb := b.toNat_lt
      simp [Nat.shiftRight_eq_div_pow]
      omega
    rw [hzero, UInt64.xor_zero]
  unfold crc64Step crc64Table
  rw [← hhigh]
  generalize crc ^^^ b.toUInt64 = r
  have hr := r.toNat_lt
  have hsplit := ofNat_split 8 hr
  rw [UInt64.ofNat_toNat] at hsplit
  have hshift : r >>> 8 = UInt64.ofNat (r.toNat / 2 ^ 8) := by
    apply UInt64.toNat_inj.mp
    rw [UInt64.toNat_ofNat_of_lt' (by rw [UInt64.size]; omega)]
    simp [Nat.shiftRight_eq_div_pow]
  have hlow : r.toUInt8.toUInt64 = UInt64.ofNat (r.toNat % 2 ^ 8) := by
    apply UInt64.toNat_inj.mp
    rw [UInt64.toNat_ofNat_of_lt' (by rw [UInt64.size]; omega)]
    simp
  rw [hlow, hshift]
  conv_rhs => rw [hsplit]
  rw [crc64Bits_xor, Nat.mul_comm (2 ^ 8), crc64Bits_shifted 8 (by omega)]

/-- The table-driven checksum is the bit-serial one. -/
theorem crc64Ecma_serial (data : Bytes) : crc64Ecma data = crc64Serial data := by
  have hfold : ∀ crc, data.foldl crc64Step crc =
      (data.flatMap fun b => bitsOf 8 b.toNat).foldl crc64Shift crc := by
    induction data with
    | nil => exact fun _ => rfl
    | cons b rest ih =>
      intro crc
      have hbyte : UInt64.ofNat b.toNat = b.toUInt64 := UInt64.toNat_inj.mp (by simp)
      rw [List.foldl_cons, List.flatMap_cons, List.foldl_append, ih,
        foldl_crc64Shift (by omega) crc b.toNat_lt, crc64Step_eq, hbyte]
  rw [crc64Ecma, crc64Serial, hfold]

/-! ## Bursts -/

/-- Two runs of the register differ as the register run on the differences. -/
theorem foldl_crc64Step_xor {m m' : Bytes} (h : m.length = m'.length) (c c' : UInt64) :
    m.foldl crc64Step c ^^^ m'.foldl crc64Step c' =
      (List.zipWith (· ^^^ ·) m m').foldl crc64Step (c ^^^ c') := by
  induction m generalizing m' c c' with
  | nil =>
    rw [List.length_eq_zero_iff.mp h.symm]
    rfl
  | cons b rest ih =>
    cases m' with
    | nil => cases h
    | cons b' rest' =>
      rw [List.foldl_cons, List.foldl_cons, List.zipWith_cons_cons, List.foldl_cons,
        ih (Nat.succ.inj h), crc64Step_xor]
      congr 1
      unfold crc64Step
      congr 2
      simp

/-- At most eight bytes that clear the register are the bytes that were in it. -/
theorem foldl_crc64Step_eq_zero {es : Bytes} (hes : es.length ≤ 8) {d : UInt64}
    (h : es.foldl crc64Step d = 0) : d.toNat = leWord es := by
  induction es generalizing d with
  | nil => rw [show d = 0 from h, leWord, UInt64.toNat_zero]
  | cons e rest ih =>
    have hnext := ih (Nat.le_of_succ_le hes) h
    have hlength : rest.length ≤ 7 := by
      rw [List.length_cons] at hes
      omega
    have hsmall : (crc64Step d e).toNat < 2 ^ 56 := by
      rw [hnext]
      refine Nat.lt_of_lt_of_le (leWord_lt rest) ?_
      calc 256 ^ rest.length ≤ 256 ^ 7 := Nat.pow_le_pow_right (by omega) hlength
        _ = 2 ^ 56 := by norm_num
    -- the top byte of the register tells which table entry was taken: the first
    have hindex : (d ^^^ e.toUInt64).toUInt8 = 0 := by
      apply crc64Table_top
      have htop : crc64Step d e >>> 56 = 0 := by
        apply UInt64.toNat_inj.mp
        simp [Nat.shiftRight_eq_div_pow]
        omega
      rw [crc64Step, shiftRight_xor, shiftRight_top, UInt64.xor_zero] at htop
      exact htop
    have hstep : crc64Step d e = d >>> 8 := by
      rw [crc64Step, hindex]
      exact UInt64.zero_xor
    have hlow : d.toNat % 256 = e.toNat := by
      rw [UInt64.toUInt8_xor, UInt8.toUInt8_toUInt64] at hindex
      have hsame : d.toUInt8 = e := by
        calc d.toUInt8 = (d.toUInt8 ^^^ e) ^^^ e := by
              rw [UInt8.xor_assoc, UInt8.xor_self, UInt8.xor_zero]
          _ = e := by rw [hindex, UInt8.zero_xor]
      have hnat := congrArg UInt8.toNat hsame
      simpa using hnat
    rw [hstep] at hnext
    have hhigh : d.toNat / 256 = leWord rest := by
      rw [← hnext]
      simp [Nat.shiftRight_eq_div_pow]
    rw [leWord, ← hlow, ← hhigh]
    omega

theorem eq_of_leWord_xor {m m' : Bytes} (hlength : m.length = m'.length)
    (h : leWord (List.zipWith (· ^^^ ·) m m') = 0) : m = m' := by
  induction m generalizing m' with
  | nil => exact (List.length_eq_zero_iff.mp hlength.symm).symm
  | cons b rest ih =>
    cases m' with
    | nil => cases hlength
    | cons b' rest' =>
      rw [List.zipWith_cons_cons, leWord] at h
      have hxor : b ^^^ b' = 0 := UInt8.toNat_inj.mp (Nat.eq_zero_of_add_eq_zero_right h)
      have hhead : b = b' := by
        calc b = b ^^^ (b' ^^^ b') := by rw [UInt8.xor_self, UInt8.xor_zero]
          _ = b' := by rw [← UInt8.xor_assoc, hxor, UInt8.zero_xor]
      rw [hhead, ih (Nat.succ.inj hlength) (by omega)]

/-- Eight bytes are seen from any common state. -/
theorem foldl_crc64Step_inj {m m' : Bytes} (hlength : m.length = m'.length) (hm : m.length ≤ 8)
    {c : UInt64} (h : m.foldl crc64Step c = m'.foldl crc64Step c) : m = m' := by
  have hxor := foldl_crc64Step_xor hlength c c
  rw [h, UInt64.xor_self, UInt64.xor_self] at hxor
  have hzip : (List.zipWith (· ^^^ ·) m m').length ≤ 8 := by
    rw [List.length_zipWith, ← hlength, Nat.min_self]
    exact hm
  exact eq_of_leWord_xor hlength (foldl_crc64Step_eq_zero hzip hxor.symm).symm

theorem foldl_crc64Step_injective (rest : Bytes) :
    Function.Injective fun c => rest.foldl crc64Step c := by
  induction rest with
  | nil => exact fun _ _ h => h
  | cons b rest ih => exact fun c c' h => crc64Step_injective_crc b (ih h)

/-- The checksum is the bit-serial CRC, and it tells byte strings of one length apart that differ
only within a window of eight bytes. -/
theorem crc64_detects_bursts :
    (∀ (a b : Bytes) (w : Nat), a.length = b.length → a ≠ b →
      (∀ i, a[i]? ≠ b[i]? → w ≤ i ∧ i < w + 8) → crc64Ecma a ≠ crc64Ecma b) ∧
    ∀ data, crc64Ecma data = crc64Serial data := by
  refine ⟨fun a b w hlength hne hwindow hsame => hne ?_, crc64Ecma_serial⟩
  have hfold : a.foldl crc64Step 0xFFFFFFFFFFFFFFFF = b.foldl crc64Step 0xFFFFFFFFFFFFFFFF := by
    have hx := congrArg (· ^^^ (0xFFFFFFFFFFFFFFFF : UInt64)) hsame
    simpa only [crc64Ecma, UInt64.xor_assoc, UInt64.xor_self, UInt64.xor_zero] using hx
  have hbefore : a.take w = b.take w := by
    refine List.ext_getElem? fun i => ?_
    rw [List.getElem?_take, List.getElem?_take]
    split
    next hi => exact by_contra fun hdiffer => absurd (hwindow i hdiffer).1 (Nat.not_le_of_lt hi)
    next => rfl
  have hbehind : a.drop (w + 8) = b.drop (w + 8) := by
    refine List.ext_getElem? fun i => ?_
    rw [List.getElem?_drop, List.getElem?_drop]
    exact by_contra fun hdiffer => absurd (hwindow _ hdiffer).2 (by omega)
  have hsplit : ∀ data : Bytes, data = data.take w ++ (slice data w 8 ++ data.drop (w + 8)) := by
    intro data
    rw [slice, ← List.drop_drop, List.take_append_drop, List.take_append_drop]
  rw [hsplit a, hsplit b, hbefore, hbehind, List.foldl_append, List.foldl_append,
    List.foldl_append, List.foldl_append] at hfold
  have hmiddle : slice a w 8 = slice b w 8 := by
    refine foldl_crc64Step_inj ?_ ?_ (foldl_crc64Step_injective _ hfold)
    · rw [length_slice, length_slice, hlength]
    · rw [length_slice]
      omega
  rw [hsplit a, hsplit b, hbefore, hbehind, hmiddle]

/-- Two strings of nine bytes that differ in the first and the eighth. -/
theorem crc64_detects_bursts_apart :
    crc64Ecma [1, 0, 0, 0, 0, 0, 0, 5, 9] ≠ crc64Ecma [2, 0, 0, 0, 0, 0, 0, 7, 9] := by
  refine crc64_detects_bursts.1 _ _ 0 rfl (by decide) fun i hi => ⟨Nat.zero_le i, ?_⟩
  by_contra hout
  refine hi ?_
  rcases Nat.lt_or_ge i 9 with hlast | hbeyond
  · obtain rfl : i = 8 := by omega
    rfl
  · rw [List.getElem?_eq_none hbeyond, List.getElem?_eq_none hbeyond]

end ExecutionFabric
