import Mathlib

namespace Lbd

/-- One byte of a reflected CRC-32, a bit at a time. -/
def crcByte (poly crc : UInt32) (b : UInt8) : UInt32 :=
  (List.range 8).foldl (fun c _ => if c &&& 1 = 1 then (c >>> 1) ^^^ poly else c >>> 1)
    (crc ^^^ b.toUInt32)

def crcReflected (poly : UInt32) (data : List UInt8) : UInt32 :=
  ~~~ data.foldl (crcByte poly) 0xFFFFFFFF

/-- `crc32.ChecksumIEEE`. -/
def crc32 (data : List UInt8) : UInt32 := crcReflected 0xEDB88320 data

/-- The Castagnoli checksum: `crc32.Checksum(_, crc32cTable)` in Go and
`~crc32c(~0, _)` in the kernel. -/
def crc32c (data : List UInt8) : UInt32 := crcReflected 0x82F63B78 data

example : crc32 [0x31, 0x32, 0x33, 0x34, 0x35, 0x36, 0x37, 0x38, 0x39] = 0xCBF43926 := by
  decide +kernel

example : crc32c [0x31, 0x32, 0x33, 0x34, 0x35, 0x36, 0x37, 0x38, 0x39] = 0xE3069283 := by
  decide +kernel

/-- The inner loop's step of `crc32_init` and `crc32c_init`. -/
def crcShift (poly c : UInt32) : UInt32 := (c >>> 1) ^^^ (poly &&& (0 - (c &&& 1)))

/-- Entry `i` of `crc32_table` or `crc32c_table`. -/
def crcTable (poly i : UInt32) : UInt32 := (List.range 8).foldl (fun c _ => crcShift poly c) i

/-- The loop over the bytes; `crc32_calc` and `crc32c_calc` differ in the table. -/
def crcCalc (poly : UInt32) (data : List UInt8) : UInt32 :=
  data.foldl (fun crc b => crcTable poly ((crc ^^^ b.toUInt32) &&& 0xFF) ^^^ (crc >>> 8))
    0xFFFFFFFF ^^^ 0xFFFFFFFF

/-- `crc32_calc` of `lbdctl` -/
def crc32Calc (data : List UInt8) : UInt32 := crcCalc 0xEDB88320 data

theorem toNat_and_one (c : UInt32) : (c &&& 1).toNat = c.toNat % 2 := by
  rw [UInt32.toNat_and]
  exact Nat.and_one_is_mod _

theorem crcShift_eq (poly c : UInt32) :
    crcShift poly c = if c &&& 1 = 1 then (c >>> 1) ^^^ poly else c >>> 1 := by
  unfold crcShift
  have hones : (0 - 1 : UInt32) = -1 := by decide
  have hbit : c &&& 1 = 0 ∨ c &&& 1 = 1 := by
    rw [← UInt32.toNat_inj, ← UInt32.toNat_inj, toNat_and_one]
    exact Nat.mod_two_eq_zero_or_one _
  rcases hbit with h | h
  · simp [h]
  · simp [h, hones]

theorem crcShift_xor (poly c : UInt32) {h : UInt32} (hh : 2 ∣ h.toNat) :
    crcShift poly (c ^^^ h) = crcShift poly c ^^^ (h >>> 1) := by
  have hlow : (c ^^^ h) &&& 1 = c &&& 1 := by
    rw [← UInt32.toNat_inj, toNat_and_one, toNat_and_one, UInt32.toNat_xor, Nat.xor_mod_two_eq,
      Nat.add_mod, Nat.mod_eq_zero_of_dvd hh]
    simp
  have hshift : (c ^^^ h) >>> 1 = (c >>> 1) ^^^ (h >>> 1) := by
    rw [← UInt32.toNat_inj]
    simp [Nat.shiftRight_xor_distrib]
  unfold crcShift
  rw [hlow, hshift, UInt32.xor_assoc, UInt32.xor_assoc, UInt32.xor_comm (h >>> 1)]

theorem foldl_crcShift_xor (poly : UInt32) {n : ℕ} {h : UInt32} (hh : 2 ^ n ∣ h.toNat)
    (c : UInt32) :
    (List.range n).foldl (fun c _ => crcShift poly c) (c ^^^ h) =
      (List.range n).foldl (fun c _ => crcShift poly c) c ^^^ UInt32.ofNat (h.toNat / 2 ^ n) := by
  induction n with
  | zero => simp
  | succ n ih =>
    have hn : 2 ^ n ∣ h.toNat := (pow_dvd_pow 2 n.le_succ).trans hh
    have hlt : h.toNat / 2 ^ n < 2 ^ 32 := (Nat.div_le_self _ _).trans_lt h.toNat_lt
    have hval : (UInt32.ofNat (h.toNat / 2 ^ n)).toNat = h.toNat / 2 ^ n :=
      UInt32.toNat_ofNat_of_lt' hlt
    rw [List.range_succ, List.foldl_append, List.foldl_append, ih hn]
    simp only [List.foldl_cons, List.foldl_nil]
    rw [crcShift_xor]
    · congr 1
      rw [← UInt32.toNat_inj, UInt32.toNat_shiftRight, hval,
        UInt32.toNat_ofNat_of_lt' ((Nat.div_le_self _ _).trans_lt h.toNat_lt)]
      rw [pow_succ, ← Nat.div_div_eq_div_mul]
      rfl
    · rw [hval]
      exact Nat.dvd_div_of_mul_dvd (by rwa [← pow_succ])

theorem xor_high_low (x k : ℕ) : x % 2 ^ k ^^^ x / 2 ^ k * 2 ^ k = x := by
  apply Nat.eq_of_testBit_eq
  intro i
  rw [Nat.testBit_xor, Nat.testBit_mod_two_pow, Nat.testBit_mul_two_pow, Nat.testBit_div_two_pow]
  rcases Nat.lt_or_ge i k with h | h
  · simp [h, h.not_ge]
  · simp [h.not_gt, h]

theorem foldl_crcShift_eight (poly x : UInt32) :
    (List.range 8).foldl (fun c _ => crcShift poly c) x =
      crcTable poly (x &&& 0xFF) ^^^ (x >>> 8) := by
  have hlt : x.toNat / 2 ^ 8 * 2 ^ 8 < 2 ^ 32 := (Nat.div_mul_le_self _ _).trans_lt x.toNat_lt
  obtain ⟨h, hval⟩ : ∃ h : UInt32, h.toNat = x.toNat / 2 ^ 8 * 2 ^ 8 :=
    ⟨UInt32.ofNat _, UInt32.toNat_ofNat_of_lt' hlt⟩
  have hsplit : x = (x &&& 0xFF) ^^^ h := by
    have hlow : (x &&& 0xFF).toNat = x.toNat % 2 ^ 8 := by
      rw [UInt32.toNat_and]
      exact Nat.and_two_pow_sub_one_eq_mod x.toNat 8
    rw [← UInt32.toNat_inj, UInt32.toNat_xor, hval, hlow, xor_high_low]
  have hhigh : UInt32.ofNat (h.toNat / 2 ^ 8) = x >>> 8 := by
    rw [hval, Nat.mul_div_cancel _ (by decide), ← UInt32.toNat_inj, UInt32.toNat_shiftRight,
      UInt32.toNat_ofNat_of_lt' ((Nat.div_le_self _ _).trans_lt x.toNat_lt)]
    exact (Nat.shiftRight_eq_div_pow _ _).symm
  have hdvd : 2 ^ 8 ∣ h.toNat := hval ▸ Nat.dvd_mul_left _ _
  conv_lhs => rw [hsplit]
  rw [foldl_crcShift_xor poly hdvd, hhigh]
  rfl

theorem crcTable_byte (poly crc : UInt32) (b : UInt8) :
    crcTable poly ((crc ^^^ b.toUInt32) &&& 0xFF) ^^^ (crc >>> 8) = crcByte poly crc b := by
  have hshift : (crc ^^^ b.toUInt32) >>> 8 = crc >>> 8 := by
    have hb : b.toNat >>> 8 = 0 := by
      rw [Nat.shiftRight_eq_div_pow]
      exact Nat.div_eq_of_lt b.toNat_lt
    rw [← UInt32.toNat_inj]
    simp [Nat.shiftRight_xor_distrib, hb]
  have h := foldl_crcShift_eight poly (crc ^^^ b.toUInt32)
  rw [hshift] at h
  rw [← h]
  simp only [crcShift_eq]
  rfl

theorem crcCalc_eq (poly : UInt32) (data : List UInt8) :
    crcCalc poly data = crcReflected poly data := by
  have hones : (0xFFFFFFFF : UInt32) = -1 := by decide
  unfold crcCalc crcReflected
  simp only [crcTable_byte]
  rw [hones, UInt32.xor_neg_one]

theorem crc32Calc_eq (data : List UInt8) : crc32Calc data = crc32 data := crcCalc_eq _ data

end Lbd
