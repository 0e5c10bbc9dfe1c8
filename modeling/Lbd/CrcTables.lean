import Lbd.Crc
import Lbd.QCow2.Format

/-!
# The checksums of `lbdctl`

`crc32_calc` and `crc32c_calc` read a static table that the first call fills. Here they are
compared with the checksum of a message as a string of bits: a register that takes one bit of the
message at a time, the lowest bit of each byte first.
-/

namespace Lbd

variable {poly : UInt32}

/-- The register moves down by one bit; the polynomial is added when the bit that leaves it and
the bit of the message differ. -/
def crcBit (poly crc : UInt32) (bit : Bool) : UInt32 :=
  if xor (crc &&& 1 = 1) bit then (crc >>> 1) ^^^ poly else crc >>> 1

/-- The lowest `n` bits of a number, the lowest one first. -/
def lowBits : ℕ → ℕ → List Bool
  | 0, _ => []
  | n + 1, x => decide (x % 2 = 1) :: lowBits n (x / 2)

def byteBits (b : UInt8) : List Bool := lowBits 8 b.toNat

/-- The reflected checksum: all ones at first, the complement in the end. -/
def crcBitwise (poly : UInt32) (data : List UInt8) : UInt32 :=
  ~~~ (data.flatMap byteBits).foldl (crcBit poly) 0xFFFFFFFF

theorem crcBit_eq_shift (poly crc : UInt32) {x : ℕ} (hx : x < 2) :
    crcBit poly crc (decide (x = 1)) = crcShift poly (crc ^^^ UInt32.ofNat x) := by
  rw [crcShift_eq]
  unfold crcBit
  obtain rfl | rfl : x = 0 ∨ x = 1 := by omega
  · simp
  · have hlow : ((crc ^^^ 1) &&& 1 = 1) ↔ ¬ (crc &&& 1 = 1) := by
      rw [← UInt32.toNat_inj, ← UInt32.toNat_inj, toNat_and_one, toNat_and_one, UInt32.toNat_xor,
        Nat.xor_mod_two_eq]
      change (crc.toNat + 1) % 2 = 1 ↔ ¬ crc.toNat % 2 = 1
      omega
    have hshift : (crc ^^^ 1) >>> 1 = crc >>> 1 := by
      rw [← UInt32.toNat_inj]
      simp [Nat.shiftRight_xor_distrib]
    rw [show UInt32.ofNat 1 = 1 from rfl, hshift]
    by_cases h : crc &&& 1 = 1
    · rw [if_neg (show ¬ (crc ^^^ 1) &&& 1 = 1 from fun h' => hlow.mp h' h)]
      simp [h]
    · rw [if_pos (hlow.mpr h)]
      simp [h]

theorem toNat_word {x : ℕ} (h : x < 2 ^ 32) : (UInt32.ofNat x).toNat = x :=
  UInt32.toNat_ofNat_of_lt' h

theorem foldl_lowBits (poly : UInt32) {n : ℕ} (hn : n ≤ 32) {x : ℕ} (hx : x < 2 ^ n)
    (crc : UInt32) :
    (lowBits n x).foldl (crcBit poly) crc = (crcShift poly)^[n] (crc ^^^ UInt32.ofNat x) := by
  induction n generalizing x crc with
  | zero =>
    obtain rfl : x = 0 := by omega
    simp [lowBits]
  | succ n ih =>
    have hpow : 2 ^ (n + 1) ≤ 2 ^ 32 := Nat.pow_le_pow_right (by norm_num) hn
    have hword : (UInt32.ofNat (x / 2 * 2)).toNat = x / 2 * 2 := toNat_word (by omega)
    -- the bits above the lowest are moved down by the first shift
    have hsplit : UInt32.ofNat x = UInt32.ofNat (x % 2) ^^^ UInt32.ofNat (x / 2 * 2) := by
      rw [← UInt32.toNat_inj, UInt32.toNat_xor, hword, toNat_word (by omega),
        toNat_word (by omega)]
      exact (xor_high_low x 1).symm
    have hdown : UInt32.ofNat (x / 2 * 2) >>> 1 = UInt32.ofNat (x / 2) := by
      rw [← UInt32.toNat_inj, UInt32.toNat_shiftRight, hword, toNat_word (by omega)]
      exact (Nat.shiftRight_eq_div_pow _ 1).trans (Nat.mul_div_cancel _ (by norm_num))
    rw [lowBits, List.foldl_cons, Function.iterate_succ_apply, hsplit, ← UInt32.xor_assoc,
      crcShift_xor poly _ (by rw [hword]; exact Nat.dvd_mul_left _ _), hdown,
      ← crcBit_eq_shift poly crc (Nat.mod_lt x (by norm_num))]
    exact ih (by omega) (by rw [pow_succ] at hx; omega) _

theorem foldl_byteBits (poly crc : UInt32) (b : UInt8) :
    (byteBits b).foldl (crcBit poly) crc = crcByte poly crc b := by
  have hb : UInt32.ofNat b.toNat = b.toUInt32 := by
    rw [← UInt32.toNat_inj, toNat_word (b.toNat_lt.trans (by norm_num)), UInt8.toNat_toUInt32]
  unfold byteBits crcByte
  rw [foldl_lowBits poly (by norm_num) b.toNat_lt, hb]
  simp only [← crcShift_eq]
  rw [List.foldl_const, List.length_range]

theorem crcBitwise_eq (poly : UInt32) (data : List UInt8) :
    crcBitwise poly data = crcReflected poly data := by
  unfold crcBitwise crcReflected
  rw [List.foldl_flatMap]
  simp only [foldl_byteBits]

theorem lowByte_lt (x : UInt32) : (x &&& 0xFF).toNat < 256 := by
  rw [UInt32.toNat_and]
  exact Nat.lt_succ_of_le Nat.and_le_right

/-- `crc32_table` and `crc32_table_ready`, or those of `crc32c`: a table that is marked as ready
is the right one. -/
structure StaticTable (poly : UInt32) where
  table : Vector UInt32 256
  ready : Bool
  valid : ready = true → ∀ i : Fin 256, table.get i = crcTable poly (UInt32.ofNat i)

namespace StaticTable

/-- Static variables are zero when the program starts. -/
def zero (poly : UInt32) : StaticTable poly where
  table := Vector.replicate 256 0
  ready := false
  valid := nofun

/-- `crc32_init`, `crc32c_init` -/
def init (poly : UInt32) : StaticTable poly where
  table := Vector.ofFn fun i => crcTable poly (UInt32.ofNat i)
  ready := true
  valid _ i := Vector.getElem_ofFn i.isLt

/-- One turn of the loop over the buffer. -/
def step (t : StaticTable poly) (crc : UInt32) (b : UInt8) : UInt32 :=
  t.table.get ⟨((crc ^^^ b.toUInt32) &&& 0xFF).toNat, lowByte_lt _⟩ ^^^ (crc >>> 8)

/-- `crc32_calc`, `crc32c_calc`, with the table that they leave. -/
def crcCalc (t : StaticTable poly) (data : List UInt8) : UInt32 × StaticTable poly :=
  let t := if t.ready then t else init poly
  (data.foldl t.step 0xFFFFFFFF ^^^ 0xFFFFFFFF, t)

theorem step_eq {t : StaticTable poly} (h : t.ready = true) (crc : UInt32) (b : UInt8) :
    t.step crc b = crcByte poly crc b := by
  unfold step
  rw [t.valid h, UInt32.ofNat_toNat, crcTable_byte]

theorem crcCalc_fst (t : StaticTable poly) (data : List UInt8) :
    (t.crcCalc data).1 = Lbd.crcCalc poly data := by
  have hready : (if t.ready then t else init poly).ready = true := by
    split_ifs with h
    · exact h
    · rfl
  unfold crcCalc Lbd.crcCalc
  simp only [crcTable_byte]
  rw [funext fun crc => funext fun b => step_eq hready crc b]

end StaticTable

/-- Whatever calls came before, both functions return the checksum of the bits; and `crc32c_calc`
of the first bytes of a cluster is what the trailer of an L2 table holds and what its readers
compare with it. -/
theorem crcCalc_bitwise (t : StaticTable 0xEDB88320) (u : StaticTable 0x82F63B78)
    (data : List UInt8) :
    (t.crcCalc data).1 = crcBitwise 0xEDB88320 data ∧
      (u.crcCalc data).1 = crcBitwise 0x82F63B78 data ∧
      (∀ n, QCow2.calcCrc n data = (u.crcCalc (data.take (n - 4))).1.toNat) ∧
      ∀ (g : QCow2.Geometry) (table : ℕ → ℕ),
        QCow2.storedCrc g.clusterSize (QCow2.l2Bytes g.l2Entries table) =
          (u.crcCalc ((QCow2.l2Bytes g.l2Entries table).take (g.clusterSize - 4))).1.toNat := by
  have hcrc32c : ∀ d, (u.crcCalc d).1 = crc32c d := fun d => by
    rw [u.crcCalc_fst, crcCalc_eq]
    rfl
  refine ⟨?_, ?_, fun n => ?_, fun g table => ?_⟩
  · rw [t.crcCalc_fst, crcCalc_eq, crcBitwise_eq]
  · rw [u.crcCalc_fst, crcCalc_eq, crcBitwise_eq]
  · rw [hcrc32c, QCow2.calcCrc]
  · rw [hcrc32c, QCow2.crc_l2Bytes, QCow2.calcCrc]

example : ((StaticTable.zero 0x82F63B78).crcCalc
    [0x31, 0x32, 0x33, 0x34, 0x35, 0x36, 0x37, 0x38, 0x39]).1 = 0xE3069283 := by
  decide +kernel

end Lbd
