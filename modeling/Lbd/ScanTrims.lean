import Lbd.ScanRepack
import Mathlib.Order.Interval.Set.Basic

/-!
# The entries of a trim

The emission loop of `ScanDevice` counts bytes down by the chunk it logs and blocks up by the
whole blocks in it. The chunk limit `2^32 - 1` is no multiple of the block size, so behind the
first chunk the entries fall back by 4095 bytes each time.
-/

namespace Lbd.Scan

/-- The bytes that an entry names. -/
def byteRange (e : Entry) : Set ℕ :=
  Set.Ico (e.block * scanBlockSize) (e.block * scanBlockSize + e.length)

/-- The entries `es` trim what `r` covers: the loop has made `iterations` rounds, and no block
number or length was cut to its width. -/
structure TrimExact (r : ScanResult) (es : List Entry) : Prop where
  op : ∀ e ∈ es, e.op = .trim
  block_lt : ∀ e ∈ es, e.block < W64
  length_le : ∀ e ∈ es, e.length ≤ 2 ^ 32 - 1
  iterations : es.length = (r.length.toNat + (2 ^ 32 - 2)) / (2 ^ 32 - 1)
  union : ⋃ e ∈ es, byteRange e =
    Set.Ico (r.block * scanBlockSize) (r.block * scanBlockSize + r.length.toNat)

section Emission

variable {now : ℕ → ℕ} {seq block remaining : ℕ} {e : Entry}

theorem length_trimEntries :
    (trimEntries now seq block remaining).length =
      (remaining + (2 ^ 32 - 2)) / (2 ^ 32 - 1) := by
  fun_induction trimEntries now seq block remaining with
  | case1 => rfl
  | case2 seq block remaining hpos chunk ih =>
    rw [List.length_cons, ih]
    unfold chunk
    split_ifs <;> omega

theorem trimEntries_misses (hlong : 2 ^ 32 ≤ remaining)
    (he : e ∈ trimEntries now seq block remaining) :
    e.block * scanBlockSize + e.length < block * scanBlockSize + remaining := by
  have hchunk : (if 2 ^ 32 - 1 < remaining then 2 ^ 32 - 1 else remaining) = 2 ^ 32 - 1 :=
    if_pos (by omega)
  rw [trimEntries, if_neg (by omega), hchunk] at he
  rcases List.mem_cons.mp he with rfl | he
  · change block * scanBlockSize + (2 ^ 32 - 1) < _
    omega
  · have h := trimEntries_end_le he
    rw [Nat.add_mul] at h
    have hblocks : (2 ^ 32 - 1) / scanBlockSize * scanBlockSize = 2 ^ 32 - 4096 := by decide
    omega

end Emission

section Exact

variable {δ : Type*} [DecidableEq δ]

/-- A trim that a scan collects is logged exactly if it is shorter than `2^32` bytes. -/
theorem trimExact_iff {sha : List UInt8 → δ} {d : Device} {db : ℕ → Option δ} {r : ScanResult}
    (hr : r ∈ (detect sha d db).logEntries) (htrim : r.isTrim = true) (now : ℕ → ℕ) (seq : ℕ) :
    TrimExact r (r.entries now seq) ↔ r.length < 2 ^ 32 := by
  have hentries : r.entries now seq = trimEntries now seq r.block r.length.toNat := if_pos htrim
  have hlogged : ∀ e ∈ trimEntries now seq r.block r.length.toNat, Logged e :=
    fun e he => (inRange_detect hr).logged (hentries ▸ he)
  rw [hentries]
  constructor
  · intro h
    by_contra hlong
    have hlast : r.block * scanBlockSize + r.length.toNat - 1 ∈
        Set.Ico (r.block * scanBlockSize) (r.block * scanBlockSize + r.length.toNat) :=
      ⟨by omega, by omega⟩
    rw [← h.union] at hlast
    simp only [Set.mem_iUnion] at hlast
    obtain ⟨e, he, hin⟩ := hlast
    have hmiss := trimEntries_misses (by omega) he
    have := hin.2
    omega
  · intro hshort
    refine ⟨fun e => trimEntries_op, fun e he => ?_, fun e he => (trimEntries_length_le he).2,
      length_trimEntries, ?_⟩
    · have hwrap : e.block + e.numBlocks scanBlockSize < W64 := (hlogged e he).noWrap
      omega
    · rcases Nat.eq_zero_or_pos r.length.toNat with hz | hpos
      · rw [hz, trimEntries, if_pos rfl]
        simp
      · rw [trimEntries_of_lt hpos (by omega)]
        simp [byteRange]

theorem detect_blank {sha : List UInt8 → δ} (hsha : Function.Injective sha) {size : ℕ}
    (hpos : 0 < size) (h : size ≤ scanLimit) :
    (detect sha (zeroed size size h) fun _ => none).logEntries = [⟨0, true, [], 0, size⟩] := by
  have hruns : 0 < (zeroed size size h).totalRuns := by
    rw [Device.lt_totalRuns_iff, Nat.zero_mul]
    exact hpos
  rw [detect_zeroed hsha (zeroed_fits h) hruns le_rfl, Device.reached_totalRuns]
  · rfl
  · intro j hj
    refine ⟨zeroed_run_eq h hj fun x _ hx => ?_, by simp⟩
    have hend : _ ≤ (zeroed size size h).size := Device.add_runLen_le hj (zeroed_fits h)
    exact lt_of_lt_of_le hx hend
  · intro j hj hlt
    omega

theorem twoBlocks_le : 8192 ≤ scanLimit := by norm_num [scanLimit]

theorem pow32_le : 2 ^ 32 ≤ scanLimit := by norm_num [scanLimit]

/-- Two blocks of zeros. -/
theorem short_trim_exact :
    TrimExact ⟨0, true, [], 0, 8192⟩ ((⟨0, true, [], 0, 8192⟩ : ScanResult).entries id 0) := by
  have hlog : (detect id (zeroed 8192 8192 twoBlocks_le) fun _ => none).logEntries = _ :=
    detect_blank Function.injective_id (by decide) twoBlocks_le
  exact (trimExact_iff (hlog ▸ List.mem_singleton_self _) rfl id 0).mpr (by decide)

/-- A device of `2^32` zeros: its last byte is not trimmed. -/
theorem long_trim_misses_byte :
    (detect id (zeroed (2 ^ 32) (2 ^ 32) pow32_le) fun _ => none).logEntries =
        [⟨0, true, [], 0, 2 ^ 32⟩] ∧
      (⟨0, true, [], 0, 2 ^ 32⟩ : ScanResult).entries (fun _ => 0) 0 =
        [⟨.trim, 0, 0, 0, 2 ^ 32 - 1, 0, []⟩, ⟨.trim, 0, 1, 1048575, 1, 0, []⟩] ∧
      ¬TrimExact ⟨0, true, [], 0, 2 ^ 32⟩
        [⟨.trim, 0, 0, 0, 2 ^ 32 - 1, 0, []⟩, ⟨.trim, 0, 1, 1048575, 1, 0, []⟩] := by
  have htwo := trimEntries_two (r := 1) (by decide) (by decide) (fun _ => 0) 0
  refine ⟨detect_blank Function.injective_id (by decide) pow32_le, htwo, fun h => ?_⟩
  have hlast : 2 ^ 32 - 1 ∈
      Set.Ico (0 * scanBlockSize) (0 * scanBlockSize + (2 ^ 32 : ℤ).toNat) :=
    ⟨by decide, by decide⟩
  rw [← h.union] at hlast
  simp [byteRange, scanBlockSize] at hlast

end Exact

end Lbd.Scan
