import Lbd.QCow2.ImageRuns

/-!
# The geometry of a new image

`CreateQCow2` takes any virtual size. The number of L1 entries is a sum of `uint64` that is cut to
a `uint32`, and so is the length of the zeroed table that it writes.
-/

namespace Lbd.QCow2

variable {f : File} {img : QCow2Image} {virtualSize clusterBits : ℕ}

/-- The L1 index of a cluster, as `ReadCluster` and `writeCluster` compute it. -/
def QCow2Image.l1Index (img : QCow2Image) (clusterIdx : ℕ) : ℕ :=
  clusterIdx / img.l2Entries % 2 ^ 32

def QCow2Image.l2Index (img : QCow2Image) (clusterIdx : ℕ) : ℕ := clusterIdx % img.l2Entries

/-- `l1Bytes` of `CreateQCow2`. -/
def l1Bytes (l1Size : ℕ) : List UInt8 := List.replicate (l1Size * 8 % 2 ^ 32) 0

/-- The number of clusters of a disk. -/
def QCow2Image.clusterCount (img : QCow2Image) : ℕ :=
  (img.virtualSize + img.clusterSize - 1) / img.clusterSize

/-- The image that was made of `f` has a place for every cluster of the disk. -/
structure CoversDisk (f : File) (img : QCow2Image) : Prop where
  /-- The header has these fields, and behind it are the bytes of the table. -/
  file : img.f = ((f.put 0 (newHeader img.clusterBits img.virtualSize img.l1Offset img.l1Size
    img.allocOffset)).put img.l1Offset (l1Bytes img.l1Size)).extend img.allocOffset
  mapped : ∀ off < img.virtualSize, img.l1Index (off >>> img.clusterBits) < img.l1Size
  written : (l1Bytes img.l1Size).length = img.l1Size * 8
  tableEnd : img.l1Offset + img.l1Size * 8 ≤ img.allocOffset
  aligned : img.clusterSize ∣ img.allocOffset
  injective : ∀ c < img.clusterCount, ∀ d < img.clusterCount,
    img.l1Index c = img.l1Index d → img.l2Index c = img.l2Index d → c = d

theorem l1Index_shift (g : Geometry) (img : QCow2Image) (h : img.l2Entries = g.l2Entries)
    (off : ℕ) :
    img.l1Index (off >>> g.clusterBits) = off / tableSpan g.clusterSize % 2 ^ 32 := by
  unfold QCow2Image.l1Index
  rw [h, Nat.shiftRight_eq_div_pow, Nat.div_div_eq_div_mul, Nat.mul_comm]
  rfl

theorem index_injective {g : Geometry} (hentries : img.l2Entries = g.l2Entries)
    (hsize : img.clusterSize = g.clusterSize) (hl1 : img.l1Size < 2 ^ 32)
    (hcovers : img.virtualSize ≤ img.l1Size * tableSpan g.clusterSize) {c d : ℕ}
    (hc : c < img.clusterCount) (hd : d < img.clusterCount)
    (h1 : img.l1Index c = img.l1Index d) (h2 : img.l2Index c = img.l2Index d) : c = d := by
  have hpos : 0 < g.clusterSize := Nat.two_pow_pos _
  have hsmall : ∀ c < img.clusterCount, c / g.l2Entries < 2 ^ 32 := by
    intro c hc
    unfold QCow2Image.clusterCount at hc
    rw [hsize, Nat.lt_div_iff_mul_lt hpos] at hc
    have hlt : c * g.clusterSize < img.l1Size * g.l2Entries * g.clusterSize := by
      rw [Nat.mul_assoc]
      change _ < img.l1Size * tableSpan g.clusterSize
      omega
    exact (Nat.div_lt_of_lt_mul (Nat.mul_comm img.l1Size _ ▸ Nat.lt_of_mul_lt_mul_right hlt)).trans
      hl1
  unfold QCow2Image.l1Index at h1
  unfold QCow2Image.l2Index at h2
  rw [hentries] at h1 h2
  rw [Nat.mod_eq_of_lt (hsmall c hc), Nat.mod_eq_of_lt (hsmall d hd)] at h1
  rw [← Nat.div_add_mod c g.l2Entries, ← Nat.div_add_mod d g.l2Entries, h1, h2]

/-- A new image covers its disk exactly when the sum does not wrap and the length of the table
fits in 32 bits. -/
theorem coversDisk_iff (hv : virtualSize < W64)
    (h : createQCow2 f virtualSize clusterBits = .ok img) :
    CoversDisk f img ↔ virtualSize + tableSpan (2 ^ clusterBits) ≤ W64 ∧
      virtualSize ≤ (2 ^ 29 - 1) * tableSpan (2 ^ clusterBits) := by
  obtain ⟨hlower, hupper⟩ : 12 ≤ clusterBits ∧ clusterBits ≤ 24 := by
    unfold createQCow2 at h
    split_ifs at h
    omega
  obtain ⟨l1Size, allocOffset, hsize, halloc, -, rfl⟩ := createQCow2_eq h
  let g : Geometry := ⟨clusterBits, hlower, hupper⟩
  have hspan := tableSpan_pos g
  have hl1 : l1Size < 2 ^ 32 := hsize ▸ newL1Size_lt ..
  have hidx := l1Index_shift g (newImage (newFile f virtualSize clusterBits l1Size allocOffset)
    virtualSize clusterBits l1Size allocOffset) rfl
  change _ ↔ virtualSize + tableSpan g.clusterSize ≤ W64 ∧
    virtualSize ≤ (2 ^ 29 - 1) * tableSpan g.clusterSize
  constructor
  · intro hc
    have hwritten := hc.written
    rw [l1Bytes, List.length_replicate] at hwritten
    change l1Size * 8 % 2 ^ 32 = l1Size * 8 at hwritten
    -- the offset right behind what the table maps would have the index after the last
    have hcovers : virtualSize ≤ l1Size * tableSpan g.clusterSize := by
      by_contra hlt
      have hm := hc.mapped (l1Size * tableSpan g.clusterSize) (not_le.mp hlt)
      change QCow2Image.l1Index _ (_ >>> g.clusterBits) < l1Size at hm
      rw [hidx, Nat.mul_div_cancel _ hspan, Nat.mod_eq_of_lt hl1] at hm
      exact lt_irrefl l1Size hm
    have hle : l1Size * tableSpan g.clusterSize ≤ (2 ^ 29 - 1) * tableSpan g.clusterSize :=
      Nat.mul_le_mul_right _ (by omega)
    refine ⟨?_, hcovers.trans hle⟩
    by_contra hwrap
    have hone : l1Size = 1 := hsize.trans (newL1Size_wraps (g := g) hv (by omega))
    have hlt := tableSpan_lt g
    rw [hone] at hcovers
    unfold W64 at hwrap
    omega
  · rintro ⟨hsum, hfit⟩
    have hcount : (virtualSize + tableSpan g.clusterSize - 1) / tableSpan g.clusterSize * 8 <
        2 ^ 32 := by
      have := (Nat.div_lt_iff_lt_mul hspan).mpr (show virtualSize + tableSpan g.clusterSize - 1 <
        2 ^ 29 * tableSpan g.clusterSize by omega)
      omega
    obtain ⟨hshort, hcovers⟩ := newL1Size_covers hcount (by omega)
    rw [show newL1Size virtualSize g.clusterSize = l1Size from hsize.symm] at hshort hcovers
    refine ⟨rfl, fun off hoff => ?_, ?_, ?_, ?_, fun c hc d hd => ?_⟩
    · change QCow2Image.l1Index _ (off >>> g.clusterBits) < l1Size
      rw [hidx off]
      refine (Nat.mod_le _ _).trans_lt ((Nat.div_lt_iff_lt_mul hspan).mpr ?_)
      exact lt_of_lt_of_le hoff hcovers
    · change (l1Bytes l1Size).length = l1Size * 8
      rw [l1Bytes, List.length_replicate, Nat.mod_eq_of_lt hshort]
    · change headerSize + l1Size * 8 ≤ allocOffset
      rw [halloc]
      exact le_alignUp' (Nat.two_pow_pos _) _
    · change 2 ^ clusterBits ∣ allocOffset
      rw [halloc]
      exact Dvd.intro_left _ rfl
    · exact index_injective (g := g) rfl rfl hl1 hcovers hc hd

/-- A disk of one gigabyte. -/
theorem coversDisk_gigabyte : ∃ img,
    createQCow2 (File.empty (2 ^ 62) fun _ => none) (2 ^ 30) 16 = .ok img ∧
      CoversDisk (File.empty (2 ^ 62) fun _ => none) img := by
  have hcreate : createQCow2 (File.empty (2 ^ 62) fun _ => none) (2 ^ 30) 16 = .ok _ :=
    createQCow2_ok ⟨16, by norm_num, by norm_num⟩ (fun _ => rfl) rfl rfl (by decide)
  exact ⟨_, hcreate, (coversDisk_iff (by decide) hcreate).mpr (by decide)⟩

/-- A new image of the largest size has one L1 entry, and a larger index is computed for what it
does not map. The L1 table of another one is not written at all. -/
theorem largest_disk_not_covered :
    (∃ img, createQCow2 (File.empty (2 ^ 62) fun _ => none) (2 ^ 64 - 1) 16 = .ok img ∧
      img.l1Size = 1 ∧ 536805376 < img.virtualSize ∧ img.l1Index (536805376 >>> 16) = 1) ∧
    ∃ img, createQCow2 (File.empty (2 ^ 62) fun _ => none) (2 ^ 29 * 2093056) 12 = .ok img ∧
      img.l1Size = 2 ^ 29 ∧ l1Bytes img.l1Size = [] := by
  constructor
  · have hcreate : createQCow2 (File.empty (2 ^ 62) fun _ => none) (2 ^ 64 - 1) 16 = .ok _ :=
      createQCow2_ok ⟨16, by norm_num, by norm_num⟩ (fun _ => rfl) rfl rfl (by decide)
    exact ⟨_, hcreate, by decide, by decide, by decide⟩
  · have hcreate : createQCow2 (File.empty (2 ^ 62) fun _ => none) (2 ^ 29 * 2093056) 12 =
        .ok _ :=
      createQCow2_ok ⟨12, by norm_num, by norm_num⟩ (fun _ => rfl) rfl rfl (by decide)
    exact ⟨_, hcreate, by decide, by decide⟩

end Lbd.QCow2
