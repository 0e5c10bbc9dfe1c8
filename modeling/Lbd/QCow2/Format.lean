import Lbd.Crc
import Lbd.File

/-!
# The qcow2-lz4 format

An image is a header and an L1 table, then clusters in no particular order: L2
tables with a CRC32C trailer, stored clusters, and freed extents that hold a
tombstone with the link to the next one. `qcow2.go` and `lbd_qcow2_format.h`
define the same layout.
-/

namespace Lbd.QCow2

def magic : ℕ := 0x4C42444351573200

def version : ℕ := 2

def headerSize : ℕ := 4096

def compLZ4 : ℕ := 1

def l2Compressed : ℕ := 2 ^ 63

def l2OffsetMask : ℕ := 0x3FFFFFFFFFFFFFFF

def freeTombstone : ℕ := 0xDEADF4EE

def freeScanLimit : ℕ := 8

def freeEntryMin : ℕ := 16

def l2TrailerSize : ℕ := 8

def compAlign : ℕ := 4096

/-- Rounding up to a power of two `a`, as `(n + a - 1) & ^(a - 1)` does. -/
def alignUp (a n : ℕ) : ℕ := (n + a - 1) / a * a

/-- The cluster sizes an image can have. -/
structure Geometry where
  clusterBits : ℕ
  lower : 12 ≤ clusterBits
  upper : clusterBits ≤ 24

namespace Geometry

theorem lower_sixteen : 12 ≤ 16 := by norm_num

theorem upper_sixteen : 16 ≤ 24 := by norm_num

variable (g : Geometry)

def clusterSize : ℕ := 2 ^ g.clusterBits

def l2Entries : ℕ := (g.clusterSize - l2TrailerSize) / 8

theorem dvd_clusterSize : 4096 ∣ g.clusterSize :=
  pow_dvd_pow 2 g.lower

theorem le_clusterSize : 4096 ≤ g.clusterSize :=
  Nat.pow_le_pow_right (n := 2) (by norm_num) g.lower

theorem clusterSize_le : g.clusterSize ≤ 2 ^ 24 :=
  Nat.pow_le_pow_right (by norm_num) g.upper

theorem eight_mul_l2Entries : 8 * g.l2Entries + 8 = g.clusterSize := by
  have h := g.le_clusterSize
  obtain ⟨k, hk⟩ := g.dvd_clusterSize
  unfold l2Entries l2TrailerSize
  omega

theorem l2Entries_pos : 0 < g.l2Entries := by
  have := g.eight_mul_l2Entries
  have := g.le_clusterSize
  omega

end Geometry

theorem le_alignUp' {a : ℕ} (ha : 0 < a) (n : ℕ) : n ≤ alignUp a n := by
  have := Nat.lt_div_mul_add ha (a := n + a - 1)
  unfold alignUp
  omega

theorem le_alignUp (n : ℕ) : n ≤ alignUp compAlign n := le_alignUp' (by norm_num [compAlign]) n

theorem dvd_alignUp (n : ℕ) : 4096 ∣ alignUp compAlign n := Dvd.intro_left _ rfl

theorem alignUp_lt (n : ℕ) : alignUp compAlign n < n + 4096 := by
  unfold alignUp compAlign
  omega

def physOffset (l2Entry : ℕ) : ℕ := l2Entry &&& l2OffsetMask

def isCompressed (l2Entry : ℕ) : Prop := l2Entry &&& l2Compressed ≠ 0

instance (e : ℕ) : Decidable (isCompressed e) := inferInstanceAs (Decidable (_ ≠ 0))

variable {p : ℕ}

theorem physOffset_eq_mod (e : ℕ) : physOffset e = e % 2 ^ 62 :=
  Nat.and_two_pow_sub_one_eq_mod e 62

theorem isCompressed_iff (e : ℕ) : isCompressed e ↔ e.testBit 63 = true := by
  unfold isCompressed l2Compressed
  rw [Nat.and_two_pow]
  cases e.testBit 63 <;> simp

theorem lzEntry_eq (hp : p < 2 ^ 62) : l2Compressed ||| p = 2 ^ 63 + p := by
  have h := Nat.two_pow_add_eq_or_of_lt (i := 63) (show p < 2 ^ 63 by omega) 1
  simpa [l2Compressed] using h.symm

theorem physOffset_raw (hp : p < 2 ^ 62) : physOffset p = p := by
  rw [physOffset_eq_mod, Nat.mod_eq_of_lt hp]

theorem physOffset_lz (hp : p < 2 ^ 62) : physOffset (l2Compressed ||| p) = p := by
  rw [lzEntry_eq hp, physOffset_eq_mod]
  omega

theorem not_isCompressed_raw (hp : p < 2 ^ 62) : ¬ isCompressed p := by
  rw [isCompressed_iff, Nat.testBit_lt_two_pow (hp.trans (by norm_num))]
  simp

theorem isCompressed_lz (p : ℕ) : isCompressed (l2Compressed ||| p) := by
  rw [isCompressed_iff, Nat.testBit_or, l2Compressed, Nat.testBit_two_pow_self, Bool.true_or]

def tableBytes (n : ℕ) (table : ℕ → ℕ) : List UInt8 :=
  (List.range n).flatMap fun j => beBytes 8 (table j)

/-- The checksum of the first `clusterSize - 4` bytes goes at the end of the cluster. -/
def withTrailer (body : List UInt8) : List UInt8 := body ++ beBytes 4 (crc32c body).toNat

def l2Bytes (n : ℕ) (table : ℕ → ℕ) : List UInt8 :=
  withTrailer (tableBytes n table ++ List.replicate 4 0)

def storedCrc (clusterSize : ℕ) (buf : List UInt8) : ℕ := get32 buf (clusterSize - 4)

def calcCrc (clusterSize : ℕ) (buf : List UInt8) : ℕ :=
  (crc32c (buf.take (clusterSize - 4))).toNat

theorem length_tableBytes (n : ℕ) (table : ℕ → ℕ) : (tableBytes n table).length = 8 * n :=
  length_flatMap_range (fun _ => length_beBytes 8 _) n

theorem tableBytes_congr {n : ℕ} {t u : ℕ → ℕ} (h : ∀ j < n, t j = u j) :
    tableBytes n t = tableBytes n u := by
  unfold tableBytes
  apply List.flatMap_congr
  intro j hj
  rw [h j (List.mem_range.mp hj)]

theorem length_l2Bytes (g : Geometry) (table : ℕ → ℕ) :
    (l2Bytes g.l2Entries table).length = g.clusterSize := by
  have := g.eight_mul_l2Entries
  simp [l2Bytes, withTrailer, length_tableBytes]
  omega

theorem crc_withTrailer {body : List UInt8} {n : ℕ} (h : body.length = n - 4) :
    storedCrc n (withTrailer body) = calcCrc n (withTrailer body) := by
  have hlt := (crc32c body).toNat_lt
  unfold storedCrc calcCrc withTrailer
  rw [← h, List.take_left]
  have hget := getBE_append 4 (crc32c body).toNat body []
  rw [List.append_nil, Nat.mod_eq_of_lt (by norm_num; omega)] at hget
  exact hget

theorem crc_l2Bytes (g : Geometry) (table : ℕ → ℕ) :
    storedCrc g.clusterSize (l2Bytes g.l2Entries table) =
      calcCrc g.clusterSize (l2Bytes g.l2Entries table) := by
  have := g.eight_mul_l2Entries
  apply crc_withTrailer
  simp [length_tableBytes]
  omega

theorem get64_l2Bytes {n j : ℕ} {table : ℕ → ℕ} (hj : j < n) (ht : table j < 2 ^ 64) :
    get64 (l2Bytes n table) (8 * j) = table j := by
  unfold l2Bytes withTrailer
  rw [List.append_assoc]
  refine (getBE_flatMap_range 8 table hj _).trans (Nat.mod_eq_of_lt ?_)
  norm_num at ht ⊢
  exact ht

theorem get64_tableBytes {n j : ℕ} {table : ℕ → ℕ} (hj : j < n) (ht : table j < 2 ^ 64) :
    get64 (tableBytes n table) (8 * j) = table j := by
  have hget := getBE_flatMap_range 8 table hj []
  rw [List.append_nil, Nat.mod_eq_of_lt (by norm_num; omega)] at hget
  exact hget

theorem withTrailer_zeros (g : Geometry) :
    withTrailer (List.replicate (g.clusterSize - 4) 0) = l2Bytes g.l2Entries fun _ => 0 := by
  have hz : beBytes 8 0 = List.replicate 8 0 := by decide
  have ht : ∀ n, tableBytes n (fun _ => 0) = List.replicate (8 * n) 0 := by
    intro n
    induction n with
    | zero => rfl
    | succ n ih =>
      unfold tableBytes at ih ⊢
      rw [List.range_succ, List.flatMap_append, ih, List.flatMap_singleton, hz,
        List.replicate_append_replicate]
      rfl
  have := g.eight_mul_l2Entries
  unfold l2Bytes
  rw [ht, List.replicate_append_replicate]
  congr 2
  omega

/-- The fields of the header up to `L1Size`; the later ones change while the image is in use. -/
def fixedHeader (clusterBits virtualSize l1Offset l1Size : ℕ) : List UInt8 :=
  beBytes 8 magic ++ (beBytes 4 version ++ (beBytes 4 clusterBits ++ (beBytes 8 virtualSize ++
    (beBytes 8 l1Offset ++ beBytes 4 l1Size))))

def newHeader (clusterBits virtualSize l1Offset l1Size allocOffset : ℕ) : List UInt8 :=
  fixedHeader clusterBits virtualSize l1Offset l1Size ++ (beBytes 8 allocOffset ++
    (beBytes 4 compLZ4 ++ (beBytes 8 0 ++ List.replicate (headerSize - 56) 0)))

theorem length_fixedHeader (clusterBits virtualSize l1Offset l1Size : ℕ) :
    (fixedHeader clusterBits virtualSize l1Offset l1Size).length = 36 := by
  simp [fixedHeader]

theorem length_newHeader (clusterBits virtualSize l1Offset l1Size allocOffset : ℕ) :
    (newHeader clusterBits virtualSize l1Offset l1Size allocOffset).length = headerSize := by
  simp only [newHeader, List.length_append, length_fixedHeader, length_beBytes,
    List.length_replicate]
  rfl

/-- What a reader finds in the header. -/
structure HeaderFields (hdr : List UInt8)
    (clusterBits virtualSize l1Offset l1Size allocOffset freeListHead : ℕ) : Prop where
  magic : get64 hdr 0 = magic
  version : get32 hdr 8 = version
  clusterBits : get32 hdr 12 = clusterBits
  virtualSize : get64 hdr 16 = virtualSize
  l1Offset : get64 hdr 24 = l1Offset
  l1Size : get32 hdr 32 = l1Size
  allocOffset : get64 hdr 36 = allocOffset
  freeListHead : get64 hdr 48 = freeListHead

theorem headerFields {b : ℕ → UInt8}
    {clusterBits virtualSize l1Offset l1Size allocOffset freeListHead : ℕ}
    (hfixed : At b 0 (fixedHeader clusterBits virtualSize l1Offset l1Size))
    (halloc : At b 36 (beBytes 8 allocOffset)) (hfree : At b 48 (beBytes 8 freeListHead))
    (hbits : clusterBits < 2 ^ 32) (hsize : virtualSize < 2 ^ 64) (hoff : l1Offset < 2 ^ 64)
    (hl1 : l1Size < 2 ^ 32) (ha : allocOffset < 2 ^ 64) (hh : freeListHead < 2 ^ 64) :
    HeaderFields (window b 0 headerSize) clusterBits virtualSize l1Offset l1Size allocOffset
      freeListHead := by
  have field : ∀ {k x off}, At b off (beBytes k x) → off + k ≤ 4096 → x < 256 ^ k →
      getBE k (window b 0 headerSize) off = x := by
    intro k x off h hk hx
    have := (show At b (0 + off) (beBytes k x) by rwa [Nat.zero_add]).getBE (n := headerSize) hk
    rwa [Nat.mod_eq_of_lt hx] at this
  simp only [fixedHeader, at_append, length_beBytes] at hfixed
  obtain ⟨h0, h8, h12, h16, h24, h32⟩ := hfixed
  constructor
  · exact field h0 (by norm_num) (by norm_num [magic])
  · exact field h8 (by norm_num) (by norm_num [version])
  · exact field h12 (by norm_num) (by norm_num; omega)
  · exact field h16 (by norm_num) (by norm_num; omega)
  · exact field h24 (by norm_num) (by norm_num; omega)
  · exact field h32 (by norm_num) (by norm_num; omega)
  · exact field halloc (by norm_num) (by norm_num; omega)
  · exact field hfree (by norm_num) (by norm_num; omega)

theorem headerFields_newHeader {clusterBits virtualSize l1Offset l1Size allocOffset : ℕ}
    (hbits : clusterBits < 2 ^ 32) (hsize : virtualSize < 2 ^ 64) (hoff : l1Offset < 2 ^ 64)
    (hl1 : l1Size < 2 ^ 32) (ha : allocOffset < 2 ^ 64) :
    HeaderFields (newHeader clusterBits virtualSize l1Offset l1Size allocOffset) clusterBits
      virtualSize l1Offset l1Size allocOffset 0 := by
  have hat : At (overlay (fun _ => 0) 0 (newHeader clusterBits virtualSize l1Offset l1Size
      allocOffset)) 0 (newHeader clusterBits virtualSize l1Offset l1Size allocOffset) := at_overlay
  have hwin := hat
  unfold At at hwin
  rw [length_newHeader] at hwin
  generalize overlay (fun _ => 0) 0 (newHeader clusterBits virtualSize l1Offset l1Size
    allocOffset) = b at hat hwin
  simp only [newHeader, at_append, length_beBytes, length_fixedHeader] at hat
  rw [← hwin]
  exact headerFields hat.1 hat.2.1 hat.2.2.2.1 hbits hsize hoff hl1 ha (by norm_num)

/-- The block compressor: it may fail and its output may have any length, but what it
compressed can be decompressed. -/
structure Codec where
  compress : List UInt8 → Option (List UInt8)
  decompress : List UInt8 → ℕ → Option (List UInt8)
  decompress_compress : ∀ d c, compress d = some c → decompress c d.length = some d

/-- The output of the compressor, when it is worth storing. -/
def compressed (z : Codec) (clusterSize : ℕ) (data : List UInt8) : Option (List UInt8) :=
  (z.compress data).filter fun comp => 0 < comp.length ∧ comp.length < clusterSize - 4

theorem compressed_eq_some {z : Codec} {n : ℕ} {data comp : List UInt8}
    (h : compressed z n data = some comp) :
    z.compress data = some comp ∧ 0 < comp.length ∧ comp.length < n - 4 := by
  simpa [compressed, Option.filter_eq_some_iff] using h

def tombstone (size next : ℕ) : List UInt8 :=
  beBytes 4 freeTombstone ++ (beBytes 4 size ++ beBytes 8 next)

@[simp] theorem length_tombstone (size next : ℕ) : (tombstone size next).length = 16 := by
  simp [tombstone]

theorem get32_tombstone (size next : ℕ) : get32 (tombstone size next) 0 = freeTombstone :=
  (getBE_append 4 freeTombstone [] _).trans (by decide)

theorem get32_tombstone_size {size : ℕ} (next : ℕ) (h : size < 2 ^ 32) :
    get32 (tombstone size next) 4 = size := by
  have := getBE_append 4 size (beBytes 4 freeTombstone) (beBytes 8 next)
  rw [length_beBytes, Nat.mod_eq_of_lt (by norm_num; omega)] at this
  exact this

theorem get64_tombstone_next (size : ℕ) {next : ℕ} (h : next < 2 ^ 64) :
    get64 (tombstone size next) 8 = next := by
  have := getBE_append 8 next (beBytes 4 freeTombstone ++ beBytes 4 size) []
  rw [List.length_append, length_beBytes, List.append_nil, List.append_assoc,
    Nat.mod_eq_of_lt (by norm_num; omega)] at this
  exact this

end Lbd.QCow2
