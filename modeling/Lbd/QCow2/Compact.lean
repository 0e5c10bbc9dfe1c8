import Lbd.QCow2.Packing
import Lbd.QCow2.Snapshot

/-!
# `lbdctl compact`

What the kernel finds in a written image, which clusters a compaction keeps, and that a failed one
leaves the image alone.
-/

namespace Lbd

theorem beBytes_mod (k n : ℕ) : beBytes k (n % 256 ^ k) = beBytes k n := by
  induction k generalizing n with
  | zero => rfl
  | succ k ih =>
    have hlow : UInt8.ofNat (n % (256 * 256 ^ k)) = UInt8.ofNat n := by
      apply UInt8.toNat_inj.mp
      simp
    rw [beBytes, beBytes, pow_succ', Nat.mod_mul_right_div_self, ih, hlow]

namespace QCow2.Ctl
open Act Device

variable {z : Codec} {g : Geometry} {f : File} {img : Image} {d : Device} {w : Work}
  {K : ℕ → ℕ → Option (List UInt8)} {c e i n off : ℕ} {data : List UInt8}

/-- The device that `lbd_qcow2_init` makes of an image. -/
structure Opened (img : Image) (d : Device) : Prop where
  fresh : Fresh d
  upper : d.clusterBits ≤ 24
  backingFile : d.backingFile = img.f
  clusterBits : d.clusterBits = img.clusterBits
  virtualSize : d.virtualSize = img.virtualSize
  l1Offset : d.l1Offset = img.l1Offset
  l1Size : d.l1Size = img.l1Size
  l1Table : d.l1Table = img.l1Table
  base : d.base = none
  noHandler : d.missHandler = none

/-- The image that a header and an L1 table describe. -/
def imageOf (f : File) (hdr diskL1 : List UInt8) : Image where
  f := f
  clusterBits := get32 hdr 12
  virtualSize := get64 hdr 16
  l1Offset := get64 hdr 24
  l1Size := get32 hdr 32
  l1Table := fun i => get64 diskL1 (8 * i)

/-- What the kernel checks of a header and an L1 table. -/
structure KernelReads (f : File) (hdr diskL1 : List UInt8) : Prop where
  header : f.readAt 0 headerSize = some hdr
  magic : get64 hdr 0 = magic
  version : get32 hdr 8 = version
  lower : 12 ≤ get32 hdr 12
  upper : get32 hdr 12 ≤ 24
  l1 : f.kernelRead (get64 hdr 24) (get32 hdr 32 * 8) = some diskL1

theorem init_opened (f : File) :
    Meets init (detached f)
      (fun _ d => ∃ hdr diskL1, KernelReads f hdr diskL1 ∧ Opened (imageOf f hdr diskL1) d)
      fun _ _ => ∀ hdr diskL1, ¬ KernelReads f hdr diskL1 := by
  simp only [init, meets_bind, meets_get]
  cases hhdr : (detached f).backingFile.readAt 0 headerSize with
  | none =>
    change f.readAt 0 headerSize = none at hhdr
    intro hdr diskL1 h
    have := h.header
    rw [hhdr] at this
    cases this
  | some hdr =>
    change f.readAt 0 headerSize = some hdr at hhdr
    have heq : ∀ hdr' diskL1, KernelReads f hdr' diskL1 → hdr' = hdr := by
      intro hdr' diskL1 h
      have := h.header
      rw [hhdr] at this
      exact (Option.some.inj this).symm
    apply meets_ite
    · intro hmagic hdr' diskL1 h
      rw [← heq hdr' diskL1 h] at hmagic
      exact hmagic h.magic
    · intro hmagic
      apply meets_ite
      · intro hversion hdr' diskL1 h
        rw [← heq hdr' diskL1 h] at hversion
        exact hversion h.version
      · intro hversion
        simp only [meets_bind, meets_modify]
        apply meets_ite
        · intro hbits hdr' diskL1 h
          rw [← heq hdr' diskL1 h] at hbits
          have := h.lower
          have := h.upper
          omega
        · intro hbits
          simp only [meets_bind, meets_modify]
          cases hl1 : (detached f).backingFile.kernelRead (get64 hdr 24) (get32 hdr 32 * 8) with
          | none =>
            change f.kernelRead (get64 hdr 24) (get32 hdr 32 * 8) = none at hl1
            intro hdr' diskL1 h
            have := h.l1
            rw [heq hdr' diskL1 h, hl1] at this
            cases this
          | some diskL1 =>
            refine ⟨hdr, diskL1, ⟨hhdr, not_not.mp hmagic, not_not.mp hversion, by omega, by omega,
              hl1⟩, ⟨rfl, ?_, rfl, getBE_lt 8 hdr 16, fun _ => rfl, fun _ => rfl⟩, ?_, rfl, rfl,
              rfl, rfl, rfl, rfl, rfl, rfl⟩
            · change 12 ≤ get32 hdr 12
              omega
            · change get32 hdr 12 ≤ 24
              omega

theorem Opened.clusterSize (h : Opened img d) : d.clusterSize = img.clusterSize := by
  rw [h.fresh.clusterSize, h.clusterBits]
  rfl

theorem Opened.l2Entries (h : Opened img d) : d.l2Entries = img.l2Entries := by
  have hlower := h.fresh.lower
  have hupper := h.upper
  rw [h.clusterBits] at hlower hupper
  have hcs : 8 * img.l2Entries + 8 = img.clusterSize :=
    eight_mul_l2Entries (by omega) (by omega)
  rw [h.fresh.l2Entries, h.clusterBits]
  change (img.clusterSize - 8) / 8 = _
  omega

theorem readAt_of_pread (h : pread f off n = some data) (hn : n ≠ 0) :
    f.readAt off n = some data := by
  unfold pread File.readFull at h
  split_ifs at h
  exact h

theorem loadTable_eq (hreads : ∀ i < img.l1Size, img.l1Table i ≠ 0 → TableReads img i) (i : ℕ) :
    loadTable img.f img.l1Table img.l1Size img.clusterSize i = some fun j =>
      if img.l1Size ≤ i ∨ img.l1Table i = 0 then 0
      else get64 (img.f.slice (img.l1Table i) img.clusterSize) (8 * j) := by
  unfold loadTable
  by_cases h : i < img.l1Size ∧ img.l1Table i ≠ 0
  · obtain ⟨raw, hraw, hcrc⟩ := hreads i h.1 h.2
    have hnot : ¬ (img.l1Size ≤ i ∨ img.l1Table i = 0) := by
      rw [not_or, not_le]
      exact h
    have hpos : img.clusterSize ≠ 0 := (Nat.two_pow_pos _).ne'
    rw [if_pos h, readAt_of_pread hraw hpos]
    simp only [if_neg hnot, ← pread_slice hraw]
    exact if_neg (not_not.mpr hcrc)
  · have hnot : img.l1Size ≤ i ∨ img.l1Table i = 0 := by
      rw [← not_lt, ← not_ne_iff (a := img.l1Table i), ← not_and_or]
      exact h
    rw [if_neg h]
    simp only [if_pos hnot]

theorem Opened.clusterBytes (h : Opened img d)
    (hreads : ∀ i < img.l1Size, img.l1Table i ≠ 0 → TableReads img i) (base : Option Base) (c : ℕ) :
    { d with base := base }.clusterBytes z c =
      if entryAt img c = 0 then (lookupBase z base img.clusterSize c).bytes img.clusterSize
      else loadData z img.f img.clusterSize (entryAt img c) := by
  unfold Device.clusterBytes entryAt
  simp only [h.backingFile, h.l1Table, h.l1Size, h.clusterSize, h.l2Entries, loadTable_eq hreads]

theorem loadData_of_readEntry (hcs : img.clusterSize ≤ 0x7E000000)
    (h : readEntry z img c e = .ok data) : loadData z img.f img.clusterSize e = some data := by
  unfold readEntry at h
  unfold loadData
  split_ifs at h ⊢ with hc
  · rcases preadOr_cases img.f (.compressedSize c) (physOffset e) 4 with ⟨-, heq⟩ | ⟨buf, hbuf, heq⟩
    · rw [heq] at h
      cases h
    · rw [heq] at h
      dsimp only [bind, Except.bind] at h
      split_ifs at h with hcap
      rw [compCap, if_neg (by omega)] at hcap
      rcases preadOr_cases img.f (.compressedData c) (physOffset e + 4) (get32 buf 0) with
        ⟨-, heq'⟩ | ⟨comp, hcomp, heq'⟩
      · rw [heq'] at h
        cases h
      · rw [heq'] at h
        have hread := readAt_of_pread hbuf (by norm_num)
        have hend : physOffset e + 4 ≤ img.f.size := by
          unfold File.readAt at hread
          split_ifs at hread with hle
          exact hle
        have hread' : img.f.readAt (physOffset e + 4) (get32 buf 0) = some comp := by
          by_cases h0 : get32 buf 0 = 0
          · rw [pread_slice hcomp, File.readAt, if_pos (by omega)]
          · exact readAt_of_pread hcomp h0
        simp only [hread, hread', if_neg hcap]
        change decompressCluster z img c comp = .ok data at h
        unfold decompressCluster at h
        split at h
        · cases h
        · next data' hdec =>
          split_ifs at h with hlen
          cases h
          rw [hdec]
          simpa using hlen
  · exact readAt_of_pread (preadOr_eq_ok.mp h) (Nat.two_pow_pos _).ne'

theorem HoldsData.loadData {p : ℕ} (h : HoldsData z g f e data p n) :
    loadData z f g.clusterSize e = some data := by
  have hcs := g.clusterSize_le
  obtain ⟨hp, hlen, ⟨rfl, rfl, hr⟩ | ⟨comp, rfl, rfl, hc, hr⟩⟩ := h
  · unfold QCow2.loadData
    rw [if_neg (not_isCompressed_raw hp), physOffset_raw hp]
    exact hr.readAt hlen
  · obtain ⟨hz, -, hlt⟩ := compressed_eq_some hc
    rw [File.reads_append, length_beBytes] at hr
    have hsize : get32 (beBytes 4 comp.length) 0 = comp.length :=
      (getBE_beBytes 4 comp.length).trans (Nat.mod_eq_of_lt (by norm_num; omega))
    have hbound : ¬ compressBound g.clusterSize < comp.length := by
      unfold compressBound
      omega
    unfold QCow2.loadData
    rw [if_pos (isCompressed_lz p), physOffset_lz hp, hr.1.readAt (length_beBytes 4 _)]
    dsimp only
    rw [hsize, if_neg hbound, hr.2.readAt rfl]
    dsimp only
    rw [← hlen, z.decompress_compress data comp hz]
    simp

theorem HoldsData.entry {p : ℕ} (h : HoldsData z g f e data p n) (h0 : p ≠ 0) :
    e ≠ 0 ∧ e < 2 ^ 64 := by
  obtain ⟨hp, -, ⟨rfl, -, -⟩ | ⟨comp, rfl, -, -, -⟩⟩ := h
  · exact ⟨h0, by omega⟩
  · rw [lzEntry_eq hp]
    omega

section Written

variable {virtualSize l1Offset l1Size : ℕ} (h : Written z g virtualSize l1Offset l1Size K w f)
include h

/-- The image in a written file. -/
def writtenImage (g : Geometry) (virtualSize l1Offset l1Size : ℕ) (w : Work) (f : File) :
    Image where
  f := f
  clusterBits := g.clusterBits
  virtualSize := virtualSize
  l1Offset := l1Offset
  l1Size := l1Size
  l1Table := fun i => get64 (tableBytes l1Size w.l1Table) (8 * i)

theorem Written.kernelReads (hsize : virtualSize < 2 ^ 64) (hoff : l1Offset < 2 ^ 64)
    (hl1 : l1Size < 2 ^ 32) : ∃ hdr diskL1, KernelReads f hdr diskL1 ∧
    imageOf f hdr diskL1 = writtenImage g virtualSize l1Offset l1Size w f := by
  have hlower := g.lower
  have hupper := g.upper
  have hmod : newHeader g.clusterBits virtualSize l1Offset l1Size w.allocOffset =
      newHeader g.clusterBits virtualSize l1Offset l1Size (w.allocOffset % 2 ^ 64) := by
    have := beBytes_mod 8 w.allocOffset
    norm_num at this
    norm_num [newHeader, this]
  have hhdr := h.header
  rw [hmod] at hhdr
  have hfields := headerFields_newHeader (show g.clusterBits < 2 ^ 32 by omega) hsize hoff hl1
    (Nat.mod_lt w.allocOffset (by norm_num : 0 < 2 ^ 64))
  have hlen := length_newHeader g.clusterBits virtualSize l1Offset l1Size (w.allocOffset % 2 ^ 64)
  generalize newHeader g.clusterBits virtualSize l1Offset l1Size (w.allocOffset % 2 ^ 64) = hdr
    at hhdr hfields hlen
  have hl1read := File.kernelRead_eq_some.mpr
    ⟨h.l1_le, h.l1.readAt ((length_tableBytes l1Size w.l1Table).trans (mul_comm ..))⟩
  rw [← hfields.l1Size, ← hfields.l1Offset] at hl1read
  refine ⟨hdr, _, ⟨hhdr.readAt hlen, hfields.magic, hfields.version, ?_, ?_, hl1read⟩, ?_⟩
  · rw [hfields.clusterBits]
    exact hlower
  · rw [hfields.clusterBits]
    exact hupper
  · unfold imageOf writtenImage
    rw [hfields.clusterBits, hfields.virtualSize, hfields.l1Offset, hfields.l1Size]

theorem Written.l1Table_eq {i : ℕ} (hi : i < l1Size) :
    get64 (tableBytes l1Size w.l1Table) (8 * i) = w.l1Table i := by
  apply get64_tableBytes hi
  by_cases h0 : w.l1Table i = 0
  · rw [h0]
    norm_num
  · have := (h.tables i hi h0).1
    omega

theorem Written.tableReads {i : ℕ} (hi : i < l1Size)
    (h0 : (writtenImage g virtualSize l1Offset l1Size w f).l1Table i ≠ 0) :
    TableReads (writtenImage g virtualSize l1Offset l1Size w f) i := by
  have hcs := g.clusterSize_le
  change get64 (tableBytes l1Size w.l1Table) (8 * i) ≠ 0 at h0
  rw [h.l1Table_eq hi] at h0
  obtain ⟨hlt, hr⟩ := h.tables i hi h0
  refine ⟨l2Bytes g.l2Entries (w.l2Tables i), ?_, crc_l2Bytes g _⟩
  change pread f (get64 (tableBytes l1Size w.l1Table) (8 * i)) g.clusterSize = _
  rw [h.l1Table_eq hi]
  exact pread_of_reads hr (by omega) (length_l2Bytes g _) (by unfold maxRw; omega)

theorem Written.l2Entry_lt (i j : ℕ) : w.l2Tables i j < 2 ^ 64 := by
  cases hK : K i j with
  | none =>
    rw [h.unset i j hK]
    norm_num
  | some data =>
    obtain ⟨-, p, n, hp, hdata⟩ := h.stored i j data hK
    exact (hdata.entry hp).2

omit h in
theorem l2Entries_eq (hb : img.clusterBits = g.clusterBits) : img.l2Entries = g.l2Entries := by
  have hlower := g.lower
  have hupper := g.upper
  have h : 8 * img.l2Entries + 8 = img.clusterSize := eight_mul_l2Entries (by omega) (by omega)
  have hg := g.eight_mul_l2Entries
  have hcs : img.clusterSize = g.clusterSize := congrArg (2 ^ ·) hb
  omega

theorem Written.entryAt_eq (c : ℕ) :
    entryAt (writtenImage g virtualSize l1Offset l1Size w f) c =
      if l1Size ≤ c / g.l2Entries % 2 ^ 32 ∨ w.l1Table (c / g.l2Entries % 2 ^ 32) = 0 then 0
      else w.l2Tables (c / g.l2Entries % 2 ^ 32) (c % g.l2Entries) := by
  unfold entryAt
  rw [l2Entries_eq (g := g) rfl]
  change (if l1Size ≤ _ ∨ get64 (tableBytes l1Size w.l1Table) _ = 0 then 0 else
    get64 (f.slice (get64 (tableBytes l1Size w.l1Table) _) g.clusterSize) _) = _
  generalize c / g.l2Entries % 2 ^ 32 = i
  by_cases hi : i < l1Size
  · rw [h.l1Table_eq hi]
    split_ifs with h0
    · rfl
    · rw [not_or] at h0
      have hr := (h.tables i hi h0.2).2.2
      unfold At at hr
      rw [length_l2Bytes] at hr
      rw [File.slice, hr]
      exact get64_l2Bytes (Nat.mod_lt c g.l2Entries_pos) (h.l2Entry_lt _ _)
  · rw [if_pos (.inl (Nat.not_lt.mp hi)), if_pos (.inl (Nat.not_lt.mp hi))]

/-- What the kernel finds in a written image: the clusters `K`, and the base elsewhere. -/
theorem Written.shows (hin : ∀ i j, K i j ≠ none → i < l1Size)
    (ho : Opened (writtenImage g virtualSize l1Offset l1Size w f) d) (base : Option Base) (c : ℕ) :
    { d with base := base }.clusterBytes z c =
      match K (c / g.l2Entries % 2 ^ 32) (c % g.l2Entries) with
      | some data => some data
      | none => (lookupBase z base g.clusterSize c).bytes g.clusterSize := by
  rw [ho.clusterBytes (fun i hi h0 => h.tableReads hi h0), h.entryAt_eq]
  change (if _ then (lookupBase z base g.clusterSize c).bytes g.clusterSize
    else loadData z f g.clusterSize _) = _
  generalize c / g.l2Entries % 2 ^ 32 = i
  cases hK : K i (c % g.l2Entries) with
  | none =>
    rw [h.unset i _ hK, ite_self, if_pos rfl]
  | some data =>
    obtain ⟨h0, p, n, hp, hdata⟩ := h.stored i _ data hK
    have hi : i < l1Size := hin i _ (by rw [hK]; exact Option.some_ne_none _)
    rw [if_neg (not_or.mpr ⟨not_le.mpr hi, h0⟩), if_neg (hdata.entry hp).1]
    exact hdata.loadData

end Written

theorem entryAt_congr {c c' : ℕ} (h1 : c / img.l2Entries % 2 ^ 32 = c' / img.l2Entries % 2 ^ 32)
    (h2 : c % img.l2Entries = c' % img.l2Entries) : entryAt img c = entryAt img c' := by
  unfold entryAt
  rw [h1, h2]

/-- `K` holds the data of the clusters below `k` that is not zero. -/
structure Kept (z : Codec) (img : Image) (K : ℕ → ℕ → Option (List UInt8)) (k : ℕ) : Prop where
  sound : ∀ i j data, K i j = some data → ∃ c < k, c / img.l2Entries % 2 ^ 32 = i ∧
    c % img.l2Entries = j ∧ entryAt img c ≠ 0 ∧
      readEntry z img c (entryAt img c) = .ok data ∧ data.all (· == 0) = false
  complete : ∀ c < k, entryAt img c ≠ 0 → ∃ data, readEntry z img c (entryAt img c) = .ok data ∧
    (data.all (· == 0) = false →
      K (c / img.l2Entries % 2 ^ 32) (c % img.l2Entries) = some data)

variable {l2 : ℕ → ℕ → ℕ} {lo k : ℕ}

theorem Kept.skip (h : Kept z img K k) (hk : entryAt img k ≠ 0 → ∃ data,
    readEntry z img k (entryAt img k) = .ok data ∧ data.all (· == 0) = true) :
    Kept z img K (k + 1) := by
  refine ⟨fun i j data hK => ?_, fun c hc h0 => ?_⟩
  · obtain ⟨c, hc, hrest⟩ := h.sound i j data hK
    exact ⟨c, Nat.lt_succ_of_lt hc, hrest⟩
  · by_cases hck : c = k
    · subst hck
      obtain ⟨data, hread, hzero⟩ := hk h0
      refine ⟨data, hread, fun hne => ?_⟩
      rw [hzero] at hne
      cases hne
    · exact h.complete c (by omega) h0

theorem Kept.store (h : Kept z img K k) (hcs : img.clusterSize ≤ 0x7E000000)
    (h0 : entryAt img k ≠ 0) (hread : readEntry z img k (entryAt img k) = .ok data)
    (hne : data.all (· == 0) = false) :
    Kept z img (setCell K (k / img.l2Entries % 2 ^ 32) (k % img.l2Entries) data) (k + 1) := by
  refine ⟨fun i j data' hK => ?_, fun c hc hc0 => ?_⟩
  · rw [setCell, update_update] at hK
    split_ifs at hK with hij
    · cases hK
      exact ⟨k, Nat.lt_succ_self k, hij.1.symm, hij.2.symm, h0, hread, hne⟩
    · obtain ⟨c, hc, hrest⟩ := h.sound i j data' hK
      exact ⟨c, Nat.lt_succ_of_lt hc, hrest⟩
  · rw [setCell, update_update]
    split_ifs with hij
    · -- two clusters of one cell have the same data
      by_cases hck : c = k
      · subst hck
        exact ⟨data, hread, fun _ => rfl⟩
      · obtain ⟨data', hread', -⟩ := h.complete c (by omega) hc0
        have hload := loadData_of_readEntry hcs hread'
        rw [entryAt_congr hij.1 hij.2, loadData_of_readEntry hcs hread] at hload
        cases hload
        exact ⟨data, hread', fun _ => rfl⟩
    · refine h.complete c ?_ hc0
      have : c ≠ k := fun hck => hij ⟨by rw [hck], by rw [hck]⟩
      omega

theorem length_of_readEntry (h : readEntry z img c e = .ok data) :
    data.length = img.clusterSize := by
  rcases readEntry_cases z img c e with ⟨data', heq, hlen⟩ | ⟨s, heq, -⟩ | ⟨hc, buf, hbuf, hcap⟩
  · rw [h] at heq
    cases heq
    exact hlen
  · rw [h] at heq
    cases heq
  · rw [readEntry_overrun hc hbuf hcap] at h
    cases h

theorem compactCluster_kept (hb : img.clusterBits = g.clusterBits) (hl : Loaded img l2)
    (hp : Packed z g lo K w) (hk : Kept z img K k) :
    Meets (compactCluster z img l2 k) w
      (fun _ w' => ∃ K', Packed z g lo K' w' ∧ Kept z img K' (k + 1))
      fun _ _ => True := by
  have hn := l2Entries_eq hb
  have hcs : img.clusterSize = g.clusterSize := congrArg (2 ^ ·) hb
  have hle := g.clusterSize_le
  have hpos := g.l2Entries_pos
  unfold compactCluster
  rw [meets_bind, readCluster_eq (by omega) hl]
  by_cases h0 : entryAt img k = 0
  · rw [if_pos h0]
    exact ⟨K, hp, hk.skip fun h => (h h0).elim⟩
  · rw [if_neg h0]
    cases hread : readEntry z img k (entryAt img k) with
    | error e => trivial
    | ok data =>
      change Meets (if data.all (· == 0) then pure () else
        storeCluster z img.clusterSize img.l2Entries k data) w _ _
      apply meets_ite
      · exact fun hzero => ⟨K, hp, hk.skip fun _ => ⟨data, hread, hzero⟩⟩
      · intro hne
        rw [hn, hcs]
        have hlen := length_of_readEntry hread
        apply (hp.storeCluster (hlen.trans hcs)).imp
        · intro _ w' hp'
          refine ⟨_, hp', ?_⟩
          rw [← hn]
          exact hk.store (by omega) h0 hread (Bool.eq_false_iff.mpr hne)
        · exact fun _ _ _ => trivial

theorem cmdCompact_written {out : File} (himg : openImage f = .ok img)
    (hb : img.clusterBits = g.clusterBits) (hl1 : headerSize ≤ img.l1Offset)
    (hcap : out.capacity ≤ 2 ^ 62) :
    Meets (cmdCompact z) (start f out)
      (fun _ w' => (∀ i < img.l1Size, img.l1Table i ≠ 0 → TableReads img i) ∧ ∃ K w,
        Written z g img.virtualSize img.l1Offset img.l1Size K w w'.src ∧
          Kept z img K img.totalClusters)
      fun _ _ => True := by
  have hlower := g.lower
  have hupper := g.upper
  have hcs : img.clusterSize = g.clusterSize := congrArg (2 ^ ·) hb
  unfold cmdCompact
  simp only [meets_bind, meets_get]
  change Meets (ofExcept (openImage f)) _ _ _
  rw [himg, meets_ofExcept_ok]
  rcases loadTables_cases img img.l1Size with ⟨l2, heq, hall⟩ | ⟨-, -, e, -, -, -, heq⟩
  · rw [heq, meets_ofExcept_ok]
    have htables : ∀ i < img.l1Size, img.l1Table i ≠ 0 →
        TableReads img i ∧ l2 i = diskTable img i := by
      intro i hi h0
      have hok := hall i hi h0
      rcases @loadL2_cases img (by omega) (by omega) i with ⟨hreads, heq'⟩ | ⟨-, e, heq', -⟩
      · rw [heq'] at hok
        exact ⟨hreads, (Except.ok.inj hok).symm⟩
      · rw [heq'] at hok
        cases hok
    have hl : Loaded img l2 := fun i hi h0 => (htables i hi h0).2
    rw [hcs]
    apply (packed_reserve hl1 hcap).post
    intro _ w₁ hw₁
    refine Meets.post (meets_forM_range (fun k (w' : Work) => ∃ K, Packed z g
      (alignUp g.clusterSize (img.l1Offset + img.l1Size * 8)) K w' ∧ Kept z img K k)
      ⟨_, hw₁, by simp, by simp⟩ ?_) ?_
    · rintro k - w' ⟨K, hp, hk⟩
      exact compactCluster_kept hb hl hp hk
    · rintro _ w₂ ⟨K, hp, hk⟩
      rw [hb, l2Entries_eq hb]
      apply (hp.writeMeta hl1 (le_alignUp' (Nat.two_pow_pos _) _)).post
      exact fun _ w₃ hw₃ => ⟨fun i hi h0 => (htables i hi h0).1, K, w₂, hw₃, hk⟩
  · rw [heq]
    trivial

/-- The source file stays as it is, whether `m` fails or not. -/
def KeepsSrc {α : Type} (m : CtlM α) : Prop :=
  ∀ w, Meets m w (fun _ w' => w'.src = w.src) fun _ w' => w'.src = w.src

section KeepsSrc

variable {α β : Type}

theorem KeepsSrc.bind {m : CtlM α} {k : α → CtlM β} (h : KeepsSrc m) (hk : ∀ a, KeepsSrc (k a)) :
    KeepsSrc (m >>= k) := by
  intro w
  rw [meets_bind]
  apply (h w).post
  intro a w' hw'
  rw [← hw']
  exact hk a w'

theorem KeepsSrc.forM {m : ℕ → CtlM Unit} (h : ∀ a, KeepsSrc (m a)) (n : ℕ) :
    KeepsSrc ((List.range n).forM m) := by
  intro w
  refine meets_forM_range (fun _ (w' : Work) => w'.src = w.src) rfl fun k _ w' hw' => ?_
  rw [← hw']
  exact h k w'

theorem keepsSrc_get : KeepsSrc (Act.get : CtlM Work) := fun _ => rfl

theorem keepsSrc_pure (a : α) : KeepsSrc (pure a : CtlM α) := fun _ => rfl

theorem keepsSrc_ofExcept (r : Except Stop α) : KeepsSrc (ofExcept r) :=
  fun _ => meets_ofExcept (fun _ _ => rfl) fun _ _ => rfl

theorem keepsSrc_pwrite (what : Piece) (off : ℕ) (data : List UInt8) :
    KeepsSrc (pwrite what off data) := by
  intro w
  unfold Meets pwrite
  split_ifs
  · rfl
  · rfl
  · dsimp only
    split_ifs <;> rfl

theorem keepsSrc_ftruncate (size : ℕ) : KeepsSrc (ftruncate size) := by
  intro w
  unfold Meets ftruncate
  split_ifs <;> rfl

theorem keepsSrc_attempt {m : CtlM α} (h : KeepsSrc m) : KeepsSrc (attempt m) :=
  fun w => meets_attempt.mpr (h w)

theorem keepsSrc_storeCluster (clusterSize l2Entries ci : ℕ) (data : List UInt8) :
    KeepsSrc (storeCluster z clusterSize l2Entries ci data) := by
  unfold storeCluster
  refine .bind (fun w => ?_) fun _ => .bind keepsSrc_get fun w => ?_
  · unfold allocTable
    rw [meets_modify]
    split_ifs <;> rfl
  · cases compressed z clusterSize data with
    | some comp =>
      exact .bind (keepsSrc_pwrite _ _ _) fun _ => .bind (keepsSrc_pwrite _ _ _) fun _ _ => rfl
    | none => exact .bind (keepsSrc_pwrite _ _ _) fun _ _ => rfl

theorem keepsSrc_compactCluster (img : Image) (l2 : ℕ → ℕ → ℕ) (ci : ℕ) :
    KeepsSrc (compactCluster z img l2 ci) := by
  refine .bind (keepsSrc_ofExcept _) fun data => ?_
  cases data with
  | none => exact keepsSrc_pure ()
  | some data =>
    intro w
    exact meets_ite (fun _ => rfl) fun _ => keepsSrc_storeCluster _ _ _ _ w

theorem keepsSrc_writeL2 (l2Entries i : ℕ) : KeepsSrc (writeL2 l2Entries i) := by
  refine .bind keepsSrc_get fun w w' => meets_ite (fun _ => rfl) fun _ => ?_
  exact keepsSrc_pwrite _ _ _ w'

theorem keepsSrc_writeMeta (clusterBits l2Entries virtualSize l1Offset l1Size : ℕ) :
    KeepsSrc (writeMeta clusterBits l2Entries virtualSize l1Offset l1Size) := by
  intro w
  unfold writeMeta
  rw [meets_bind]
  apply (KeepsSrc.forM (keepsSrc_writeL2 l2Entries) l1Size w).post
  intro _ w' hw'
  rw [meets_bind, meets_get, ← hw']
  generalize newHeader clusterBits virtualSize l1Offset l1Size w'.allocOffset = hdr
  exact KeepsSrc.bind (keepsSrc_pwrite _ _ hdr) (fun _ => .bind (keepsSrc_pwrite _ _ _) fun _ =>
    .bind (keepsSrc_attempt (keepsSrc_ftruncate _)) fun _ => keepsSrc_pure ()) w'

theorem keepsSrc_reserve (clusterSize l1Offset l1Size : ℕ) :
    KeepsSrc (reserve clusterSize l1Offset l1Size) :=
  .bind (fun _ => rfl) fun _ => .bind (keepsSrc_ftruncate _) fun _ _ => rfl

/-- A failure of `k` leaves the source file as it is. -/
def FailsClean (k : CtlM α) : Prop :=
  ∀ w, Meets k w (fun _ _ => True) fun _ w' => w'.src = w.src

theorem KeepsSrc.bind_failsClean {m : CtlM α} {k : α → CtlM β} (h : KeepsSrc m)
    (hk : ∀ a, FailsClean (k a)) : FailsClean (m >>= k) := by
  intro w
  rw [meets_bind]
  apply (h w).post
  intro a w' hw'
  rw [← hw']
  exact hk a w'

theorem failsClean_cmdCompact (z : Codec) : FailsClean (cmdCompact z) := by
  refine keepsSrc_get.bind_failsClean fun w => (keepsSrc_ofExcept _).bind_failsClean fun img =>
    (keepsSrc_ofExcept _).bind_failsClean fun l2 => ?_
  refine (keepsSrc_reserve _ _ _).bind_failsClean fun _ => ?_
  refine (KeepsSrc.forM (keepsSrc_compactCluster img l2) _).bind_failsClean fun _ => ?_
  exact (keepsSrc_writeMeta _ _ _ _ _).bind_failsClean fun _ _ => trivial

end KeepsSrc

end QCow2.Ctl

end Lbd
