import Lbd.QCow2.Compact

/-!
# What compaction leaves of the guest's view

An image is compared with its compaction over every base. A cluster without data shows the base,
so an image whose zero clusters were left out is another one.
-/

namespace Lbd.QCow2.Ctl

open Act Device

variable {z : Codec} {g : Geometry} {f : File} {img : Image} {d : Device} {w : Work}
  {K : ℕ → ℕ → Option (List UInt8)} {c e i n off : ℕ} {data : List UInt8}

/-- The device over a base, or without one. -/
def attached (f : File) : Option File → Except Errno Unit × Device
  | none => init (detached f)
  | some base => attach (.ok base) (detached f)

/-- Whatever the base is, the guest reads the same from both images. -/
def SameView (z : Codec) (f f' : File) : Prop :=
  ∀ base d, attached f base = (.ok (), d) → ∃ d', attached f' base = (.ok (), d') ∧
    d'.virtualSize = d.virtualSize ∧
      ∀ reads, d.InRange reads → readAll z reads d' = readAll z reads d

/-- Every cluster that has data has some that is not zero, and the number of clusters does not
wrap. -/
def NoZeroClusters (z : Codec) (f : File) : Prop :=
  ∀ img, openImage f = .ok img → ∀ c, c * img.clusterSize < img.virtualSize →
    entryAt img c ≠ 0 → img.virtualSize + img.clusterSize ≤ W64 ∧
      readEntry z img c (entryAt img c) ≠ .ok (List.replicate img.clusterSize 0)

/-- `lbd_qcow2_base_init`, if there is a base. -/
def baseOf (base : Option File) (d : Device) : Except Errno (Option Base) :=
  match base with
  | none => .ok none
  | some f => (baseInit (.ok f) d).map some

theorem attached_eq (hinit : init (detached f) = (.ok (), d)) (hnone : d.base = none)
    (base : Option File) :
    attached f base = match baseOf base d with
      | .ok B => (.ok (), { d with base := B })
      | .error e => (.error e, d) := by
  cases base with
  | none =>
    change init (detached f) = (.ok (), { d with base := none })
    rw [hinit, ← hnone]
  | some b =>
    change attach (.ok b) (detached f) = match (baseInit (.ok b) d).map some with
      | .ok B => (.ok (), { d with base := B })
      | .error e => (.error e, d)
    unfold attach
    rw [bind_of_ok hinit, get_bind_apply]
    cases baseInit (.ok b) d <;> rfl

theorem baseOf_congr {d d' : Device} (hbits : d'.clusterBits = d.clusterBits)
    (hsize : d'.virtualSize = d.virtualSize) (base : Option File) :
    baseOf base d' = baseOf base d := by
  unfold baseOf baseInit baseInitQcow2
  rw [hbits, hsize]

theorem baseOf_coherent {base : Option File} {B : Option Base} (h : baseOf base d = .ok B)
    (b : Base)
    (hb : B = some b) : b.Coherent := by
  cases base with
  | none =>
    cases h
    cases hb
  | some f =>
    change (baseInit (.ok f) d).map some = .ok B at h
    cases hinit : baseInit (.ok f) d with
    | error e =>
      rw [hinit] at h
      cases h
    | ok b' =>
      rw [hinit] at h
      cases h
      cases hb
      exact baseInit_coherent hinit

theorem Opened.shows (h : Opened img d) {B : Option Base} (hB : ∀ b, B = some b → b.Coherent) :
    Shows z img.clusterBits ({ d with base := B }.clusterBytes z) { d with base := B } := by
  rw [← h.clusterBits]
  exact h.fresh.shows h.noHandler hB

theorem Opened.readAll_eq_iff {img' : Image} {d' : Device} (h : Opened img d) (h' : Opened img' d')
    (hbits : img'.clusterBits = img.clusterBits) {B : Option Base}
    (hB : ∀ b, B = some b → b.Coherent) :
    (∀ reads, { d with base := B }.InRange reads →
      readAll z reads { d' with base := B } = readAll z reads { d with base := B }) ↔
    ∀ o < img.virtualSize, shownByte img.clusterSize ({ d' with base := B }.clusterBytes z) o =
      shownByte img.clusterSize ({ d with base := B }.clusterBytes z) o := by
  have hshow := h.shows (z := z) hB
  have hshow' := h'.shows (z := z) hB
  have hlt : d.virtualSize < W64 := hshow.settled.virtualSize
  rw [← h.virtualSize, ← forall_readOf_iff]
  refine forall₂_congr fun reads hrange => ?_
  rw [hshow.readAll fun r hr => (hrange r hr).trans hlt.le,
    hshow'.readAll fun r hr => (hrange r hr).trans hlt.le, hbits]
  rfl

theorem imageOf_eq {hdr diskL1 : List UInt8} (hk : KernelReads f hdr diskL1)
    (h : openImage f = .ok img) : img = imageOf f hdr diskL1 := by
  have hslice : ∀ {off n x y}, f.readAt off n = some x → pread f off n = some y → y = x := by
    intro off n x y hx hy
    unfold File.readAt at hx
    split_ifs at hx
    rw [pread_slice hy]
    exact Option.some.inj hx
  unfold openImage at h
  rcases preadOr_cases f .header 0 headerSize with ⟨-, heq⟩ | ⟨hdr', hhdr, heq⟩
  · rw [heq] at h
    cases h
  · rw [heq] at h
    dsimp only [bind, Except.bind] at h
    rw [hslice hk.header hhdr] at h
    split_ifs at h
    rcases preadOr_cases f .l1Table (get64 hdr 24) (get32 hdr 32 * 8) with
      ⟨-, heq'⟩ | ⟨diskL1', hl1, heq'⟩
    · rw [heq'] at h
      cases h
    · rw [heq', hslice (File.kernelRead_eq_some.mp hk.l1).2 hl1] at h
      cases h
      rfl

theorem init_of_openImage (h : openImage f = .ok img) (hinit : init (detached f) = (.ok (), d)) :
    Opened img d := by
  obtain ⟨hdr, diskL1, hk, ho⟩ := (init_opened f).of_eq_ok hinit
  rw [imageOf_eq hk h]
  exact ho

theorem Written.init {virtualSize l1Offset l1Size : ℕ}
    (h : Written z g virtualSize l1Offset l1Size K w f) (hsize : virtualSize < 2 ^ 64)
    (hoff : l1Offset < 2 ^ 64) (hl1 : l1Size < 2 ^ 32) :
    ∃ d, init (detached f) = (.ok (), d) ∧
      Opened (writtenImage g virtualSize l1Offset l1Size w f) d := by
  obtain ⟨hdr, diskL1, hk, himg⟩ := h.kernelReads hsize hoff hl1
  have hspec := init_opened f
  unfold Meets at hspec
  cases hr : Device.init (detached f) with
  | mk r d =>
    rw [hr] at hspec
    cases r with
    | error e => exact (hspec hdr diskL1 hk).elim
    | ok a =>
      obtain ⟨hdr', diskL1', hk', ho⟩ := hspec
      obtain rfl : hdr' = hdr := Option.some.inj (hk'.header.symm.trans hk.header)
      obtain rfl : diskL1' = diskL1 := Option.some.inj (hk'.l1.symm.trans hk.l1)
      rw [himg] at ho
      exact ⟨d, rfl, ho⟩

/-- The table of the only cluster and its place. -/
def singleTable : ℕ := 2 ^ 36

/-- The tables of an image whose only cluster has entry `j` of table `i`. -/
def singleWork (g : Geometry) (i j : ℕ) : Work where
  src := File.empty 0 fun _ => none
  out := File.empty 0 fun _ => none
  allocOffset := 0
  l1Table := Function.update (fun _ => 0) i singleTable
  l2Tables := Function.update (fun _ _ => 0) i
    (Function.update (fun _ => 0) j (singleTable + g.clusterSize))

def singleFile (g : Geometry) (virtualSize i j : ℕ) (data : List UInt8) : File :=
  ((((File.empty 0 fun _ => none).put 0
    (newHeader g.clusterBits virtualSize headerSize (i + 1) 0)).put headerSize
    (tableBytes (i + 1) (singleWork g i j).l1Table)).put singleTable
    (l2Bytes g.l2Entries ((singleWork g i j).l2Tables i))).put (singleTable + g.clusterSize) data

theorem written_singleFile {virtualSize i j : ℕ} (hi : (i + 1) * 8 ≤ maxRw)
    (hdata : data.length = g.clusterSize) :
    Written z g virtualSize headerSize (i + 1) (setCell (fun _ _ => none) i j data)
      (singleWork g i j) (singleFile g virtualSize i j data) := by
  have hcs := g.le_clusterSize
  have hle := g.clusterSize_le
  have hheader : headerSize = 4096 := rfl
  have htable : singleTable = 2 ^ 36 := rfl
  have hmax : maxRw = 0x7ffff000 := rfl
  have hl1 := length_tableBytes (i + 1) (singleWork g i j).l1Table
  have hl2 := length_l2Bytes g ((singleWork g i j).l2Tables i)
  have hhdr := length_newHeader g.clusterBits virtualSize headerSize (i + 1) 0
  have hself : (singleWork g i j).l1Table i = singleTable := by
    change Function.update (fun _ => 0) i singleTable i = _
    rw [Function.update_self]
  have hother : ∀ k, (singleWork g i j).l1Table k ≠ 0 → k = i := by
    intro k hk
    change Function.update (fun _ => 0) i singleTable k ≠ 0 at hk
    by_contra hki
    rw [Function.update_of_ne hki] at hk
    exact hk rfl
  have hne : ∀ {bs : List UInt8} {n}, bs.length = n → 0 < n → bs ≠ [] :=
    fun hlen hpos => List.ne_nil_of_length_pos (by omega)
  have hreads : (singleFile g virtualSize i j data).Reads (singleTable + g.clusterSize) data :=
    File.reads_put (hne hdata (by omega))
  refine ⟨?_, ?_, hi, fun k hk h0 => ?_, fun k l data' hK => ?_, fun k l hK => ?_⟩
  · exact (((File.reads_put (hne hhdr (by omega))).put_of_disjoint (by omega)).put_of_disjoint
      (by omega)).put_of_disjoint (by omega)
  · exact ((File.reads_put (hne hl1 (by omega))).put_of_disjoint (by omega)).put_of_disjoint
      (by omega)
  · obtain rfl := hother k h0
    rw [hself]
    exact ⟨by omega, (File.reads_put (hne hl2 (by omega))).put_of_disjoint (by omega)⟩
  · rw [setCell, update_update] at hK
    split_ifs at hK with hkl
    cases hK
    obtain ⟨rfl, rfl⟩ := hkl
    rw [hself]
    refine ⟨by omega, singleTable + g.clusterSize, g.clusterSize, by omega, by omega, hdata,
      .inl ⟨?_, rfl, hreads⟩⟩
    change Function.update (fun _ _ => 0) k (Function.update (fun _ => 0) l _) k l = _
    rw [Function.update_self, Function.update_self]
  · rw [setCell, update_update] at hK
    change Function.update (fun _ _ => 0) i (Function.update (fun _ => 0) j _) k l = 0
    rw [update_update (fun _ _ => 0)]
    split_ifs at hK ⊢
    rfl

theorem lookup_eq {b : Base} (hq : b.isQcow2 = true) (hfile : b.file = img.f)
    (hl1 : b.l1Table = img.l1Table) (hsize : b.l1Size = img.l1Size)
    (hcs : b.clusterSize = img.clusterSize) (hn : b.l2Entries = img.l2Entries)
    (hreads : ∀ i < img.l1Size, img.l1Table i ≠ 0 → TableReads img i) (clusterSize c : ℕ) :
    b.lookup z clusterSize c = b.readEntry z clusterSize (entryAt img c) := by
  unfold Base.lookup entryAt
  rw [if_neg (by simp [hq]), hfile, hl1, hsize, hcs, hn, loadTable_eq hreads]

theorem Written.lookup {virtualSize l1Offset l1Size : ℕ}
    (h : Written z g virtualSize l1Offset l1Size K w f) (hsize : virtualSize < 2 ^ 64)
    (hoff : l1Offset < 2 ^ 64) (hl1 : l1Size < 2 ^ 32) (hbits : d.clusterBits = g.clusterBits)
    (hd : d.virtualSize = virtualSize) {c : ℕ} (hi : c / g.l2Entries % 2 ^ 32 < l1Size)
    (hK : K (c / g.l2Entries % 2 ^ 32) (c % g.l2Entries) = some data) :
    ∃ b, baseInit (.ok f) d = .ok b ∧ b.lookup z g.clusterSize c = .data data := by
  obtain ⟨hdr, diskL1, hk, himg⟩ := h.kernelReads hsize hoff hl1
  have hread := hk.header
  unfold File.readAt at hread
  split_ifs at hread with hle
  have hheader : headerSize = 4096 := rfl
  have hmagic : get64 (f.slice 0 8) 0 = magic := by
    rw [← hk.magic, ← Option.some.inj hread]
    change beNat (((f.slice 0 8).drop 0).take 8) = beNat (((f.slice 0 headerSize).drop 0).take 8)
    rw [take_drop_window (by omega), take_drop_window (by omega)]
  have hbits' : get32 hdr 12 = d.clusterBits := (congrArg Image.clusterBits himg).trans hbits.symm
  have hsize' : get64 hdr 16 = d.virtualSize := (congrArg Image.virtualSize himg).trans hd.symm
  have hfile : f.readAt 0 8 = some (f.slice 0 8) := if_pos (by omega)
  have hinit : baseInit (.ok f) d = .ok {
      file := f
      isQcow2 := true
      size := get64 hdr 16
      clusterBits := get32 hdr 12
      clusterSize := 2 ^ get32 hdr 12
      l2Entries := (2 ^ get32 hdr 12 - l2TrailerSize) / 8
      l1Table := fun i => get64 diskL1 (8 * i)
      l1Size := get32 hdr 32
      l1Offset := get64 hdr 24
      l2Cache := fun _ => ⟨0, false, false, 0, fun _ => 0⟩
      lruTick := 0 } := by
    change (if f.size = 0 then _ else _) = _
    rw [if_neg (by omega), hfile]
    change (if get64 (f.slice 0 8) 0 = magic then _ else _) = _
    rw [if_pos hmagic, hk.header]
    change baseInitQcow2 f hdr d = _
    unfold baseInitQcow2
    rw [if_neg (not_not.mpr hk.version), if_neg (not_not.mpr hbits'), if_neg (not_not.mpr hsize'),
      hk.l1]
  refine ⟨_, hinit, ?_⟩
  have hentries : (2 ^ get32 hdr 12 - l2TrailerSize) / 8 = g.l2Entries := by
    rw [hbits', hbits]
    rfl
  have hreads : ∀ i < (imageOf f hdr diskL1).l1Size, (imageOf f hdr diskL1).l1Table i ≠ 0 →
      TableReads (imageOf f hdr diskL1) i := by
    rw [himg]
    exact fun i hi h0 => h.tableReads hi h0
  obtain ⟨h0, p, n, hp, hdata⟩ := h.stored _ _ data hK
  rw [lookup_eq rfl rfl rfl rfl rfl (hentries.trans (l2Entries_eq
    (congrArg Image.clusterBits himg)).symm) hreads, himg, h.entryAt_eq,
    if_neg (not_or.mpr ⟨not_le.mpr hi, h0⟩), Base.readEntry, if_neg (hdata.entry hp).1]
  dsimp only
  rw [hdata.loadData]

theorem all_zero_iff {data : List UInt8} {n : ℕ} (hlen : data.length = n) :
    data.all (· == 0) = true ↔ data = List.replicate n 0 := by
  rw [List.eq_replicate_iff, List.all_eq_true]
  simp [hlen]

theorem lt_totalClusters (hsize : img.virtualSize + img.clusterSize ≤ W64)
    (hc : c * img.clusterSize < img.virtualSize) : c < img.totalClusters := by
  have hpos : 0 < img.clusterSize := Nat.two_pow_pos _
  unfold Image.totalClusters
  rw [Nat.mod_eq_of_lt (by omega), Nat.lt_iff_add_one_le, Nat.le_div_iff_mul_le hpos, Nat.add_mul]
  omega

theorem totalClusters_of_wrap (hvs : img.virtualSize < W64) (hcs : img.clusterSize ≤ W64)
    (hsize : W64 < img.virtualSize + img.clusterSize) : img.totalClusters = 0 := by
  unfold Image.totalClusters
  rw [Nat.mod_eq_sub_mod (by omega), Nat.mod_eq_of_lt (by omega)]
  exact Nat.div_eq_of_lt (by omega)

theorem Kept.ne_none_iff (h : Kept z img K img.totalClusters) (hcs : img.clusterSize ≤ 2 ^ 24)
    (hvs : img.virtualSize < W64) (hc : c * img.clusterSize < img.virtualSize)
    (h0 : entryAt img c ≠ 0) :
    K (c / img.l2Entries % 2 ^ 32) (c % img.l2Entries) ≠ none ↔
      img.virtualSize + img.clusterSize ≤ W64 ∧
        readEntry z img c (entryAt img c) ≠ .ok (List.replicate img.clusterSize 0) := by
  have hW : W64 = 2 ^ 64 := rfl
  constructor
  · intro hK
    obtain ⟨data, hdata⟩ := Option.ne_none_iff_exists'.mp hK
    obtain ⟨c', hc', h1, h2, -, hread, hne⟩ := h.sound _ _ data hdata
    constructor
    · by_contra hwrap
      rw [totalClusters_of_wrap hvs (by omega) (by omega)] at hc'
      omega
    · intro hzero
      have hload := loadData_of_readEntry (by omega) hread
      rw [entryAt_congr h1 h2, loadData_of_readEntry (by omega) hzero] at hload
      cases hload
      rw [(all_zero_iff List.length_replicate).mpr rfl] at hne
      cases hne
  · rintro ⟨hsize, hnz⟩
    obtain ⟨data, hread, hK⟩ := h.complete c (lt_totalClusters hsize hc) h0
    rw [hK]
    · exact Option.some_ne_none _
    · rw [Bool.eq_false_iff]
      intro hzero
      rw [all_zero_iff (length_of_readEntry hread)] at hzero
      exact hnz (hzero ▸ hread)

/-- The image `f` and what a compaction has made of it. -/
structure Compacted (z : Codec) (g : Geometry) (f f' : File) (img : Image) (d d' : Device)
    (K : ℕ → ℕ → Option (List UInt8)) : Prop where
  openImage : openImage f = .ok img
  bits : img.clusterBits = g.clusterBits
  init : init (detached f) = (.ok (), d)
  opened : Opened img d
  tables : ∀ i < img.l1Size, img.l1Table i ≠ 0 → TableReads img i
  kept : Kept z img K img.totalClusters
  init' : Device.init (detached f') = (.ok (), d')
  opened' : ∃ img', Opened img' d' ∧ img'.clusterBits = img.clusterBits ∧
    img'.virtualSize = img.virtualSize
  shows' : ∀ base c, { d' with base := base }.clusterBytes z c =
    match K (c / img.l2Entries % 2 ^ 32) (c % img.l2Entries) with
    | some data => some data
    | none => (lookupBase z base img.clusterSize c).bytes img.clusterSize

theorem compacted {out : File} (hcap : out.capacity ≤ 2 ^ 62)
    (hok : cmdCompact z (start f out) = (.ok (), w)) (hinit : init (detached f) = (.ok (), d))
    (hl1 : headerSize ≤ d.l1Offset) :
    ∃ g img d' K, Compacted z g f w.src img d d' K := by
  obtain ⟨img, himg⟩ : ∃ img, openImage f = .ok img := by
    cases himg : openImage f with
    | ok img => exact ⟨img, rfl⟩
    | error e =>
      have herr : Meets (cmdCompact z) (start f out) (fun _ _ => False) fun _ _ => True := by
        unfold cmdCompact
        rw [meets_bind, meets_get, meets_bind]
        change Meets (ofExcept (openImage f)) _ _ _
        rw [himg]
        trivial
      exact (herr.of_eq_ok hok).elim
  have ho := init_of_openImage himg hinit
  have hlower := ho.fresh.lower
  have hupper := ho.upper
  rw [ho.clusterBits] at hlower hupper
  rw [ho.l1Offset] at hl1
  let g : Geometry := ⟨img.clusterBits, hlower, hupper⟩
  have hn : img.l2Entries = g.l2Entries := l2Entries_eq (g := g) rfl
  obtain ⟨htables, K, w₀, hw, hkept⟩ :=
    (cmdCompact_written (z := z) (g := g) himg rfl hl1 hcap).of_eq_ok hok
  obtain ⟨hdr, diskL1, hk, -⟩ := (init_opened f).of_eq_ok hinit
  have himage := imageOf_eq hk himg
  have hvs : img.virtualSize < 2 ^ 64 := by
    rw [himage]
    exact getBE_lt 8 hdr 16
  have hoff : img.l1Offset < 2 ^ 64 := by
    rw [himage]
    exact getBE_lt 8 hdr 24
  have hsize : img.l1Size < 2 ^ 32 := by
    rw [himage]
    exact getBE_lt 4 hdr 32
  obtain ⟨d', hinit', ho'⟩ := hw.init hvs hoff hsize
  have hin : ∀ i j, K i j ≠ none → i < img.l1Size := by
    intro i j hK
    obtain ⟨data, hdata⟩ := Option.ne_none_iff_exists'.mp hK
    obtain ⟨c, -, h1, -, h0, -, -⟩ := hkept.sound i j data hdata
    by_contra hle
    refine h0 (if_pos (.inl ?_))
    rw [h1]
    omega
  refine ⟨g, img, d', K, himg, rfl, hinit, ho, htables, hkept, hinit', ⟨_, ho', rfl, rfl⟩, ?_⟩
  intro base c
  rw [hn]
  exact hw.shows hin ho' base c

namespace Compacted

variable {f' : File} {d' : Device} (h : Compacted z g f f' img d d' K)
include h

theorem attached_pair {base : Option File} {B : Option Base} (hB : baseOf base d = .ok B) :
    attached f base = (.ok (), { d with base := B }) ∧
      attached f' base = (.ok (), { d' with base := B }) := by
  obtain ⟨img', ho', hbits, hsize⟩ := h.opened'
  have hB' : baseOf base d' = .ok B := by
    rw [← hB]
    apply baseOf_congr
    · rw [ho'.clusterBits, hbits, h.opened.clusterBits]
    · rw [ho'.virtualSize, hsize, h.opened.virtualSize]
  rw [attached_eq h.init h.opened.base, hB, attached_eq h.init' ho'.base, hB']
  exact ⟨rfl, rfl⟩

theorem clusterBytes_eq (base : Option Base)
    (hkept : entryAt img c ≠ 0 → K (c / img.l2Entries % 2 ^ 32) (c % img.l2Entries) ≠ none) :
    { d' with base := base }.clusterBytes z c = { d with base := base }.clusterBytes z c := by
  have hcs : img.clusterSize ≤ 2 ^ 24 := by
    rw [show img.clusterSize = g.clusterSize from congrArg (2 ^ ·) h.bits]
    exact g.clusterSize_le
  rw [h.shows', h.opened.clusterBytes h.tables]
  cases hK : K (c / img.l2Entries % 2 ^ 32) (c % img.l2Entries) with
  | none =>
    rw [if_pos]
    by_contra h0
    exact hkept h0 hK
  | some data =>
    obtain ⟨c', -, h1, h2, h0, hread, -⟩ := h.kept.sound _ _ data hK
    rw [entryAt_congr h1 h2] at h0 hread
    rw [if_neg h0, loadData_of_readEntry (by omega) hread]

theorem sameView (hkept : ∀ c, c * img.clusterSize < img.virtualSize → entryAt img c ≠ 0 →
    K (c / img.l2Entries % 2 ^ 32) (c % img.l2Entries) ≠ none) : SameView z f f' := by
  obtain ⟨img', ho', hbits, hsize⟩ := h.opened'
  intro base d₁ hd₁
  cases hB : baseOf base d with
  | error e =>
    rw [attached_eq h.init h.opened.base, hB] at hd₁
    cases hd₁
  | ok B =>
    obtain ⟨hf, hf'⟩ := h.attached_pair hB
    rw [hf] at hd₁
    cases hd₁
    refine ⟨_, hf', ?_, (h.opened.readAll_eq_iff ho' hbits (baseOf_coherent hB)).mpr ?_⟩
    · exact ho'.virtualSize.trans (hsize.trans h.opened.virtualSize.symm)
    · intro o ho
      have hle : o / img.clusterSize * img.clusterSize ≤ o := Nat.div_mul_le_self _ _
      unfold shownByte
      rw [h.clusterBytes_eq B (hkept _ (by omega))]

theorem kept_of_sameView (hview : SameView z f f') (hc : c * img.clusterSize < img.virtualSize)
    (h0 : entryAt img c ≠ 0) : K (c / img.l2Entries % 2 ^ 32) (c % img.l2Entries) ≠ none := by
  intro hK
  obtain ⟨img', ho', hbits, hsize⟩ := h.opened'
  have hn := l2Entries_eq h.bits
  have hcs : img.clusterSize = g.clusterSize := congrArg (2 ^ ·) h.bits
  have hi : c / img.l2Entries % 2 ^ 32 < img.l1Size := by
    by_contra hle
    exact h0 (if_pos (.inl (Nat.not_lt.mp hle)))
  obtain ⟨hdr, diskL1, hk, -⟩ := (init_opened f).of_eq_ok h.init
  have hl1 : img.l1Size * 8 ≤ maxRw := by
    rw [imageOf_eq hk h.openImage]
    exact (File.kernelRead_eq_some.mp hk.l1).1
  have hmax : maxRw = 0x7ffff000 := rfl
  have hvs : img.virtualSize < 2 ^ 64 := h.opened.virtualSize ▸ h.opened.fresh.virtualSize
  -- a base that has another byte there
  let x := ((loadData z img.f img.clusterSize (entryAt img c)).getD []).getD 0 0
  let y := List.replicate g.clusterSize (x + 1)
  have hw : Written z g img.virtualSize headerSize (c / g.l2Entries % 2 ^ 32 + 1)
      (setCell (fun _ _ => none) (c / g.l2Entries % 2 ^ 32) (c % g.l2Entries) y)
      (singleWork g (c / g.l2Entries % 2 ^ 32) (c % g.l2Entries))
      (singleFile g img.virtualSize (c / g.l2Entries % 2 ^ 32) (c % g.l2Entries) y) :=
    written_singleFile (by rw [← hn]; omega) List.length_replicate
  have hcell : setCell (fun _ _ => none) (c / g.l2Entries % 2 ^ 32) (c % g.l2Entries) y
      (c / g.l2Entries % 2 ^ 32) (c % g.l2Entries) = some y := by
    rw [setCell, update_update, if_pos ⟨rfl, rfl⟩]
  rw [hn] at hi
  obtain ⟨b, hb, hlookup⟩ := hw.lookup hvs (by norm_num [headerSize]) (by omega)
    (h.opened.clusterBits.trans h.bits) h.opened.virtualSize (by omega) hcell
  have hB : baseOf (some (singleFile g img.virtualSize (c / g.l2Entries % 2 ^ 32)
      (c % g.l2Entries) y)) d = .ok (some b) := by
    change (baseInit _ d).map some = _
    rw [hb]
    rfl
  obtain ⟨hf, hf'⟩ := h.attached_pair hB
  obtain ⟨d₂, hd₂, -, hreads⟩ := hview _ _ hf
  rw [hf'] at hd₂
  cases hd₂
  have hbyte := (h.opened.readAll_eq_iff ho' hbits (baseOf_coherent hB)).mp hreads
    (c * img.clusterSize) hc
  have hpos : 0 < img.clusterSize := Nat.two_pow_pos _
  unfold shownByte at hbyte
  rw [Nat.mul_div_cancel _ hpos, h.shows', hK, h.opened.clusterBytes h.tables, if_neg h0] at hbyte
  change ((b.lookup z img.clusterSize c).bytes img.clusterSize).map _ = _ at hbyte
  rw [hcs, hlookup, ← hcs] at hbyte
  change some ((List.replicate g.clusterSize (x + 1)).getD _ 0) = _ at hbyte
  cases hload : loadData z img.f img.clusterSize (entryAt img c) with
  | none =>
    rw [hload] at hbyte
    cases hbyte
  | some y =>
    have hx : x = y.getD 0 0 := by simp [x, hload]
    rw [hload, Option.map_some, Nat.mul_mod_left, ← hx] at hbyte
    have hone : x + 1 = x := by
      have := Option.some.inj hbyte
      rwa [List.getD_replicate _ (hcs ▸ hpos)] at this
    exact absurd (add_eq_left.mp hone) (by decide)

end Compacted

/-- When `lbdctl compact` fails, the image is as it was. When it succeeds, the guest reads the same
over every base exactly if every cluster that has data has some that is not zero, and if the
number of clusters does not wrap. -/
theorem compact_sameView_iff {out : File} (hcap : out.capacity ≤ 2 ^ 62) :
    (∀ e w, cmdCompact z (start f out) = (.error e, w) → w.src = f) ∧
      ∀ w d, cmdCompact z (start f out) = (.ok (), w) → init (detached f) = (.ok (), d) →
        headerSize ≤ d.l1Offset → (SameView z f w.src ↔ NoZeroClusters z f) := by
  refine ⟨fun e w herr => (failsClean_cmdCompact z (start f out)).of_eq_error herr, ?_⟩
  intro w d hok hinit hl1
  obtain ⟨g, img, d', K, h⟩ := compacted hcap hok hinit hl1
  have hcs : img.clusterSize ≤ 2 ^ 24 := by
    rw [show img.clusterSize = g.clusterSize from congrArg (2 ^ ·) h.bits]
    exact g.clusterSize_le
  have hvs : img.virtualSize < W64 := h.opened.virtualSize ▸ h.opened.fresh.virtualSize
  constructor
  · intro hview img' himg' c hc h0
    obtain rfl : img = img' := Except.ok.inj (h.openImage.symm.trans himg')
    exact (h.kept.ne_none_iff hcs hvs hc h0).mp (h.kept_of_sameView hview hc h0)
  · intro hkeeps
    apply h.sameView
    exact fun c hc h0 => (h.kept.ne_none_iff hcs hvs hc h0).mpr (hkeeps img h.openImage c hc h0)

section Sample

theorem pread_of_readAt (h : f.readAt off n = some data) (hoff : off < 2 ^ 63) (hn : n ≤ maxRw) :
    pread f off n = some data := by
  have hlen := length_of_readAt h
  unfold pread File.readFull
  rw [if_neg (not_lt.mpr hn), if_neg (not_le.mpr hoff)]
  split_ifs with h0
  · rw [h0, List.length_eq_zero_iff] at hlen
    rw [hlen]
  · exact h

theorem Written.openImage {virtualSize l1Offset l1Size : ℕ}
    (h : Written z g virtualSize l1Offset l1Size K w f) (hsize : virtualSize < 2 ^ 64)
    (hoff : l1Offset < 2 ^ 63) :
    openImage f = .ok (writtenImage g virtualSize l1Offset l1Size w f) := by
  have hmax : maxRw = 0x7ffff000 := rfl
  have hl1 := h.l1_le
  obtain ⟨hdr, diskL1, hk, himg⟩ := h.kernelReads hsize (by omega) (by omega)
  have hread := (File.kernelRead_eq_some.mp hk.l1).2
  have hupper := hk.upper
  have hoff' : get64 hdr 24 = l1Offset := congrArg Image.l1Offset himg
  have hl1' : get32 hdr 32 = l1Size := congrArg Image.l1Size himg
  unfold Ctl.openImage
  rw [preadOr_eq_ok.mpr (pread_of_readAt hk.header (by norm_num) (by norm_num [headerSize, maxRw]))]
  dsimp only [bind, Except.bind]
  rw [if_neg (not_not.mpr hk.magic), if_neg (by omega),
    preadOr_eq_ok.mpr (pread_of_readAt hread (by omega) (by omega)), ← himg]
  rfl

section Room

variable {lo l1Size : ℕ}

/-- What a cluster takes at most: its data and a new table. -/
def clusterCost (g : Geometry) : ℕ := 2 * g.clusterSize + 4096

theorem writeL2_roomy (h : Packed z g lo K w) (hr : Roomy 0 w) (i : ℕ) {f : File}
    (hf : f.NoFaults) (hcap : f.capacity = w.out.capacity) :
    Meets (writeL2 g.l2Entries i) { w with out := f }
      (fun _ w' => ∃ f', w' = { w with out := f' } ∧ f'.NoFaults ∧
        f'.capacity = w.out.capacity) fun _ _ => False := by
  have hmax : maxRw = 0x7ffff000 := rfl
  have hlen := length_l2Bytes g (w.l2Tables i)
  have hcs := g.clusterSize_le
  have hroom := hr.room
  unfold writeL2
  rw [meets_bind, meets_get]
  apply meets_ite
  · exact fun _ => ⟨f, rfl, hf, hcap⟩
  · intro h0
    have htable := h.table i h0
    apply (meets_pwrite_roomy hf (by dsimp only; omega) (by dsimp only; omega)).post
    rintro _ _ ⟨f', rfl, hf', hcap'⟩
    exact ⟨f', rfl, hf', hcap'.trans hcap⟩

theorem writeMeta_roomy {virtualSize l1Offset : ℕ} (h : Packed z g lo K w) (hr : Roomy 0 w)
    (hl1 : headerSize ≤ l1Offset) (hlo : l1Offset + l1Size * 8 ≤ lo) (hmax : l1Size * 8 ≤ maxRw) :
    Meets (writeMeta g.clusterBits g.l2Entries virtualSize l1Offset l1Size) w (fun _ _ => True)
      fun _ _ => False := by
  have hroom := hr.room
  have hle := h.lo_le
  have hhdr : headerSize ≤ maxRw := by norm_num [headerSize, maxRw]
  unfold writeMeta
  rw [meets_bind]
  refine (meets_forM_range (fun _ (w' : Work) => ∃ f, w' = { w with out := f } ∧ f.NoFaults ∧
    f.capacity = w.out.capacity) ⟨w.out, rfl, hr.noFaults, rfl⟩ ?_).post ?_
  · rintro k - _ ⟨f, rfl, hf, hcap⟩
    exact writeL2_roomy h hr k hf hcap
  · intro _ w' hw'
    have halloc : w'.allocOffset = w.allocOffset := by
      obtain ⟨f, rfl, -⟩ := hw'
      rfl
    have hlen := length_newHeader g.clusterBits virtualSize l1Offset l1Size w.allocOffset
    have hl1len := length_tableBytes l1Size w.l1Table
    rw [meets_bind, meets_get, halloc]
    generalize newHeader g.clusterBits virtualSize l1Offset l1Size w.allocOffset = hdr at hlen ⊢
    obtain ⟨f, rfl, hf, hcap⟩ := hw'
    simp only [meets_bind]
    apply (meets_pwrite_roomy hf (by dsimp only; omega) (by omega)).post
    rintro _ _ ⟨f₁, rfl, hf₁, hcap₁⟩
    dsimp only at hcap₁
    apply (meets_pwrite_roomy hf₁ (by dsimp only; omega) (by omega)).post
    rintro _ _ ⟨f₂, rfl, -, -⟩
    simp only [meets_attempt, meets_pure]
    exact meets_of_forall (fun _ _ => trivial) fun _ _ => trivial

theorem reserve_roomy {clusterSize l1Offset m : ℕ} (hf : w.out.NoFaults)
    (hcap : w.out.capacity ≤ 2 ^ 62)
    (hroom : alignUp clusterSize (l1Offset + l1Size * 8) + m ≤ w.out.capacity) :
    Meets (reserve clusterSize l1Offset l1Size) w (fun _ w' => w'.src = w.src ∧ Roomy m w')
      fun _ _ => False := by
  unfold reserve createOut
  generalize alignUp clusterSize (l1Offset + l1Size * 8) = a at hroom
  simp only [meets_bind, meets_modify]
  have htrunc : ftruncate a { w with out := w.out.truncate 0 } =
      (.ok (), { w with out := (w.out.truncate 0).truncate a }) := by
    unfold ftruncate
    exact if_neg (not_or.mpr ⟨by omega, not_lt.mpr ((Nat.le_add_right a m).trans hroom)⟩)
  apply meets_of_ok htrunc
  exact ⟨rfl, hf, hroom⟩

theorem compactCluster_roomy {l2 : ℕ → ℕ → ℕ} {c m : ℕ} {o : Option (List UInt8)}
    (hbits : img.clusterBits = g.clusterBits) (hread : readCluster z img l2 c = .ok o)
    (hlen : ∀ data, o = some data → data.length = g.clusterSize) (hp : Packed z g lo K w)
    (hr : Roomy (clusterCost g + m) w) :
    Meets (compactCluster z img l2 c) w (fun _ w' => (∃ K', Packed z g lo K' w') ∧ Roomy m w')
      fun _ _ => False := by
  have hcs : img.clusterSize = g.clusterSize := congrArg (2 ^ ·) hbits
  have hmax : maxRw = 0x7ffff000 := rfl
  have hle := g.clusterSize_le
  have hkeep : (∃ K', Packed z g lo K' w) ∧ Roomy m w := ⟨⟨K, hp⟩, hr.mono (by omega)⟩
  unfold compactCluster
  rw [meets_bind, hread, meets_ofExcept_ok, hcs, l2Entries_eq hbits]
  cases o with
  | none => exact hkeep
  | some data =>
    have hdata := hlen data rfl
    refine meets_ite (fun _ => hkeep) fun _ => ?_
    exact ((hp.storeCluster hdata).and (storeCluster_roomy hdata (by omega) hr)).imp
      (fun _ _ h => ⟨⟨_, h.1⟩, h.2⟩) fun _ _ he => he.2

/-- `compact` succeeds on an image whose clusters can be read, if the output has room. -/
theorem cmdCompact_ok {out : File} {l2 : ℕ → ℕ → ℕ} (himg : openImage f = .ok img)
    (hbits : img.clusterBits = g.clusterBits) (hl2 : loadTables img img.l1Size = .ok l2)
    (hread : ∀ c < img.totalClusters, ∃ o, readCluster z img l2 c = .ok o ∧
      ∀ data, o = some data → data.length = g.clusterSize)
    (hnf : out.NoFaults) (hout : out.capacity ≤ 2 ^ 62) (hoff : headerSize ≤ img.l1Offset)
    (hmax : img.l1Size * 8 ≤ maxRw)
    (hroom : alignUp g.clusterSize (img.l1Offset + img.l1Size * 8) +
      img.totalClusters * clusterCost g ≤ out.capacity) :
    ∃ w, cmdCompact z (start f out) = (.ok (), w) := by
  suffices hmeets : Meets (cmdCompact z) (start f out) (fun _ _ => True) fun _ _ => False by
    obtain ⟨_, w, hw, -⟩ := hmeets.exists_ok
    exact ⟨w, hw⟩
  have hcs : img.clusterSize = g.clusterSize := congrArg (2 ^ ·) hbits
  have hle := le_alignUp' (Nat.two_pow_pos g.clusterBits) (img.l1Offset + img.l1Size * 8)
  change _ ≤ alignUp g.clusterSize _ at hle
  have hreserve : Meets (reserve g.clusterSize img.l1Offset img.l1Size) (start f out) _ _ :=
    (packed_reserve (z := z) (g := g) hoff hout).and
      (reserve_roomy (w := start f out) hnf hout hroom)
  unfold cmdCompact
  simp only [meets_bind, meets_get, meets_modify]
  change Meets (ofExcept (openImage f)) _ _ _
  rw [himg, meets_ofExcept_ok, hl2, meets_ofExcept_ok, hcs]
  apply hreserve.imp _ fun _ _ he => he.2
  rintro _ w₀ ⟨hpacked, -, hroomy⟩
  generalize alignUp g.clusterSize (img.l1Offset + img.l1Size * 8) = lo at hpacked hle
  -- the invariant keeps room for the clusters that are still to come
  refine Meets.post (meets_forM_range (fun k w => (∃ K, Packed z g lo K w) ∧
    Roomy ((img.totalClusters - k) * clusterCost g) w) ⟨⟨_, hpacked⟩, hroomy⟩ ?_) ?_
  · rintro k hk w ⟨⟨K, hp⟩, hr⟩
    obtain ⟨o, hok, hlen⟩ := hread k hk
    have hsub : img.totalClusters - k = 1 + (img.totalClusters - (k + 1)) := by omega
    rw [hsub, Nat.add_mul, Nat.one_mul] at hr
    exact compactCluster_roomy hbits hok hlen hp hr
  · rintro _ w ⟨⟨K, hp⟩, hr⟩
    rw [hbits, l2Entries_eq hbits]
    exact (writeMeta_roomy hp (hr.mono (Nat.zero_le _)) hoff hle hmax).post fun _ _ _ => trivial

end Room

/-- An image of one cluster, which is filled with the byte `b`. -/
def filledFile (b : UInt8) : File :=
  singleFile convertGeometry 65536 0 0 (List.replicate convertGeometry.clusterSize b)

def filledImage (b : UInt8) : Image :=
  writtenImage convertGeometry 65536 headerSize 1 (singleWork convertGeometry 0 0) (filledFile b)

theorem written_filledFile (z : Codec) (b : UInt8) : Written z convertGeometry 65536 headerSize 1
    (setCell (fun _ _ => none) 0 0 (List.replicate convertGeometry.clusterSize b))
    (singleWork convertGeometry 0 0) (filledFile b) :=
  written_singleFile (by norm_num [maxRw]) List.length_replicate

theorem openImage_filledFile (b : UInt8) : openImage (filledFile b) = .ok (filledImage b) :=
  (written_filledFile Codec.none b).openImage (by norm_num) (by norm_num [headerSize])

theorem entryAt_filledImage (b : UInt8) :
    entryAt (filledImage b) 0 = singleTable + convertGeometry.clusterSize := by
  have hne : singleTable ≠ 0 := by norm_num [singleTable]
  have hl1 : (singleWork convertGeometry 0 0).l1Table 0 = singleTable := by
    change Function.update (fun _ => 0) 0 singleTable 0 = _
    rw [Function.update_self]
  have hl2 : (singleWork convertGeometry 0 0).l2Tables 0 0 =
      singleTable + convertGeometry.clusterSize :=
    (update_update (fun _ _ => 0) 0 0 _ 0 0).trans (if_pos ⟨rfl, rfl⟩)
  unfold filledImage
  rw [(written_filledFile Codec.none b).entryAt_eq, Nat.zero_div, Nat.zero_mod, Nat.zero_mod, hl1, hl2,
    if_neg (by omega)]

theorem readEntry_filledImage (z : Codec) (b : UInt8) :
    readEntry z (filledImage b) 0 (entryAt (filledImage b) 0) =
      .ok (List.replicate convertGeometry.clusterSize b) := by
  have hcs : convertGeometry.clusterSize = 65536 := rfl
  have htable : singleTable = 2 ^ 36 := rfl
  have hreads : (filledFile b).Reads (singleTable + convertGeometry.clusterSize)
      (List.replicate convertGeometry.clusterSize b) :=
    File.reads_put (List.ne_nil_of_length_pos (by rw [List.length_replicate]; omega))
  rw [entryAt_filledImage, readEntry, if_neg (not_isCompressed_raw (by omega)),
    physOffset_raw (by omega)]
  have hmax : convertGeometry.clusterSize ≤ maxRw := by
    unfold maxRw
    omega
  exact preadOr_eq_ok.mpr (pread_of_reads hreads (by omega) List.length_replicate hmax)

/-- The temporary file. -/
def emptyOut : File := File.empty (2 ^ 20) fun _ => none

theorem totalClusters_filledImage (b : UInt8) : (filledImage b).totalClusters = 1 := by
  have hcs : (filledImage b).clusterSize = 65536 := rfl
  have hvs : (filledImage b).virtualSize = 65536 := rfl
  unfold Image.totalClusters
  rw [hcs, hvs]
  norm_num [W64]

theorem compacts_filledFile (z : Codec) (b : UInt8) :
    ∃ w, cmdCompact z (start (filledFile b) emptyOut) = (.ok (), w) := by
  have htables := fun i (hi : i < 1) h0 => (written_filledFile z b).tableReads hi h0
  obtain ⟨l2, hl2, hl⟩ := @loadTables_of_reads (filledImage b) (show 16 < 32 by decide)
    (fun hb => absurd (show 16 ≤ 2 from hb) (by decide)) htables
  have hn : (filledImage b).l2Entries ≠ 0 := by
    rw [l2Entries_eq (g := convertGeometry) rfl]
    exact convertGeometry.l2Entries_pos.ne'
  have hentry := entryAt_filledImage b
  have htable : singleTable = 2 ^ 36 := rfl
  have hroom : alignUp convertGeometry.clusterSize (headerSize + 1 * 8) +
      1 * clusterCost convertGeometry ≤ emptyOut.capacity := by decide
  refine cmdCompact_ok (g := convertGeometry) (openImage_filledFile b) rfl hl2 ?_ (fun _ => rfl)
    (by decide) le_rfl (show 1 * 8 ≤ maxRw by decide) ?_
  · intro c hc
    obtain rfl : c = 0 := by
      rw [totalClusters_filledImage] at hc
      omega
    refine ⟨some (List.replicate convertGeometry.clusterSize b), ?_, fun data hdata => ?_⟩
    · rw [readCluster_eq hn hl, if_neg (by omega), readEntry_filledImage]
      rfl
    · rw [← Option.some.inj hdata]
      exact List.length_replicate
  · rw [totalClusters_filledImage]
    exact hroom

theorem init_filledFile (b : UInt8) :
    ∃ d, init (detached (filledFile b)) = (.ok (), d) ∧ headerSize ≤ d.l1Offset := by
  obtain ⟨d, hinit, ho⟩ := (written_filledFile Codec.none b).init (by norm_num)
    (by norm_num [headerSize]) (by norm_num)
  exact ⟨d, hinit, ho.l1Offset.ge⟩

theorem noZeroClusters_ones (z : Codec) : NoZeroClusters z (filledFile 1) := by
  intro img himg c hc _
  obtain rfl : filledImage 1 = img := Except.ok.inj ((openImage_filledFile 1).symm.trans himg)
  have hcs : (filledImage 1).clusterSize = 65536 := rfl
  have hvs : (filledImage 1).virtualSize = 65536 := rfl
  rw [hcs, hvs] at hc
  obtain rfl : c = 0 := by omega
  refine ⟨by rw [hcs, hvs]; decide, fun heq => ?_⟩
  rw [readEntry_filledImage] at heq
  have hpos : convertGeometry.clusterSize ≠ 0 := (Nat.two_pow_pos _).ne'
  exact absurd ((List.replicate_right_inj hpos).mp (Except.ok.inj heq)) (by decide)

/-- A cluster of ones is kept. -/
theorem compact_ones_sameView :
    ∃ w, cmdCompact Codec.none (start (filledFile 1) emptyOut) = (.ok (), w) ∧
      SameView Codec.none (filledFile 1) w.src ∧ NoZeroClusters Codec.none (filledFile 1) := by
  obtain ⟨w, hok⟩ := compacts_filledFile Codec.none 1
  obtain ⟨d, hinit, hl1⟩ := init_filledFile 1
  have hcap : emptyOut.capacity ≤ 2 ^ 62 := by decide
  have hones := noZeroClusters_ones Codec.none
  exact ⟨w, hok, ((compact_sameView_iff hcap).2 w d hok hinit hl1).mpr hones, hones⟩

/-- A base shows up in the place of a cluster of zeros. -/
theorem zero_cluster_lost :
    ∃ w, cmdCompact Codec.none (start (filledFile 0) emptyOut) = (.ok (), w) ∧
      ¬ SameView Codec.none (filledFile 0) w.src := by
  obtain ⟨w, hok⟩ := compacts_filledFile Codec.none 0
  obtain ⟨d, hinit, hl1⟩ := init_filledFile 0
  refine ⟨w, hok, fun hview => ?_⟩
  obtain ⟨g, img, d', K, h⟩ := compacted (by decide) hok hinit hl1
  obtain rfl : img = filledImage 0 :=
    Except.ok.inj (h.openImage.symm.trans (openImage_filledFile 0))
  have hentry := entryAt_filledImage 0
  have htable : singleTable = 2 ^ 36 := rfl
  have hc : 0 * (filledImage 0).clusterSize < (filledImage 0).virtualSize := by decide
  have hkept := h.kept_of_sameView hview hc (by omega)
  rw [h.kept.ne_none_iff (by decide) (by decide) hc (by omega)] at hkept
  exact hkept.2 (readEntry_filledImage Codec.none 0)

end Sample

end Lbd.QCow2.Ctl
