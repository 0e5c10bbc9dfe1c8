import Lbd.QCow2.Extract

/-!
# `lbdctl convert`

`convert` makes an image of a flat file. It succeeds if the output has room, and both the kernel
and `extract` read the file's bytes from the image.
-/

namespace Lbd.QCow2.Ctl

open Act Device

variable {z : Codec} {g : Geometry} {src out : File} {w : Work} {lo k l1Size : ℕ}
  {K : ℕ → ℕ → Option (List UInt8)}

/-- A cluster of the source file. -/
def sourceCluster (g : Geometry) (src : File) (c : ℕ) : List UInt8 :=
  src.slice (c * g.clusterSize) g.clusterSize

theorem length_sourceCluster (g : Geometry) (src : File) (c : ℕ) :
    (sourceCluster g src c).length = g.clusterSize := length_window

theorem flat_sourceCluster (g : Geometry) (src : File) :
    flat g.clusterSize (sourceCluster g src) = src.byte := by
  funext a
  have hmod : a % g.clusterSize < g.clusterSize := Nat.mod_lt a (Nat.two_pow_pos g.clusterBits)
  simp only [flat, sourceCluster, window, List.getD_eq_getElem?_getD, List.getElem?_map,
    List.getElem?_range hmod, Option.map_some, Option.getD_some, Nat.div_add_mod']

/-- The clusters below `k` that are not zero, under their L1 and L2 indices. -/
def sourceCells (g : Geometry) (src : File) (k i j : ℕ) : Option (List UInt8) :=
  let c := i * g.l2Entries + j
  if j < g.l2Entries ∧ c < k ∧ (sourceCluster g src c).all (· == 0) = false then
    some (sourceCluster g src c)
  else none

theorem sourceCells_zero (g : Geometry) (src : File) : sourceCells g src 0 = fun _ _ => none := by
  funext i j
  exact if_neg (by omega)

theorem sourceCells_skip (h : (sourceCluster g src k).all (· == 0) = true) :
    sourceCells g src (k + 1) = sourceCells g src k := by
  funext i j
  unfold sourceCells
  dsimp only
  by_cases hk : i * g.l2Entries + j = k
  · rw [hk, if_neg (by simp [h]), if_neg (by omega)]
  · refine if_congr ?_ rfl rfl
    constructor <;> rintro ⟨hj, hlt, hne⟩ <;> exact ⟨hj, by omega, hne⟩

theorem cell_eq_iff {i j : ℕ} (hj : j < g.l2Entries) :
    i * g.l2Entries + j = k ↔ i = k / g.l2Entries ∧ j = k % g.l2Entries := by
  constructor
  · rintro rfl
    refine ⟨?_, by rw [Nat.mul_add_mod', Nat.mod_eq_of_lt hj]⟩
    rw [Nat.mul_comm, Nat.mul_add_div g.l2Entries_pos, Nat.div_eq_of_lt hj, Nat.add_zero]
  · rintro ⟨rfl, rfl⟩
    exact Nat.div_add_mod' k _

theorem sourceCells_store (h : (sourceCluster g src k).all (· == 0) = false)
    (hk : k / g.l2Entries < 2 ^ 32) :
    sourceCells g src (k + 1) = setCell (sourceCells g src k)
      (k / g.l2Entries % 2 ^ 32) (k % g.l2Entries) (sourceCluster g src k) := by
  have hmod := Nat.mod_lt k g.l2Entries_pos
  funext i j
  rw [setCell, update_update, Nat.mod_eq_of_lt hk]
  unfold sourceCells
  dsimp only
  by_cases hj : j < g.l2Entries
  · by_cases hij : i * g.l2Entries + j = k
    · rw [if_pos ((cell_eq_iff hj).mp hij), hij, if_pos ⟨hj, Nat.lt_succ_self k, h⟩]
    · rw [if_neg fun heq => hij ((cell_eq_iff hj).mpr heq)]
      refine if_congr ?_ rfl rfl
      constructor <;> rintro ⟨_, hlt, hne⟩ <;> exact ⟨hj, by omega, hne⟩
  · have hne : ¬ (i = k / g.l2Entries ∧ j = k % g.l2Entries) := fun heq => hj (by omega)
    rw [if_neg fun hpos => hj hpos.1, if_neg hne, if_neg fun hpos => hj hpos.1]

/-- Room for every cluster of a file of `n` bytes. -/
def convertRoom (n : ℕ) : ℕ :=
  alignUp convertGeometry.clusterSize
      (headerSize + newL1Size n convertGeometry.clusterSize * 8) +
    (n + convertGeometry.clusterSize - 1) / convertGeometry.clusterSize *
      clusterCost convertGeometry

/-- What holds before cluster `k` of the source. -/
structure Converting (z : Codec) (g : Geometry) (source : File) (lo k : ℕ) (w : Work) : Prop where
  src : w.src = source
  packed : Packed z g lo (sourceCells g source k) w

theorem Converting.skip (h : Converting z g src lo k w)
    (hzero : (sourceCluster g src k).all (· == 0) = true) : Converting z g src lo (k + 1) w :=
  ⟨h.src, by rw [sourceCells_skip hzero]; exact h.packed⟩

theorem Converting.store (h : Converting z g src lo k w)
    (hne : (sourceCluster g src k).all (· == 0) = false) (hk : k / g.l2Entries < 2 ^ 32) :
    Meets (storeCluster z g.clusterSize g.l2Entries k (sourceCluster g src k)) w
      (fun _ => Converting z g src lo (k + 1)) fun _ _ => True := by
  apply ((h.packed.storeCluster (length_sourceCluster g src k)).and
    (keepsSrc_storeCluster _ _ _ _ w)).imp _ fun _ _ _ => trivial
  rintro _ w' ⟨hpacked, hsrc⟩
  refine ⟨hsrc.trans h.src, ?_⟩
  rw [sourceCells_store hne hk]
  exact hpacked

theorem convertCluster_keeps (h : Converting z convertGeometry src lo k w)
    (hk : k / convertGeometry.l2Entries < 2 ^ 32) :
    Meets (convertCluster z l1Size k) w (fun _ => Converting z convertGeometry src lo (k + 1))
      fun _ _ => True := by
  unfold convertCluster
  rw [meets_bind, meets_get, h.src]
  generalize convertGeometry = g at h hk ⊢
  change Meets (if (sourceCluster g src k).all (· == 0) then pure () else if _ then _ else
    storeCluster z g.clusterSize g.l2Entries k (sourceCluster g src k)) w _ _
  apply meets_ite
  · exact fun hzero => h.skip hzero
  · intro hne
    apply meets_ite
    · exact fun _ => trivial
    · exact fun _ => h.store (Bool.not_eq_true _ ▸ hne) hk

theorem convertCluster_roomy {m : ℕ} (hsrc : w.src = src)
    (h : Roomy (clusterCost convertGeometry + m) w)
    (hk : k / convertGeometry.l2Entries < l1Size) (hl1 : l1Size < 2 ^ 32) :
    Meets (convertCluster z l1Size k) w (fun _ => Roomy m) fun _ _ => False := by
  unfold convertCluster
  rw [meets_bind, meets_get, hsrc]
  generalize convertGeometry = g at h hk ⊢
  have hmax : maxRw = 0x7ffff000 := rfl
  have hcs := g.clusterSize_le
  change Meets (if (sourceCluster g src k).all (· == 0) then pure () else if _ then _ else
    storeCluster z g.clusterSize g.l2Entries k (sourceCluster g src k)) w _ _
  apply meets_ite
  · exact fun _ => h.mono (by omega)
  · intro _
    -- the table covers the file: the write into it stays inside
    have hmod : k / g.l2Entries % 2 ^ 32 = k / g.l2Entries := Nat.mod_eq_of_lt (hk.trans hl1)
    rw [if_neg (by rw [hmod]; exact not_le.mpr hk)]
    exact storeCluster_roomy (length_sourceCluster g src k) (by omega) h

-- its clusters have a fixed size, which must not be evaluated
attribute [local irreducible] convertCluster

theorem newL1Size_covers_convert {n : ℕ} (hn : n < 2 ^ 60) :
    n ≤ newL1Size n convertGeometry.clusterSize *
      (convertGeometry.l2Entries * convertGeometry.clusterSize) := by
  rw [← tableSpan_eq]
  have hspan : tableSpan convertGeometry.clusterSize = 536805376 := by decide
  unfold newL1Size W64
  rw [hspan]
  dsimp only
  split_ifs <;> omega

theorem newL1Size_convert {n : ℕ} (hn : n ≤ 2 ^ 56) :
    newL1Size n convertGeometry.clusterSize * 8 ≤ maxRw := by
  have hspan : tableSpan convertGeometry.clusterSize = 536805376 := by decide
  have hmax : maxRw = 0x7ffff000 := rfl
  unfold newL1Size W64
  rw [hspan]
  dsimp only
  split_ifs <;> omega

theorem lt_size_of_lt_clusters {n c : ℕ} (h : c < (n + g.clusterSize - 1) / g.clusterSize) :
    c * g.clusterSize < n := by
  have hpos : 0 < g.clusterSize := Nat.two_pow_pos _
  rw [Nat.lt_div_iff_mul_lt hpos] at h
  omega

theorem index_lt {n : ℕ} (hcover : n ≤ l1Size * (g.l2Entries * g.clusterSize)) {c : ℕ}
    (hc : c * g.clusterSize < n) : c / g.l2Entries < l1Size := by
  rw [Nat.div_lt_iff_lt_mul g.l2Entries_pos]
  apply Nat.lt_of_mul_lt_mul_right (a := g.clusterSize)
  rw [Nat.mul_assoc]
  exact hc.trans_le hcover

/-- `convert` after the check of the size. -/
def convertFile (z : Codec) (n l1Size : ℕ) : CtlM Unit := do
  reserve convertGeometry.clusterSize headerSize l1Size
  (List.range ((n + convertGeometry.clusterSize - 1) / convertGeometry.clusterSize)).forM
    (convertCluster z l1Size)
  writeMeta convertGeometry.clusterBits convertGeometry.l2Entries n headerSize l1Size

theorem meets_cmdConvert {Q : Unit → Work → Prop} {E : Stop → Work → Prop}
    (hempty : src.size = 0 → E (.error .emptyInput) (start src out))
    (h : 0 < src.size → Meets (convertFile z src.size
      (newL1Size src.size convertGeometry.clusterSize)) (start src out) Q E) :
    Meets (cmdConvert z) (start src out) Q E := by
  unfold cmdConvert
  rw [meets_bind, meets_get, show (start src out).src = src from rfl]
  dsimp only
  apply meets_ite
  · exact hempty
  · exact fun h0 => h (Nat.pos_of_ne_zero h0)

/-- What the three steps of `convert` leave in the output when they succeed. -/
theorem convertFile_written (hn : src.size ≤ l1Size *
      (convertGeometry.l2Entries * convertGeometry.clusterSize)) (hl1 : l1Size < 2 ^ 32)
    (hcap : out.capacity ≤ 2 ^ 62) :
    Meets (convertFile z src.size l1Size) (start src out) (fun _ w' => ∃ w,
      Written z convertGeometry src.size headerSize l1Size (sourceCells convertGeometry src
        ((src.size + convertGeometry.clusterSize - 1) / convertGeometry.clusterSize)) w w'.out)
      fun _ _ => True := by
  have hle : headerSize + l1Size * 8 ≤
      alignUp convertGeometry.clusterSize (headerSize + l1Size * 8) :=
    le_alignUp' (Nat.two_pow_pos convertGeometry.clusterBits) _
  unfold convertFile
  rw [meets_bind]
  have hreserve : Meets (reserve convertGeometry.clusterSize headerSize l1Size)
      (start src out) _ _ :=
    (packed_reserve (z := z) (g := convertGeometry) le_rfl hcap).and
      (keepsSrc_reserve convertGeometry.clusterSize headerSize l1Size (start src out))
  apply hreserve.imp _ fun _ _ _ => trivial
  rintro _ w₁ ⟨hpacked, hsrc⟩
  rw [meets_bind]
  generalize alignUp convertGeometry.clusterSize (headerSize + l1Size * 8) = lo at hpacked hle
  refine (meets_forM_range (Converting z convertGeometry src lo) ?_ ?_).post ?_
  · exact ⟨hsrc, by rw [sourceCells_zero]; exact hpacked⟩
  · intro k hk w hw
    exact convertCluster_keeps hw ((index_lt hn (lt_size_of_lt_clusters hk)).trans hl1)
  · intro _ w hw
    exact (hw.packed.writeMeta le_rfl hle).post fun _ w' hw' => ⟨w, hw'⟩

theorem convertFile_roomy (hn : src.size ≤ l1Size *
      (convertGeometry.l2Entries * convertGeometry.clusterSize)) (hl1 : l1Size * 8 ≤ maxRw)
    (hout : out.NoFaults) (hcap : out.capacity ≤ 2 ^ 62)
    (hroom : alignUp convertGeometry.clusterSize (headerSize + l1Size * 8) +
      (src.size + convertGeometry.clusterSize - 1) / convertGeometry.clusterSize *
        clusterCost convertGeometry ≤ out.capacity) :
    Meets (convertFile z src.size l1Size) (start src out) (fun _ _ => True) fun _ _ => False := by
  have hmax : maxRw = 0x7ffff000 := rfl
  have hle : headerSize + l1Size * 8 ≤
      alignUp convertGeometry.clusterSize (headerSize + l1Size * 8) :=
    le_alignUp' (Nat.two_pow_pos convertGeometry.clusterBits) _
  unfold convertFile
  generalize htotal : (src.size + convertGeometry.clusterSize - 1) / convertGeometry.clusterSize =
    total at *
  rw [meets_bind]
  have hreserve : Meets (reserve convertGeometry.clusterSize headerSize l1Size)
      (start src out) _ _ :=
    (packed_reserve (z := z) (g := convertGeometry) le_rfl hcap).and
      (reserve_roomy (w := start src out) hout hcap hroom)
  apply hreserve.imp _ fun _ _ he => he.2
  rintro _ w₁ ⟨hpacked, hsrc, hroomy⟩
  rw [meets_bind]
  generalize alignUp convertGeometry.clusterSize (headerSize + l1Size * 8) = lo at hpacked hle
  -- the invariant keeps room for the clusters that are still to come
  refine (meets_forM_range (fun k w => Converting z convertGeometry src lo k w ∧
    Roomy ((total - k) * clusterCost convertGeometry) w) ?_ ?_).post ?_
  · exact ⟨⟨hsrc, by rw [sourceCells_zero]; exact hpacked⟩, hroomy⟩
  · rintro k hk w ⟨hw, hr⟩
    have hsub : total - k = 1 + (total - (k + 1)) := by omega
    rw [hsub, Nat.add_mul, Nat.one_mul] at hr
    have hidx := index_lt hn (lt_size_of_lt_clusters (htotal ▸ hk))
    exact ((convertCluster_keeps hw (by omega)).and
      (convertCluster_roomy hw.src hr hidx (by omega))).imp (fun _ _ h => h) fun _ _ he => he.2
  · rintro _ w ⟨hw, hr⟩
    exact writeMeta_roomy hw.packed (hr.mono (Nat.zero_le _)) le_rfl hle hl1

/-- The output of `convert` holds the clusters of the file that are not zero. -/
theorem cmdConvert_written (z : Codec) (hn : src.size < 2 ^ 60) (hcap : out.capacity ≤ 2 ^ 62) :
    Meets (cmdConvert z) (start src out) (fun _ w' => ∃ w, Written z convertGeometry src.size
      headerSize (newL1Size src.size convertGeometry.clusterSize)
      (sourceCells convertGeometry src
        ((src.size + convertGeometry.clusterSize - 1) / convertGeometry.clusterSize)) w w'.out)
      fun _ _ => True := by
  have hlt := newL1Size_lt src.size convertGeometry.clusterSize
  exact meets_cmdConvert (fun _ => trivial) fun _ =>
    convertFile_written (newL1Size_covers_convert hn) hlt hcap

/-- `convert` succeeds on a file that is not empty, if the output has room. -/
theorem cmdConvert_ok (z : Codec) (h0 : 0 < src.size) (hn : src.size ≤ 2 ^ 56)
    (hout : out.NoFaults) (hcap : out.capacity ≤ 2 ^ 62)
    (hroom : convertRoom src.size ≤ out.capacity) :
    ∃ w, cmdConvert z (start src out) = (.ok (), w) := by
  have hcover := newL1Size_covers_convert (n := src.size) (by omega)
  have hl1 := newL1Size_convert hn
  unfold convertRoom at hroom
  have hrun : Meets (cmdConvert z) (start src out) (fun _ _ => True) fun _ _ => False :=
    meets_cmdConvert (fun hempty => h0.ne' hempty) fun _ =>
      convertFile_roomy hcover hl1 hout hcap hroom
  obtain ⟨_, w, hw, -⟩ := hrun.exists_ok
  exact ⟨w, hw⟩

section Written

variable {n total : ℕ} {f : File}

theorem sourceCells_at (g : Geometry) (src : File) (hc : k < total) :
    sourceCells g src total (k / g.l2Entries) (k % g.l2Entries) =
      if (sourceCluster g src k).all (· == 0) = false then some (sourceCluster g src k)
        else none := by
  unfold sourceCells
  dsimp only
  rw [Nat.div_add_mod']
  exact if_congr ⟨fun h => h.2.2, fun h => ⟨Nat.mod_lt k g.l2Entries_pos, hc, h⟩⟩ rfl rfl

theorem sourceCluster_of_zero (h : ¬ (sourceCluster g src k).all (· == 0) = false) :
    sourceCluster g src k = List.replicate g.clusterSize 0 := by
  rw [Bool.not_eq_false] at h
  refine List.eq_replicate_iff.mpr ⟨length_sourceCluster g src k, fun b hb => ?_⟩
  exact eq_of_beq (List.all_eq_true.mp h b hb)

theorem Written.loads (h : Written z g n headerSize l1Size (sourceCells g src total) w f)
    (hl1 : l1Size < 2 ^ 32) (hk : k / g.l2Entries < l1Size) (hc : k < total) :
    if entryAt (writtenImage g n headerSize l1Size w f) k = 0 then
      sourceCluster g src k = List.replicate g.clusterSize 0
    else loadData z f g.clusterSize (entryAt (writtenImage g n headerSize l1Size w f) k) =
      some (sourceCluster g src k) := by
  have hcell := sourceCells_at g src hc
  rw [h.entryAt_eq, Nat.mod_eq_of_lt (hk.trans hl1)]
  split_ifs at hcell with hne
  · obtain ⟨hl1ne, p, m, hp, hdata⟩ := h.stored _ _ _ hcell
    rw [if_neg (not_or.mpr ⟨not_le.mpr hk, hl1ne⟩), if_neg (hdata.entry hp).1]
    exact hdata.loadData
  · -- whether there is a table or not, the entry is zero
    rw [h.unset _ _ hcell, ite_self, if_pos rfl]
    exact sourceCluster_of_zero hne

theorem Written.shownByte_eq {d : Device} {a : ℕ}
    (h : Written z g n headerSize l1Size (sourceCells g src total) w f) (hl1 : l1Size < 2 ^ 32)
    (ho : Opened (writtenImage g n headerSize l1Size w f) d)
    (hk : a / g.clusterSize / g.l2Entries < l1Size) (hc : a / g.clusterSize < total) :
    shownByte g.clusterSize ({ d with base := none }.clusterBytes z) a = some (src.byte a) := by
  have hload := h.loads hl1 hk hc
  have hbytes : { d with base := none }.clusterBytes z (a / g.clusterSize) =
      some (sourceCluster g src (a / g.clusterSize)) := by
    rw [ho.clusterBytes fun i hi h0 => h.tableReads hi h0]
    split_ifs at hload ⊢ with h0
    · rw [hload]
      rfl
    · exact hload
  rw [shownByte, hbytes, ← flat_sourceCluster g src]
  rfl

end Written

theorem clusters_lt {n a : ℕ} (ha : a < n) :
    a / g.clusterSize < (n + g.clusterSize - 1) / g.clusterSize := by
  have hpos : 0 < g.clusterSize := Nat.two_pow_pos _
  have hle := Nat.div_mul_le_self a g.clusterSize
  rw [Nat.lt_div_iff_mul_lt hpos]
  omega

/-- What `extract` writes of a converted file is the file. -/
theorem convert_extract {out' : File} (z : Codec) (h0 : 0 < src.size) (hn : src.size ≤ 2 ^ 56)
    (hout : out.NoFaults) (hcap : out.capacity ≤ 2 ^ 62)
    (hroom : convertRoom src.size ≤ out.capacity)
    (hout' : out'.NoFaults) (hroom' : src.size ≤ out'.capacity) :
    Meets (cmdConvert z) (start src out) (fun _ w => Meets (cmdExtract z) (start w.out out')
      (fun _ w' => w'.out.size = src.size ∧ ∀ a < src.size, w'.out.byte a = src.byte a)
      fun _ _ => False) fun _ _ => False := by
  have hcover := newL1Size_covers_convert (n := src.size) (by omega)
  have hlt := newL1Size_lt src.size convertGeometry.clusterSize
  obtain ⟨w', hconvert⟩ := cmdConvert_ok z h0 hn hout hcap hroom
  apply meets_of_ok hconvert
  obtain ⟨w, h⟩ := (cmdConvert_written z (by omega) hcap).of_eq_ok hconvert
  have himg := h.openImage (by omega) (by norm_num [headerSize])
  have hextract := cmdExtract_reads (z := z) (g := convertGeometry)
    (D := sourceCluster convertGeometry src) himg rfl
    (fun i hi h0 => h.tableReads hi h0) hout' hroom' (by change src.size < _; omega)
    fun c hc => h.loads hlt (index_lt hcover hc) ?_
  · rwa [flat_sourceCluster] at hextract
  · have hpos : 0 < convertGeometry.clusterSize := Nat.two_pow_pos _
    have := clusters_lt (g := convertGeometry) hc
    rwa [Nat.mul_div_cancel _ hpos] at this

section Sample

/-- A file of three bytes. -/
def threeBytes : File := (File.empty 16 fun _ => none).put 0 [7, 8, 9]

theorem convertRoom_threeBytes : convertRoom threeBytes.size ≤ emptyOut.capacity := by decide

theorem convert_extract_threeBytes :
    convertRoom threeBytes.size ≤ emptyOut.capacity ∧
    Meets (cmdConvert Codec.none) (start threeBytes emptyOut)
      (fun _ w => Meets (cmdExtract Codec.none) (start w.out emptyOut)
        (fun _ w' => w'.out.size = 3 ∧ window w'.out.byte 0 3 = [7, 8, 9]) fun _ _ => False)
      fun _ _ => False := by
  refine ⟨convertRoom_threeBytes, ?_⟩
  apply (convert_extract Codec.none (show 0 < threeBytes.size by decide) (by decide)
    (show emptyOut.NoFaults from fun _ => rfl) (by decide) convertRoom_threeBytes
    (show emptyOut.NoFaults from fun _ => rfl) (by decide)).post
  intro _ w h
  apply h.post
  rintro _ w' ⟨hsize, hbyte⟩
  exact ⟨hsize, (window_congr fun a _ ha => hbyte a ha).trans (by decide)⟩

theorem converts_threeBytes :
    ∃ w, cmdConvert Codec.none (start threeBytes emptyOut) = (.ok (), w) :=
  cmdConvert_ok Codec.none (show 0 < threeBytes.size by decide) (by decide)
    (show emptyOut.NoFaults from fun _ => rfl) (by decide) convertRoom_threeBytes

end Sample

/-- The kernel takes whatever `convert` has made of a file and reads the bytes of the file from
it. -/
theorem convert_kernel_reads (h : cmdConvert z (start src out) = (.ok (), w))
    (hn : src.size < 2 ^ 60) (hcap : out.capacity ≤ 2 ^ 62) :
    ∃ d, init (detached w.out) = (.ok (), d) ∧ d.virtualSize = src.size ∧
      ∀ reads, d.InRange reads →
        readAll z reads d = reads.map fun r => .ok (window src.byte r.1 r.2.sum) := by
  have hcover := newL1Size_covers_convert hn
  have hlt := newL1Size_lt src.size convertGeometry.clusterSize
  obtain ⟨w', h⟩ := (cmdConvert_written z hn hcap).of_eq_ok h
  obtain ⟨d, hinit, ho⟩ := h.init (by omega) (by norm_num [headerSize]) hlt
  refine ⟨d, hinit, ho.virtualSize, fun reads hreads => ?_⟩
  have hshow := ho.shows (z := z) (B := none) fun _ hb => by cases hb
  have hd : { d with base := none } = d := by rw [← ho.base]
  have hbyte : ∀ a < src.size, shownByte convertGeometry.clusterSize (d.clusterBytes z) a =
      some (src.byte a) := by
    intro a ha
    have := h.shownByte_eq hlt ho (index_lt hcover ((Nat.div_mul_le_self a _).trans_lt ha))
      (clusters_lt ha)
    rwa [hd] at this
  rw [hd] at hshow
  have hsize : ∀ r ∈ reads, r.1 + r.2.sum ≤ src.size := fun r hr =>
    (hreads r hr).trans ho.virtualSize.le
  rw [hshow.readAll fun r hr => (hsize r hr).trans (by unfold W64; omega)]
  refine List.map_congr_left fun r hr => ?_
  have hin := hsize r hr
  change readOf (shownByte convertGeometry.clusterSize (d.clusterBytes z)) r.1 r.2.sum = _
  unfold readOf
  rw [if_pos fun i hi => by rw [hbyte _ (by omega)]; rfl]
  exact congrArg _ (window_congr fun a _ ha => by rw [hbyte a (by omega)]; rfl)

theorem convert_kernel_reads_threeBytes :
    ∃ w d, cmdConvert Codec.none (start threeBytes emptyOut) = (.ok (), w) ∧
      init (detached w.out) = (.ok (), d) ∧
      readAll Codec.none [(1, [1, 1]), (0, [2])] d = [.ok [8, 9], .ok [7, 8]] := by
  obtain ⟨w, hw⟩ := converts_threeBytes
  obtain ⟨d, hinit, hsize, hreads⟩ := convert_kernel_reads hw (by decide) (by decide)
  refine ⟨w, d, hw, hinit, (hreads _ ?_).trans (by decide)⟩
  unfold InRange
  rw [hsize]
  decide

end Lbd.QCow2.Ctl
