import Lbd.QCow2.ImageExtents

/-!
# The space of a `QCow2Image`

Rewriting a cluster in place with data that takes fewer blocks leaves the rest of
its extent to nobody, because the size of an extent is read back from the data.
Histories without such rewrites lose no space.
-/

namespace Lbd.QCow2

open Act QCow2Image

variable {z : Codec} {g : Geometry} {vsize : ℕ} {img : QCow2Image} {v : View} {p n : ℕ}
  {r : Region}

/-- Every block between `start` and the append point is in a table, in the extent of an entry or
in an extent on the free list. -/
def NothingLost (start : ℕ) (img : QCow2Image) : Prop :=
  ∃ fl, FreeList img fl ∧ ∀ b, start ≤ 4096 * b → 4096 * b + 4096 ≤ img.allocOffset →
    ∃ o p n, Holds img fl o p n ∧ o ≠ .metadata ∧ p ≤ 4096 * b ∧ 4096 * b + 4096 ≤ p + n

theorem Part.holds (hp : Part g img.f v r p n) (h : ImageInv z g vsize img v) :
    ∃ o, Holds img v.free o p n ∧ o ≠ .metadata := by
  cases r with
  | table i =>
    obtain ⟨hi, h0, rfl, rfl⟩ := hp
    rw [← h.mem.l1Size] at hi
    rw [← h.mem.l1] at h0 ⊢
    rw [← h.mem.clusterSize]
    exact ⟨_, .table hi h0, nofun⟩
  | data c =>
    obtain ⟨hv, rfl, rfl⟩ := hp
    obtain ⟨d, hd⟩ := Option.ne_none_iff_exists'.mp hv
    have he := h.layout.entry_ne_zero hd
    have hl1 : c / g.l2Entries < v.l1Size ∧ v.l1 (c / g.l2Entries) ≠ 0 := by
      by_contra hn
      refine he (h.layout.tab_none _ ?_ _)
      by_contra hn'
      rw [not_or, Nat.not_le] at hn'
      exact hn hn'
    have hj := Nat.mod_lt c g.l2Entries_pos
    have htab : img.tableEntry (c / g.l2Entries) (c % g.l2Entries) = v.entry g c :=
      tableEntry_eq h hl1.1 hl1.2 hj
    rw [← h.mem.l1Size, ← h.mem.l1] at hl1
    rw [← htab] at he ⊢
    rw [← h.mem.clusterSize]
    exact ⟨_, .entry hl1.1 hl1.2 (h.mem.l2Entries ▸ hj) he, nofun⟩
  | free q =>
    obtain ⟨rfl, hx⟩ := hp
    exact ⟨_, .free hx, nofun⟩

theorem nothingLost_of_ledger (h : Ledger z g vsize ∅ img v) (hok : img.f.failed = false)
    (halign : 4096 ∣ v.metaEnd) : NothingLost v.metaEnd img := by
  have hall := h.accounted hok
  refine ⟨v.free, freeList_of_inv h.toImageInv, fun b hstart hend => ?_⟩
  rw [h.alloc] at hend
  obtain ⟨r, p, n, hp, hlo, hhi⟩ := (hall (4096 * b) hstart (by omega)).resolve_left id
  obtain ⟨o, ho, hne⟩ := hp.holds h.toImageInv
  refine ⟨o, p, n, ho, hne, hlo, ?_⟩
  -- the part is a whole number of blocks
  obtain ⟨k, rfl⟩ := h.layout.part_aligned halign hall hp
  obtain ⟨l, rfl⟩ := (h.layout.extent_of_part hp).2.1
  omega

theorem created_start {f : File} {virtualSize clusterBits : ℕ}
    (h : createQCow2 f virtualSize clusterBits = .ok img) :
    4096 ∣ img.allocOffset ∧ img.f.failed = f.failed := by
  obtain ⟨hlower, -⟩ := createQCow2_bits h
  obtain ⟨l1Size, allocOffset, -, halloc, -, rfl⟩ := createQCow2_eq h
  refine ⟨?_, rfl⟩
  show 4096 ∣ allocOffset
  rw [halloc]
  exact (pow_dvd_pow 2 hlower : 2 ^ 12 ∣ 2 ^ clusterBits).trans (Dvd.intro_left _ rfl)

theorem Reaches.failed_eq {allowed : QCow2Image → ImageOp → Prop} {img' : QCow2Image}
    (hrun : Reaches z allowed img img') (hok : img.f.failed = false) : img'.f.failed = false := by
  cases hrun with
  | refl => exact hok
  | tail _ hstep =>
    obtain ⟨op, r, -, -, hok'⟩ := hstep
    exact hok'

/-- Histories of writes and trims that refill the clusters they touch lose no space. -/
theorem reachable_nothingLost (z : Codec) {capacity virtualSize clusterBits : ℕ}
    {img₀ img : QCow2Image} (hcap : capacity ≤ 2 ^ 62) (hv : virtualSize < W64)
    (hcreate : createQCow2 (File.empty capacity fun _ => none) virtualSize clusterBits = .ok img₀)
    (hrun : Reaches z (fun img op => op.Refills z img) img₀ img) :
    NothingLost img₀.allocOffset img := by
  obtain ⟨g, hstart⟩ := created_consistent (z := z) (fun _ => rfl) hcap hv hcreate
  obtain ⟨halign, hfailed⟩ := created_start hcreate
  obtain ⟨v, h, -, hm⟩ := hrun.consistent hstart fun _ _ hop => .inl hop
  rw [← hm] at halign ⊢
  exact nothingLost_of_ledger h (hrun.failed_eq hfailed) halign

theorem refills_blank (h : Blank g img) {data : List UInt8} (hlen : data.length = g.clusterSize) :
    ImageOp.Refills z img (.write 0 data) := by
  have hentry : img.clusterEntry 0 = 0 := if_neg fun hl1 => hl1.2 (h.l1Table _)
  show RefillsAll z (writeChunk z data) _ (chunks img.clusterBits img.clusterSize 0 data.length) img
  rw [h.clusterBits, h.clusterSize, hlen, chunks_cluster]
  exact ⟨fun _ _ _ he => absurd hentry he, fun _ _ => trivial⟩

/-- A codec that compresses strings of ones. -/
def Codec.ones : Codec where
  compress d := if d = List.replicate d.length 1 then some [0] else Option.none
  decompress comp n := if comp = [0] then some (List.replicate n 1) else Option.none
  decompress_compress d comp h := by
    split_ifs at h with hd
    obtain rfl := Option.some.inj h
    rw [if_pos rfl, ← hd]

section Shrink

variable {d data comp : List UInt8}

/-- The offset of the first cluster of a new image. -/
abbrev QCow2Image.firstPhys (img : QCow2Image) : ℕ := img.allocOffset + img.clusterSize

/-- The first cluster after it was rewritten in place with data that is compressed. -/
def shrunkCluster (img : QCow2Image) (d comp : List UInt8) : QCow2Image :=
  { firstCluster img d with
    f := (firstCluster img d).f.put img.firstPhys (beBytes 4 comp.length ++ comp)
    l2Cache := Function.update (firstCluster img d).l2Cache 0 (some (Function.update
      (Function.update (fun _ => 0) 0 img.firstPhys) 0 (l2Compressed ||| img.firstPhys))) }

theorem getL2_first (img : QCow2Image) (d : List UInt8) : Meets (getL2 0) (firstCluster img d)
    (fun l2 img' => l2 = Function.update (fun _ => 0) 0 img.firstPhys ∧ img' = firstCluster img d)
    fun _ _ => False := by
  have hcached : (firstCluster img d).l2Cache 0 =
      some (Function.update (fun _ => 0) 0 img.firstPhys) := by
    show Function.update (firstTable img).l2Cache 0 _ 0 = _
    exact Function.update_self ..
  simp only [getL2, meets_bind, meets_get, hcached]
  exact ⟨rfl, rfl⟩

theorem readCluster_first (h : Blank g img) (hd : d.length = g.clusterSize) :
    Meets (readCluster z 0) (firstCluster img d)
      (fun d' img' => d' = d ∧ img' = firstCluster img d) fun _ _ => False := by
  have hroom := h.room
  have hcap := h.capacity
  have hcs := g.le_clusterSize
  have hsize := h.clusterSize
  have hpos := h.pos
  have hphys : img.firstPhys = img.allocOffset + img.clusterSize := rfl
  have hp : img.firstPhys < 2 ^ 62 := by omega
  have hreads : (firstCluster img d).f.Reads img.firstPhys d :=
    File.reads_put (by rw [← List.length_pos_iff]; omega)
  simp only [readCluster, meets_bind, meets_get, Nat.zero_div, Nat.zero_mod, firstCluster_l1Table]
  rw [if_neg (by rw [not_or]; exact ⟨Nat.not_le.mpr h.l1Size, hpos.ne'⟩)]
  simp only [meets_bind]
  apply (getL2_first img d).post
  rintro _ _ ⟨rfl, rfl⟩
  simp only [Function.update_self]
  apply meets_ite
  · intro h0
    omega
  · intro _
    simp only [readEntry, meets_bind, meets_get]
    rw [if_neg (not_isCompressed_raw hp), physOffset_raw hp]
    exact meets_readFile hreads (hd.trans hsize.symm) ⟨rfl, rfl⟩

theorem writeCluster_first (h : Blank g img) (hz : data.all (· == 0) = false)
    (hcomp : compressed z g.clusterSize data = some comp) :
    Meets (writeCluster z 0 data) (firstCluster img d)
      (fun _ img' => img' = shrunkCluster img d comp) fun _ _ => False := by
  have hroom := h.room
  have hcap := h.capacity
  have hcs := g.le_clusterSize
  have hsize := h.clusterSize
  have hpos := h.pos
  have hphys : img.firstPhys = img.allocOffset + img.clusterSize := rfl
  have hp : img.firstPhys < 2 ^ 62 := by omega
  obtain ⟨-, -, hlt⟩ := compressed_eq_some hcomp
  have hfits : alignUp compAlign (4 + comp.length) ≤ g.clusterSize := alignUp_le g (by omega)
  have hfirst : (firstCluster img d).clusterSize = g.clusterSize := hsize
  simp only [writeCluster, allocateL2, meets_bind, meets_get, Nat.zero_div, Nat.zero_mod, hz,
    hfirst,
    hcomp, firstCluster_l1Table]
  rw [if_neg (show ¬ (firstCluster img d).l1Size ≤ 0 from Nat.not_le.mpr h.l1Size),
    if_pos hpos.ne']
  apply (getL2_first img d).post
  rintro _ _ ⟨rfl, rfl⟩
  simp only [Function.update_self, readOldAllocSize, meets_bind, meets_get]
  rw [if_neg (by omega), if_neg (not_isCompressed_raw hp), meets_pure, if_neg Bool.false_ne_true]
  simp only [meets_bind, placeCluster, hfirst, physOffset_raw hp]
  rw [if_pos ⟨by omega, hfits⟩, meets_pure]
  apply meets_writeFile
  · exact h.noFaults.clean
  · exact fun _ => rfl
  · refine fun hfull => hfull ⟨h.noFaults _, ?_⟩
    show img.firstPhys + (beBytes 4 comp.length ++ comp).length ≤ img.f.capacity
    rw [List.length_append, length_beBytes]
    omega

/-- The first cluster after it was written again with data that is stored raw. -/
def rewrittenCluster (img : QCow2Image) (d data : List UInt8) : QCow2Image :=
  { firstCluster img d with
    f := (firstCluster img d).f.put img.firstPhys data
    l2Cache := Function.update (firstCluster img d).l2Cache 0 (some (Function.update
      (Function.update (fun _ => 0) 0 img.firstPhys) 0 img.firstPhys)) }

theorem writeCluster_over (h : Blank g img) (hlen : data.length = g.clusterSize)
    (hz : data.all (· == 0) = false) (hcomp : compressed z g.clusterSize data = none) :
    Meets (writeCluster z 0 data) (firstCluster img d)
      (fun _ img' => img' = rewrittenCluster img d data) fun _ _ => False := by
  have hroom := h.room
  have hcap := h.capacity
  have hcs := g.le_clusterSize
  have hsize := h.clusterSize
  have hpos := h.pos
  have hphys : img.firstPhys = img.allocOffset + img.clusterSize := rfl
  have hp : img.firstPhys < 2 ^ 62 := by omega
  have hfirst : (firstCluster img d).clusterSize = g.clusterSize := hsize
  simp only [writeCluster, allocateL2, meets_bind, meets_get, Nat.zero_div, Nat.zero_mod, hz,
    hfirst, hcomp, firstCluster_l1Table]
  rw [if_neg (show ¬ (firstCluster img d).l1Size ≤ 0 from Nat.not_le.mpr h.l1Size),
    if_pos hpos.ne']
  apply (getL2_first img d).post
  rintro _ _ ⟨rfl, rfl⟩
  simp only [Function.update_self, readOldAllocSize, meets_bind, meets_get]
  rw [if_neg (by omega), if_neg (not_isCompressed_raw hp), meets_pure, if_neg Bool.false_ne_true]
  simp only [meets_bind, placeCluster, hfirst, physOffset_raw hp]
  rw [if_pos ⟨by omega, le_rfl⟩, meets_pure]
  apply meets_writeFile
  · exact h.noFaults.clean
  · exact fun _ => rfl
  · refine fun hfull => hfull ⟨h.noFaults _, ?_⟩
    show img.firstPhys + data.length ≤ img.f.capacity
    omega

theorem writeAt_of_writeCluster {img' : QCow2Image} (h : Blank g img)
    (hd : d.length = g.clusterSize) (hlen : data.length = g.clusterSize)
    (hwrite : Meets (writeCluster z 0 data) (firstCluster img d) (fun _ img₁ => img₁ = img')
      fun _ _ => False) : writeAt z data 0 (firstCluster img d) = (.ok (), img') := by
  apply Meets.eq_ok
  refine writeAt_cluster (show (firstCluster img d).clusterBits = _ from h.clusterBits)
    (show (firstCluster img d).clusterSize = _ from h.clusterSize) hlen ?_
  apply (readCluster_first h hd).post
  rintro _ _ ⟨rfl, rfl⟩
  exact ⟨hd, hwrite.post fun _ _ heq => ⟨rfl, heq⟩⟩

theorem writeAt_over (h : Blank g img) (hd : d.length = g.clusterSize)
    (hlen : data.length = g.clusterSize) (hz : data.all (· == 0) = false)
    (hcomp : compressed z g.clusterSize data = none) :
    writeAt z data 0 (firstCluster img d) = (.ok (), rewrittenCluster img d data) :=
  writeAt_of_writeCluster h hd hlen (writeCluster_over h hlen hz hcomp)

theorem refills_first (h : Blank g img) (hlen : data.length = g.clusterSize)
    (hraw : ∀ bs, compressed z g.clusterSize bs = none) :
    ImageOp.Refills z (firstCluster img d) (.write 0 data) := by
  have hroom := h.room
  have hcs := g.le_clusterSize
  have hcap := h.capacity
  have hsize := h.clusterSize
  have hphys : img.firstPhys = img.allocOffset + img.clusterSize := rfl
  have hp : img.firstPhys < 2 ^ 62 := by omega
  have hfirst : (firstCluster img d).clusterSize = g.clusterSize := hsize
  have hcached : (firstCluster img d).l2Cache 0 =
      some (Function.update (fun _ => 0) 0 img.firstPhys) := by
    show Function.update (firstTable img).l2Cache 0 _ 0 = _
    exact Function.update_self ..
  have hentry : (firstCluster img d).clusterEntry 0 = img.firstPhys := by
    unfold clusterEntry tableEntry
    simp only [Nat.zero_div, Nat.zero_mod, firstCluster_l1Table, hcached, Function.update_self]
    exact if_pos ⟨h.l1Size, h.pos.ne'⟩
  show RefillsAll z (writeChunk z data) _ (chunks (firstCluster img d).clusterBits
    (firstCluster img d).clusterSize 0 data.length) (firstCluster img d)
  rw [show (firstCluster img d).clusterBits = g.clusterBits from h.clusterBits, hfirst, hlen,
    chunks_cluster]
  refine ⟨fun bs _ _ => ?_, fun _ _ => trivial⟩
  show Fills z (firstCluster img d).clusterSize _ ((firstCluster img d).clusterEntry 0) _
  rw [hentry, hfirst]
  intro _ _
  rw [entrySize, if_neg (not_isCompressed_raw hp), storedSize, hraw]

theorem writeAt_first (h : Blank g img) (hd : d.length = g.clusterSize)
    (hlen : data.length = g.clusterSize) (hz : data.all (· == 0) = false)
    (hcomp : compressed z g.clusterSize data = some comp) :
    writeAt z data 0 (firstCluster img d) = (.ok (), shrunkCluster img d comp) :=
  writeAt_of_writeCluster h hd hlen (writeCluster_first h hz hcomp)

theorem shrunkCluster_tableEntry (img : QCow2Image) (d comp : List UInt8) (j : ℕ) :
    (shrunkCluster img d comp).tableEntry 0 j =
      if j = 0 then l2Compressed ||| img.firstPhys else 0 := by
  have hcached : (shrunkCluster img d comp).l2Cache 0 = some (Function.update
      (Function.update (fun _ => 0) 0 img.firstPhys) 0 (l2Compressed ||| img.firstPhys)) := by
    show Function.update (firstCluster img d).l2Cache 0 _ 0 = _
    exact Function.update_self ..
  unfold tableEntry
  simp only [hcached, Function.update_apply]
  split_ifs <;> rfl

theorem shrunkCluster_holds (h : Blank g img) (hl1 : img.l1Size = 1) (hlt : comp.length < 2 ^ 32)
    {fl : List (ℕ × ℕ)} (hfl : FreeList (shrunkCluster img d comp) fl) {o : Holder} {p n : ℕ}
    (ho : Holds (shrunkCluster img d comp) fl o p n) (hne : o ≠ .metadata) :
    p + n ≤ img.firstPhys + alignUp compAlign (4 + comp.length) := by
  have hroom := h.room
  have hcap := h.capacity
  have hcs := g.le_clusterSize
  have hsize := h.clusterSize
  have hphys : img.firstPhys = img.allocOffset + img.clusterSize := rfl
  have hp : img.firstPhys < 2 ^ 62 := by omega
  have hfirst : ∀ i, i < (shrunkCluster img d comp).l1Size → i = 0 := fun i hi => by
    have : i < img.l1Size := hi
    omega
  cases ho with
  | metadata => exact absurd rfl hne
  | table hi h0 =>
    rw [hfirst _ hi]
    have htable : (shrunkCluster img d comp).l1Table 0 = img.allocOffset :=
      firstCluster_l1Table img d
    have : (shrunkCluster img d comp).clusterSize = img.clusterSize := rfl
    omega
  | @entry i j hi h0 hj he =>
    obtain rfl := hfirst _ hi
    rw [shrunkCluster_tableEntry] at he ⊢
    by_cases hj0 : j = 0
    · rw [if_pos hj0, physOffset_lz hp, entrySize_lz hp hlt]
      exact at_overlay
    · exact absurd (if_neg hj0) he
  | free hx =>
    have hnil : fl = [] := by
      cases fl with
      | nil => rfl
      | cons x fl =>
        have hhead : (shrunkCluster img d comp).freeListHead = 0 := h.freeListHead
        have := hfl.chain.1
        exact absurd (this.symm.trans hhead) (hfl.ne_zero x (List.mem_cons_self ..))
    rw [hnil] at hx
    exact nomatch hx

end Shrink

/-- A cluster that is written twice, the second time in place. -/
theorem small_nothingLost : 2 ^ 20 < W64 ∧ NothingLost smallImage.allocOffset
    (rewrittenCluster smallImage (smallData 2) (smallData 3)) := by
  have hfirst : Reaches Codec.none (fun img op => op.Refills Codec.none img) smallImage
      (firstCluster smallImage (smallData 2)) :=
    .single ⟨.write 0 (smallData 2), .ok (), refills_blank smallImage_blank (length_smallData 2),
      writeAt_blank smallImage_blank (length_smallData 2) (smallData_not_zeros (by decide)) rfl,
      rfl⟩
  have hover := writeAt_over (z := Codec.none) smallImage_blank (length_smallData 2)
    (length_smallData 3) (smallData_not_zeros (by decide)) rfl
  exact ⟨by decide, reachable_nothingLost Codec.none le_rfl (by decide) createQCow2_small
    (hfirst.tail ⟨.write 0 (smallData 3), .ok (), refills_first smallImage_blank
      (length_smallData 3) fun _ => rfl, hover, rfl⟩)⟩

/-- An image of 1 MiB with clusters of 8 KiB after two writes to its first cluster: data that
cannot be compressed and then data that fits into one block. The second block of the cluster is
lost. -/
theorem shrunk_block_lost : ∃ img₀ img₁ img₂,
    createQCow2 (File.empty (2 ^ 62) fun _ => none) (2 ^ 20) 13 = .ok img₀ ∧
    writeAt Codec.ones (smallData 2) 0 img₀ = (.ok (), img₁) ∧
    writeAt Codec.ones (smallData 1) 0 img₁ = (.ok (), img₂) ∧ img₂.f.failed = false ∧
    ¬ NothingLost img₀.allocOffset img₂ := by
  have hraw : compressed Codec.ones smallGeometry.clusterSize (smallData 2) = none := by
    have hne : smallData 2 ≠ List.replicate (smallData 2).length 1 := by
      intro heq
      have hmem : 2 ∈ smallData 2 := by
        rw [smallData, List.mem_replicate]
        exact ⟨by norm_num, rfl⟩
      rw [heq, List.mem_replicate] at hmem
      exact absurd hmem.2 (by decide)
    simp [compressed, Codec.ones, hne]
  have hcomp : compressed Codec.ones smallGeometry.clusterSize (smallData 1) = some [0] := by
    have heq : smallData 1 = List.replicate (smallData 1).length 1 := by
      rw [smallData, List.length_replicate]
    rw [compressed, show Codec.ones.compress (smallData 1) = some [0] from if_pos heq]
    rfl
  refine ⟨smallImage, _, _, createQCow2_small,
    writeAt_blank smallImage_blank (length_smallData 2) (smallData_not_zeros (by decide)) hraw,
    writeAt_first smallImage_blank (length_smallData 2) (length_smallData 1)
      (smallData_not_zeros (by decide)) hcomp, rfl, ?_⟩
  rintro ⟨fl, hfl, hall⟩
  obtain ⟨o, p, n, ho, hne, -, hend⟩ := hall 5 (by decide) (by decide)
  have := shrunkCluster_holds smallImage_blank rfl (by decide) hfl ho hne
  have hlast : smallImage.firstPhys + alignUp compAlign (4 + [(0 : UInt8)].length) = 20480 := by
    decide
  omega

end Lbd.QCow2
