import Lbd.QCow2.ImageExtents

/-!
# Failed writes of a `QCow2Image`

`WriteAt` and `Trim` stop at the first file write that fails and leave what they have
changed so far. Most failures leave an image that still serves all bytes outside of the
request. Two do not: an L2 table that cannot be written is already entered in the L1 table,
and data that moves to a new extent is written after its old extent went to the free list.
-/

namespace Lbd.QCow2

open Act

variable {z : Codec} {g : Geometry} {vsize : ℕ} {img img' : QCow2Image} {v : View}
  {op : FileOp} {off n c p i e a : ℕ} {bs d data : List UInt8} {A : ℕ → UInt8}
  {E : QCow2Error → QCow2Image → Prop}

/-- What is written for a cluster with data other than zeros. -/
def storedBytes (z : Codec) (clusterSize : ℕ) (data : List UInt8) : List UInt8 :=
  match compressed z clusterSize data with
  | some comp => beBytes 4 comp.length ++ comp
  | none => data

namespace QCow2Image

/-- The new data of the cluster needs more space than its extent has. -/
def Moves (z : Codec) (clusterIdx : ℕ) (data : List UInt8) (img : QCow2Image) : Prop :=
  img.clusterEntry clusterIdx ≠ 0 ∧ data.all (· == 0) = false ∧
    entrySize img.clusterSize img.f (img.clusterEntry clusterIdx) <
      storedSize z img.clusterSize data

/-- The writes that must not fail when `data` is written to a cluster: the one of a new L2
table, and the one of data that moves after its old extent was freed. -/
structure Guarded (z : Codec) (clusterIdx : ℕ) (data : List UInt8) (img : QCow2Image) : Prop where
  append : img.allocOffset ≤ 2 ^ 62
  table : img.l1Table (clusterIdx / img.l2Entries % 2 ^ 32) = 0 →
    img.f.Accepts img.allocOffset img.clusterSize
  moved : Moves z clusterIdx data img → ∀ img₁ phys img₂,
    freeExtent (physOffset (img.clusterEntry clusterIdx))
      (entrySize img.clusterSize img.f (img.clusterEntry clusterIdx)) img = (.ok (), img₁) →
    allocSpace (storedSize z img.clusterSize data) img₁ = (.ok phys, img₂) →
    img₂.f.Accepts phys (storedBytes z img.clusterSize data).length

/-- The condition for the cluster write of a chunk, after the cluster was read. -/
def GuardedChunk (z : Codec) (bs : List UInt8) (c : Chunk) (img : QCow2Image) : Prop :=
  ∀ d img', readCluster z c.cluster img = (.ok d, img') →
    Guarded z c.cluster (overwrite d c.off bs) img'

/-- The image holds the clusters that `v` holds. -/
def Kept (z : Codec) (g : Geometry) (vsize : ℕ) (v : View) (img : QCow2Image) : Prop :=
  ∃ v', ImageInv z g vsize img v' ∧ v'.Settled g ∧ v.Grows v' ∧ v'.content g = v.content g

theorem kept_skip (h : ImageInv z g vsize img v) (hs : v.Settled g) :
    Kept z g vsize v { img with f := img.f.skip } :=
  ⟨v, h.skip, hs, .refl v, rfl⟩

theorem Kept.of_grows {v₂ : View} (h : Kept z g vsize v₂ img) (hg : v.Grows v₂)
    (hval : v₂.val = v.val) : Kept z g vsize v img := by
  obtain ⟨v', h', hs', hg', hcontent⟩ := h
  refine ⟨v', h', hs', hg.trans hg', hcontent.trans ?_⟩
  unfold View.content
  rw [hval]

theorem freeExtent_fails (hf : img.f.Clean) :
    Meets (freeExtent p n) img (fun _ _ => True)
      fun _ img' => img' = { img with f := img.f.skip } := by
  simp only [freeExtent, meets_bind, meets_get, meets_modify]
  exact meets_writeFile hf (fun _ => trivial) fun _ => rfl

theorem allocateL2_guarded (h : ImageInv z g vsize img v) (hi : i < v.l1Size)
    (happend : v.alloc ≤ 2 ^ 62)
    (htable : v.l1 i = 0 → img.f.Accepts img.allocOffset img.clusterSize)
    (hcached : v.l1 i ≠ 0 → ∃ l2, img.l2Cache i = some l2) :
    Meets (allocateL2 i) img
      (fun _ img' => img'.allocOffset ≤ 2 ^ 62 ∧ (v.l1 i ≠ 0 → img' = img)) fun _ _ => False := by
  have hcap := h.capacity
  simp only [allocateL2, meets_bind, meets_get]
  rw [if_neg (by rw [h.mem.l1Size]; omega), h.mem.l1]
  by_cases h0 : v.l1 i = 0
  · have hfits := htable h0
    rw [if_neg (not_not.mpr h0)]
    simp only [meets_bind, meets_modify, meets_pure]
    apply meets_writeFile_ok
    · rw [h.mem.clusterSize, withTrailer_zeros, length_l2Bytes, ← h.mem.clusterSize]
      exact hfits
    · refine ⟨?_, fun hne => absurd h0 hne⟩
      have := Nat.mod_le (img.allocOffset + img.clusterSize) W64
      have := hfits.2
      show (img.allocOffset + img.clusterSize) % W64 ≤ 2 ^ 62
      omega
  · obtain ⟨l2, hl2⟩ := hcached h0
    rw [if_pos h0]
    simp only [getL2, meets_bind, meets_get, hl2]
    exact ⟨h.alloc ▸ happend, fun _ => rfl⟩

/-- The data of a cluster is placed and written: when a write fails, the cluster has its old
data. -/
theorem storeCluster_kept (h : ImageInv z g vsize img v) (hs : v.Settled g)
    (hold : OldExtent g v c e a) (happend : v.alloc ≤ 2 ^ 62) (hn : 4096 ∣ n) (hpos : 0 < n)
    (hle : n ≤ g.clusterSize)
    (hmoved : 0 < a → a < n → ∀ img₁ phys img₂, freeExtent (physOffset e) a img = (.ok (), img₁) →
      allocSpace n img₁ = (.ok phys, img₂) → img₂.f.Accepts phys bs.length) :
    Meets (placeCluster e a n) img
      (fun phys img' => Meets (writeFile op phys bs) img' (fun _ _ => True)
        fun _ => Kept z g vsize v) fun _ => Kept z g vsize v := by
  have hcs := g.clusterSize_le
  apply meets_ite
  · intro _
    exact meets_writeFile h.clean (fun _ => trivial) fun _ => kept_skip h hs
  · intro hplace
    rw [meets_bind]
    apply meets_when
    · intro ha
      obtain ⟨-, hdvd, hsize, hx⟩ := hold.resolve_left (by omega)
      have hdead : (v.forget c).Dead (.data c) := Function.update_self ..
      have hfree := freeExtent_spec (Y := Set.univ) (h.forget c).ledger hx hdead hdvd ha (by omega)
        fun _ _ => .inl trivial
      apply (hfree.and (freeExtent_fails h.clean)).and_eq.imp
      · rintro _ img₁ ⟨⟨h₁, -⟩, heq₁⟩
        apply (allocSpace_spec (c := c) h₁ hn hpos (by omega)).and_eq.imp
        · rintro phys img₂ ⟨-, heq₂⟩
          exact meets_writeFile_ok (hmoved ha (by omega) img₁ phys img₂ heq₁ heq₂) trivial
        · exact fun _ _ hfail => hfail.1
      · rintro _ _ ⟨⟨-, rfl⟩, -⟩
        exact kept_skip h hs
    · intro ha
      apply (allocSpace_spec (c := c) h.ledger hn hpos (by omega)).post
      rintro phys img₁ (⟨v₁, h₁, hsame, -⟩ | ⟨-, -, hfull⟩)
      · apply meets_writeFile h₁.clean
        · exact fun _ => trivial
        · intro _
          have hs₁ : v₁.Settled g := fun k hk => by
            rw [View.entry, hsame.tab]
            exact hs k (hsame.val ▸ hk)
          exact (kept_skip h₁.toImageInv hs₁).of_grows hsame.grows hsame.val
      · omega

theorem clusterEntry_of_lt (h : ImageInv z g vsize img v) (hi : c / g.l2Entries < v.l1Size) :
    img.clusterEntry c = v.entry g c := by
  have hl1 := h.mem.l1Size_lt
  rw [clusterEntry_eq h, foldCluster, Nat.mod_eq_of_lt (by omega), Nat.div_add_mod']

theorem Guarded.accepts (hguard : Guarded z c data img) (h : ImageInv z g vsize img v)
    (hi : c / g.l2Entries < v.l1Size) (he : e = v.entry g c) (hne : e ≠ 0)
    (ha : a = entrySize g.clusterSize img.f e) (hz : data.all (· == 0) = false)
    (hlt : a < storedSize z g.clusterSize data) {img₁ img₂ : QCow2Image} {phys : ℕ}
    (hfree : freeExtent (physOffset e) a img = (.ok (), img₁))
    (halloc : allocSpace (storedSize z g.clusterSize data) img₁ = (.ok phys, img₂)) :
    img₂.f.Accepts phys (storedBytes z g.clusterSize data).length := by
  have hmoved := hguard.moved
  unfold Moves at hmoved
  rw [clusterEntry_of_lt h hi, ← he, h.mem.clusterSize, ← ha] at hmoved
  exact hmoved ⟨hne, hz, hlt⟩ img₁ phys img₂ hfree halloc

theorem writeCluster_kept (h : ImageInv z g vsize img v) (hs : v.Settled g)
    (hi : c / g.l2Entries < v.l1Size) (hguard : Guarded z c data img)
    (hcached : v.l1 (c / g.l2Entries) ≠ 0 → ∃ l2, img.l2Cache (c / g.l2Entries) = some l2) :
    Meets (writeCluster z c data) img (fun _ _ => True) fun _ => Kept z g vsize v := by
  have hl1 := h.mem.l1Size_lt
  have hmod : c / g.l2Entries % 2 ^ 32 = c / g.l2Entries := Nat.mod_eq_of_lt (by omega)
  have htable := hguard.table
  rw [h.mem.l2Entries, h.mem.l1, hmod] at htable
  simp only [writeCluster, meets_bind, meets_get]
  rw [h.mem.l2Entries, h.mem.clusterSize, hmod]
  have hready := allocateL2_guarded h hi (h.alloc ▸ hguard.append) htable hcached
  apply ((allocateL2_spec h.ledger hi).and hready).imp
  · rintro l2 img₂ ⟨⟨v₂, h₂, hg, htab, hval, h0, hl2, -⟩, happend, hsame⟩
    have ht : TableReady g c l2 v v₂ := ⟨hg, htab, hval, hg.l1Size ▸ hi, h0, hl2⟩
    have hs₂ := ht.settled hs
    have hkept : ∀ img', Kept z g vsize v₂ img' → Kept z g vsize v img' :=
      fun _ hk => hk.of_grows hg hval
    apply (readOldAllocSize_spec h₂ hs₂ ht.entry).post
    rintro a img₂ ⟨rfl, hold, -, ha⟩
    apply meets_ite
    · intro _
      rw [meets_bind]
      apply meets_when
      · intro _
        apply (freeExtent_fails h₂.clean).imp
        · exact fun _ _ _ => trivial
        · rintro _ _ rfl
          exact hkept _ (kept_skip h₂.toImageInv hs₂)
      · exact fun _ => trivial
    · intro hz
      have hmoved : 0 < a → a < storedSize z g.clusterSize data → ∀ img₁ phys img₂',
          freeExtent (physOffset (l2 (c % g.l2Entries))) a img₂ = (.ok (), img₁) →
          allocSpace (storedSize z g.clusterSize data) img₁ = (.ok phys, img₂') →
          img₂'.f.Accepts phys (storedBytes z g.clusterSize data).length := by
        intro hpos hlt img₁ phys img₂' hfree halloc
        have he : l2 (c % g.l2Entries) = v.entry g c := by rw [ht.entry, View.entry, htab]; rfl
        have hne : l2 (c % g.l2Entries) ≠ 0 := fun he0 => by
          rw [if_pos he0] at ha
          omega
        -- the cluster has an entry, so its table was cached and nothing has been written yet
        obtain rfl := hsame fun hn => hne (he.trans (h.layout.tab_none _ (.inr hn) _))
        have hsize := ha.trans (if_neg hne)
        exact hguard.accepts h hi he hne hsize (by simpa using hz) hlt hfree halloc
      have hcs := g.le_clusterSize
      have happend₂ : v₂.alloc ≤ 2 ^ 62 := h₂.alloc ▸ happend
      unfold storedSize storedBytes at hmoved
      cases hcomp : compressed z g.clusterSize data with
      | some comp =>
        rw [hcomp] at hmoved
        obtain ⟨-, hpos, hlt⟩ := compressed_eq_some hcomp
        have hup := le_alignUp (4 + comp.length)
        simp only [meets_bind]
        apply (storeCluster_kept h₂.toImageInv hs₂ hold happend₂ (dvd_alignUp _) (by omega)
          (alignUp_le g (by omega)) hmoved).imp
        · exact fun _ _ hw => hw.imp (fun _ _ _ => trivial) fun _ => hkept
        · exact fun _ => hkept
      | none =>
        rw [hcomp] at hmoved
        simp only [meets_bind]
        apply (storeCluster_kept h₂.toImageInv hs₂ hold happend₂ g.dvd_clusterSize (by omega) le_rfl
          hmoved).imp
        · exact fun _ _ hw => hw.imp (fun _ _ _ => trivial) fun _ => hkept
        · exact fun _ => hkept
  · exact fun _ _ hfail => hfail.2.elim

theorem trimWhole_kept (h : ImageInv z g vsize img v) (hs : v.Settled g)
    (hi : c / g.l2Entries < v.l1Size) :
    Meets (trimWhole c) img (fun _ _ => True) fun _ => Kept z g vsize v := by
  have hl1 := h.mem.l1Size_lt
  simp only [trimWhole, meets_bind, meets_get]
  rw [h.mem.l2Entries, h.mem.l1, h.mem.l1Size,
    Nat.mod_eq_of_lt (show c / g.l2Entries < 2 ^ 32 by omega)]
  apply meets_when
  · rintro ⟨-, h0⟩
    rw [meets_bind]
    apply (getL2_spec h hi h0).post
    rintro l2 img₁ ⟨h₁, -, hl2⟩
    have ht : TableReady g c l2 v v := ⟨.refl v, rfl, rfl, hi, h0, hl2⟩
    apply meets_when
    · intro _
      rw [meets_bind]
      apply (readOldAllocSize_spec h₁.ledger hs ht.entry).post
      rintro a img₁ ⟨rfl, -⟩
      rw [meets_bind]
      apply meets_when
      · intro _
        apply (freeExtent_fails h₁.clean).imp
        · exact fun _ _ _ => trivial
        · rintro _ _ rfl
          exact kept_skip h₁ hs
      · exact fun _ => trivial
    · exact fun _ => trivial
  · exact fun _ => trivial

theorem meets_readFile_same {Q : List UInt8 → QCow2Image → Prop} (hQ : ∀ bs, Q bs img) :
    Meets (readFile op off n) img Q fun _ _ => True := by
  unfold Meets readFile
  cases img.f.readAt off n with
  | some bs => exact hQ bs
  | none => trivial

theorem readEntry_same (z : Codec) (e : ℕ) (img : QCow2Image) :
    Meets (readEntry z e) img (fun _ img' => img' = img) fun _ _ => True := by
  simp only [readEntry, meets_bind, meets_get]
  apply meets_ite
  · intro _
    rw [meets_bind]
    refine meets_readFile_same fun buf => ?_
    rw [meets_bind]
    refine meets_readFile_same fun comp => ?_
    cases z.decompress comp img.clusterSize with
    | none => trivial
    | some d => exact meets_ite (fun _ => trivial) fun _ => rfl
  · exact fun _ => meets_readFile_same fun _ => rfl

theorem getL2_cached (i : ℕ) (img : QCow2Image) :
    Meets (getL2 i) img (fun _ img' => ∃ l2, img'.l2Cache i = some l2) fun _ _ => True := by
  simp only [getL2, meets_bind, meets_get]
  cases hc : img.l2Cache i with
  | some l2 => exact ⟨l2, hc⟩
  | none =>
    simp only [meets_bind, meets_modify, meets_pure, Function.update_self]
    exact meets_of_forall (fun l2 _ => ⟨l2, rfl⟩) fun _ _ => trivial

theorem readCluster_cached (z : Codec) (h0 : img.l1Table (c / img.l2Entries % 2 ^ 32) ≠ 0)
    (hi : c / img.l2Entries % 2 ^ 32 < img.l1Size) :
    Meets (readCluster z c) img
      (fun _ img' => ∃ l2, img'.l2Cache (c / img.l2Entries % 2 ^ 32) = some l2)
      fun _ _ => True := by
  simp only [readCluster, meets_bind, meets_get]
  rw [if_neg (not_or.mpr ⟨Nat.not_le.mpr hi, h0⟩), meets_bind]
  apply (getL2_cached _ img).post
  intro l2 img₁ hc
  apply meets_ite
  · exact fun _ => hc
  · intro _
    apply (readEntry_same z _ img₁).post
    rintro _ _ rfl
    exact hc

theorem readCluster_ready (h : ImageInv z g vsize img v) (hs : v.Settled g)
    (hi : c / g.l2Entries < v.l1Size) :
    Meets (readCluster z c) img (fun d img' => d.length = g.clusterSize ∧
      ImageInv z g vsize img' v ∧
      (v.l1 (c / g.l2Entries) ≠ 0 → ∃ l2, img'.l2Cache (c / g.l2Entries) = some l2)) E := by
  have hl1 := h.mem.l1Size_lt
  have hmod : c / g.l2Entries % 2 ^ 32 = c / g.l2Entries := Nat.mod_eq_of_lt (by omega)
  have hread := readCluster_spec (E := fun _ _ => False) h hs hi
  by_cases h0 : v.l1 (c / g.l2Entries) = 0
  · apply hread.imp
    · rintro _ img' ⟨rfl, h', -⟩
      exact ⟨h.layout.length_content _, h', fun hne => absurd h0 hne⟩
    · exact fun _ _ hfalse => hfalse.elim
  · have hcached : Meets (readCluster z c) img _ _ := readCluster_cached z
      (by rwa [h.mem.l2Entries, h.mem.l1, hmod]) (by rwa [h.mem.l2Entries, h.mem.l1Size, hmod])
    rw [h.mem.l2Entries, hmod] at hcached
    apply (hread.and hcached).imp
    · rintro _ img' ⟨⟨rfl, h', -⟩, hc⟩
      exact ⟨h.layout.length_content _, h', fun _ => hc⟩
    · exact fun _ _ hfalse => hfalse.1.elim

theorem writeChunk_kept {c : Chunk} (h : ImageInv z g vsize img v) (hs : v.Settled g)
    (hi : c.cluster / g.l2Entries < v.l1Size)
    (hguard : GuardedChunk z ((data.drop c.pos).take c.len) c img) :
    Meets (writeChunk z data c) img (fun _ _ => True) fun _ => Kept z g vsize v := by
  simp only [writeChunk, meets_bind]
  apply (readCluster_ready (E := fun _ _ => False) h hs hi).and_eq.imp
  · rintro d img₁ ⟨⟨-, h₁, hcached⟩, hread⟩
    exact writeCluster_kept h₁ hs hi (hguard d img₁ hread) hcached
  · exact fun _ _ hfalse => hfalse.1.elim

theorem trimPart_kept {c : Chunk} (h : ImageInv z g vsize img v) (hs : v.Settled g)
    (hi : c.cluster / g.l2Entries < v.l1Size)
    (hguard : img.clusterEntry c.cluster ≠ 0 →
      GuardedChunk z (List.replicate c.len 0) c img) :
    Meets (trimPart z c) img (fun _ _ => True) fun _ => Kept z g vsize v := by
  have hl1 := h.mem.l1Size_lt
  have hmod : c.cluster / g.l2Entries % 2 ^ 32 = c.cluster / g.l2Entries :=
    Nat.mod_eq_of_lt (by omega)
  simp only [trimPart, meets_bind, meets_get]
  rw [h.mem.l2Entries, h.mem.l1, h.mem.l1Size, hmod]
  apply (readCluster_ready (E := fun _ _ => False) h hs hi).and_eq.imp
  · rintro d img₁ ⟨⟨-, h₁, hcached⟩, hread⟩
    apply meets_when
    · rintro ⟨-, h0⟩
      obtain ⟨l2, hl2⟩ := hcached h0
      simp only [getL2, meets_bind, meets_get, hl2, meets_pure]
      apply meets_when
      · intro hne
        have hentry : img.clusterEntry c.cluster ≠ 0 := by
          rw [clusterEntry_of_lt h hi]
          rwa [(h₁.mem.cached _ _ hl2).2.2 _ (Nat.mod_lt _ g.l2Entries_pos)] at hne
        exact writeCluster_kept h₁ hs hi (hguard hentry d img₁ hread) hcached
      · exact fun _ => trivial
    · exact fun _ => trivial
  · exact fun _ _ hfalse => hfalse.1.elim

/-- A call has failed: outside of its range the image holds the bytes of `A`. -/
def Stopped (z : Codec) (g : Geometry) (vsize : ℕ) (v : View) (A : ℕ → UInt8) (r : Set ℕ)
    (_ : QCow2Error) (img : QCow2Image) : Prop :=
  ∃ B, (∀ a ∉ r, B a = A a) ∧ Serves z g vsize v B img

theorem overlay_outside (hn : bs.length ≤ n) (ha : a ∉ Set.Ico off (off + n)) :
    overlay A off bs a = A a := by
  rw [Set.mem_Ico] at ha
  exact overlay_of_not (by omega)

theorem Kept.serves {v₁ : View} (h : Kept z g vsize v₁ img) (hg : v.Grows v₁) :
    Serves z g vsize v (v₁.guest g) img := by
  obtain ⟨v', h', hs', hg', hcontent⟩ := h
  exact ⟨v', h', hs', hg.trans hg', congrArg (flat g.clusterSize) hcontent⟩

theorem writeChunk_guarded {c : Chunk} (hspan : off + data.length ≤ v.span g)
    (hfits : c.Fits g.clusterSize off data.length)
    (hguard : GuardedChunk z ((data.drop c.pos).take c.len) c img)
    (h : Serves z g vsize v (overlay A off (data.take c.pos)) img) :
    Meets (writeChunk z data c) img
      (fun _ => Serves z g vsize v (overlay A off (data.take (c.pos + c.len))))
      (Stopped z g vsize v A (Set.Ico off (off + data.length))) := by
  have hdone := writeChunk_spec hspan hfits h
  obtain ⟨v₁, h₁, hs₁, hg₁, hA⟩ := h
  rw [← hg₁.span_eq] at hspan
  apply (hdone.and (writeChunk_kept h₁ hs₁ (l1_lt_of_fits hfits hspan) hguard)).imp
  · exact fun _ _ hQ => hQ.1
  · rintro _ img' ⟨-, hkept⟩
    have hbelow := hfits.below
    refine ⟨_, fun a ha => overlay_outside ?_ ha, hA ▸ hkept.serves hg₁⟩
    rw [List.length_take]
    omega

theorem trimChunk_guarded {c : Chunk} (hspan : off + n ≤ v.span g)
    (hfits : c.Fits g.clusterSize off n)
    (hguard : ¬ (c.off = 0 ∧ c.len = img.clusterSize) → img.clusterEntry c.cluster ≠ 0 →
      GuardedChunk z (List.replicate c.len 0) c img)
    (h : Serves z g vsize v (overlay A off (List.replicate c.pos 0)) img) :
    Meets (trimChunk z c) img
      (fun _ => Serves z g vsize v (overlay A off (List.replicate (c.pos + c.len) 0)))
      (Stopped z g vsize v A (Set.Ico off (off + n))) := by
  have hdone := trimChunk_spec hspan hfits h
  obtain ⟨v₁, h₁, hs₁, hg₁, hA⟩ := h
  rw [← hg₁.span_eq] at hspan
  have hi := l1_lt_of_fits hfits hspan
  have hkept : Meets (trimChunk z c) img (fun _ _ => True) fun _ => Kept z g vsize v₁ := by
    simp only [trimChunk, meets_bind, meets_get]
    apply meets_ite
    · exact fun _ => trimWhole_kept h₁ hs₁ hi
    · exact fun hpart => trimPart_kept h₁ hs₁ hi (hguard hpart)
  apply (hdone.and hkept).imp
  · exact fun _ _ hQ => hQ.1
  · rintro _ img' ⟨-, hkept⟩
    have hbelow := hfits.below
    refine ⟨_, fun a ha => overlay_outside ?_ ha, hA ▸ hkept.serves hg₁⟩
    rw [List.length_replicate]
    omega

/-- The guest bytes that the image can store. -/
def mapped (img : QCow2Image) : ℕ := min (img.l1Size * tableSpan img.clusterSize) W64

/-- What must hold of an image at all times, when its guest has the bytes of `A`. -/
structure Intact (z : Codec) (A : ℕ → UInt8) (img : QCow2Image) : Prop where
  noOverlap : ∃ fl, NoOverlap img fl
  tables : ∀ i < img.l1Size, img.l1Table i ≠ 0 → ∃ l2 img', getL2 i img = (.ok l2, img')
  reads : ∀ off n, off + n ≤ img.mapped → ∃ img', readAt z off n img = (.ok (window A off n), img')

theorem mapped_eq (h : ImageInv z g vsize img v) : img.mapped = min (v.span g) W64 := by
  unfold mapped View.span
  rw [h.mem.l1Size, h.mem.clusterSize, tableSpan_eq]

theorem Serves.intact (h : Serves z g vsize v A img) : Intact z A img := by
  obtain ⟨v', h, hs, -, rfl⟩ := h
  refine ⟨⟨_, noOverlap_of_inv h hs⟩, fun i hi h0 => ?_, fun off n hn => ?_⟩
  · rw [h.mem.l1Size] at hi
    rw [h.mem.l1] at h0
    obtain ⟨l2, img', hget, -⟩ := (getL2_spec h hi h0).exists_ok
    exact ⟨l2, img', hget⟩
  · rw [mapped_eq h, le_min_iff] at hn
    obtain ⟨_, img', hread, rfl, -⟩ := (readAt_spec h hs hn.1 hn.2).exists_ok
    exact ⟨img', hread⟩

end QCow2Image

open QCow2Image

namespace ImageOp

/-- The guest bytes of a call. -/
def range : ImageOp → Set ℕ
  | write off data => Set.Ico off (off + data.length)
  | trim off length => Set.Ico off (off + length)
  | flush => ∅
  | reopen => ∅

/-- The writes of the call that must not fail do not fail. A whole cluster can be trimmed
without such a write, and so can a cluster that has no entry. -/
def Guarded (z : Codec) (img : QCow2Image) : ImageOp → Prop
  | write off data =>
    AtEach (writeChunk z data) (fun c => GuardedChunk z ((data.drop c.pos).take c.len) c)
      (chunks img.clusterBits img.clusterSize off data.length) img
  | trim off length =>
    AtEach (trimChunk z) (fun c img => ¬ (c.off = 0 ∧ c.len = img.clusterSize) →
        img.clusterEntry c.cluster ≠ 0 → GuardedChunk z (List.replicate c.len 0) c img)
      (chunks img.clusterBits img.clusterSize off length) img
  | flush => False
  | reopen => False

end ImageOp

namespace QCow2Image

theorem exec_guarded {op : ImageOp} (h : Serves z g vsize v A img) (hin : op.Inside img.mapped)
    (hguard : op.Guarded z img) :
    Meets (op.exec z) img (fun _ => Serves z g vsize v (op.apply A))
      (Stopped z g vsize v A op.range) := by
  obtain ⟨v₁, h₁, hs, hg, hA⟩ := id h
  rw [mapped_eq h₁, hg.span_eq] at hin
  cases op with
  | write off data =>
    obtain ⟨hspan, hn⟩ := le_min_iff.mp hin
    rw [ImageOp.Guarded, h₁.mem.clusterBits, h₁.mem.clusterSize] at hguard
    simp only [ImageOp.exec, writeAt, meets_bind, meets_get]
    have hloop := meets_forM_atEach
      (fun pos => Serves z g vsize v (overlay A off (data.take pos)))
      (fun c img hfits hc hI => writeChunk_guarded hspan hfits hc hI)
      (tiles_geometry g hn) hguard
      (by rw [List.take_zero, overlay_nil]; exact h)
    rw [List.take_length] at hloop
    rw [h₁.mem.clusterBits, h₁.mem.clusterSize]
    exact hloop
  | trim off length =>
    obtain ⟨hspan, hn⟩ := le_min_iff.mp hin
    rw [ImageOp.Guarded, h₁.mem.clusterBits, h₁.mem.clusterSize] at hguard
    simp only [ImageOp.exec, QCow2Image.trim, meets_bind, meets_get]
    have hloop := meets_forM_atEach
      (fun pos => Serves z g vsize v (overlay A off (List.replicate pos 0)))
      (fun c img hfits hc hI => trimChunk_guarded hspan hfits hc hI)
      (tiles_geometry g hn) hguard
      (by rw [List.replicate_zero, overlay_nil]; exact h)
    rw [h₁.mem.clusterBits, h₁.mem.clusterSize]
    exact hloop
  | flush => exact hguard.elim
  | reopen => exact hguard.elim

end QCow2Image

/-- Every call of the run lies in the bytes that the image maps, and is guarded. Runs go on
after a call that failed. -/
def GuardedRun (z : Codec) : List ImageOp → QCow2Image → Prop
  | [], _ => True
  | op :: ops, img => op.Inside img.mapped ∧ op.Guarded z img ∧ GuardedRun z ops (op.exec z img).2

/-- The image is intact at all times of the run: a call that succeeds acts on the byte array of
the guest, and one that fails may change the bytes of its range. -/
def Contained (z : Codec) : List ImageOp → (ℕ → UInt8) → QCow2Image → Prop
  | [], A, img => Intact z A img
  | op :: ops, A, img => Intact z A img ∧
      ∃ B, ((op.exec z img).1 = .ok () → B = op.apply A) ∧ (∀ a ∉ op.range, B a = A a) ∧
        Contained z ops B (op.exec z img).2

theorem ImageOp.apply_outside (op : ImageOp) (ha : a ∉ op.range) : op.apply A a = A a := by
  cases op with
  | write off data => exact overlay_outside le_rfl ha
  | trim off length => exact overlay_outside (List.length_replicate).le ha
  | flush => rfl
  | reopen => rfl

theorem contained_of_serves {calls : List ImageOp} (h : Serves z g vsize v A img)
    (hcalls : GuardedRun z calls img) : Contained z calls A img := by
  induction calls generalizing A img with
  | nil => exact h.intact
  | cons op calls ih =>
    obtain ⟨hin, hguard, hrest⟩ := hcalls
    have hexec := exec_guarded h hin hguard
    refine ⟨h.intact, ?_⟩
    unfold Meets at hexec
    generalize op.exec z img = r at hexec hrest ⊢
    match r, hexec with
    | (.ok (), img'), hserves =>
      exact ⟨op.apply A, fun _ => rfl, fun _ ha => op.apply_outside ha, ih hserves hrest⟩
    | (.error _, img'), ⟨B, hB, hserves⟩ =>
      exact ⟨B, fun hok => (nomatch hok), hB, ih hserves hrest⟩

/-- The image with a schedule of write failures. -/
def QCow2Image.withFaults (img : QCow2Image) (faults : ℕ → Option ℕ) : QCow2Image :=
  { img with f := { img.f with faults := faults } }

theorem ImageInv.withFaults (h : ImageInv z g vsize img v) {faults : ℕ → Option ℕ}
    (hf : ∀ i n, faults i = some n → n = 0) : ImageInv z g vsize (img.withFaults faults) v :=
  h.of_layout (h.layout.frame le_rfl (fun _ _ => rfl) fun _ _ _ _ _ => rfl) (.refl v) hf rfl
    h.alloc h.head

/-- From every state of every history of a new image, and for every schedule of failing writes
that store nothing: a run of guarded calls leaves the image intact at all times. -/
theorem failed_calls_contained (z : Codec) {capacity virtualSize clusterBits : ℕ}
    {img₀ img : QCow2Image} (hcap : capacity ≤ 2 ^ 62) (hv : virtualSize < W64)
    (hcreate : createQCow2 (File.empty capacity fun _ => none) virtualSize clusterBits = .ok img₀)
    (hrun : Reaches z (fun _ _ => True) img₀ img) {faults : ℕ → Option ℕ}
    (hfaults : ∀ i n, faults i = some n → n = 0) {calls : List ImageOp}
    (hcalls : GuardedRun z calls (img.withFaults faults)) :
    ∃ A, Contained z calls A (img.withFaults faults) := by
  obtain ⟨g, v, h, hs⟩ := reachable_inv z hcap hv hcreate hrun
  have hserves : Serves z g virtualSize v (v.guest g) (img.withFaults faults) :=
    ⟨v, h.withFaults hfaults, hs, .refl v, rfl⟩
  exact ⟨v.guest g, contained_of_serves hserves hcalls⟩

/-- The first cluster of an image without L2 tables can be written if the table can be. -/
theorem guarded_first (hbits : img.clusterBits = g.clusterBits)
    (hsize : img.clusterSize = g.clusterSize) (hl1 : ∀ i, img.l1Table i = 0)
    (happend : img.allocOffset ≤ 2 ^ 62) (htable : img.f.Accepts img.allocOffset img.clusterSize)
    (hlen : data.length = g.clusterSize) : ImageOp.Guarded z img (.write 0 data) := by
  have hread : ∀ c, Meets (readCluster z c) img (fun _ img' => img' = img) fun _ _ => False := by
    intro c
    simp only [readCluster, meets_bind, meets_get]
    rw [if_pos (.inr (hl1 _))]
    rfl
  rw [ImageOp.Guarded, hbits, hsize, hlen, chunks_cluster]
  refine ⟨fun d img' heq => ?_, fun _ _ => trivial⟩
  obtain rfl := (hread _).of_eq_ok heq
  refine ⟨happend, fun _ => htable, fun hmoves => absurd ?_ hmoves.1⟩
  exact if_neg fun h => h.2 (hl1 _)

/-- The write of the data of a new image's first cluster fails. -/
theorem small_data_contained :
    ∃ A, Contained Codec.none [.write 0 (smallData 2)] A
      (smallImage.withFaults fun i => if i = 3 then some 0 else none) := by
  refine failed_calls_contained Codec.none le_rfl (by decide) createQCow2_small .refl ?_
    ⟨?_, ?_, trivial⟩
  · intro i n hn
    split_ifs at hn
    exact (Option.some.inj hn).symm
  · show 0 + (smallData 2).length ≤ _
    rw [length_smallData]
    decide
  · exact guarded_first (g := smallGeometry) rfl rfl (fun _ => rfl) (by decide) (by decide)
      (length_smallData 2)

/-- The L2 table for the first cluster cannot be written: then no cluster of that table can be
read. -/
theorem failed_table_unreadable :
    createQCow2 (File.empty (2 ^ 62) fun _ => none) (2 ^ 20) 13 = .ok smallImage ∧
      (readAt Codec.none 8192 1
        (smallImage.withFaults fun i => if i = 2 then some 0 else none)).1 = .ok [0] ∧
      (writeAt Codec.none [1] 0
        (smallImage.withFaults fun i => if i = 2 then some 0 else none)).1 =
          .error (.write .l2Table) ∧
      (readAt Codec.none 8192 1 (writeAt Codec.none [1] 0
        (smallImage.withFaults fun i => if i = 2 then some 0 else none)).2).1 =
          .error (.read .l2Table) := by
  refine ⟨createQCow2_small, ?_, ?_, ?_⟩ <;> decide +kernel

end Lbd.QCow2
