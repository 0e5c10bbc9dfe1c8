import Lbd.QCow2.ImageFlat

/-!
# Creating, closing and opening a `QCow2Image`

`Flush` and `Close` write back what only memory holds, so that `OpenQCow2` finds
the same image again.
-/

namespace Lbd.QCow2

open Act

variable {z : Codec} {g : Geometry} {vsize : ℕ} {img : QCow2Image} {v : View}
  {off i : ℕ} {bs : List UInt8}

theorem ImageInv.resync (h : ImageInv z g vsize img v) {s : ℕ → Prop} (hs : ∀ i, s i → v.synced i)
    (hu : ∀ i, v.synced i → s i) : ImageInv z g vsize img { v with synced := s } :=
  { h with
    mem := { h.mem with uncached := fun i hi => hu i (h.mem.uncached i hi) }
    layout := h.layout.synced_mono hs }

theorem ImageInv.flushTable (h : ImageInv z g vsize img v) (hi : i < v.l1Size) (h0 : v.l1 i ≠ 0) :
    ImageInv z g vsize { img with f := img.f.put (v.l1 i) (l2Bytes g.l2Entries (v.tab i)) }
      { v with synced := fun k => k = i ∨ v.synced k } :=
  { h with
    mem := { h.mem with uncached := fun i hi => .inr (h.mem.uncached i hi) }
    layout := h.layout.flush hi h0 }

theorem ImageInv.putMeta (h : ImageInv z g vsize img v) (hoff : 36 ≤ off)
    (hend : off + bs.length ≤ v.metaEnd) :
    ImageInv z g vsize { img with f := img.f.put off bs }
      { v with metaByte := overlay v.metaByte off bs } :=
  { h with
    mem := { h.mem with
      fixed := h.mem.fixed.overlay_of_disjoint (by rw [length_fixedHeader]; omega) }
    layout := h.layout.putMeta hend }

/-- The view after everything was written back. -/
structure Flushed (v v' : View) : Prop where
  l1 : v'.l1 = v.l1
  l1Size : v'.l1Size = v.l1Size
  metaEnd : v'.metaEnd = v.metaEnd
  tab : v'.tab = v.tab
  val : v'.val = v.val
  synced : ∀ i < v.l1Size, v'.synced i
  persisted : v'.Persisted headerSize

theorem Flushed.settled {v' : View} (h : Flushed v v') (hs : v.Settled g) : v'.Settled g := by
  intro c hc
  rw [View.entry, h.tab]
  exact hs c (h.val ▸ hc)

theorem Flushed.guest {v' : View} (h : Flushed v v') : v'.guest g = v.guest g := by
  unfold View.guest View.content
  rw [h.val]

namespace QCow2Image

theorem writeL2Table_spec {l2 : ℕ → ℕ} (h : ImageInv z g vsize img v) (hi : i < v.l1Size)
    (h0 : v.l1 i ≠ 0) (hl2 : ∀ j < g.l2Entries, l2 j = v.tab i j) :
    Meets (writeL2Table i l2) img (fun _ img' =>
      ImageInv z g vsize img' { v with synced := fun k => k = i ∨ v.synced k }) WriteFailed := by
  simp only [writeL2Table, meets_bind, meets_get]
  rw [h.mem.l1, h.mem.l2Entries, l2Bytes, tableBytes_congr hl2]
  apply meets_when
  · intro _
    apply meets_writeFile h.clean
    · intro _
      exact h.flushTable hi h0
    · exact fun _ => rfl
  · exact fun hn => absurd h0 hn

theorem writeCachedTables_spec (h : ImageInv z g vsize img v) :
    Meets writeCachedTables img (fun _ img' =>
      ImageInv z g vsize img' { v with synced := fun k => k < v.l1Size ∨ v.synced k })
      WriteFailed := by
  simp only [writeCachedTables, meets_bind, meets_get]
  rw [h.mem.l1Size]
  simp only [← List.mem_range (n := v.l1Size)]
  apply meets_forM (fun pre img' =>
    ImageInv z g vsize img' { v with synced := fun k => k ∈ pre ∨ v.synced k })
  · exact h.resync (by simp) (by simp)
  · intro pre i post img' _ h'
    unfold writeCached
    cases hc : img.l2Cache i with
    | none =>
      have hi := h.mem.uncached i hc
      refine h'.resync (fun k hk => ?_) fun k hk => ?_
      · rw [List.mem_append, List.mem_singleton] at hk
        rcases hk with (hk | rfl) | hk
        · exact .inl hk
        · exact .inr hi
        · exact .inr hk
      · exact hk.imp_left (List.mem_append_left _)
    | some l2 =>
      obtain ⟨hi, h0, hl2⟩ := h.mem.cached i l2 hc
      apply (writeL2Table_spec h' hi h0 hl2).post
      intro _ img'' h''
      have hiff : ∀ k, (k ∈ pre ++ [i] ∨ v.synced k) ↔ (k = i ∨ k ∈ pre ∨ v.synced k) := by
        intro k
        rw [List.mem_append, List.mem_singleton]
        tauto
      exact h''.resync (fun k => (hiff k).mp) fun k => (hiff k).mpr

theorem writeMeta_spec {op : FileOp} (h : ImageInv z g vsize img v) (hoff : 36 ≤ off)
    (hend : off + bs.length ≤ v.metaEnd) :
    Meets (writeFile op off bs) img (fun _ img' =>
      ImageInv z g vsize img' { v with metaByte := overlay v.metaByte off bs }) WriteFailed := by
  apply meets_writeFile h.clean
  · exact fun _ => h.putMeta hoff hend
  · exact fun _ => rfl

theorem persisted_overlay (v : View) :
    View.Persisted { v with
      metaByte := overlay (overlay (overlay v.metaByte headerSize (tableBytes v.l1Size v.l1)) 36
        (beBytes 8 v.alloc)) 48 (beBytes 8 v.head) } headerSize := by
  refine ⟨?_, ?_, at_overlay⟩
  · apply At.overlay_of_disjoint
    · apply at_overlay.overlay_of_disjoint
      rw [length_beBytes]
      unfold headerSize
      omega
    · rw [length_beBytes]
      unfold headerSize
      omega
  · apply at_overlay.overlay_of_disjoint
    rw [length_beBytes]
    omega

theorem flush_spec (h : ImageInv z g vsize img v) (hfit : v.l1Size * 8 < 2 ^ 32) :
    Meets flush img (fun _ img' => ∃ v', ImageInv z g vsize img' v' ∧ Flushed v v')
      WriteFailed := by
  have hle := h.mem.l1_le
  have hhdr := h.layout.header_le
  unfold headerSize at hle hhdr
  simp only [flush, writeL1Table, writeAllocOffset, meets_bind, meets_get]
  apply (writeCachedTables_spec h).post
  intro _ img₁ h₁
  rw [h₁.mem.l1Offset, h₁.mem.l1Size, h₁.mem.l1, if_neg (Nat.not_le.mpr hfit)]
  apply (writeMeta_spec h₁ (by unfold headerSize; omega)
    (by rw [length_tableBytes]; exact h.mem.l1_le)).post
  intro _ img₂ h₂
  rw [h₂.alloc, h₂.head]
  apply (writeMeta_spec h₂ le_rfl (by rw [length_beBytes]; show 36 + 8 ≤ v.metaEnd; omega)).post
  intro _ img₃ h₃
  apply (writeMeta_spec h₃ (by norm_num)
    (by rw [length_beBytes]; show 48 + 8 ≤ v.metaEnd; omega)).post
  intro _ img₄ h₄
  exact ⟨_, h₄, rfl, rfl, rfl, rfl, rfl, fun i hi => .inl hi,
    persisted_overlay { v with synced := fun k => k < v.l1Size ∨ v.synced k }⟩

theorem close_spec (h : ImageInv z g vsize img v) (hfit : v.l1Size * 8 < 2 ^ 32) :
    Meets close img (fun _ img' => ∃ v', ImageInv z g vsize img' v' ∧ Flushed v v')
      WriteFailed := by
  simp only [close, meets_bind, meets_get]
  apply meets_when
  · exact fun _ => flush_spec h hfit
  · exact fun hn => absurd h.mem.readOnly hn

end QCow2Image

theorem openQCow2File_eq {f : File} {hdr l1Buf : List UInt8}
    {clusterBits virtualSize l1Offset l1Size allocOffset freeListHead : ℕ}
    (hhdr : f.readAt 0 headerSize = some hdr)
    (h : HeaderFields hdr clusterBits virtualSize l1Offset l1Size allocOffset freeListHead)
    (hl1 : f.readAt l1Offset (l1Size * 8 % 2 ^ 32) = some l1Buf) (hbits : clusterBits < 32)
    (hfit : l1Size * 8 < 2 ^ 32) :
    openQCow2File f = .ok {
      f := f
      readOnly := false
      clusterBits := clusterBits
      clusterSize := 2 ^ clusterBits
      l2Entries := (2 ^ clusterBits + 2 ^ 32 - l2TrailerSize) % 2 ^ 32 / 8
      virtualSize := virtualSize
      l1Table := fun i => get64 l1Buf (8 * i)
      l1Size := l1Size
      l1Offset := l1Offset
      allocOffset := allocOffset
      freeListHead := freeListHead
      l2Cache := fun _ => none } := by
  rw [openQCow2File, hhdr]
  dsimp only
  rw [if_neg (not_not.mpr h.magic), if_neg (not_not.mpr h.version), h.clusterBits, h.l1Size,
    h.l1Offset, hl1, h.virtualSize, h.allocOffset, h.freeListHead, if_pos hbits]
  dsimp only
  rw [if_neg (Nat.not_le.mpr hfit)]

theorem openQCow2File_spec (h : ImageInv z g vsize img v) (hfit : v.l1Size * 8 < 2 ^ 32)
    (hp : v.Persisted headerSize) (hs : ∀ i < v.l1Size, v.synced i) :
    ∃ img', openQCow2File img.f = .ok img' ∧ (∀ i < v.l1Size, img'.l1Table i = v.l1 i) ∧
      ImageInv z g vsize img' { v with l1 := img'.l1Table, synced := fun _ => True } := by
  have hle := h.mem.l1_le
  have hhdr := h.layout.header_le
  have hsize := h.layout.meta_le_size
  have halloc := h.layout.alloc_le
  have hlen := length_tableBytes v.l1Size v.l1
  have hg := g.upper
  have hcs := g.eight_mul_l2Entries
  have hcs' := g.clusterSize_le
  unfold headerSize at hle hhdr
  have hmeta : ∀ {off bs}, At v.metaByte off bs → off + bs.length ≤ v.metaEnd →
      At img.f.byte off bs := fun hat hend =>
    hat.congr fun a _ ha => h.layout.metaByte a (by omega)
  have hfields := headerFields
    (hmeta h.mem.fixed (by rw [length_fixedHeader]; omega))
    (hmeta hp.alloc (by rw [length_beBytes]; omega))
    (hmeta hp.head (by rw [length_beBytes]; omega))
    (by omega) h.mem.vsize_lt (by norm_num [headerSize]) (by omega) (by omega) h.layout.head_lt
  have hread : img.f.readAt 0 headerSize = some (window img.f.byte 0 headerSize) :=
    if_pos (by unfold headerSize; omega)
  have hl1At : img.f.Reads headerSize (tableBytes v.l1Size v.l1) := by
    refine ⟨?_, hmeta hp.l1 ?_⟩ <;> rw [hlen] <;> unfold headerSize <;> omega
  have hreadL1 : img.f.readAt headerSize (v.l1Size * 8 % 2 ^ 32) =
      some (tableBytes v.l1Size v.l1) := hl1At.readAt (by rw [hlen]; omega)
  have hl1Table : ∀ i < v.l1Size, get64 (tableBytes v.l1Size v.l1) (8 * i) = v.l1 i :=
    fun i hi => get64_tableBytes hi (h.layout.l1_lt hi)
  have hentries : (2 ^ g.clusterBits + 2 ^ 32 - l2TrailerSize) % 2 ^ 32 / 8 = g.l2Entries := by
    change (g.clusterSize + 2 ^ 32 - l2TrailerSize) % 2 ^ 32 / 8 = g.l2Entries
    unfold l2TrailerSize
    omega
  refine ⟨_, openQCow2File_eq hread hfields hreadL1 (by omega) hfit, hl1Table, ?_⟩
  · refine ⟨?_, ?_, h.clean, h.capacity, rfl, rfl⟩
    · exact { h.mem with
        readOnly := rfl
        clusterBits := rfl
        clusterSize := rfl
        l2Entries := hentries
        virtualSize := rfl
        l1 := rfl
        l1Size := rfl
        l1Offset := rfl
        cached := fun _ _ hc => nomatch hc
        uncached := fun _ _ => trivial }
    · have hl := h.layout.l1_congr hl1Table
      exact { hl with synced := fun i hi h0 _ => hl.synced i hi h0 (hs i hi) }

/-- The file that `CreateQCow2` leaves. -/
def newFile (f : File) (virtualSize clusterBits l1Size allocOffset : ℕ) : File :=
  ((f.put 0 (newHeader clusterBits virtualSize headerSize l1Size allocOffset)).put headerSize
    (List.replicate (l1Size * 8 % 2 ^ 32) 0)).extend allocOffset

theorem createQCow2_eq {f : File} {virtualSize clusterBits : ℕ}
    (h : createQCow2 f virtualSize clusterBits = .ok img) :
    ∃ l1Size allocOffset, l1Size = newL1Size virtualSize (2 ^ clusterBits) ∧
      allocOffset = alignUp (2 ^ clusterBits) (headerSize + l1Size * 8) ∧
      allocOffset ≤ f.capacity ∧
      img = newImage (newFile f virtualSize clusterBits l1Size allocOffset) virtualSize clusterBits
        l1Size allocOffset := by
  unfold createQCow2 at h
  dsimp only at h
  split_ifs at h with hbits hw1 hw2 hcap
  rw [File.writeAt_snd_of_fst hw1] at hw2 hcap h
  rw [File.writeAt_snd_of_fst hw2] at hcap h
  exact ⟨_, _, rfl, rfl, Nat.not_lt.mp hcap, (Except.ok.inj h).symm⟩

theorem createQCow2_ok (g : Geometry) {f : File} {virtualSize l1Size allocOffset : ℕ}
    (hf : f.NoFaults) (hl1 : l1Size = newL1Size virtualSize g.clusterSize)
    (halloc : allocOffset = alignUp g.clusterSize (headerSize + l1Size * 8))
    (hcap : allocOffset ≤ f.capacity) :
    createQCow2 f virtualSize g.clusterBits =
      .ok (newImage (newFile f virtualSize g.clusterBits l1Size allocOffset) virtualSize
        g.clusterBits l1Size allocOffset) := by
  have hle : headerSize + l1Size * 8 ≤ f.capacity :=
    (halloc ▸ le_alignUp' (Nat.two_pow_pos _) _).trans hcap
  have hmod := Nat.mod_le (l1Size * 8) (2 ^ 32)
  have hfits1 : 0 + (newHeader g.clusterBits virtualSize headerSize l1Size allocOffset).length ≤
      f.capacity := by
    rw [length_newHeader]
    omega
  have hfits2 : headerSize + (List.replicate (l1Size * 8 % 2 ^ 32) (0 : UInt8)).length ≤
      f.capacity := by
    rw [List.length_replicate]
    omega
  have hbits : ¬ (g.clusterBits < 12 ∨ 24 < g.clusterBits) := by
    have := g.lower
    have := g.upper
    omega
  unfold createQCow2
  dsimp only
  change l1Size = newL1Size virtualSize (2 ^ g.clusterBits) at hl1
  change allocOffset = alignUp (2 ^ g.clusterBits) _ at halloc
  rw [if_neg hbits, ← hl1, ← halloc, hf.writeAt, if_pos hfits1]
  dsimp only
  rw [hf.put.writeAt, File.put_capacity, if_pos hfits2]
  dsimp only
  rw [if_neg (by simp), if_neg (by simp), File.put_capacity, File.put_capacity,
    if_neg (Nat.not_lt.mpr hcap)]
  rfl

/-- The view of a new image: all of the file up to the append point is metadata. -/
def newView (f : File) (l1Size allocOffset : ℕ) : View where
  l1 := fun _ => 0
  l1Size := l1Size
  alloc := allocOffset
  head := 0
  metaEnd := allocOffset
  metaByte := f.byte
  tab := fun _ _ => 0
  synced := fun _ => True
  own := fun _ => none
  free := []
  val := fun _ => none

theorem newView_guest (g : Geometry) (f : File) (l1Size allocOffset : ℕ) :
    (newView f l1Size allocOffset).guest g = fun _ => 0 := by
  funext o
  simp [View.guest, View.content, newView, flat]

theorem newImage_inv (z : Codec) {f : File} {l1Size allocOffset : ℕ} (hf : f.NoFaults)
    (hcap : f.capacity ≤ 2 ^ 62) (hv : vsize < W64) (hl1 : l1Size < 2 ^ 32)
    (halloc : headerSize + l1Size * 8 ≤ allocOffset) (hle : allocOffset ≤ f.capacity) :
    ImageInv z g vsize
      (newImage (newFile f vsize g.clusterBits l1Size allocOffset) vsize g.clusterBits l1Size
        allocOffset)
      (newView (newFile f vsize g.clusterBits l1Size allocOffset) l1Size allocOffset) := by
  have hfixed : At (newFile f vsize g.clusterBits l1Size allocOffset).byte 0
      (fixedHeader g.clusterBits vsize headerSize l1Size) := by
    have hhdr : At (f.put 0 (newHeader g.clusterBits vsize headerSize l1Size allocOffset)).byte 0
        (newHeader g.clusterBits vsize headerSize l1Size allocOffset) := at_overlay
    refine (at_append.mp hhdr).1.overlay_of_disjoint (.inl ?_)
    rw [length_fixedHeader]
    norm_num [headerSize]
  constructor
  · exact {
      readOnly := rfl
      clusterBits := rfl
      clusterSize := rfl
      l2Entries := rfl
      virtualSize := rfl
      vsize_lt := hv
      l1 := rfl
      l1Size := rfl
      l1Offset := rfl
      l1Size_lt := hl1
      l1_le := by rw [Nat.mul_comm]; exact halloc
      fixed := hfixed
      cached := fun _ _ hc => nomatch hc
      uncached := fun _ _ => trivial }
  · exact {
      header_le := by show headerSize ≤ allocOffset; omega
      meta_le_alloc := le_rfl
      meta_le_size := le_max_right _ _
      alloc_le := by show allocOffset ≤ _; omega
      metaByte := fun _ _ => rfl
      tab_lt := fun _ _ => by show 0 < _; norm_num
      tab_none := fun _ _ _ => rfl
      table := fun _ _ h0 => absurd rfl h0
      synced := fun _ _ h0 => absurd rfl h0
      stored := fun _ _ hc => nomatch hc
      chain := rfl
      free_nodup := List.nodup_nil
      free := fun _ hx => nomatch hx }
  · exact hf.clean
  · exact hcap
  · rfl
  · rfl

end Lbd.QCow2
