import Lbd.QCow2.ImageSpec

/-!
# The virtual address space of a `QCow2Image`

`ReadAt`, `WriteAt` and `Trim` read and change the byte array that the clusters
make up.
-/

namespace Lbd.QCow2

open Act

/-- The guest's bytes. -/
def View.guest (v : View) (g : Geometry) : ℕ → UInt8 := flat g.clusterSize (v.content g)

/-- The guest bytes that the L2 tables can map. -/
def View.span (v : View) (g : Geometry) : ℕ := v.l1Size * (g.l2Entries * g.clusterSize)

variable {z : Codec} {g : Geometry} {vsize : ℕ} {img : QCow2Image} {v : View}
  {off n c : ℕ} {data : List UInt8} {A : ℕ → UInt8} {X : Set ℕ}
  {E : QCow2Error → QCow2Image → Prop}

theorem l1_lt_of_fits {c : Chunk} (h : c.Fits g.clusterSize off n) (hspan : off + n ≤ v.span g) :
    c.cluster / g.l2Entries < v.l1Size := by
  have h1 := h.addr
  have h2 := h.below
  have h3 := h.pos
  have hlt : c.cluster * g.clusterSize < v.l1Size * g.l2Entries * g.clusterSize := by
    unfold View.span at hspan
    rw [← mul_assoc] at hspan
    omega
  have hc : c.cluster < v.l1Size * g.l2Entries := Nat.lt_of_mul_lt_mul_right hlt
  exact (Nat.div_lt_iff_lt_mul g.l2Entries_pos).mpr hc

theorem View.Grows.span_eq {v' : View} (h : v.Grows v') : v'.span g = v.span g := by
  rw [View.span, h.l1Size]
  rfl

theorem tiles_geometry (g : Geometry) (hn : off + n ≤ W64) :
    Tiles g.clusterSize off n 0 (chunks g.clusterBits g.clusterSize off n) :=
  tiles_chunks g.clusterBits hn

namespace QCow2Image

/-- The image holds the byte array `A`. -/
def Serves (z : Codec) (g : Geometry) (vsize : ℕ) (v : View) (A : ℕ → UInt8) (img : QCow2Image) :
    Prop :=
  ∃ v', ImageInv z g vsize img v' ∧ v'.Settled g ∧ v.Grows v' ∧ v'.guest g = A

theorem readChunk_spec {c : Chunk} (h : ImageInv z g vsize img v) (hs : v.Settled g)
    (hspan : off + n ≤ v.span g) (hfits : c.Fits g.clusterSize off n) :
    Meets (readChunk z c) img (fun bs img' => bs = window (v.guest g) (off + c.pos) c.len ∧
      ImageInv z g vsize img' v) E := by
  simp only [readChunk, meets_bind, meets_pure]
  apply (readCluster_spec h hs (l1_lt_of_fits hfits hspan)).post
  rintro _ img' ⟨rfl, h', -⟩
  refine ⟨?_, h'⟩
  rw [← hfits.addr]
  exact (window_flat (h.layout.length_content _) hfits.inside).symm

theorem readAt_spec (h : ImageInv z g vsize img v) (hs : v.Settled g) (hspan : off + n ≤ v.span g)
    (hn : off + n ≤ W64) :
    Meets (readAt z off n) img (fun bs img' => bs = window (v.guest g) off n ∧
      ImageInv z g vsize img' v) E := by
  simp only [readAt, meets_bind, meets_get]
  rw [h.mem.clusterBits, h.mem.clusterSize]
  exact meets_collect_tiles (fun img => ImageInv z g vsize img v) (v.guest g)
    (fun c img hfits h => readChunk_spec h hs hspan hfits) (tiles_geometry g hn)
    (Nat.zero_le n) h

theorem Rewritten.serves {c : Chunk} {bs : List UInt8} {v₁ : View}
    (h : Rewritten z g vsize X v₁ c.cluster (overwrite (v₁.content g c.cluster) c.off bs) img)
    (hfits : c.Fits g.clusterSize off n) (hbs : bs.length = c.len)
    (hl : (v₁.content g c.cluster).length = g.clusterSize) (hg : v.Grows v₁) :
    Serves z g vsize v (overlay (v₁.guest g) (off + c.pos) bs) img := by
  obtain ⟨v', h, hs, hg', hcontent⟩ := h
  refine ⟨v', h.toImageInv, hs, hg.trans hg', ?_⟩
  have := hfits.inside
  rw [View.guest, hcontent, flat_update hl (by omega), hfits.addr]
  rfl

theorem writeChunk_spec {c : Chunk} (hspan : off + data.length ≤ v.span g)
    (hfits : c.Fits g.clusterSize off data.length)
    (h : Serves z g vsize v (overlay A off (data.take c.pos)) img) :
    Meets (writeChunk z data c) img
      (fun _ => Serves z g vsize v (overlay A off (data.take (c.pos + c.len)))) WriteFailed := by
  obtain ⟨v₁, h₁, hs₁, hg₁, hA⟩ := h
  rw [← hg₁.span_eq] at hspan
  have hi := l1_lt_of_fits hfits hspan
  have hl := h₁.layout.length_content c.cluster
  have hbelow := hfits.below
  have hin := hfits.inside
  have hbs : ((data.drop c.pos).take c.len).length = c.len := by simp; omega
  simp only [writeChunk, meets_bind]
  apply (readCluster_spec h₁ hs₁ hi).post
  rintro _ img₂ ⟨rfl, h₂, -⟩
  apply (writeCluster_spec h₂.ledger hs₁ hi (by rw [length_overwrite (by omega), hl])
    (.inr rfl)).post
  intro _ img₃ hr
  rw [← overlay_take_succ _ _ _ hbelow, ← hA]
  exact Rewritten.serves hr hfits hbs hl hg₁

theorem writeAt_spec (h : ImageInv z g vsize img v) (hs : v.Settled g)
    (hspan : off + data.length ≤ v.span g) (hn : off + data.length ≤ W64) :
    Meets (writeAt z data off) img
      (fun _ => Serves z g vsize v (overlay (v.guest g) off data)) WriteFailed := by
  simp only [writeAt, meets_bind, meets_get]
  rw [h.mem.clusterBits, h.mem.clusterSize]
  have hstart : Serves z g vsize v (overlay (v.guest g) off (data.take 0)) img :=
    ⟨v, h, hs, .refl v, (overlay_nil _).symm⟩
  have := meets_forM_tiles
    (fun pos => Serves z g vsize v (overlay (v.guest g) off (data.take pos)))
    (fun c img hfits hI => writeChunk_spec hspan hfits hI) (tiles_geometry g hn) hstart
  rwa [List.take_length] at this

theorem Rewritten.of_eq (h : Ledger z g vsize X img v) (hs : v.Settled g)
    (hd : v.content g c = data) : Rewritten z g vsize X v c data img :=
  ⟨v, h, hs, .refl v, by rw [← hd, Function.update_eq_self]⟩

theorem content_of_entry_zero (h : ImageInv z g vsize img v) (h0 : v.entry g c = 0) :
    v.content g c = List.replicate g.clusterSize 0 := by
  cases hv : v.val c with
  | none => simp [View.content, hv]
  | some d => exact absurd h0 (h.layout.entry_ne_zero hv)

theorem trimWhole_spec (h : Ledger z g vsize X img v) (hs : v.Settled g)
    (hi : c / g.l2Entries < v.l1Size) :
    Meets (trimWhole c) img
      (fun _ => Rewritten z g vsize X v c (List.replicate g.clusterSize 0)) WriteFailed := by
  have hl1 := h.mem.l1Size_lt
  simp only [trimWhole, meets_bind, meets_get]
  rw [h.mem.l2Entries, h.mem.l1, h.mem.l1Size,
    Nat.mod_eq_of_lt (show c / g.l2Entries < 2 ^ 32 by omega)]
  apply meets_when
  · rintro ⟨-, h0⟩
    rw [meets_bind]
    apply (getL2_spec h.toImageInv hi h0).post
    rintro l2 img₁ ⟨h₁, hf, hl2⟩
    have ht : TableReady g c l2 v v := ⟨.refl v, rfl, rfl, hi, h0, hl2⟩
    have h₁ := h.of_file h₁ hf
    apply meets_when
    · intro _
      rw [meets_bind]
      apply (readOldAllocSize_spec h₁ hs ht.entry).post
      rintro a _ ⟨rfl, hold, h₂, -⟩
      rw [meets_bind]
      apply meets_when
      · exact freeEntry_spec h₂ hold hs ht
      · intro ha
        obtain rfl : a = 0 := by omega
        rw [add_zero, Set.Ico_self, Set.union_empty] at h₂
        exact clearEntry_spec h₂ hs ht (.refl _)
    · intro hne
      exact .of_eq h₁ hs (content_of_entry_zero h₁.toImageInv (ht.entry ▸ not_not.mp hne))
  · intro hn
    have h0 : v.l1 (c / g.l2Entries) = 0 := by
      by_contra hne
      exact hn ⟨hi, hne⟩
    exact .of_eq h hs (content_of_entry_zero h.toImageInv (h.layout.tab_none _ (.inr h0) _))

theorem trimPart_spec {c : Chunk} (h : Ledger z g vsize X img v) (hs : v.Settled g)
    (hi : c.cluster / g.l2Entries < v.l1Size) (hin : c.off + c.len ≤ g.clusterSize)
    (hfit : Fills z g.clusterSize img.f (v.entry g c.cluster)
      (overwrite (v.content g c.cluster) c.off (List.replicate c.len 0)) ∨ X = Set.univ) :
    Meets (trimPart z c) img (fun _ => Rewritten z g vsize X v c.cluster
      (overwrite (v.content g c.cluster) c.off (List.replicate c.len 0))) WriteFailed := by
  have hl1 := h.mem.l1Size_lt
  have hl := h.layout.length_content c.cluster
  have hskip : ∀ img, Ledger z g vsize X img v → v.entry g c.cluster = 0 →
      Rewritten z g vsize X v c.cluster
        (overwrite (v.content g c.cluster) c.off (List.replicate c.len 0)) img := by
    intro img h h0
    refine .of_eq h hs ?_
    rw [content_of_entry_zero h.toImageInv h0, overwrite_replicate 0 hin]
  simp only [trimPart, meets_bind, meets_get]
  rw [h.mem.l2Entries, h.mem.l1, h.mem.l1Size,
    Nat.mod_eq_of_lt (show c.cluster / g.l2Entries < 2 ^ 32 by omega)]
  apply (readCluster_spec h.toImageInv hs hi).post
  rintro _ img₁ ⟨rfl, h₁, hf₁⟩
  have h₁ := h.of_file h₁ hf₁
  apply meets_when
  · rintro ⟨-, h0⟩
    rw [meets_bind]
    apply (getL2_spec h₁.toImageInv hi h0).post
    rintro l2 img₂ ⟨h₂, hf₂, hl2⟩
    have h₂ := h₁.of_file h₂ hf₂
    have he : l2 (c.cluster % g.l2Entries) = v.entry g c.cluster :=
      hl2 _ (Nat.mod_lt _ g.l2Entries_pos)
    apply meets_when
    · intro _
      apply writeCluster_spec h₂ hs hi
      · rw [length_overwrite (by simp; omega), hl]
      · rwa [hf₂, hf₁]
    · intro hne
      exact hskip img₂ h₂ (he ▸ not_not.mp hne)
  · intro hn
    have h0 : v.l1 (c.cluster / g.l2Entries) = 0 := by
      by_contra hne
      exact hn ⟨hi, hne⟩
    exact hskip img₁ h₁ (h.layout.tab_none _ (.inr h0) _)

theorem trimChunk_spec {c : Chunk} (hspan : off + n ≤ v.span g)
    (hfits : c.Fits g.clusterSize off n)
    (h : Serves z g vsize v (overlay A off (List.replicate c.pos 0)) img) :
    Meets (trimChunk z c) img
      (fun _ => Serves z g vsize v (overlay A off (List.replicate (c.pos + c.len) 0)))
      WriteFailed := by
  obtain ⟨v₁, h₁, hs₁, hg₁, hA⟩ := h
  rw [← hg₁.span_eq] at hspan
  have hi := l1_lt_of_fits hfits hspan
  have hl := h₁.layout.length_content c.cluster
  have hdone : ∀ img', Rewritten z g vsize Set.univ v₁ c.cluster
      (overwrite (v₁.content g c.cluster) c.off (List.replicate c.len 0)) img' →
      Serves z g vsize v (overlay A off (List.replicate (c.pos + c.len) 0)) img' := by
    intro img' hr
    rw [← overlay_replicate_succ, ← hA]
    exact Rewritten.serves hr hfits List.length_replicate hl hg₁
  simp only [trimChunk, meets_bind, meets_get]
  rw [h₁.mem.clusterSize]
  apply meets_ite
  · rintro ⟨hoff, hlen⟩
    apply (trimWhole_spec h₁.ledger hs₁ hi).post
    intro _ img' hr
    apply hdone img'
    rwa [hoff, hlen, overwrite_all (by rw [List.length_replicate, hl])]
  · intro _
    apply (trimPart_spec h₁.ledger hs₁ hi hfits.inside (.inr rfl)).post
    exact fun _ => hdone

theorem trim_spec (h : ImageInv z g vsize img v) (hs : v.Settled g) (hspan : off + n ≤ v.span g)
    (hn : off + n ≤ W64) :
    Meets (trim z off n) img
      (fun _ => Serves z g vsize v (overlay (v.guest g) off (List.replicate n 0))) WriteFailed := by
  simp only [trim, meets_bind, meets_get]
  rw [h.mem.clusterBits, h.mem.clusterSize]
  exact meets_forM_tiles
    (fun pos => Serves z g vsize v (overlay (v.guest g) off (List.replicate pos 0)))
    (fun c img hfits hI => trimChunk_spec hspan hfits hI) (tiles_geometry g hn)
    ⟨v, h, hs, .refl v, (overlay_nil _).symm⟩

end QCow2Image

end Lbd.QCow2
