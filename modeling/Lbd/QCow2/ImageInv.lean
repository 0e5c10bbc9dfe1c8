import Lbd.QCow2.Image
import Lbd.QCow2.Space

/-!
# The invariant of `QCow2Image`

The cached L2 tables hold the entries of the view, and the tables that are not
cached are current in the file. Every function of the image either leaves the
invariant with a view that its specification describes, or fails because a write
to the file failed.
-/

namespace Lbd.QCow2

/-- A call may fail only after a write to the file has failed. -/
def WriteFailed (_ : QCow2Error) (img : QCow2Image) : Prop := img.f.failed = true

/-- What the image holds in memory, apart from the allocation state. -/
structure ImageMem (g : Geometry) (vsize : ℕ) (img : QCow2Image) (v : View) : Prop where
  readOnly : img.readOnly = false
  clusterBits : img.clusterBits = g.clusterBits
  clusterSize : img.clusterSize = g.clusterSize
  l2Entries : img.l2Entries = g.l2Entries
  virtualSize : img.virtualSize = vsize
  vsize_lt : vsize < W64
  l1 : img.l1Table = v.l1
  l1Size : img.l1Size = v.l1Size
  l1Offset : img.l1Offset = headerSize
  l1Size_lt : v.l1Size < 2 ^ 32
  l1_le : headerSize + 8 * v.l1Size ≤ v.metaEnd
  fixed : At v.metaByte 0 (fixedHeader g.clusterBits vsize headerSize v.l1Size)
  cached : ∀ i l2, img.l2Cache i = some l2 →
    i < v.l1Size ∧ v.l1 i ≠ 0 ∧ ∀ j < g.l2Entries, l2 j = v.tab i j
  uncached : ∀ i, img.l2Cache i = none → v.synced i

structure ImageInv (z : Codec) (g : Geometry) (vsize : ℕ) (img : QCow2Image) (v : View) :
    Prop where
  mem : ImageMem g vsize img v
  layout : Layout z g img.f v
  clean : img.f.Clean
  capacity : img.f.capacity ≤ 2 ^ 62
  alloc : img.allocOffset = v.alloc
  head : img.freeListHead = v.head

/-- The image while the bytes of `X` need not be in any part. After a failed write nothing is
said about the space: some callers go on and waste it. -/
structure Ledger (z : Codec) (g : Geometry) (vsize : ℕ) (X : Set ℕ) (img : QCow2Image)
    (v : View) : Prop extends ImageInv z g vsize img v where
  accounted : img.f.failed = false → Accounted g img.f v X

variable {z : Codec} {g : Geometry} {vsize : ℕ} {img img' : QCow2Image} {v v' : View}
  {op : FileOp} {off n c p i : ℕ} {bs d data : List UInt8} {r : Region} {X Y : Set ℕ}

theorem ImageMem.of_same (h : ImageMem g vsize img v) (hs : v.Same v') {f : File}
    {allocOffset freeListHead : ℕ} :
    ImageMem g vsize
      { img with f := f, allocOffset := allocOffset, freeListHead := freeListHead } v' where
  readOnly := h.readOnly
  clusterBits := h.clusterBits
  clusterSize := h.clusterSize
  l2Entries := h.l2Entries
  virtualSize := h.virtualSize
  vsize_lt := h.vsize_lt
  l1 := h.l1.trans hs.l1.symm
  l1Size := h.l1Size.trans hs.l1Size.symm
  l1Offset := h.l1Offset
  l1Size_lt := hs.l1Size ▸ h.l1Size_lt
  l1_le := by
    rw [hs.l1Size, hs.metaEnd]
    exact h.l1_le
  fixed := by
    rw [hs.l1Size, hs.metaByte]
    exact h.fixed
  cached i l2 hl2 := by
    rw [hs.l1Size, hs.l1, hs.tab]
    exact h.cached i l2 hl2
  uncached i hi := by
    rw [hs.synced]
    exact h.uncached i hi

theorem ImageInv.of_layout (h : ImageInv z g vsize img v) {f : File} {allocOffset freeListHead : ℕ}
    (hl : Layout z g f v') (hs : v.Same v') (hf : f.Clean)
    (hc : f.capacity = img.f.capacity) (ha : allocOffset = v'.alloc)
    (hh : freeListHead = v'.head) :
    ImageInv z g vsize
      { img with f := f, allocOffset := allocOffset, freeListHead := freeListHead } v' :=
  ⟨h.mem.of_same hs, hl, hf, hc.trans_le h.capacity, ha, hh⟩

theorem ImageInv.skip (h : ImageInv z g vsize img v) :
    ImageInv z g vsize { img with f := img.f.skip } v :=
  h.of_layout (h.layout.frame le_rfl (fun _ _ => rfl) fun _ _ _ _ _ => rfl) (.refl v)
    h.clean.skip rfl h.alloc h.head

theorem ImageInv.cache (h : ImageInv z g vsize img v) (hi : i < v.l1Size) (h0 : v.l1 i ≠ 0)
    {l2 : ℕ → ℕ} (hl2 : ∀ j < g.l2Entries, l2 j = v.tab i j) :
    ImageInv z g vsize { img with l2Cache := Function.update img.l2Cache i (some l2) } v := by
  refine { h with mem := { h.mem with cached := ?_, uncached := ?_ } }
  · intro k t (ht : Function.update img.l2Cache i (some l2) k = some t)
    by_cases hk : k = i
    · subst hk
      rw [Function.update_self] at ht
      obtain rfl := Option.some.inj ht
      exact ⟨hi, h0, hl2⟩
    · rw [Function.update_of_ne hk] at ht
      exact h.mem.cached k t ht
  · intro k (hk : Function.update img.l2Cache i (some l2) k = none)
    by_cases hki : k = i
    · subst hki
      simp at hk
    · rw [Function.update_of_ne hki] at hk
      exact h.mem.uncached k hk

theorem ImageInv.ledger (h : ImageInv z g vsize img v) : Ledger z g vsize Set.univ img v :=
  ⟨h, fun _ => .univ⟩

theorem Ledger.of_file (h : Ledger z g vsize X img v) (h' : ImageInv z g vsize img' v)
    (hf : img'.f = img.f) : Ledger z g vsize X img' v :=
  ⟨h', fun hok => hf ▸ h.accounted (hf ▸ hok)⟩

theorem Ledger.mono (h : Ledger z g vsize X img v) (hX : X ⊆ Y) : Ledger z g vsize Y img v :=
  ⟨h.toImageInv, fun hok a ha ha' => (h.accounted hok a ha ha').imp_left (hX ·)⟩

namespace QCow2Image

open Act

section Files

variable {α : Type} {Q : α → QCow2Image → Prop} {E : QCow2Error → QCow2Image → Prop}

theorem meets_readFile {Q : List UInt8 → QCow2Image → Prop} (h : img.f.Reads off bs)
    (hn : bs.length = n) (hQ : Q bs img) : Meets (readFile op off n) img Q E := by
  unfold Meets readFile
  rw [h.readAt hn]
  exact hQ

theorem meets_writeFile {Q : Unit → QCow2Image → Prop} (hf : img.f.Clean)
    (hQ : img.f.Accepts off bs.length → Q () { img with f := img.f.put off bs })
    (hE : ¬ img.f.Accepts off bs.length → E (.write op) { img with f := img.f.skip }) :
    Meets (writeFile op off bs) img Q E := by
  unfold Meets writeFile
  rw [hf.writeAt]
  by_cases h : img.f.Accepts off bs.length
  · simpa [h] using hQ h
  · simpa [h] using hE h

theorem meets_writeFile_ok {Q : Unit → QCow2Image → Prop} (h : img.f.Accepts off bs.length)
    (hQ : Q () { img with f := img.f.put off bs }) : Meets (writeFile op off bs) img Q E := by
  unfold Meets writeFile
  rw [h.writeAt]
  exact hQ

end Files

theorem loadL2_spec {E : QCow2Error → QCow2Image → Prop} (h : ImageInv z g vsize img v)
    (hi : i < v.l1Size) (h0 : v.l1 i ≠ 0) (hs : v.synced i) :
    Meets (loadL2 i) img (fun l2 img' => img' = img ∧ ∀ j < g.l2Entries, l2 j = v.tab i j) E := by
  have hr := h.layout.synced i hi h0 hs
  simp only [loadL2, meets_bind, meets_get]
  rw [h.mem.l1, h.mem.clusterSize]
  apply meets_readFile hr (length_l2Bytes g _)
  rw [if_neg (not_not.mpr (crc_l2Bytes g _)), meets_pure]
  exact ⟨rfl, fun j hj => get64_l2Bytes hj (h.layout.tab_lt i j)⟩

theorem getL2_spec {E : QCow2Error → QCow2Image → Prop} (h : ImageInv z g vsize img v)
    (hi : i < v.l1Size) (h0 : v.l1 i ≠ 0) :
    Meets (getL2 i) img (fun l2 img' => ImageInv z g vsize img' v ∧ img'.f = img.f ∧
      ∀ j < g.l2Entries, l2 j = v.tab i j) E := by
  simp only [getL2, meets_bind, meets_get]
  cases hc : img.l2Cache i with
  | some l2 => exact ⟨h, rfl, (h.mem.cached i l2 hc).2.2⟩
  | none =>
    simp only [meets_bind]
    rw [if_pos ⟨h.mem.l1Size ▸ hi, h.mem.l1 ▸ h0⟩]
    apply (loadL2_spec h hi h0 (h.mem.uncached i hc)).post
    rintro l2 _ ⟨rfl, hl2⟩
    exact ⟨h.cache hi h0 hl2, rfl, hl2⟩

theorem addTable_inv (h : ImageInv z g vsize img v) (hi : i < v.l1Size) (h0 : v.l1 i = 0)
    (hfits : v.alloc + g.clusterSize ≤ img.f.capacity) :
    ImageInv z g vsize
      { img with
        f := img.f.put v.alloc (l2Bytes g.l2Entries fun _ => 0)
        l1Table := Function.update img.l1Table i v.alloc
        allocOffset := v.alloc + g.clusterSize
        l2Cache := Function.update img.l2Cache i (some fun _ => 0) }
      { v with
        l1 := Function.update v.l1 i v.alloc
        alloc := v.alloc + g.clusterSize
        own := reown v.own v.alloc g.clusterSize (.table i)
        synced := fun k => k = i ∨ v.synced k } := by
  have hcap := h.capacity
  have halloc : v.alloc ≠ 0 := by
    have h1 := h.layout.header_le
    have h2 := h.layout.meta_le_alloc
    unfold headerSize at h1
    omega
  refine ⟨{ h.mem with l1 := ?_, cached := ?_, uncached := ?_ },
    h.layout.addTable hi h0 (by omega), h.clean, hcap, rfl, h.head⟩
  · rw [h.mem.l1]
  · intro k l2 hl2
    dsimp only at hl2 ⊢
    by_cases hk : k = i
    · subst hk
      rw [Function.update_self] at hl2 ⊢
      obtain rfl := Option.some.inj hl2
      exact ⟨hi, halloc, fun j _ => (h.layout.tab_none k (.inr h0) j).symm⟩
    · rw [Function.update_of_ne hk] at hl2 ⊢
      exact h.mem.cached k l2 hl2
  · intro k hk
    dsimp only at hk ⊢
    by_cases hki : k = i
    · exact .inl hki
    · rw [Function.update_of_ne hki] at hk
      exact .inr (h.mem.uncached k hk)

theorem allocateL2_spec (h : Ledger z g vsize X img v) (hi : i < v.l1Size) :
    Meets (allocateL2 i) img (fun l2 img' => ∃ v', Ledger z g vsize X img' v' ∧ v.Grows v' ∧
      v'.tab = v.tab ∧ v'.val = v.val ∧ v'.l1 i ≠ 0 ∧ (∀ j < g.l2Entries, l2 j = v'.tab i j) ∧
      ∀ j, v.tab i j ≠ 0 → img'.f = img.f) WriteFailed := by
  have hcap := h.capacity
  have hcs := g.clusterSize_le
  simp only [allocateL2, meets_bind, meets_get]
  rw [if_neg (by rw [h.mem.l1Size]; omega), h.mem.l1, h.mem.clusterSize, h.alloc,
    withTrailer_zeros]
  by_cases h0 : v.l1 i = 0
  · rw [if_neg (not_not.mpr h0)]
    simp only [meets_bind, meets_modify, meets_pure]
    apply meets_writeFile
    · exact h.clean
    · rintro ⟨-, hfits⟩
      dsimp only at hfits ⊢
      rw [length_l2Bytes] at hfits
      have hmod : (img.allocOffset + img.clusterSize) % W64 = v.alloc + g.clusterSize := by
        rw [h.alloc, h.mem.clusterSize]
        exact Nat.mod_eq_of_lt (by unfold W64; omega)
      have hinv := addTable_inv h.toImageInv hi h0 hfits
      obtain ⟨-, h0', hl2⟩ := hinv.mem.cached i _ (Function.update_self ..)
      have hpos : v.alloc ≠ 0 := (h.layout.pos_of_above h.layout.meta_le_alloc).ne'
      rw [hmod, h.alloc]
      refine ⟨_, ⟨hinv, fun hok => ?_⟩, ⟨rfl, rfl, fun k _ hk => ?_⟩, rfl, rfl, h0', hl2, ?_⟩
      · have hput : Accounted g (img.f.put v.alloc (l2Bytes g.l2Entries fun _ => 0)) v X :=
          (h.accounted hok).congr fun _ _ _ hp => h.layout.part_put_above le_rfl hp
        exact (hput.addTable hi h0 hpos).own_congr
      · exact Function.update_of_ne (show k ≠ i from fun hki => hk (hki ▸ h0)) _ _
      · exact fun j hj => absurd (h.layout.tab_none i (.inr h0) j) hj
    · exact fun _ => rfl
  · rw [if_pos h0]
    apply (getL2_spec h.toImageInv hi h0).post
    rintro l2 img' ⟨h', hf, hl2⟩
    exact ⟨v, h.of_file h' hf, .refl v, rfl, rfl, h0, hl2, fun _ _ => hf⟩

/-- A dead extent goes to the free list; when the tombstone cannot be written nothing changes. -/
theorem freeExtent_spec (h : Ledger z g vsize X img v) (hx : v.Extent r p n) (hr : v.Dead r)
    (hdvd : 4096 ∣ n) (hpos : 0 < n) (hlt : n < 2 ^ 32)
    (hX : ∀ a ∈ X, a ∈ Y ∨ p ≤ a ∧ a < p + n) :
    Meets (freeExtent p n) img (fun _ img' => Ledger z g vsize Y img' (v.push p n))
      (fun e img' => WriteFailed e img' ∧ Ledger z g vsize Y img' v) := by
  have hge := Nat.le_of_dvd hpos hdvd
  simp only [freeExtent, meets_bind, meets_get, meets_modify]
  rw [h.head]
  apply meets_writeFile h.clean
  · intro _
    refine ⟨h.of_layout (h.layout.push hx hr hdvd hpos hlt) (v.same_alloc ..) h.clean.put rfl
      h.alloc rfl, fun hok => ?_⟩
    have hput : Accounted g (img.f.put p (tombstone n v.head)) v X :=
      (h.accounted hok).congr fun _ _ _ hp => h.layout.part_put hx
        (fun c hc => by subst hc; exact hr) le_rfl (by rw [length_tombstone]; omega) hp
    exact hput.push hX
  · intro _
    exact ⟨rfl, h.skip, fun hok => by cases hok⟩

/-- `n` bytes at `p` are reserved for cluster `c`, unless the append point is behind what the
file can hold. -/
def Placed (z : Codec) (g : Geometry) (vsize : ℕ) (X : Set ℕ) (v : View) (c n p : ℕ)
    (img : QCow2Image) : Prop :=
  (∃ v', Ledger z g vsize (X ∪ Set.Ico p (p + n)) img v' ∧ v.Same v' ∧
    v'.Extent (.data c) p n) ∨ (img.f.Clean ∧ img.f.capacity < p ∧ 2 ^ 62 < v.alloc)

theorem appendSpace_spec {E : QCow2Error → QCow2Image → Prop} (h : Ledger z g vsize X img v)
    (hn : n ≤ 2 ^ 24) : Meets (appendSpace n) img (Placed z g vsize X v c n) E := by
  have hcap := h.capacity
  have hle := h.layout.alloc_le
  simp only [appendSpace, meets_bind, meets_get, meets_modify, meets_pure]
  rw [h.alloc, Nat.mod_eq_of_lt (by unfold W64; omega)]
  by_cases halloc : v.alloc ≤ 2 ^ 62
  · obtain ⟨hl, hx⟩ := h.layout.grow (n := n) (by omega) (.data c)
    have hinv := h.of_layout hl (v.same_alloc ..) h.clean rfl rfl h.head
    exact .inl ⟨_, ⟨hinv, fun hok => (h.accounted hok).grow.own_congr⟩, v.same_alloc .., hx⟩
  · exact .inr ⟨h.clean, by show img.f.capacity < v.alloc; omega, by omega⟩

theorem unlink_spec {E : QCow2Error → QCow2Image → Prop} {fit : Fit} {pre post : List (ℕ × ℕ)}
    (h : Ledger z g vsize X img v) (hfl : v.free = pre ++ (fit.cur, fit.extentSize) :: post)
    (hlt : fit.nextFree < 2 ^ 64) (hc : Chain img.f fit.nextFree post)
    (hprev : pre = [] ∧ fit.isFirst = true ∨
      ∃ init m, pre = init ++ [(fit.prevPhys, m)] ∧ fit.isFirst = false) :
    Meets (unlink fit) img (fun ok img' => if ok then ∃ v',
      Ledger z g vsize (X ∪ Set.Ico fit.cur (fit.cur + fit.extentSize)) img' v' ∧
      v.Same v' ∧ v'.Extent (.free fit.cur) fit.cur fit.extentSize ∧ v'.Dead (.free fit.cur)
      else Ledger z g vsize X img' v) E := by
  have hx := (h.layout.free _ (hfl ▸ List.mem_append_right _ (List.mem_cons_self ..))).1
  have hdead : ∀ x ∈ pre ++ post, x.1 ≠ fit.cur := by
    have hnodup := h.layout.free_nodup
    rw [hfl, List.map_append, List.map_cons, List.nodup_middle, ← List.map_append] at hnodup
    intro x hx hxc
    exact (List.nodup_cons.mp hnodup).1 (List.mem_map.mpr ⟨x, hx, hxc⟩)
  have hpop : ∀ f head, Accounted g f v X → Accounted g f
      { v with free := pre ++ post, head := head }
      (X ∪ Set.Ico fit.cur (fit.cur + fit.extentSize)) := fun _ _ hacc => hacc.pop hfl
  rcases hprev with ⟨rfl, hfirst⟩ | ⟨init, m, rfl, hfirst⟩
  · simp only [unlink, hfirst, if_true, meets_bind, meets_modify, meets_pure]
    have hinv := h.of_layout (h.layout.popFirst hfl hc) (v.same_alloc ..) h.clean rfl h.alloc rfl
    exact ⟨_, ⟨hinv, fun hok => hpop _ _ (h.accounted hok)⟩, v.same_alloc .., hx, hdead⟩
  · simp only [unlink, hfirst, Bool.false_eq_true, if_false, meets_bind, meets_attempt, meets_pure]
    rw [List.append_assoc] at hfl hdead hpop
    apply meets_writeFile h.clean
    · intro _
      have hinv := h.of_layout (h.layout.popNext hfl hc hlt) (v.same_alloc ..)
        h.clean.put rfl h.alloc h.head
      refine ⟨_, ⟨hinv, fun hok => ?_⟩, v.same_alloc .., hx, hdead⟩
      have hmem : (fit.prevPhys, m) ∈ v.free := by simp [hfl]
      have hge : 4096 ≤ m := h.layout.free_ge hmem
      have hput : Accounted g (img.f.put (fit.prevPhys + 8) (beBytes 8 fit.nextFree)) v X :=
        (h.accounted hok).congr fun _ _ _ hp => h.layout.part_put (h.layout.free _ hmem).1
          (fun _ hc => by cases hc) (by omega) (by rw [length_beBytes]; omega) hp
      exact hpop _ v.head hput
    · intro _
      exact ⟨h.skip, fun hok => by cases hok⟩

theorem splitExtent_spec {E : QCow2Error → QCow2Image → Prop} {fit : Fit}
    (h : Ledger z g vsize (X ∪ Set.Ico fit.cur (fit.cur + fit.extentSize)) img v)
    (hx : v.Extent (.free fit.cur) fit.cur fit.extentSize)
    (hdead : v.Dead (.free fit.cur)) (hsize : 4096 ∣ fit.extentSize) (hlt : fit.extentSize < 2 ^ 32)
    (hn : 4096 ∣ n) (hpos : 0 < n) (hle : n ≤ fit.extentSize) :
    Meets (splitExtent fit n) img (fun _ img' => ∃ v',
      Ledger z g vsize (X ∪ Set.Ico fit.cur (fit.cur + n)) img' v' ∧ v.Same v' ∧
      v'.Extent (.free fit.cur) fit.cur n ∧ v'.Dead (.free fit.cur)) E := by
  have hx' : v.Extent (.free fit.cur) fit.cur n := by
    have := hx.below
    exact ⟨hx.above, by omega, hx.owns.sub le_rfl (by omega)⟩
  have hdvd : 4096 ∣ fit.extentSize - n := Nat.dvd_sub hsize hn
  apply meets_when
  · intro hrem
    have hrest : v.Extent (.free fit.cur) (fit.cur + n) (fit.extentSize - n) := by
      have := hx.below
      have := hx.above
      exact ⟨by omega, by omega, hx.owns.sub (by omega) (by omega)⟩
    simp only [meets_bind, meets_attempt, meets_pure]
    unfold freeEntryMin at hrem
    have hX : ∀ a ∈ X ∪ Set.Ico fit.cur (fit.cur + fit.extentSize),
        a ∈ X ∪ Set.Ico fit.cur (fit.cur + n) ∨
          fit.cur + n ≤ a ∧ a < fit.cur + n + (fit.extentSize - n) := by
      rintro a (ha | ⟨ha, ha'⟩)
      · exact .inl (.inl ha)
      · by_cases han : a < fit.cur + n
        · exact .inl (.inr ⟨ha, han⟩)
        · exact .inr (by omega)
    apply (freeExtent_spec h hrest hdead hdvd (by omega) (by omega) hX).imp
    · intro _ img' h'
      refine ⟨_, h', v.same_alloc .., ⟨hx'.above, hx'.below, ?_⟩, ?_⟩
      · exact hx'.owns.reown fun a ha _ _ ha' => absurd ha' (by omega)
      · rintro x (hx | ⟨_, hx⟩) hxc
        · dsimp only at hxc
          omega
        · exact hdead x hx hxc
    · rintro e img' ⟨-, h'⟩
      exact ⟨v, h', .refl v, hx', hdead⟩
  · intro hrem
    -- a remainder too small for a tombstone is none
    unfold freeEntryMin at hrem
    obtain rfl : n = fit.extentSize := by omega
    exact ⟨v, h, .refl v, hx', hdead⟩

theorem allocSpace_spec {E : QCow2Error → QCow2Image → Prop} (h : Ledger z g vsize X img v)
    (hn : 4096 ∣ n) (hpos : 0 < n) (hle : n ≤ 2 ^ 24) :
    Meets (allocSpace n) img (Placed z g vsize X v c n) E := by
  simp only [allocSpace, meets_bind, meets_get]
  rw [h.head]
  cases hscan : scanFree img.f n freeScanLimit 0 true v.head with
  | none => exact appendSpace_spec h hle
  | some fit =>
    obtain ⟨pre, post, hfl, hfit, hnext, hchain, hprev⟩ :=
      scanFree_spec h.layout.chain (fun x hx => (h.layout.free x hx).2.2.2) hscan
    have hfree := h.layout.free (fit.cur, fit.extentSize) (by simp [hfl])
    simp only [meets_bind]
    apply (unlink_spec h hfl hnext hchain (hprev.imp_left fun hp => ⟨hp.1, hp.2.1⟩)).post
    intro ok img₁ h₁
    cases ok with
    | false => exact appendSpace_spec h₁ hle
    | true =>
      obtain ⟨v₁, h₁, hs₁, hx₁, hd₁⟩ := h₁
      simp only [if_true, meets_bind, meets_pure]
      apply (splitExtent_spec h₁ hx₁ hd₁ hfree.2.1 hfree.2.2.2 hn hpos hfit).post
      rintro _ img₂ ⟨v₂, h₂, hs₂, hx₂, hd₂⟩
      obtain ⟨hl, hx⟩ := h₂.layout.claim hx₂ hd₂ (.data c)
      have hinv := h₂.of_layout hl (v₂.same_alloc ..) h₂.clean rfl h₂.alloc h₂.head
      exact .inl ⟨_, ⟨hinv, fun hok => (h₂.accounted hok).own_congr⟩,
        (hs₁.trans hs₂).trans (v₂.same_alloc ..), hx⟩

end QCow2Image

end Lbd.QCow2
