import Lbd.QCow2.ImageInv

/-!
# Clusters of a `QCow2Image`

Writing a cluster changes its data and nothing else, whichever of the places the
new data goes to.
-/

namespace Lbd.QCow2

open Act

variable {z : Codec} {g : Geometry} {vsize : ℕ} {img img' : QCow2Image} {v v' : View}
  {op : FileOp} {n c p i e a : ℕ} {bs d data : List UInt8} {l2 : ℕ → ℕ} {X : Set ℕ}
  {E : QCow2Error → QCow2Image → Prop}

/-- What the entry `e` of cluster `c` occupies: `a` bytes, or nothing. -/
def OldExtent (g : Geometry) (v : View) (c e a : ℕ) : Prop :=
  a = 0 ∨ (0 < a ∧ 4096 ∣ a ∧ a ≤ g.clusterSize ∧ v.Extent (.data c) (physOffset e) a)

theorem ImageInv.setEntry {o : Option (List UInt8)} (h : ImageInv z g vsize img v) (he : e < 2 ^ 64)
    (hi : c / g.l2Entries < v.l1Size) (h0 : v.l1 (c / g.l2Entries) ≠ 0)
    (ho : ∀ d, o = some d → ∃ p n, StoredAt z g img.f e p n d ∧ v.Extent (.data c) p n)
    (hl2 : ∀ j < g.l2Entries, l2 j = v.tab (c / g.l2Entries) j) :
    ImageInv z g vsize
      { img with
        l2Cache := Function.update img.l2Cache (c / g.l2Entries)
          (some (Function.update l2 (c % g.l2Entries) e)) }
      (v.setEntry g c e o) := by
  refine { h with
    mem := { h.mem with cached := ?_, uncached := ?_ }, layout := h.layout.setEntry he hi h0 ho }
  · intro k t ht
    dsimp only at ht
    by_cases hk : k = c / g.l2Entries
    · subst hk
      rw [Function.update_self] at ht
      obtain rfl := Option.some.inj ht
      refine ⟨hi, h0, fun j hj => ?_⟩
      by_cases hjc : j = c % g.l2Entries
      · subst hjc
        rw [Function.update_self]
        exact (if_pos ⟨rfl, rfl⟩).symm
      · rw [Function.update_of_ne hjc, hl2 j hj]
        exact (if_neg fun hc => hjc hc.2).symm
    · rw [Function.update_of_ne hk] at ht
      obtain ⟨hk', hk0, hkt⟩ := h.mem.cached k t ht
      exact ⟨hk', hk0, fun j hj => (hkt j hj).trans (if_neg fun hc => hk hc.1).symm⟩
  · intro k hk
    dsimp only at hk
    have hkc : k ≠ c / g.l2Entries := by
      rintro rfl
      simp at hk
    rw [Function.update_of_ne hkc] at hk
    exact ⟨hkc, h.mem.uncached k hk⟩

theorem ImageInv.forget (h : ImageInv z g vsize img v) (c : ℕ) :
    ImageInv z g vsize img (v.forget c) :=
  { h with mem := { h.mem with }, layout := h.layout.forget c }

theorem OldExtent.forget (h : OldExtent g v c e a) : OldExtent g (v.forget c) c e a := h

namespace QCow2Image

theorem Placed.of_same {v₀ : View} (h : Placed z g vsize X v c n p img) (hs : v₀.Same v)
    (ha : v₀.alloc = v.alloc) : Placed z g vsize X v₀ c n p img := by
  rcases h with ⟨v', h, hs', hx⟩ | h
  · exact .inl ⟨v', h, hs.trans hs', hx⟩
  · exact .inr (ha ▸ h)

theorem readOldAllocSize_spec (h : Ledger z g vsize X img v) (hs : v.Settled g)
    (he : e = v.entry g c) :
    Meets (readOldAllocSize e) img (fun a img' => img' = img ∧ OldExtent g v c e a ∧
      Ledger z g vsize (X ∪ Set.Ico (physOffset e) (physOffset e + a)) img (v.forget c) ∧
      a = if e = 0 then 0 else entrySize g.clusterSize img.f e) E := by
  have hforget := h.toImageInv.forget c
  simp only [readOldAllocSize, meets_bind, meets_get]
  cases hv : v.val c with
  | none =>
    have h0 : e = 0 := he.trans (hs c hv)
    rw [if_pos h0, meets_pure]
    refine ⟨rfl, .inl rfl, ⟨hforget, fun hok => ?_⟩, (if_pos h0).symm⟩
    rw [add_zero, Set.Ico_self, Set.union_empty]
    exact (h.accounted hok).forget_none hv
  | some d =>
    obtain ⟨p, n, hst, hx⟩ := h.layout.stored c d hv
    rw [← he] at hst
    have hsize := hst.size
    have hphys := hst.physOffset_eq
    have hne := hst.ne_zero (h.layout.pos_of_above hx.above)
    have hpart : Part g img.f v (.data c) (physOffset e) n := by
      refine ⟨by rw [hv]; exact Option.some_ne_none d, ?_⟩
      rw [← he, hst.entrySize_eq]
      exact ⟨rfl, rfl⟩
    rw [← hphys] at hx
    have hold : OldExtent g v c e n := .inr ⟨hsize.2.1, hsize.1, hsize.2.2, hx⟩
    have hdone : img = img ∧ OldExtent g v c e n ∧
        Ledger z g vsize (X ∪ Set.Ico (physOffset e) (physOffset e + n)) img (v.forget c) ∧
        n = if e = 0 then 0 else entrySize g.clusterSize img.f e :=
      ⟨rfl, hold, ⟨hforget, fun hok => (h.accounted hok).forget hpart⟩,
        ((if_neg hne).trans hst.entrySize_eq).symm⟩
    rw [if_neg hne]
    cases hst with
    | raw hp' =>
      rw [if_neg (not_isCompressed_raw hp'), meets_pure, h.mem.clusterSize]
      exact hdone
    | @lz _ _ comp hp' _ hc hr =>
      have hread : img.f.Reads (physOffset (l2Compressed ||| p)) (beBytes 4 comp.length) :=
        hphys.symm ▸ (File.reads_append.mp hr).1
      have hlt := g.clusterSize_le
      rw [if_pos (isCompressed_lz p)]
      simp only [meets_bind, meets_pure]
      apply meets_readFile hread (length_beBytes ..)
      rw [get32, getBE_beBytes, Nat.mod_eq_of_lt (by norm_num; omega)]
      exact hdone

theorem placeCluster_spec
    (h : Ledger z g vsize (X ∪ Set.Ico (physOffset e) (physOffset e + a)) img v)
    (hv : v.val c = none) (hold : OldExtent g v c e a) (hn : 4096 ∣ n) (hpos : 0 < n)
    (hle : n ≤ g.clusterSize) (hfit : a ≤ n ∨ X = Set.univ) :
    Meets (placeCluster e a n) img (Placed z g vsize X v c n) WriteFailed := by
  have hcs := g.clusterSize_le
  apply meets_ite
  · rintro ⟨ha, hna⟩
    obtain ⟨-, -, -, hx⟩ := hold.resolve_left (by omega)
    have hbelow := hx.below
    refine .inl ⟨v, h.mono ?_, .refl v, hx.above, by omega, hx.owns.sub le_rfl (by omega)⟩
    rcases hfit with hfit | rfl
    · rw [Nat.le_antisymm hfit hna]
    · exact fun _ _ => .inl trivial
  · intro _
    rw [meets_bind]
    apply meets_when
    · intro ha
      obtain ⟨-, hdvd, hsize, hx⟩ := hold.resolve_left (by omega)
      have hdead : v.Dead (.data c) := hv
      apply (freeExtent_spec h hx hdead hdvd ha (by omega) fun _ hb => hb).imp
      · intro _ img' h'
        apply (allocSpace_spec (c := c) h' hn hpos (by omega)).post
        intro p img'' hp
        exact Placed.of_same hp (v.same_alloc ..) rfl
      · exact fun _ _ he => he.1
    · intro ha
      obtain rfl : a = 0 := by omega
      rw [add_zero, Set.Ico_self, Set.union_empty] at h
      exact allocSpace_spec h hn hpos (by omega)

theorem writeFile_placed (h : Placed z g vsize X v c n p img) (hv : v.val c = none)
    (hlen : bs.length ≤ n) (hbs : bs ≠ []) :
    Meets (writeFile op p bs) img (fun _ img' => ∃ v',
      Ledger z g vsize (X ∪ Set.Ico p (p + n)) img' v' ∧ v.Same v' ∧
      v'.Extent (.data c) p n ∧ img'.f.Reads p bs ∧ p < 2 ^ 62) WriteFailed := by
  have hpos := List.length_pos_iff.mpr hbs
  rcases h with ⟨v', h, hs, hx⟩ | ⟨hf, hcap, -⟩
  · apply meets_writeFile h.clean
    · rintro ⟨-, hfits⟩
      have hval : v'.val c = none := (congrFun hs.val c).trans hv
      have hl := h.layout.put_extent bs hx (show v'.Loose (.data c) from hval) le_rfl (by omega)
      have hcap := h.capacity
      refine ⟨v', ⟨h.of_layout hl (.refl v') h.clean.put rfl h.alloc h.head, fun hok => ?_⟩,
        hs, hx, File.reads_put hbs, by omega⟩
      refine (h.accounted hok).congr fun r q m hp => h.layout.part_put hx ?_ le_rfl (by omega) hp
      rintro k hk
      cases hk
      exact hval
    · exact fun _ => rfl
  · apply meets_writeFile hf
    · rintro ⟨-, hfits⟩
      omega
    · exact fun _ => rfl

/-- The effect of a cluster write on the view: the old data is forgotten, space changes hands,
and the entry of the cluster is set. -/
theorem rewrite_done {v₂ v₃ : View} {o : Option (List UInt8)} (hs : v.Settled g)
    (hg : v.Grows v₂) (htab : v₂.tab = v.tab) (hval : v₂.val = v.val)
    (hsame : (v₂.forget c).Same v₃) (hoe : o = none → e = 0)
    (hdata : o.getD (List.replicate g.clusterSize 0) = data) :
    (v₃.setEntry g c e o).Settled g ∧ v.Grows (v₃.setEntry g c e o) ∧
      (v₃.setEntry g c e o).content g = Function.update (v.content g) c data := by
  have hv₃ : ∀ k, k ≠ c → v₃.val k = v.val k := by
    intro k hk
    rw [hsame.val, ← hval]
    exact Function.update_of_ne hk ..
  refine ⟨View.settled_setEntry (fun k hk hn => ?_) hoe, ?_, ?_⟩
  · rw [hv₃ k hk] at hn
    rw [View.entry, hsame.tab]
    exact (congrFun₂ htab _ _).trans (hs k hn)
  · exact hg.trans ⟨hsame.l1Size, hsame.metaEnd, fun i _ _ => congrFun hsame.l1 i⟩
  · funext k
    show (Function.update v₃.val c o k).getD _ = _
    by_cases hk : k = c
    · subst hk
      rw [Function.update_self, Function.update_self, hdata]
    · rw [Function.update_of_ne hk, Function.update_of_ne hk, hv₃ k hk]
      rfl

/-- What a finished cluster write leaves. -/
def Rewritten (z : Codec) (g : Geometry) (vsize : ℕ) (X : Set ℕ) (v : View) (c : ℕ)
    (data : List UInt8) (img : QCow2Image) : Prop :=
  ∃ v', Ledger z g vsize X img v' ∧ v'.Settled g ∧ v.Grows v' ∧
    v'.content g = Function.update (v.content g) c data

/-- `v₂` is `v` with an L2 table for cluster `c`, and `l2` is that table. -/
structure TableReady (g : Geometry) (c : ℕ) (l2 : ℕ → ℕ) (v v₂ : View) : Prop where
  grows : v.Grows v₂
  tab : v₂.tab = v.tab
  val : v₂.val = v.val
  l1_lt : c / g.l2Entries < v₂.l1Size
  l1_ne : v₂.l1 (c / g.l2Entries) ≠ 0
  l2 : ∀ j < g.l2Entries, l2 j = v₂.tab (c / g.l2Entries) j

theorem TableReady.entry {v₂ : View} (h : TableReady g c l2 v v₂) :
    l2 (c % g.l2Entries) = v₂.entry g c := h.l2 _ (Nat.mod_lt _ g.l2Entries_pos)

theorem TableReady.settled {v₂ : View} (h : TableReady g c l2 v v₂) (hs : v.Settled g) :
    v₂.Settled g := by
  intro k hk
  rw [View.entry, h.tab]
  exact hs k (h.val ▸ hk)

theorem setL2Entry_spec {v₂ v₃ : View} {o : Option (List UInt8)} (h : ImageInv z g vsize img v₃)
    (hacc : img.f.failed = false → Accounted g img.f (v₃.setEntry g c e o) X)
    (hs : v.Settled g) (ht : TableReady g c l2 v v₂) (hsame : (v₂.forget c).Same v₃)
    (hoe : o = none → e = 0)
    (ho : ∀ d, o = some d → ∃ p n, StoredAt z g img.f e p n d ∧ v₃.Extent (.data c) p n)
    (hdata : o.getD (List.replicate g.clusterSize 0) = data) :
    Meets (setL2Entry (c / g.l2Entries) l2 (c % g.l2Entries) e) img
      (fun _ => Rewritten z g vsize X v c data) E := by
  have he : e < 2 ^ 64 := by
    cases o with
    | none => simp [hoe rfl]
    | some d =>
      obtain ⟨p, n, hst, -⟩ := ho d rfl
      exact hst.lt
  refine ⟨_, ⟨h.setEntry he ?_ ?_ ho ?_, hacc⟩,
    rewrite_done hs ht.grows ht.tab ht.val hsame hoe hdata⟩
  · exact hsame.l1Size ▸ ht.l1_lt
  · exact (congrFun hsame.l1 _).trans_ne ht.l1_ne
  · intro j hj
    rw [hsame.tab]
    exact ht.l2 j hj

theorem clearEntry_spec {v₂ v₃ : View} (h : Ledger z g vsize X img v₃) (hs : v.Settled g)
    (ht : TableReady g c l2 v v₂) (hsame : (v₂.forget c).Same v₃) :
    Meets (setL2Entry (c / g.l2Entries) l2 (c % g.l2Entries) 0) img
      (fun _ => Rewritten z g vsize X v c (List.replicate g.clusterSize 0)) E := by
  have hval : v₃.val c = none := (congrFun hsame.val c).trans (Function.update_self ..)
  exact setL2Entry_spec (o := none) h.toImageInv (fun hok => (h.accounted hok).setEntry_none hval)
    hs ht hsame (fun _ => rfl) (fun _ ho => nomatch ho) rfl

theorem storeEntry_spec {v₂ v₃ : View} (h : Ledger z g vsize (X ∪ Set.Ico p (p + n)) img v₃)
    (hs : v.Settled g) (ht : TableReady g c l2 v v₂) (hsame : (v₂.forget c).Same v₃)
    (hst : StoredAt z g img.f e p n data) (hx : v₃.Extent (.data c) p n) :
    Meets (setL2Entry (c / g.l2Entries) l2 (c % g.l2Entries) e) img
      (fun _ => Rewritten z g vsize X v c data) E := by
  have hval : v₃.val c = none := (congrFun hsame.val c).trans (Function.update_self ..)
  refine setL2Entry_spec (o := some data) h.toImageInv
    (fun hok => (h.accounted hok).setEntry_some hval hst) hs ht hsame (fun ho => nomatch ho) ?_ rfl
  intro d hd
  obtain rfl := Option.some.inj hd
  exact ⟨p, n, hst, hx⟩

theorem freeEntry_spec {v₂ : View}
    (h : Ledger z g vsize (X ∪ Set.Ico (physOffset e) (physOffset e + a)) img (v₂.forget c))
    (hold : OldExtent g v₂ c e a) (hs : v.Settled g) (ht : TableReady g c l2 v v₂) (ha : 0 < a) :
    Meets (freeExtent (physOffset e) a) img (fun _ img' =>
      Meets (setL2Entry (c / g.l2Entries) l2 (c % g.l2Entries) 0) img'
        (fun _ => Rewritten z g vsize X v c (List.replicate g.clusterSize 0)) WriteFailed)
      WriteFailed := by
  have hcs := g.clusterSize_le
  have hdead : (v₂.forget c).Dead (.data c) := Function.update_self ..
  obtain ⟨-, hdvd, hsize, hx⟩ := hold.resolve_left (by omega)
  apply (freeExtent_spec h hx hdead hdvd ha (by omega) fun _ hb => hb).imp
  · intro _ img' h'
    exact clearEntry_spec h' hs ht (View.same_alloc ..)
  · exact fun _ _ he => he.1

theorem writeCluster_spec (h : Ledger z g vsize X img v) (hs : v.Settled g)
    (hi : c / g.l2Entries < v.l1Size) (hd : data.length = g.clusterSize)
    (hfit : Fills z g.clusterSize img.f (v.entry g c) data ∨ X = Set.univ) :
    Meets (writeCluster z c data) img (fun _ => Rewritten z g vsize X v c data)
      WriteFailed := by
  have hcs := g.le_clusterSize
  have hl1 := h.mem.l1Size_lt
  simp only [writeCluster, meets_bind, meets_get]
  rw [h.mem.l2Entries, h.mem.clusterSize, Nat.mod_eq_of_lt (show c / g.l2Entries < 2 ^ 32 by omega)]
  apply (allocateL2_spec h hi).post
  rintro l2 img₂ ⟨v₂, h₂, hg, htab, hval, h0, hl2, hfile⟩
  have ht : TableReady g c l2 v v₂ := ⟨hg, htab, hval, hg.l1Size ▸ hi, h0, hl2⟩
  apply (readOldAllocSize_spec h₂ (ht.settled hs) ht.entry).post
  rintro a _ ⟨rfl, hold, h₃, ha⟩
  have hv : (v₂.forget c).val c = none := Function.update_self ..
  apply meets_ite
  · intro hz
    obtain rfl : data = List.replicate g.clusterSize 0 := by
      rw [List.eq_replicate_iff]
      exact ⟨hd, by simpa using hz⟩
    rw [meets_bind]
    apply meets_when
    · rintro ⟨-, hpos⟩
      exact freeEntry_spec h₃ hold hs ht hpos
    · intro hn
      have ha0 : a = 0 := by
        by_contra ha0
        refine hn ⟨fun he => ha0 ?_, by omega⟩
        rw [ha, if_pos he]
      rw [ha0, add_zero, Set.Ico_self, Set.union_empty] at h₃
      exact clearEntry_spec h₃ hs ht (.refl _)
  · intro hz
    have hsize : a ≤ storedSize z g.clusterSize data ∨ X = Set.univ := by
      refine hfit.imp_left fun hfit => ?_
      rw [ha]
      split_ifs with he
      · exact Nat.zero_le _
      · have he' : v.entry g c ≠ 0 := by
          rwa [ht.entry, View.entry, htab] at he
        rw [ht.entry, View.entry, htab, hfile _ he']
        exact hfit he' (by simpa using hz)
    unfold storedSize at hsize
    cases hcomp : compressed z g.clusterSize data with
    | some comp =>
      rw [hcomp] at hsize
      obtain ⟨hz, hpos, hlt⟩ := compressed_eq_some hcomp
      have hdec := z.decompress_compress _ _ hz
      rw [hd] at hdec
      have hlen : (beBytes 4 comp.length ++ comp).length = 4 + comp.length := by simp
      have hup := le_alignUp (4 + comp.length)
      simp only [meets_bind]
      apply (placeCluster_spec h₃ hv hold.forget (dvd_alignUp _) (by omega)
        (alignUp_le g (by omega)) hsize).post
      intro p img₃ hp
      apply (writeFile_placed hp hv (by omega) (by simp [beBytes])).post
      rintro _ img₄ ⟨v₄, h₄, hsame, hx, hr, hp62⟩
      exact storeEntry_spec h₄ hs ht hsame (.lz hp62 hd (by omega) hr hdec) hx
    | none =>
      rw [hcomp] at hsize
      simp only [meets_bind]
      apply (placeCluster_spec h₃ hv hold.forget g.dvd_clusterSize (by omega) le_rfl hsize).post
      intro p img₃ hp
      apply (writeFile_placed hp hv hd.le (by rw [← List.length_pos_iff]; omega)).post
      rintro _ img₄ ⟨v₄, h₄, hsame, hx, hr, hp62⟩
      exact storeEntry_spec h₄ hs ht hsame (.raw hp62 hd hr) hx

theorem readEntry_spec (h : ImageInv z g vsize img v) (hst : StoredAt z g img.f e p n d) :
    Meets (readEntry z e) img (fun d' img' => img' = img ∧ d' = d) E := by
  have hphys := hst.physOffset_eq
  simp only [readEntry, meets_bind, meets_get]
  cases hst with
  | raw hp hd hr =>
    rw [if_neg (not_isCompressed_raw hp), hphys, h.mem.clusterSize]
    exact meets_readFile hr hd ⟨rfl, rfl⟩
  | @lz _ _ comp hp hd hc hr hz =>
    have hcs := g.clusterSize_le
    obtain ⟨hr1, hr2⟩ := File.reads_append.mp hr
    rw [length_beBytes] at hr2
    rw [if_pos (isCompressed_lz p), hphys]
    simp only [meets_bind]
    apply meets_readFile hr1 (length_beBytes ..)
    rw [get32, getBE_beBytes, Nat.mod_eq_of_lt (by norm_num; omega)]
    apply meets_readFile hr2 rfl
    rw [h.mem.clusterSize, hz]
    dsimp only
    rw [if_neg (not_not.mpr hd), meets_pure]
    exact ⟨rfl, rfl⟩

theorem readCluster_spec (h : ImageInv z g vsize img v) (hs : v.Settled g)
    (hi : c / g.l2Entries < v.l1Size) :
    Meets (readCluster z c) img (fun d img' => d = v.content g c ∧ ImageInv z g vsize img' v ∧
      img'.f = img.f) E := by
  have hl1 := h.mem.l1Size_lt
  simp only [readCluster, meets_bind, meets_get]
  rw [h.mem.l2Entries, h.mem.clusterSize, h.mem.l1, h.mem.l1Size,
    Nat.mod_eq_of_lt (show c / g.l2Entries < 2 ^ 32 by omega)]
  have hnone : v.entry g c = 0 → v.content g c = List.replicate g.clusterSize 0 := by
    intro h0
    cases hv : v.val c with
    | none => simp [View.content, hv]
    | some d => exact absurd h0 (h.layout.entry_ne_zero hv)
  apply meets_ite
  · intro h0
    exact ⟨(hnone (h.layout.tab_none _ h0 _)).symm, h, rfl⟩
  · intro h0
    rw [not_or] at h0
    simp only [meets_bind]
    apply (getL2_spec h hi h0.2).post
    rintro l2 img' ⟨h', hf, hl2⟩
    have he : l2 (c % g.l2Entries) = v.entry g c := hl2 _ (Nat.mod_lt _ g.l2Entries_pos)
    rw [he]
    apply meets_ite
    · intro h0
      exact ⟨(hnone h0).symm, h', hf⟩
    · intro h0
      cases hv : v.val c with
      | none => exact absurd (hs c hv) h0
      | some d =>
        obtain ⟨p, n, hst, -⟩ := h'.layout.stored c d hv
        apply (readEntry_spec h' hst).post
        rintro _ _ ⟨rfl, rfl⟩
        exact ⟨by simp [View.content, hv], h', hf⟩

end QCow2Image

end Lbd.QCow2
