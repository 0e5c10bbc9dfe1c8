import Lbd.QCow2.ImageSpec
import Lbd.QCow2.KernelCache
import Lbd.QCow2.KernelInv

/-!
# The kernel's allocator and its L2 tables

Space moves between the free list, the tables and the clusters as in
`QCow2Image`, but a table is written back with every entry, and failures to put
an extent on the free list are not always reported.
-/

namespace Lbd.QCow2

open Act

variable {z : Codec} {g : Geometry} {vsize : ℕ} {d d' : Device} {v v' : View}
  {off n c p i e a : ℕ} {bs data : List UInt8} {r : Region} {E : Errno → Device → Prop}

/-- `[p, p + n)` becomes the first extent of the free list, and the header says so. -/
def View.freed (v : View) (p n : ℕ) : View := (v.push p n).save 48 (beBytes 8 p)

/-- Cluster `c` gets the entry `e` and the data `o`, and its table is written back. -/
def View.putEntry (v : View) (g : Geometry) (c e : ℕ) (o : Option (List UInt8)) : View :=
  { v.setEntry g c e o with
    synced := fun k => k = c / g.l2Entries ∨ (v.setEntry g c e o).synced k }

/-- Table `i` is added at the append point. -/
def View.addTable (v : View) (g : Geometry) (l1Offset i : ℕ) : View :=
  { v with
    l1 := Function.update v.l1 i v.alloc
    alloc := v.alloc + g.clusterSize
    metaByte := overlay v.metaByte (l1Offset + i * 8) (beBytes 8 v.alloc)
    own := reown v.own v.alloc g.clusterSize (.table i)
    synced := fun k => k = i ∨ v.synced k }

theorem View.headSaved_freed (v : View) (p n : ℕ) : (v.freed p n).HeadSaved := at_overlay

/-- The cached clusters and the base are as before. -/
structure Device.Keeps (d d' : Device) : Prop where
  clCache : d'.clCache = d.clCache
  base : d'.base = d.base
  missHandler : d'.missHandler = d.missHandler

theorem Device.Keeps.trans {d₁ d₂ d₃ : Device} (h : d₁.Keeps d₂) (h' : d₂.Keeps d₃) :
    d₁.Keeps d₃ :=
  ⟨h'.clCache.trans h.clCache, h'.base.trans h.base, h'.missHandler.trans h.missHandler⟩

theorem Device.Allocs.keeps (h : d.Allocs d') : d.Keeps d' := by
  rw [h]
  exact ⟨rfl, rfl, rfl⟩

theorem Device.Allocs.l2Cache (h : d.Allocs d') : d'.l2Cache = d.l2Cache := by
  rw [h]

/-- The device and its view after some space has changed hands. -/
structure Moves (z : Codec) (g : Geometry) (vsize : ℕ) (d : Device) (v : View) (d' : Device)
    (v' : View) : Prop where
  inv : DeviceInv z g vsize d' v'
  allocs : d.Allocs d'
  shifts : v.Shifts v'

theorem Moves.refl (h : DeviceInv z g vsize d v) : Moves z g vsize d v d v :=
  ⟨h, rfl, .refl v⟩

theorem Moves.trans {d₁ d₂ d₃ : Device} {v₁ v₂ v₃ : View} (h : Moves z g vsize d₁ v₁ d₂ v₂)
    (h' : Moves z g vsize d₂ v₂ d₃ v₃) : Moves z g vsize d₁ v₁ d₃ v₃ :=
  ⟨h'.inv, h.allocs.trans h'.allocs, h.shifts.trans h'.shifts⟩

theorem DeviceInv.recache (h : DeviceInv z g vsize d v) (cl : Cache cacheSize (List UInt8))
    (tick : ℕ) (base : Option Base) :
    DeviceInv z g vsize { d with clCache := cl, lruTick := tick, base := base } v :=
  { h with mem := { h.mem with } }

theorem DeviceInv.setL2 (h : DeviceInv z g vsize d v) {cache : Cache cacheSize (ℕ → ℕ)}
    (tick : ℕ) (hc : cache.Coherent fun s : Slot (ℕ → ℕ) =>
      s.dirty = false ∧ ∀ j < g.l2Entries, s.val j = v.tab s.key j) :
    DeviceInv z g vsize { d with l2Cache := cache, lruTick := tick } v :=
  { h with mem := { h.mem with l2 := hc } }

theorem DeviceInv.forget (h : DeviceInv z g vsize d v) (c : ℕ) :
    DeviceInv z g vsize d (v.forget c) :=
  { h with mem := { h.mem with }, layout := h.layout.forget c }

theorem DeviceInv.saveField (h : DeviceInv z g vsize d v) (hoff : 36 ≤ off)
    (hend : off + bs.length ≤ headerSize) :
    DeviceInv z g vsize { d with backingFile := d.backingFile.put off bs } (v.save off bs) := by
  have hm := h.meta_le
  have hh : headerSize ≤ v.metaEnd := h.header_le
  have hl1 := h.mem.l1Offset
  exact { h with
    mem := { h.mem with
      fixed := h.mem.fixed.overlay_of_disjoint (by rw [length_fixedHeader]; omega)
      l1Saved := h.mem.l1Saved.overlay_of_disjoint (by omega) }
    layout := h.layout.putMeta (by omega)
    size_le := File.put_size_le h.size_le (by omega) }

namespace Device

theorem meets_kernelWrite {Q : Unit → Device → Prop} (hf : d.backingFile.NoFaults)
    (hQ : off + bs.length ≤ d.backingFile.capacity →
      Q () { d with backingFile := d.backingFile.put off bs })
    (hE : ¬ off + bs.length ≤ d.backingFile.capacity →
      E .eio { d with backingFile := d.backingFile.skip }) :
    Meets (kernelWrite off bs) d Q E := by
  unfold Meets kernelWrite
  rw [hf.writeAt]
  by_cases h : off + bs.length ≤ d.backingFile.capacity
  · simpa [h] using hQ h
  · simpa [h] using hE h

theorem meets_saveField {Q : Unit → Device → Prop} (h : DeviceInv z g vsize d v)
    (hend : off + bs.length ≤ headerSize)
    (hQ : Q () { d with backingFile := d.backingFile.put off bs }) :
    Meets (kernelWrite off bs) d Q E := by
  have hm := h.meta_le
  have hh : headerSize ≤ v.metaEnd := h.header_le
  exact meets_kernelWrite h.noFaults (fun _ => hQ) fun hn => absurd (by omega) hn

theorem writeFreeListHead_spec (h : DeviceInv z g vsize d v) :
    Meets writeFreeListHead d
      (fun _ d' => Moves z g vsize d v d' (v.save 48 (beBytes 8 v.head))) E := by
  simp only [writeFreeListHead, meets_bind, meets_get]
  rw [h.head]
  apply meets_saveField h (by rw [length_beBytes]; norm_num [headerSize])
  exact ⟨h.saveHead, rfl, v.shifts_saveHead⟩

theorem writeAllocOffset_spec (h : DeviceInv z g vsize d v) :
    Meets writeAllocOffset d (fun _ d' =>
      d.Allocs d' ∧ DeviceInv z g vsize d' (v.save 36 (beBytes 8 v.alloc))) E := by
  have hend : 36 + (beBytes 8 v.alloc).length ≤ headerSize := by
    rw [length_beBytes]
    norm_num [headerSize]
  simp only [writeAllocOffset, meets_bind, meets_get]
  rw [h.alloc]
  exact meets_saveField h hend ⟨rfl, h.saveField le_rfl hend⟩

theorem freeExtent_spec (h : DeviceInv z g vsize d v) (hx : v.Extent r p n) (hr : v.Dead r)
    (hdvd : 4096 ∣ n) (hpos : 0 < n) (hlt : n < 2 ^ 32) :
    Meets (freeExtent p n) d (fun _ d' => Moves z g vsize d v d' (v.freed p n))
      (fun e d' => NoRoom v.alloc e d' ∧ Moves z g vsize d v d' v) := by
  have hge := Nat.le_of_dvd hpos hdvd
  have hbelow := hx.below
  simp only [freeExtent, meets_bind, meets_get, meets_modify]
  rw [h.head]
  apply meets_kernelWrite h.noFaults
  · intro hfits
    have hpush : (v.Shifts (v.push p n)) := (v.same_alloc ..).shifts
    have h₁ := h.of_layout (h.layout.push hx hr hdvd hpos hlt) hpush h.noFaults.put rfl
      (File.put_size_le h.size_le hfits) h.alloc rfl
    apply (writeFreeListHead_spec h₁).post
    intro _ d' h₂
    exact ⟨h₂.inv, h₂.allocs, hpush.trans h₂.shifts⟩
  · intro hn
    rw [length_tombstone] at hn
    exact ⟨⟨rfl, show d.backingFile.capacity < v.alloc by omega⟩, h.skip, rfl, .refl v⟩

/-- `n` bytes at `p` are reserved for cluster `c`, unless the append point is behind what the
file can hold. -/
def Placed (z : Codec) (g : Geometry) (vsize : ℕ) (d : Device) (v : View) (c n p : ℕ)
    (d' : Device) : Prop :=
  (∃ v', Moves z g vsize d v d' v' ∧ (v.HeadSaved → v'.HeadSaved) ∧ v'.alloc ≤ v.alloc + n ∧
    v'.Extent (.data c) p n) ∨
    (d'.backingFile.NoFaults ∧ d'.backingFile.capacity < p ∧ p ≤ v.alloc)

theorem Placed.of_moves {d'' : Device} (hp : Placed z g vsize d' v' c n p d'')
    (h : Moves z g vsize d v d' v') (hs : v.HeadSaved → v'.HeadSaved) (ha : v'.alloc = v.alloc) :
    Placed z g vsize d v c n p d'' := by
  unfold Placed at hp
  rw [ha] at hp
  rcases hp with ⟨v'', h', hs', hrest⟩ | hp
  · exact .inl ⟨v'', h.trans h', fun hh => hs' (hs hh), hrest⟩
  · exact .inr hp

theorem appendSpace_spec (h : DeviceInv z g vsize d v) (hn : n ≤ 2 ^ 24) :
    Meets (appendSpace n) d (Placed z g vsize d v c n) E := by
  have hcap := h.capacity
  simp only [appendSpace, meets_bind, meets_get, meets_modify, meets_pure]
  rw [h.alloc]
  by_cases halloc : v.alloc ≤ 2 ^ 62
  · obtain ⟨hl, hx⟩ := h.layout.grow (n := n) (by omega) (.data c)
    have hshift : v.Shifts { v with
        own := reown v.own v.alloc n (.data c), alloc := v.alloc + n } := (v.same_alloc ..).shifts
    exact .inl ⟨_, ⟨h.of_layout hl hshift h.noFaults rfl h.size_le rfl h.head, rfl, hshift⟩, id,
      le_rfl, hx⟩
  · exact .inr ⟨h.noFaults, show d.backingFile.capacity < v.alloc by omega, le_rfl⟩

theorem unlink_spec {fit : Fit} {pre post : List (ℕ × ℕ)} (h : DeviceInv z g vsize d v)
    (hfl : v.free = pre ++ (fit.cur, fit.extentSize) :: post) (hlt : fit.nextFree < 2 ^ 64)
    (hc : Chain d.backingFile fit.nextFree post)
    (hprev : pre = [] ∧ fit.isFirst = true ∨
      ∃ init m, pre = init ++ [(fit.prevPhys, m)] ∧ fit.isFirst = false) :
    Meets (unlink fit) d (fun ok d' => if ok then ∃ v', Moves z g vsize d v d' v' ∧
        v'.alloc = v.alloc ∧ v'.Extent (.free fit.cur) fit.cur fit.extentSize ∧
        v'.Dead (.free fit.cur)
      else Moves z g vsize d v d' v) E := by
  have hx := (h.layout.free _ (hfl ▸ List.mem_append_right _ (List.mem_cons_self ..))).1
  have hdead : ∀ x ∈ pre ++ post, x.1 ≠ fit.cur := by
    have hnodup := h.layout.free_nodup
    rw [hfl, List.map_append, List.map_cons, List.nodup_middle, ← List.map_append] at hnodup
    intro x hx hxc
    exact (List.nodup_cons.mp hnodup).1 (List.mem_map.mpr ⟨x, hx, hxc⟩)
  have hshift : ∀ free head, v.Shifts { v with free := free, head := head } :=
    fun _ _ => (v.same_alloc ..).shifts
  rcases hprev with ⟨rfl, hfirst⟩ | ⟨init, m, rfl, hfirst⟩
  · simp only [unlink, hfirst, if_true, meets_bind, meets_modify, meets_pure]
    have hinv := h.of_layout (h.layout.popFirst hfl hc) (hshift ..) h.noFaults rfl h.size_le
      h.alloc rfl
    exact ⟨_, ⟨hinv, rfl, hshift ..⟩, rfl, hx, hdead⟩
  · simp only [unlink, hfirst, Bool.false_eq_true, if_false, meets_bind, meets_attempt, meets_pure]
    rw [List.append_assoc] at hfl hdead
    apply meets_kernelWrite h.noFaults
    · intro hfits
      have hinv := h.of_layout (h.layout.popNext hfl hc hlt) (hshift _ v.head) h.noFaults.put rfl
        (File.put_size_le h.size_le hfits) h.alloc h.head
      exact ⟨_, ⟨hinv, rfl, hshift ..⟩, rfl, hx, hdead⟩
    · exact fun _ => ⟨h.skip, rfl, .refl v⟩

theorem splitExtent_spec {fit : Fit} (h : DeviceInv z g vsize d v)
    (hx : v.Extent (.free fit.cur) fit.cur fit.extentSize) (hdead : v.Dead (.free fit.cur))
    (hsize : 4096 ∣ fit.extentSize) (hlt : fit.extentSize < 2 ^ 32) (hn : 4096 ∣ n)
    (hpos : 0 < n) (hle : n ≤ fit.extentSize) :
    Meets (splitExtent fit n) d (fun _ d' => ∃ v', Moves z g vsize d v d' v' ∧ v'.HeadSaved ∧
      v'.alloc = v.alloc ∧ v'.Extent (.free fit.cur) fit.cur n ∧ v'.Dead (.free fit.cur)) E := by
  have hx' : v.Extent (.free fit.cur) fit.cur n := by
    have := hx.below
    exact ⟨hx.above, by omega, hx.owns.sub le_rfl (by omega)⟩
  -- the head is written even if the rest could not be freed
  have hhead : ∀ d', Moves z g vsize d v d' v → Meets (ignore writeFreeListHead) d'
      (fun _ d' => ∃ v', Moves z g vsize d v d' v' ∧ v'.HeadSaved ∧ v'.alloc = v.alloc ∧
        v'.Extent (.free fit.cur) fit.cur n ∧ v'.Dead (.free fit.cur)) E := by
    intro d' h'
    simp only [ignore, meets_bind, meets_attempt, meets_pure]
    apply (writeFreeListHead_spec h'.inv).post
    intro _ d'' h''
    exact ⟨_, h'.trans h'', v.headSaved_saveHead, rfl, hx', hdead⟩
  apply meets_ite
  · intro hrem
    have hrest : v.Extent (.free fit.cur) (fit.cur + n) (fit.extentSize - n) := by
      have := hx.below
      have := hx.above
      exact ⟨by omega, by omega, hx.owns.sub (by omega) (by omega)⟩
    unfold freeEntryMin at hrem
    simp only [meets_bind, meets_attempt]
    apply (freeExtent_spec h hrest hdead (Nat.dvd_sub hsize hn) (by omega) (by omega)).imp
    · intro _ d' h'
      refine ⟨_, h', v.headSaved_freed .., rfl, ⟨hx'.above, hx'.below, ?_⟩, ?_⟩
      · exact hx'.owns.reown fun a ha _ _ ha' => absurd ha' (by omega)
      · rintro x (hx | ⟨_, hx⟩) hxc
        · dsimp only at hxc
          omega
        · exact hdead x hx hxc
    · rintro _ d' ⟨-, h'⟩
      exact hhead d' h'
  · exact fun _ => hhead d (.refl h)

theorem allocSpace_spec (h : DeviceInv z g vsize d v) (hn : 4096 ∣ n) (hpos : 0 < n)
    (hle : n ≤ 2 ^ 24) : Meets (allocSpace n) d (Placed z g vsize d v c n) E := by
  simp only [allocSpace, meets_bind, meets_get]
  rw [h.head]
  cases hscan : scanFree d.backingFile n freeScanLimit 0 true v.head with
  | none => exact appendSpace_spec h hle
  | some fit =>
    obtain ⟨pre, post, hfl, hfit, hnext, hchain, hprev⟩ :=
      scanFree_spec h.layout.chain (fun x hx => (h.layout.free x hx).2.2.2) hscan
    have hfree := h.layout.free (fit.cur, fit.extentSize) (by simp [hfl])
    simp only [meets_bind]
    apply (unlink_spec h hfl hnext hchain (hprev.imp_left fun hp => ⟨hp.1, hp.2.1⟩)).post
    intro ok d₁ h₁
    cases ok with
    | false =>
      have h₁ : Moves z g vsize d v d₁ v := h₁
      apply (appendSpace_spec h₁.inv hle).post
      exact fun p d₂ hp => Placed.of_moves hp h₁ id rfl
    | true =>
      obtain ⟨v₁, h₁, ha₁, hx₁, hd₁⟩ := h₁
      simp only [if_true, meets_bind, meets_pure]
      apply (splitExtent_spec h₁.inv hx₁ hd₁ hfree.2.1 hfree.2.2.2 hn hpos hfit).post
      rintro _ d₂ ⟨v₂, h₂, hs₂, ha₂, hx₂, hd₂⟩
      obtain ⟨hl, hx⟩ := h₂.inv.layout.claim hx₂ hd₂ (.data c)
      have hshift : v₂.Shifts { v₂ with own := reown v₂.own fit.cur n (.data c) } :=
        (v₂.same_alloc ..).shifts
      have hinv := h₂.inv.of_layout hl hshift h₂.inv.noFaults rfl h₂.inv.size_le h₂.inv.alloc
        h₂.inv.head
      have halloc : v₂.alloc ≤ v.alloc + n := by
        rw [ha₂, ha₁]
        exact Nat.le_add_right _ _
      exact .inl ⟨_, (h₁.trans h₂).trans ⟨hinv, rfl, hshift⟩, fun _ => hs₂, halloc, hx⟩

theorem readOldAllocSize_spec (h : DeviceInv z g vsize d v) (hs : v.Settled g)
    (he : e = v.entry g c) :
    Meets (readOldAllocSize e) d (fun a d' => d' = d ∧ OldExtent g v c e a) E := by
  simp only [readOldAllocSize, meets_bind, meets_get]
  cases hv : v.val c with
  | none =>
    rw [if_pos (he.trans (hs c hv)), meets_pure]
    exact ⟨rfl, .inl rfl⟩
  | some x =>
    obtain ⟨p, n, hst, hx⟩ := h.layout.stored c x hv
    rw [← he] at hst
    have hsize := hst.size
    have hphys := hst.physOffset_eq
    rw [← hphys] at hx
    have hold : OldExtent g v c e n := .inr ⟨hsize.2.1, hsize.1, hsize.2.2, hx⟩
    rw [if_neg (hst.ne_zero (hphys ▸ h.layout.pos_of_above hx.above))]
    cases hst with
    | raw hp =>
      rw [if_neg (not_isCompressed_raw hp), meets_pure, h.mem.clusterSize]
      exact ⟨rfl, hold⟩
    | @lz _ _ comp hp _ hc hr =>
      have hread := (File.reads_append.mp hr).1.readAt (length_beBytes ..)
      have hlt := g.clusterSize_le
      rw [if_pos (isCompressed_lz p), hphys, hread]
      dsimp only
      rw [meets_pure, get32, getBE_beBytes, Nat.mod_eq_of_lt (by norm_num; omega)]
      exact ⟨rfl, hold⟩

/-- `free` puts extents on the free list, or gives up on them. -/
def Frees (z : Codec) (g : Geometry) (vsize : ℕ) (free : ℕ → ℕ → KernelM Unit) : Prop :=
  ∀ {d v r p n}, DeviceInv z g vsize d v → v.Extent r p n → v.Dead r → 4096 ∣ n → 0 < n →
    n < 2 ^ 32 → Meets (free p n) d (fun _ d' => ∃ v', Moves z g vsize d v d' v' ∧
      (v.HeadSaved → v'.HeadSaved) ∧ v'.alloc = v.alloc) (NoRoom v.alloc)

theorem frees_freeExtent : Frees z g vsize freeExtent := by
  intro d v r p n h hx hr hdvd hpos hlt
  apply (freeExtent_spec h hx hr hdvd hpos hlt).imp
  · exact fun _ d' h' => ⟨_, h', fun _ => v.headSaved_freed p n, rfl⟩
  · exact fun _ d' h' => h'.1

theorem frees_freeQuietly : Frees z g vsize freeQuietly := by
  intro d v r p n h hx hr hdvd hpos hlt
  simp only [freeQuietly, ignore, meets_bind, meets_attempt, meets_pure]
  apply (freeExtent_spec h hx hr hdvd hpos hlt).imp
  · exact fun _ d' h' => ⟨_, h', fun _ => v.headSaved_freed p n, rfl⟩
  · exact fun _ d' h' => ⟨v, h'.2, id, rfl⟩

variable {free : ℕ → ℕ → KernelM Unit}

theorem placeCluster_spec (hfree : Frees z g vsize free) (h : DeviceInv z g vsize d v)
    (hv : v.val c = none) (hold : OldExtent g v c e a) (hn : 4096 ∣ n) (hpos : 0 < n)
    (hle : n ≤ g.clusterSize) :
    Meets (placeCluster (free (physOffset e) a) e a n) d (Placed z g vsize d v c n)
      (NoRoom v.alloc) := by
  have hcs := g.clusterSize_le
  apply meets_ite
  · rintro ⟨ha, hna⟩
    obtain ⟨-, -, -, hx⟩ := hold.resolve_left (by omega)
    have hbelow := hx.below
    exact .inl ⟨v, .refl h, id, by omega, hx.above, by omega, hx.owns.sub le_rfl (by omega)⟩
  · intro _
    rw [meets_bind]
    apply meets_when
    · intro ha
      obtain ⟨-, hdvd, hsize, hx⟩ := hold.resolve_left (by omega)
      apply (hfree h hx (show v.Dead (.data c) from hv) hdvd ha (by omega)).post
      rintro _ d₁ ⟨v₁, h₁, hs₁, ha₁⟩
      apply (allocSpace_spec h₁.inv hn hpos (by omega)).post
      exact fun p d₂ hp => Placed.of_moves hp h₁ hs₁ ha₁
    · intro _
      exact allocSpace_spec h hn hpos (by omega)

theorem kernelWrite_placed (hp : Placed z g vsize d v c n p d') (hv : v.val c = none)
    (hoff : p ≤ off) (hend : off + bs.length ≤ p + n) :
    Meets (kernelWrite off bs) d' (fun _ d'' => ∃ v', Moves z g vsize d v d'' v' ∧
      (v.HeadSaved → v'.HeadSaved) ∧ v'.alloc ≤ v.alloc + n ∧ v'.Extent (.data c) p n ∧
      d''.backingFile = d'.backingFile.put off bs ∧ off + bs.length ≤ 2 ^ 62)
      (NoRoom (v.alloc + n)) := by
  rcases hp with ⟨v', h, hs, ha, hx⟩ | ⟨hf, hcap, hle⟩
  · apply meets_kernelWrite h.inv.noFaults
    · intro hfits
      have hval : v'.val c = none := (congrFun h.shifts.val c).trans hv
      have hl := h.inv.layout.put_extent bs hx (show v'.Loose (.data c) from hval) hoff hend
      have hcap := h.inv.capacity
      exact ⟨v', h.trans ⟨h.inv.put hfits hl, rfl, .refl v'⟩, hs, ha, hx, rfl, by omega⟩
    · intro hn
      have hbelow := hx.below
      exact ⟨rfl, show d'.backingFile.capacity < v.alloc + n by omega⟩
  · apply meets_kernelWrite hf
    · exact fun hfits => absurd hcap (by omega)
    · exact fun _ => ⟨rfl, show d'.backingFile.capacity < v.alloc + n by omega⟩

/-- The entry `e` stores the data of cluster `c`. -/
def Stored (z : Codec) (g : Geometry) (vsize : ℕ) (d : Device) (v : View) (c : ℕ)
    (data : List UInt8) (e : ℕ) (d' : Device) : Prop :=
  ∃ v' p n, Moves z g vsize d v d' v' ∧ (v.HeadSaved → v'.HeadSaved) ∧
    v'.alloc ≤ v.alloc + g.clusterSize ∧ StoredAt z g d'.backingFile e p n data ∧
    v'.Extent (.data c) p n

theorem reads_put_put {f : File} {cs : List UInt8} (hbs : bs ≠ []) (hcs : cs ≠ []) :
    ((f.put p bs).put (p + bs.length) cs).Reads p (bs ++ cs) := by
  refine File.reads_append.mpr ⟨?_, File.reads_put hcs⟩
  exact (File.reads_put hbs).congr File.size_le_put fun a _ ha => overlay_of_not (.inl ha)

theorem storeCluster_spec (hfree : Frees z g vsize free) (h : DeviceInv z g vsize d v)
    (hv : v.val c = none) (hold : OldExtent g v c e a) (hd : data.length = g.clusterSize) :
    Meets (storeCluster z (free (physOffset e) a) data e a) d (Stored z g vsize d v c data)
      (NoRoom (v.alloc + g.clusterSize)) := by
  have hcs := g.le_clusterSize
  simp only [storeCluster, meets_bind, meets_get]
  rw [h.mem.clusterSize]
  cases hcomp : compressed z g.clusterSize data with
  | some comp =>
    obtain ⟨hz, hpos, hlt⟩ := compressed_eq_some hcomp
    have hdec := z.decompress_compress _ _ hz
    rw [hd] at hdec
    have hup := le_alignUp (4 + comp.length)
    have hle := alignUp_le g (show 4 + comp.length ≤ g.clusterSize by omega)
    have hhead : (beBytes 4 comp.length).length = 4 := length_beBytes ..
    simp only [meets_bind, meets_pure]
    apply (placeCluster_spec hfree h hv hold (dvd_alignUp _) (by omega) hle).imp _
      fun _ _ he => he.mono (by omega)
    intro p d₁ hp
    apply (kernelWrite_placed hp hv le_rfl (by omega)).imp _ fun _ _ he => he.mono (by omega)
    rintro _ d₂ ⟨v₂, h₂, hs₂, ha₂, hx₂, hf₂, -⟩
    apply (kernelWrite_placed (.inl ⟨v₂, h₂, hs₂, ha₂, hx₂⟩) hv (Nat.le_add_right p 4)
      (by omega)).imp _ fun _ _ he => he.mono (by omega)
    rintro _ d₃ ⟨v₃, h₃, hs₃, ha₃, hx₃, hf₃, hend⟩
    have hne : beBytes 4 comp.length ≠ [] := List.length_pos_iff.mp (by omega)
    have hr := reads_put_put (f := d₁.backingFile) (p := p) hne (List.length_pos_iff.mp hpos)
    rw [hhead, ← hf₂, ← hf₃] at hr
    exact ⟨v₃, p, _, h₃, hs₃, by omega, .lz (by omega) hd (by omega) hr hdec, hx₃⟩
  | none =>
    simp only [meets_bind, meets_pure]
    apply (placeCluster_spec hfree h hv hold g.dvd_clusterSize (by omega) le_rfl).imp _
      fun _ _ he => he.mono (by omega)
    intro p d₁ hp
    apply (kernelWrite_placed hp hv le_rfl (by omega)).post
    rintro _ d₂ ⟨v₂, h₂, hs₂, ha₂, hx₂, hf₂, hend⟩
    have hr : d₂.backingFile.Reads p data :=
      hf₂ ▸ File.reads_put (List.length_pos_iff.mp (by omega))
    exact ⟨v₂, p, _, h₂, hs₂, ha₂, .raw (by omega) hd hr, hx₂⟩

theorem loadTable_of_layout {f : File} (h : Layout z g f v) (hsync : v.synced i) :
    ∃ table, loadTable f v.l1 v.l1Size g.clusterSize i = some table ∧
      ∀ j < g.l2Entries, table j = v.tab i j := by
  unfold loadTable
  by_cases hi : i < v.l1Size ∧ v.l1 i ≠ 0
  · have hr := h.synced i hi.1 hi.2 hsync
    rw [if_pos hi, hr.readAt (length_l2Bytes g _)]
    dsimp only
    rw [if_neg (not_not.mpr (crc_l2Bytes g _))]
    exact ⟨_, rfl, fun j hj => get64_l2Bytes hj (h.tab_lt i j)⟩
  · rw [if_neg hi]
    have hnone : v.l1Size ≤ i ∨ v.l1 i = 0 := by
      by_contra hn
      rw [not_or] at hn
      exact hi ⟨Nat.not_le.mp hn.1, hn.2⟩
    exact ⟨_, rfl, fun j _ => (h.tab_none i hnone j).symm⟩

theorem loadTable_spec (h : DeviceInv z g vsize d v) (i : ℕ) :
    ∃ table, loadTable d.backingFile d.l1Table d.l1Size d.clusterSize i = some table ∧
      ∀ j < g.l2Entries, table j = v.tab i j := by
  rw [h.mem.l1, h.mem.l1Size, h.mem.clusterSize]
  exact loadTable_of_layout h.layout (h.synced i)

/-- Slot `l2e` holds table `i`. -/
def HoldsTable (d : Device) (i : ℕ) (l2e : Fin cacheSize) : Prop :=
  (d.l2Cache l2e).valid = true ∧ (d.l2Cache l2e).key = i

theorem l2Get_spec (h : DeviceInv z g vsize d v) (i : ℕ) :
    Meets (l2Get i) d (fun r d' => ∃ l2e, r = some l2e ∧ HoldsTable d' i l2e ∧
      DeviceInv z g vsize d' v ∧ d' = { d with l2Cache := d'.l2Cache, lruTick := d'.lruTick })
      E := by
  cases hfind : d.l2Cache.find i with
  | some l2e =>
    obtain ⟨hvalid, hkey⟩ := Cache.find_some hfind
    apply meets_of_ok (l2Get_hit hfind)
    refine ⟨l2e, rfl, ?_, h.setL2 _ (h.mem.l2.touch l2e fun _ => id), rfl⟩
    unfold HoldsTable Cache.touch
    dsimp only
    rw [Function.update_self]
    exact ⟨hvalid, hkey⟩
  | none =>
    obtain ⟨table, hload, htab⟩ := loadTable_spec h i
    apply meets_of_ok ((l2Get_miss hfind fun k hk => (h.mem.l2.holds k hk).1).trans
      (l2Load_ok _ hload))
    exact ⟨d.l2Cache.victim, rfl,
      Cache.load_slot (P := fun slot => slot.valid = true ∧ slot.key = i) _ _ ⟨rfl, rfl⟩,
      h.setL2 _ (h.mem.l2.load hfind _ ⟨rfl, htab⟩), rfl⟩

theorem setL2Entry_l2Flush_eq {l2e : Fin cacheSize} (j e : ℕ)
    (hvalid : (d.l2Cache l2e).valid = true) (h0 : d.l1Table (d.l2Cache l2e).key ≠ 0)
    (hf : d.backingFile.NoFaults)
    (hfits : d.l1Table (d.l2Cache l2e).key +
      (l2Bytes d.l2Entries (Function.update (d.l2Cache l2e).val j e)).length ≤
        d.backingFile.capacity) :
    (setL2Entry l2e j e >>= fun _ => l2Flush l2e) d = (.ok (), { d with
      backingFile := d.backingFile.put (d.l1Table (d.l2Cache l2e).key)
        (l2Bytes d.l2Entries (Function.update (d.l2Cache l2e).val j e))
      l2Cache := Function.update d.l2Cache l2e
        { d.l2Cache l2e with
          val := Function.update (d.l2Cache l2e).val j e
          dirty := false } }) := by
  apply Meets.eq_ok
  simp only [setL2Entry, l2Flush, meets_bind, meets_modify, meets_get, Cache.setVal, Cache.setDirty,
    Function.update_self, Function.update_idem]
  rw [if_neg (by simp [hvalid]), if_neg h0, meets_bind]
  exact meets_kernelWrite hf (fun _ => ⟨trivial, by simp⟩) fun hn => absurd hfits hn

end Device

theorem DeviceInv.putEntry {l2e : Fin cacheSize} {o : Option (List UInt8)}
    (h : DeviceInv z g vsize d v) (hl2e : d.HoldsTable (c / g.l2Entries) l2e) (he : e < 2 ^ 64)
    (hi : c / g.l2Entries < v.l1Size) (h0 : v.l1 (c / g.l2Entries) ≠ 0)
    (ho : ∀ x, o = some x → ∃ p n, StoredAt z g d.backingFile e p n x ∧ v.Extent (.data c) p n) :
    DeviceInv z g vsize { d with
        backingFile := d.backingFile.put (v.l1 (c / g.l2Entries))
          (l2Bytes g.l2Entries (Function.update (d.l2Cache l2e).val (c % g.l2Entries) e))
        l2Cache := Function.update d.l2Cache l2e { d.l2Cache l2e with
          val := Function.update (d.l2Cache l2e).val (c % g.l2Entries) e, dirty := false } }
      (v.putEntry g c e o) := by
  obtain ⟨hvalid, hkey⟩ := hl2e
  have htab : ∀ j < g.l2Entries, Function.update (d.l2Cache l2e).val (c % g.l2Entries) e j =
      (v.putEntry g c e o).tab (c / g.l2Entries) j := by
    intro j hj
    change _ = if _ ∧ j = c % g.l2Entries then e else v.tab (c / g.l2Entries) j
    by_cases hjc : j = c % g.l2Entries
    · rw [hjc, Function.update_self, if_pos ⟨rfl, rfl⟩]
    · rw [Function.update_of_ne hjc, if_neg fun hc => hjc hc.2, (h.mem.l2.holds l2e hvalid).2 j hj,
        hkey]
  have hlayout := (h.layout.setEntry (o := o) he hi h0 ho).flush hi h0
  have hbytes : l2Bytes g.l2Entries (Function.update (d.l2Cache l2e).val (c % g.l2Entries) e) =
      l2Bytes g.l2Entries ((v.putEntry g c e o).tab (c / g.l2Entries)) := by
    rw [l2Bytes, tableBytes_congr htab, ← l2Bytes]
  rw [hbytes]
  refine { h with mem := { h.mem with l2 := ?_ }, layout := hlayout, size_le := ?_, synced := ?_ }
  · refine h.mem.l2.replace hvalid ?_ ?_ ?_
    · rfl
    · refine ⟨rfl, ?_⟩
      dsimp only
      rwa [hkey]
    · rintro j hj hne ⟨hclean, hval⟩
      refine ⟨hclean, fun k hk => (hval k hk).trans (if_neg ?_).symm⟩
      exact fun hc => hne (hc.1.trans hkey.symm)
  · have hr := (h.layout.synced _ hi h0 (h.synced _)).1.trans h.size_le
    rw [length_l2Bytes] at hr
    exact File.put_size_le h.size_le (by rwa [length_l2Bytes])
  · intro i
    by_cases hic : i = c / g.l2Entries
    · exact .inl hic
    · exact .inr ⟨hic, h.synced i⟩

namespace Device

theorem storeEntry_spec {l2e : Fin cacheSize} {o : Option (List UInt8)}
    (h : DeviceInv z g vsize d v) (hl2e : HoldsTable d (c / g.l2Entries) l2e) (he : e < 2 ^ 64)
    (hi : c / g.l2Entries < v.l1Size) (h0 : v.l1 (c / g.l2Entries) ≠ 0)
    (ho : ∀ x, o = some x → ∃ p n, StoredAt z g d.backingFile e p n x ∧ v.Extent (.data c) p n) :
    Meets (setL2Entry l2e (c % g.l2Entries) e >>= fun _ => l2Flush l2e) d
      (fun _ d' => d.Keeps d' ∧ DeviceInv z g vsize d' (v.putEntry g c e o)) E := by
  have hinv := h.putEntry hl2e he hi h0 ho
  have hr := (h.layout.synced _ hi h0 (h.synced _)).1.trans h.size_le
  obtain ⟨hvalid, hkey⟩ := hl2e
  rw [length_l2Bytes] at hr
  have heq := setL2Entry_l2Flush_eq (c % g.l2Entries) e hvalid
    (by rwa [hkey, h.mem.l1]) h.noFaults
    (by rwa [hkey, h.mem.l1, h.mem.l2Entries, length_l2Bytes])
  apply meets_of_ok heq
  refine ⟨⟨rfl, rfl, rfl⟩, ?_⟩
  have hput : d.backingFile.put (d.l1Table (d.l2Cache l2e).key)
      (l2Bytes d.l2Entries (Function.update (d.l2Cache l2e).val (c % g.l2Entries) e)) =
      d.backingFile.put (v.l1 (c / g.l2Entries))
        (l2Bytes g.l2Entries (Function.update (d.l2Cache l2e).val (c % g.l2Entries) e)) := by
    rw [hkey, h.mem.l1, h.mem.l2Entries]
  rw [hput]
  exact hinv

end Device

theorem at_tableBytes {b : ℕ → UInt8} {t : ℕ → ℕ} :
    At b off (tableBytes n t) ↔ ∀ j < n, At b (off + 8 * j) (beBytes 8 (t j)) := by
  induction n with
  | zero => exact iff_of_true rfl fun _ hj => absurd hj (Nat.not_lt_zero _)
  | succ n ih =>
    have hsucc : tableBytes (n + 1) t = tableBytes n t ++ beBytes 8 (t n) := by
      simp [tableBytes, List.range_succ]
    rw [hsucc, at_append, ih, length_tableBytes]
    constructor
    · rintro ⟨hall, hlast⟩ j hj
      rcases Nat.lt_succ_iff_lt_or_eq.mp hj with hj | rfl
      · exact hall j hj
      · exact hlast
    · exact fun hall => ⟨fun j hj => hall j (by omega), hall n (by omega)⟩

theorem at_tableBytes_update {b : ℕ → UInt8} {t : ℕ → ℕ} {x : ℕ} (h : At b off (tableBytes n t)) :
    At (overlay b (off + i * 8) (beBytes 8 x)) off (tableBytes n (Function.update t i x)) := by
  rw [at_tableBytes] at h ⊢
  intro j hj
  by_cases hji : j = i
  · rw [hji, Function.update_self, Nat.mul_comm]
    exact at_overlay
  · rw [Function.update_of_ne hji]
    exact (h j hj).overlay_of_disjoint (by rw [length_beBytes, length_beBytes]; omega)

/-- `v'` is `v` with an L2 table for the L1 index `i`. -/
structure Tabled (i : ℕ) (v v' : View) : Prop where
  grows : v.Grows v'
  tab : v'.tab = v.tab
  val : v'.val = v.val
  l1_ne : v'.l1 i ≠ 0
  headSaved : v.HeadSaved → v'.HeadSaved

theorem DeviceInv.addTable (h : DeviceInv z g vsize d v) (hi : i < v.l1Size) (h0 : v.l1 i = 0)
    (hfits : v.alloc + g.clusterSize ≤ d.backingFile.capacity) :
    DeviceInv z g vsize { d with
      backingFile := (d.backingFile.put v.alloc (l2Bytes g.l2Entries fun _ => 0)).put
        (d.l1Offset + i * 8) (beBytes 8 v.alloc)
      l1Table := Function.update d.l1Table i v.alloc
      allocOffset := v.alloc + d.clusterSize } (v.addTable g d.l1Offset i) := by
  have hcap := h.capacity
  have hm := h.meta_le
  have hl1 := h.mem.l1_le
  have hhdr := h.mem.l1Offset
  unfold headerSize at hhdr
  have hlen : (beBytes 8 v.alloc).length = 8 := length_beBytes ..
  have htable := (h.layout.addTable hi h0 (by omega)).putMeta
    (show d.l1Offset + i * 8 + (beBytes 8 v.alloc).length ≤ v.metaEnd by omega)
  refine { h with
    mem := { h.mem with l1 := ?_, fixed := ?_, l1Saved := at_tableBytes_update h.mem.l1Saved }
    layout := htable, size_le := ?_, alloc := ?_, synced := fun k => .inr (h.synced k) }
  · show Function.update d.l1Table i v.alloc = Function.update v.l1 i v.alloc
    rw [h.mem.l1]
  · exact h.mem.fixed.overlay_of_disjoint (by rw [length_fixedHeader]; omega)
  · exact File.put_size_le
      (File.put_size_le h.size_le (by rw [length_l2Bytes]; exact hfits))
      (by rw [hlen]; show d.l1Offset + i * 8 + 8 ≤ d.backingFile.capacity; omega)
  · exact congrArg (v.alloc + ·) h.mem.clusterSize

theorem DeviceInv.tabled (h : DeviceInv z g vsize d v) (h0 : v.l1 i = 0) :
    Tabled i v (v.addTable g d.l1Offset i) where
  grows := by
    refine ⟨rfl, rfl, fun k _ hk => ?_⟩
    exact Function.update_of_ne (show k ≠ i from fun hki => hk (hki ▸ h0)) _ _
  tab := rfl
  val := rfl
  l1_ne := by
    have hpos := h.layout.pos_of_above h.layout.meta_le_alloc
    show Function.update v.l1 i v.alloc i ≠ 0
    rw [Function.update_self]
    omega
  headSaved hs := by
    have hhdr := h.mem.l1Offset
    unfold headerSize at hhdr
    exact At.overlay_of_disjoint hs (by rw [length_beBytes]; omega)

namespace Device

theorem l2Alloc_spec (h : DeviceInv z g vsize d v) (hi : i < v.l1Size) :
    Meets (l2Alloc i) d (fun _ d' => ∃ v', DeviceInv z g vsize d' v' ∧ Tabled i v v' ∧
      v'.alloc ≤ v.alloc + g.clusterSize ∧ d.Keeps d') (NoRoom (v.alloc + g.clusterSize)) := by
  simp only [l2Alloc, meets_bind, meets_get]
  rw [if_neg (by rw [h.mem.l1Size]; omega)]
  by_cases h0 : v.l1 i = 0
  · rw [if_neg (by rw [h.mem.l1]; exact not_not.mpr h0)]
    simp only [meets_bind, meets_modify]
    refine meets_kernelWrite ?_ ?_ ?_
    · exact h.noFaults
    · intro hfits
      have hzeros : withTrailer (List.replicate (d.clusterSize - 4) 0) =
          l2Bytes g.l2Entries fun _ => 0 := by rw [h.mem.clusterSize, withTrailer_zeros]
      rw [hzeros, length_l2Bytes, h.alloc] at hfits
      have hm := h.meta_le
      have hl1 := h.mem.l1_le
      refine meets_kernelWrite ?_ ?_ ?_
      · exact h.noFaults
      · intro _
        have hinv := h.addTable hi h0 hfits
        refine ⟨_, ?_, h.tabled h0, le_rfl, rfl, rfl, rfl⟩
        dsimp only
        rw [hzeros, h.alloc]
        exact hinv
      · intro hn
        rw [length_beBytes] at hn
        exact absurd (show d.l1Offset + i * 8 + 8 ≤ d.backingFile.capacity by omega) hn
    · intro hn
      rw [h.mem.clusterSize, withTrailer_zeros, length_l2Bytes, h.alloc] at hn
      exact ⟨rfl, Nat.not_le.mp hn⟩
  · rw [if_pos (by rw [h.mem.l1]; exact h0)]
    exact ⟨v, h, ⟨.refl v, rfl, rfl, h0, id⟩, Nat.le_add_right _ _, rfl, rfl, rfl⟩

end Device

end Lbd.QCow2
