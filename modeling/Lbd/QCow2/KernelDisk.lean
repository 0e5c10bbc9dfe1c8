import Lbd.Overlay
import Lbd.QCow2.ImageFlat
import Lbd.QCow2.KernelSpec
import Lbd.QCow2.Snapshot

/-!
# The kernel's device as a disk

Whatever is cached and wherever its clusters stand in the file, the device is an
overlay over its base: each request changes the overlay as `Lbd.Overlay` says
and nothing else.
-/

namespace Lbd.QCow2

open Act

variable {z : Codec} {g : Geometry} {vsize : ℕ} {B : ℕ → List UInt8} {d d' : Device} {v v' : View}
  {off n c p i e a : ℕ} {bs data x : List UInt8} {E : Errno → Device → Prop}

/-- The base shows the clusters `B`. -/
structure BaseShows (z : Codec) (g : Geometry) (base : Option Base) (B : ℕ → List UInt8) :
    Prop where
  coherent : ∀ b, base = some b → b.Coherent
  length : ∀ c, (B c).length = g.clusterSize
  bytes : ∀ c, c / g.l2Entries < 2 ^ 32 →
    (lookupBase z base g.clusterSize c).bytes g.clusterSize = some (B c)

/-- A device between two requests, with the overlay `v.val` over a base with the clusters `B`. -/
structure Serving (z : Codec) (g : Geometry) (vsize : ℕ) (B : ℕ → List UInt8) (d : Device)
    (v : View) : Prop extends DeviceInv z g vsize d v where
  settled : v.Settled g
  headSaved : v.HeadSaved
  noHandler : d.missHandler = none
  shows : BaseShows z g d.base B
  clusters : d.clCache.Coherent fun s : Slot (List UInt8) => s.val = Overlay.shown B v.val s.key

theorem StoredAt.loadData {f : File} (h : StoredAt z g f e p n x) :
    loadData z f g.clusterSize e = some x := by
  have hphys := h.physOffset_eq
  unfold QCow2.loadData
  cases h with
  | raw hp hd hr => rw [if_neg (not_isCompressed_raw hp), hphys, hr.readAt hd]
  | @lz _ _ comp hp hd hc hr hz =>
    have hcs := g.clusterSize_le
    obtain ⟨hr1, hr2⟩ := File.reads_append.mp hr
    rw [length_beBytes] at hr2
    rw [if_pos (isCompressed_lz p), hphys, hr1.readAt (length_beBytes ..)]
    dsimp only
    rw [get32, getBE_beBytes, Nat.mod_eq_of_lt (by norm_num; omega),
      if_neg (by unfold compressBound; omega), hr2.readAt rfl]
    simp [hz, hd]

theorem View.grows_save (v : View) (off : ℕ) (bs : List UInt8) : v.Grows (v.save off bs) :=
  ⟨rfl, rfl, fun _ _ _ => rfl⟩

namespace Serving

theorem full (h : Serving z g vsize B d v) : Overlay.Full g.clusterSize B v.val := by
  intro c
  unfold Overlay.shown
  cases hc : v.val c with
  | none => exact h.shows.length c
  | some x =>
    obtain ⟨p, n, hst, -⟩ := h.layout.stored c x hc
    exact hst.length_eq

theorem of_inv (h : Serving z g vsize B d v) (h' : DeviceInv z g vsize d' v)
    (hd : d' = { d with l2Cache := d'.l2Cache, lruTick := d'.lruTick }) :
    Serving z g vsize B d' v := by
  refine { h' with
    settled := h.settled, headSaved := h.headSaved, noHandler := ?_, shows := ?_, clusters := ?_ }
  · rw [hd]
    exact h.noHandler
  · rw [hd]
    exact h.shows
  · rw [hd]
    exact h.clusters

theorem setClusters (h : Serving z g vsize B d v) (tick : ℕ) {cl : Cache cacheSize (List UInt8)}
    (hcl : cl.Coherent fun s : Slot (List UInt8) => s.val = Overlay.shown B v.val s.key) :
    Serving z g vsize B { d with clCache := cl, lruTick := tick } v :=
  { h.recache cl tick d.base with
    settled := h.settled, headSaved := h.headSaved, noHandler := h.noHandler, shows := h.shows,
    clusters := hcl }

theorem of_keeps {cl : Cache cacheSize (List UInt8)} (h : Serving z g vsize B d v)
    (hd : Device.Keeps { d with clCache := cl } d') (hinv : DeviceInv z g vsize d' v')
    (hs : v'.Settled g) (hhead : v'.HeadSaved)
    (hcl : cl.Coherent fun s : Slot (List UInt8) => s.val = Overlay.shown B v'.val s.key) :
    Serving z g vsize B d' v' where
  toDeviceInv := hinv
  settled := hs
  headSaved := hhead
  noHandler := hd.missHandler.trans h.noHandler
  shows := by
    rw [hd.base]
    exact h.shows
  clusters := by
    rw [hd.clCache]
    exact hcl

end Serving

namespace Device

theorem Recached.trans {d₁ d₂ d₃ : Device} (h : d₁.Recached d₂) (h' : d₂.Recached d₃) :
    d₁.Recached d₃ := by
  unfold Recached at *
  rw [h'] at ⊢
  rw [h]

/-- Slot `ce` holds cluster `c`. -/
def HoldsCluster (d : Device) (c : ℕ) (ce : Fin cacheSize) : Prop :=
  (d.clCache ce).valid = true ∧ (d.clCache ce).key = c

/-- What a load of cluster `c` leaves. -/
def LoadsCluster (z : Codec) (g : Geometry) (vsize : ℕ) (B : ℕ → List UInt8) (d : Device) (v : View)
    (c : ℕ) (r : ClEntry) (d' : Device) : Prop :=
  ∃ ce, r = .entry ce ∧ HoldsCluster d' c ce ∧ Serving z g vsize B d' v ∧ d.Recached d'

theorem fillFrom_spec (ce : Fin cacheSize) (tick : ℕ) {base : Option Base}
    (h : Serving z g vsize B d v) (hfind : d.clCache.find c = none)
    (hbase : ∀ b, base = some b → b.Coherent)
    (hlookup : ∀ n c, lookupBase z base n c = lookupBase z d.base n c)
    (hx : x = Overlay.shown B v.val c) :
    Meets (fillFrom ce (some x)) { d with
        base := base
        clCache := (d.clCache.invalidate ce).assign ce c tick
        lruTick := tick + 1 }
      (LoadsCluster z g vsize B d v c) E := by
  refine ⟨ce, rfl, ⟨Cache.fill_valid .., ?_⟩, ?_, rfl⟩
  · exact (Cache.fill_key ..).trans (Cache.assign_key ..)
  · exact { h.recache _ _ base with
      settled := h.settled
      headSaved := h.headSaved
      noHandler := h.noHandler
      shows := ⟨hbase, h.shows.length, fun c hc => by rw [hlookup]; exact h.shows.bytes c hc⟩
      clusters := h.clusters.reload hfind ce hx }

theorem entry_of_holdsTable {l2e : Fin cacheSize} (h : DeviceInv z g vsize d v)
    (hl2e : HoldsTable d (c / g.l2Entries) l2e) :
    (d.l2Cache l2e).val (c % g.l2Entries) = v.entry g c := by
  rw [(h.mem.l2.holds l2e hl2e.1).2 _ (Nat.mod_lt _ g.l2Entries_pos), hl2e.2]
  rfl

theorem clLoad_spec (h : Serving z g vsize B d v) (hc : c / g.l2Entries < 2 ^ 32) :
    Meets (clLoad z c) d (LoadsCluster z g vsize B d v c) E := by
  unfold clLoad
  rw [meets_bind]
  cases hfind : d.clCache.find c with
  | some ce =>
    obtain ⟨hvalid, hkey⟩ := Cache.find_some hfind
    apply meets_of_ok (clFind_hit hfind)
    refine ⟨ce, rfl, ?_, h.setClusters _ (h.clusters.touch ce fun _ => id), rfl⟩
    unfold HoldsCluster Cache.touch
    dsimp only
    rw [Function.update_self]
    exact ⟨hvalid, hkey⟩
  | none =>
    apply meets_of_ok (clFind_miss hfind)
    simp only [meets_bind, meets_get]
    rw [h.mem.l2Entries, Nat.mod_eq_of_lt hc]
    apply (l2Get_spec h.toDeviceInv _).post
    rintro _ d₁ ⟨l2e, rfl, hl2e, hinv, hd₁⟩
    have h₁ := h.of_inv hinv hd₁
    have hfind₁ : d₁.clCache.find c = none := by
      rw [hd₁]
      exact hfind
    have hre : d.Recached d₁ := by
      unfold Recached
      rw [hd₁]
    have hdone : ∀ r d', LoadsCluster z g vsize B d₁ v c r d' →
        LoadsCluster z g vsize B d v c r d' := by
      rintro r d' ⟨ce, hr, hce, h', hre'⟩
      exact ⟨ce, hr, hce, h', hre.trans hre'⟩
    simp only [meets_bind, meets_get]
    apply meets_of_ok (clAllocEntry_eq c d₁)
    rw [entry_of_holdsTable hinv hl2e]
    apply meets_ite
    · intro h0
      have hval : v.val c = none := by
        cases hv : v.val c with
        | none => rfl
        | some x => exact absurd h0 (h.layout.entry_ne_zero hv)
      have h₂ := h₁.setClusters (d₁.lruTick + 1)
        (h₁.clusters.reuse d₁.clCache.victim c d₁.lruTick)
      obtain ⟨base, hload, hcoh, hlookup⟩ :=
        clLoadBase_eq (z := z) h₂.shows.coherent d₁.clCache.victim c
        (by simp [h₁.noHandler])
      have hbytes : (lookupBase z d₁.base d₁.clusterSize c).bytes d₁.clusterSize = some (B c) := by
        rw [hinv.mem.clusterSize]
        exact h₁.shows.bytes c hc
      have hx : B c = Overlay.shown B v.val c := by rw [Overlay.shown, hval, Option.getD_none]
      apply Meets.post _ hdone
      refine (fillFrom_spec d₁.clCache.victim d₁.lruTick h₁ hfind₁ hcoh hlookup hx).congr
        (hload.trans ?_)
      exact congrArg (fun o => fillFrom _ o _) hbytes
    · intro h0
      cases hv : v.val c with
      | none => exact absurd (h.settled c hv) h0
      | some x =>
        obtain ⟨p, n, hst, -⟩ := hinv.layout.stored c x hv
        have hx : x = Overlay.shown B v.val c := by rw [Overlay.shown, hv, Option.getD_some]
        apply Meets.post _ hdone
        refine (fillFrom_spec d₁.clCache.victim d₁.lruTick h₁ hfind₁ h₁.shows.coherent
          (fun _ _ => rfl)
          hx).congr ?_
        unfold Device.clLoadStored
        rw [get_bind_apply]
        dsimp only
        have hdata : loadData z d₁.backingFile d₁.clusterSize (v.entry g c) = some x := by
          rw [hinv.mem.clusterSize]
          exact hst.loadData
        rw [hdata]
        rfl

/-- The device serves the overlay `O`, and took at most `room` bytes at the end of the file. -/
def Rewritten (z : Codec) (g : Geometry) (vsize : ℕ) (B : ℕ → List UInt8) (v : View)
    (O : Overlay) (room : ℕ) (d : Device) (v' : View) : Prop :=
  Serving z g vsize B d v' ∧ v.Grows v' ∧ v'.val = O ∧ v'.alloc ≤ v.alloc + room

/-- What an entry of the view is, once it is written back and the append point is saved. -/
theorem settled_putEntry {v₂ : View} {o : Option (List UInt8)} (hs : v.Settled g)
    (hsh : (v.forget c).Shifts v₂) (ho : o = none → e = 0) :
    (v₂.setEntry g c e o).Settled g := by
  refine View.settled_setEntry (fun k hk hn => ?_) ho
  rw [hsh.val] at hn
  rw [View.entry, hsh.tab]
  exact hs k ((Function.update_of_ne hk ..).symm.trans hn)

theorem val_putEntry {v₂ : View} (hsh : (v.forget c).Shifts v₂) (o : Option (List UInt8)) :
    (v₂.putEntry g c e o).val = Function.update v.val c o := by
  show Function.update v₂.val c o = _
  rw [hsh.val]
  exact Function.update_idem ..

theorem grows_putEntry {v₂ : View} (hsh : (v.forget c).Shifts v₂) (o : Option (List UInt8)) :
    v.Grows (v₂.putEntry g c e o) :=
  ⟨hsh.l1Size, hsh.metaEnd, fun k _ _ => congrFun hsh.l1 k⟩

theorem coherent_setVal {ce : Fin cacheSize} (h : Serving z g vsize B d v)
    (hce : HoldsCluster d c ce) :
    (d.clCache.setVal ce x).Coherent fun s : Slot (List UInt8) =>
      s.val = Overlay.shown B (Function.update v.val c (some x)) s.key := by
  refine h.clusters.replace hce.1 rfl ?_ ?_
  · show x = Overlay.shown B (Function.update v.val c (some x)) (d.clCache ce).key
    rw [hce.2, Overlay.shown_update, Function.update_self, Option.getD_some]
  · intro j _ hne hj
    rw [hce.2] at hne
    rw [Overlay.shown_update, Function.update_of_ne hne]
    exact hj

theorem rewriteCluster_spec {free : ℕ → ℕ → KernelM Unit} {ce l2e : Fin cacheSize}
    (hfree : Frees z g vsize free) (h : Serving z g vsize B d v) (hce : HoldsCluster d c ce)
    (hl2e : HoldsTable d (c / g.l2Entries) l2e) (hi : c / g.l2Entries < v.l1Size)
    (h0 : v.l1 (c / g.l2Entries) ≠ 0) (hin : off + bs.length ≤ g.clusterSize) :
    Meets (rewriteCluster z free ce l2e (c % g.l2Entries) off bs) d (fun _ d' => ∃ v',
      Rewritten z g vsize B v (Function.update v.val c
        (some (overwrite (Overlay.shown B v.val c) off bs))) g.clusterSize d' v' ∧ v'.AllocSaved)
      (NoRoom (v.alloc + g.clusterSize)) := by
  have hval : (d.clCache ce).val = Overlay.shown B v.val c := by
    rw [← hce.2]
    exact h.clusters.holds ce hce.1
  have hlen : (overwrite (Overlay.shown B v.val c) off bs).length = g.clusterSize := by
    rw [length_overwrite (by rw [h.full]; exact hin), h.full]
  simp only [rewriteCluster, meets_bind, meets_get, meets_modify, hval,
    entry_of_holdsTable h.toDeviceInv hl2e]
  generalize overwrite (Overlay.shown B v.val c) off bs = x at hlen ⊢
  apply (readOldAllocSize_spec h.toDeviceInv h.settled rfl).post
  rintro a d₁ ⟨hd₁, hold⟩
  rw [hd₁]
  have h₁ := (h.recache (d.clCache.setVal ce x) d.lruTick d.base).forget c
  apply (storeCluster_spec hfree h₁ (Function.update_self ..) hold.forget hlen).post
  rintro e d₂ ⟨v₂, p, n, hm, hs, halloc, hst, hx⟩
  have hl2e₂ : HoldsTable d₂ (c / g.l2Entries) l2e := by
    unfold HoldsTable
    rw [hm.allocs.l2Cache]
    exact hl2e
  have hentry := storeEntry_spec (o := some x)
    (E := NoRoom (v.alloc + g.clusterSize)) hm.inv hl2e₂ hst.lt
    (by rw [hm.shifts.l1Size]; exact hi) (by rw [hm.shifts.l1]; exact h0)
    (fun y hy => ⟨p, n, Option.some.inj hy ▸ hst, hx⟩)
  rw [meets_bind] at hentry
  apply hentry.post
  intro _ d₃ h₃
  apply h₃.post
  rintro _ d₄ ⟨hk₄, h₄⟩
  apply (writeAllocOffset_spec h₄).post
  rintro _ d₅ ⟨hk₅, h₅⟩
  have hkeeps := (hm.allocs.keeps.trans hk₄).trans hk₅.keeps
  have hv := val_putEntry (g := g) (e := e) hm.shifts (some x)
  have hgrows := (grows_putEntry (g := g) (e := e) hm.shifts (some x)).trans
    (View.grows_save _ 36 (beBytes 8 v₂.alloc))
  refine ⟨_, ⟨h.of_keeps hkeeps h₅ ?_ ?_ ?_, hgrows, hv, halloc⟩, at_overlay⟩
  · exact settled_putEntry h.settled hm.shifts fun ho => by cases ho
  · exact At.overlay_of_disjoint (hs h.headSaved) (by simp only [length_beBytes]; omega)
  · show (d.clCache.setVal ce x).Coherent fun s : Slot (List UInt8) =>
      s.val = Overlay.shown B (v₂.putEntry g c e (some x)).val s.key
    rw [hv]
    exact coherent_setVal h hce

theorem Tabled.settled {i : ℕ} (h : Tabled i v v') (hs : v.Settled g) : v'.Settled g := by
  intro k hk
  rw [View.entry, h.tab]
  exact hs k (h.val ▸ hk)

theorem serving_of_tabled (h : Serving z g vsize B d v) (hinv : DeviceInv z g vsize d' v')
    (ht : Tabled i v v') (hk : d.Keeps d') : Serving z g vsize B d' v' := by
  refine h.of_keeps hk hinv (Tabled.settled ht h.settled) (ht.headSaved h.headSaved) ?_
  rw [ht.val]
  exact h.clusters

theorem HoldsCluster.of_tables {ce : Fin cacheSize} (h : HoldsCluster d c ce)
    (hd : d' = { d with l2Cache := d'.l2Cache, lruTick := d'.lruTick }) :
    HoldsCluster d' c ce := by
  rw [hd]
  exact h

theorem l2GetOrFail_spec (h : Serving z g vsize B d v) (i : ℕ) :
    Meets (l2GetOrFail i) d (fun l2e d' => HoldsTable d' i l2e ∧ Serving z g vsize B d' v ∧
      d' = { d with l2Cache := d'.l2Cache, lruTick := d'.lruTick }) E := by
  simp only [l2GetOrFail, meets_bind]
  apply (l2Get_spec h.toDeviceInv i).post
  rintro _ d' ⟨l2e, rfl, hl2e, hinv, hd⟩
  exact ⟨hl2e, h.of_inv hinv hd, hd⟩

theorem writeChunk_spec {ch : Chunk} (h : Serving z g vsize B d v)
    (hspan : off + data.length ≤ v.span g) (hch : ch.Fits g.clusterSize off data.length) :
    Meets (writeChunk z data ch) d (fun _ d' => ∃ v',
      Rewritten z g vsize B v (Overlay.writeChunk B data v.val ch) (2 * g.clusterSize) d' v' ∧
      v'.AllocSaved) (NoRoom (v.alloc + 2 * g.clusterSize)) := by
  have hi := l1_lt_of_fits hch hspan
  have hl1 := h.mem.l1Size_lt
  have hin := hch.inside
  have hbelow := hch.below
  simp only [writeChunk, meets_bind, meets_get]
  rw [h.mem.l2Entries, Nat.mod_eq_of_lt (show ch.cluster / g.l2Entries < 2 ^ 32 by omega)]
  apply (l2Alloc_spec h.toDeviceInv hi).imp _ fun _ _ he => he.mono (by omega)
  rintro _ d₁ ⟨v₁, hinv₁, ht, halloc₁, hk₁⟩
  simp only [clForWrite, meets_bind]
  apply (clLoad_spec (serving_of_tabled h hinv₁ ht hk₁) (by omega)).post
  rintro _ d₂ ⟨ce, rfl, hce, h₂, -⟩
  rw [meets_pure]
  apply (l2GetOrFail_spec h₂ _).post
  rintro l2e d₃ ⟨hl2e, h₃, hd₃⟩
  apply (rewriteCluster_spec frees_freeExtent h₃ (hce.of_tables hd₃) hl2e
    (ht.grows.l1Size ▸ hi) ht.l1_ne (by simp; omega)).imp _ fun _ _ he => he.mono (by omega)
  rintro _ d₄ ⟨v₄, ⟨h₄, hg₄, hval₄, halloc₄⟩, ha⟩
  rw [ht.val] at hval₄
  exact ⟨v₄, ⟨h₄, ht.grows.trans hg₄, hval₄, by omega⟩, ha⟩

theorem readChunk_spec {ch : Chunk} (h : Serving z g vsize B d v) (hspan : off + n ≤ v.span g)
    (hch : ch.Fits g.clusterSize off n) (retries : ℕ) :
    Meets (readChunk z ch retries) d (fun bs d' =>
      bs = window (Overlay.bytes g.clusterSize B v.val) (off + ch.pos) ch.len ∧
      Serving z g vsize B d' v) E := by
  have hi := l1_lt_of_fits hch hspan
  have hl1 := h.mem.l1Size_lt
  have hload : ∀ miss, Meets (loadChunk z ch miss) d (fun bs d' =>
      bs = window (Overlay.bytes g.clusterSize B v.val) (off + ch.pos) ch.len ∧
      Serving z g vsize B d' v) E := by
    intro miss
    simp only [loadChunk, meets_bind]
    apply (clLoad_spec h (show ch.cluster / g.l2Entries < 2 ^ 32 by omega)).post
    rintro _ d₁ ⟨ce, rfl, hce, h₁, -⟩
    refine ⟨?_, h₁⟩
    rw [h₁.clusters.holds ce hce.1, hce.2, ← hch.addr]
    exact (window_flat (h₁.full _) hch.inside).symm
  cases retries with
  | zero => exact hload _
  | succ retries => exact hload _

theorem readSegment_spec (h : Serving z g vsize B d v) (hspan : off + n ≤ v.span g)
    (hn : off + n ≤ W64) :
    Meets (readSegment z off n) d (fun bs d' =>
      bs = window (Overlay.bytes g.clusterSize B v.val) off n ∧ Serving z g vsize B d' v) E := by
  simp only [readSegment, meets_bind, meets_get]
  rw [h.mem.clusterBits, h.mem.clusterSize]
  exact meets_collect_tiles (fun d => Serving z g vsize B d v) _
    (fun ch d hch h => readChunk_spec h hspan hch 3) (tiles_geometry g hn) (Nat.zero_le n) h

theorem read_spec {segments : List ℕ} (h : Serving z g vsize B d v)
    (hspan : off + segments.sum ≤ v.span g) (hn : off + segments.sum ≤ W64) :
    Meets (read z off segments) d (fun bs d' =>
      bs = window (Overlay.bytes g.clusterSize B v.val) off segments.sum ∧
      Serving z g vsize B d' v) E := by
  induction segments generalizing off d with
  | nil => exact ⟨rfl, h⟩
  | cons n segments ih =>
    rw [List.sum_cons] at hspan hn ⊢
    unfold Device.read
    rw [meets_bind]
    apply (readSegment_spec h (by omega) (by omega)).post
    rintro _ d₁ ⟨rfl, h₁⟩
    rw [meets_bind]
    apply (ih h₁ (by omega) (by omega)).post
    rintro _ d₂ ⟨rfl, h₂⟩
    exact ⟨(window_add ..).symm, h₂⟩

theorem val_eq_none_of_entry (h : DeviceInv z g vsize d v) (h0 : v.entry g c = 0) :
    v.val c = none := by
  cases hv : v.val c with
  | none => rfl
  | some x => exact absurd h0 (h.layout.entry_ne_zero hv)

/-- The primary no longer has cluster `c`; the cache may still hold it. -/
def Dropped (z : Codec) (g : Geometry) (vsize : ℕ) (d : Device) (v : View) (c : ℕ) (d' : Device) :
    Prop :=
  ∃ v', DeviceInv z g vsize d' v' ∧ d.Keeps d' ∧ v'.Settled g ∧ v'.HeadSaved ∧ v.Grows v' ∧
    v'.val = Function.update v.val c none ∧ v'.alloc = v.alloc ∧ (v.AllocSaved → v'.AllocSaved)

theorem dropped_of_entry (h : Serving z g vsize B d v) (h0 : v.entry g c = 0) :
    Dropped z g vsize d v c d := by
  refine ⟨v, h.toDeviceInv, ⟨rfl, rfl, rfl⟩, h.settled, h.headSaved, .refl v, ?_, rfl, id⟩
  rw [← val_eq_none_of_entry h.toDeviceInv h0, Function.update_eq_self]

theorem discardEntry_spec {l2e : Fin cacheSize} (h : Serving z g vsize B d v)
    (hl2e : HoldsTable d (c / g.l2Entries) l2e) (hi : c / g.l2Entries < v.l1Size)
    (h0 : v.l1 (c / g.l2Entries) ≠ 0) :
    Meets (discardEntry l2e (c % g.l2Entries)) d (fun _ => Dropped z g vsize d v c)
      (NoRoom v.alloc) := by
  simp only [discardEntry, meets_bind, meets_get]
  rw [entry_of_holdsTable h.toDeviceInv hl2e]
  apply meets_when
  · intro _
    rw [meets_bind]
    apply (readOldAllocSize_spec h.toDeviceInv h.settled rfl).post
    rintro a d₁ ⟨hd₁, hold⟩
    rw [hd₁, meets_bind]
    have h₁ := h.toDeviceInv.forget c
    -- an extent that cannot be put on the free list is lost, and the entry is cleared anyway
    have hclear : ∀ d₂, (∃ v₂, Moves z g vsize d (v.forget c) d₂ v₂ ∧
        ((v.forget c).HeadSaved → v₂.HeadSaved) ∧ v₂.alloc = (v.forget c).alloc) →
        Meets (setL2Entry l2e (c % g.l2Entries) 0 >>= fun _ => l2Flush l2e) d₂
          (fun _ => Dropped z g vsize d v c) (NoRoom v.alloc) := by
      rintro d₂ ⟨v₂, hm, hs, halloc⟩
      have hl2e₂ : HoldsTable d₂ (c / g.l2Entries) l2e := by
        unfold HoldsTable
        rw [hm.allocs.l2Cache]
        exact hl2e
      apply (storeEntry_spec (o := none) hm.inv hl2e₂ (by norm_num)
        (by rw [hm.shifts.l1Size]; exact hi) (by rw [hm.shifts.l1]; exact h0)
        (fun _ ho => by cases ho)).post
      rintro _ d₃ ⟨hk₃, h₃⟩
      have hsaved : v.AllocSaved → v₂.AllocSaved := fun ha =>
        View.AllocSaved.of_shifts (v := v.forget c) ha hm.shifts halloc
      exact ⟨_, h₃, hm.allocs.keeps.trans hk₃, settled_putEntry h.settled hm.shifts fun _ => rfl,
        hs h.headSaved, grows_putEntry hm.shifts _, val_putEntry hm.shifts none, halloc, hsaved⟩
    apply meets_when
    · intro ha
      obtain ⟨-, hdvd, hsize, hx⟩ := hold.resolve_left (by omega)
      have hcs := g.clusterSize_le
      apply (frees_freeQuietly h₁ hx (Function.update_self ..) hdvd ha (by omega)).post
      exact fun _ d₂ h₂ => hclear d₂ h₂
    · exact fun _ => hclear d ⟨_, .refl h₁, id, rfl⟩
  · exact fun hn => dropped_of_entry h (not_not.mp hn)

theorem discardTable_spec (h : Serving z g vsize B d v) (hi : c / g.l2Entries < v.l1Size)
    (h0 : v.l1 (c / g.l2Entries) ≠ 0) :
    Meets (discardTable (c / g.l2Entries) (c % g.l2Entries)) d
      (fun _ => Dropped z g vsize d v c) (NoRoom v.alloc) := by
  simp only [discardTable, meets_bind]
  apply (l2Get_spec h.toDeviceInv _).post
  rintro _ d₁ ⟨l2e, rfl, hl2e, hinv, hd₁⟩
  apply (discardEntry_spec (h.of_inv hinv hd₁) hl2e hi h0).post
  rintro _ d₂ ⟨v₂, h₂, hk, hrest⟩
  have hk₁ : d.Keeps d₁ := by
    rw [hd₁]
    exact ⟨rfl, rfl, rfl⟩
  exact ⟨v₂, h₂, hk₁.trans hk, hrest⟩

theorem clInvalidate_spec (h : Serving z g vsize B d v) (hd : Dropped z g vsize d v c d') :
    Meets (clInvalidate c) d' (fun _ d'' => ∃ v',
      Rewritten z g vsize B v (Function.update v.val c none) 0 d'' v' ∧
      (v.AllocSaved → v'.AllocSaved)) E := by
  obtain ⟨v', hinv, hk, hs, hhead, hg, hval, halloc, ha⟩ := hd
  have hcoh : ∀ cl : Cache cacheSize (List UInt8), (∀ j, (cl j).valid = true →
      cl j = d.clCache j ∧ (cl j).key ≠ c) →
      cl.Coherent fun s : Slot (List UInt8) => s.val = Overlay.shown B v'.val s.key := by
    intro cl hcl
    refine (h.clusters.of_valid_imp fun j hj => (hcl j hj).1).mono fun j hj hslot => ?_
    rw [hval, Overlay.shown_update, Function.update_of_ne (hcl j hj).2]
    exact hslot
  simp only [clInvalidate, meets_bind, meets_get]
  rw [hk.clCache]
  cases hfind : d.clCache.find c with
  | some i =>
    obtain ⟨hvalid, hkey⟩ := Cache.find_some hfind
    refine ⟨v', ⟨h.of_keeps ⟨rfl, hk.base, hk.missHandler⟩
      (hinv.recache (d'.clCache.invalidate i) d'.lruTick d'.base) hs hhead ?_, hg, hval,
      halloc.le⟩, ha⟩
    apply hcoh
    rw [hk.clCache]
    intro j hj
    unfold Cache.invalidate at hj ⊢
    by_cases hji : j = i
    · rw [hji, Function.update_self] at hj
      cases hj
    · rw [Function.update_of_ne hji] at hj ⊢
      exact ⟨rfl, fun hjc => hji (h.clusters.unique j i hj hvalid (hjc.trans hkey.symm))⟩
  | none =>
    refine ⟨v', ⟨h.of_keeps hk hinv hs hhead ?_, hg, hval, halloc.le⟩, ha⟩
    exact hcoh d.clCache fun j hj => ⟨rfl, Cache.find_none hfind j hj⟩

theorem discardWhole_spec (h : Serving z g vsize B d v) (hi : c / g.l2Entries < v.l1Size) :
    Meets (discardWhole c) d (fun _ d' => ∃ v',
      Rewritten z g vsize B v (Function.update v.val c none) 0 d' v' ∧
      (v.AllocSaved → v'.AllocSaved)) (NoRoom v.alloc) := by
  have hl1 := h.mem.l1Size_lt
  simp only [discardWhole, meets_bind, meets_get]
  rw [h.mem.l2Entries, h.mem.l1, h.mem.l1Size,
    Nat.mod_eq_of_lt (show c / g.l2Entries < 2 ^ 32 by omega)]
  apply meets_when
  · rintro ⟨-, h0⟩
    apply (discardTable_spec h hi h0).post
    exact fun _ d₁ hd₁ => clInvalidate_spec h hd₁
  · intro hn
    have h0 : v.l1 (c / g.l2Entries) = 0 := by
      by_contra hne
      exact hn ⟨hi, hne⟩
    exact clInvalidate_spec h (dropped_of_entry h (h.layout.tab_none _ (.inr h0) _))

theorem discardPart_spec {ch : Chunk} (h : Serving z g vsize B d v)
    (hi : ch.cluster / g.l2Entries < v.l1Size) (hin : ch.off + ch.len ≤ g.clusterSize) :
    Meets (discardPart z ch) d (fun _ d' => ∃ v', Rewritten z g vsize B v
      (Function.update v.val ch.cluster ((v.val ch.cluster).map fun x =>
        overwrite x ch.off (List.replicate ch.len 0))) (2 * g.clusterSize) d' v')
      (NoRoom (v.alloc + 2 * g.clusterSize)) := by
  have hl1 := h.mem.l1Size_lt
  simp only [discardPart, meets_bind, meets_get]
  rw [h.mem.l2Entries, Nat.mod_eq_of_lt (show ch.cluster / g.l2Entries < 2 ^ 32 by omega)]
  apply (l2Alloc_spec h.toDeviceInv hi).imp _ fun _ _ he => he.mono (by omega)
  rintro _ d₁ ⟨v₁, hinv₁, ht, halloc₁, hk₁⟩
  apply (clLoad_spec (serving_of_tabled h hinv₁ ht hk₁) (by omega)).post
  rintro _ d₂ ⟨ce, rfl, hce, h₂, -⟩
  simp only [discardCached, meets_bind]
  apply (l2GetOrFail_spec h₂ _).post
  rintro l2e d₃ ⟨hl2e, h₃, hd₃⟩
  rw [meets_get, entry_of_holdsTable h₃.toDeviceInv hl2e, ← ht.val]
  apply meets_when
  · intro hne
    apply (rewriteCluster_spec frees_freeQuietly h₃ (hce.of_tables hd₃) hl2e
      (ht.grows.l1Size ▸ hi) ht.l1_ne (by rwa [List.length_replicate])).imp _
      fun _ _ he => he.mono (by omega)
    rintro _ d₄ ⟨v₄, ⟨h₄, hg₄, hval₄, halloc₄⟩, -⟩
    refine ⟨v₄, h₄, ht.grows.trans hg₄, hval₄.trans ?_, by omega⟩
    cases hv : v₁.val ch.cluster with
    | none => exact absurd (h₃.settled _ hv) hne
    | some x => simp [Overlay.shown, hv]
  · intro h0
    have hnone := val_eq_none_of_entry h₃.toDeviceInv (not_not.mp h0)
    refine ⟨v₁, h₃, ht.grows, ?_, by omega⟩
    rw [hnone, Option.map_none, ← hnone, Function.update_eq_self]

theorem discardChunk_spec {ch : Chunk} (h : Serving z g vsize B d v)
    (hi : ch.cluster / g.l2Entries < v.l1Size) (hin : ch.off + ch.len ≤ g.clusterSize) :
    Meets (discardChunk z ch) d (fun _ d' => ∃ v',
      Rewritten z g vsize B v (Overlay.discardChunk g.clusterSize v.val ch) (2 * g.clusterSize)
        d' v' ∧
      (ch.off = 0 ∧ ch.len = g.clusterSize → v.AllocSaved → v'.AllocSaved))
      (NoRoom (v.alloc + 2 * g.clusterSize)) := by
  simp only [discardChunk, meets_bind, meets_get]
  rw [h.mem.clusterSize]
  unfold Overlay.discardChunk
  apply meets_ite
  · intro hwhole
    rw [if_pos hwhole]
    apply (discardWhole_spec h hi).imp _ fun _ _ he => he.mono (by omega)
    rintro _ d' ⟨v', ⟨h', hg', hval', halloc'⟩, ha⟩
    exact ⟨v', ⟨h', hg', hval', by omega⟩, fun _ => ha⟩
  · intro hpart
    rw [if_neg hpart]
    apply (discardPart_spec h hi hin).post
    rintro _ d' ⟨v', h'⟩
    exact ⟨v', h', fun hwhole => absurd hwhole hpart⟩

end Device

end Lbd.QCow2
