import Lbd.Lockstep
import Lbd.QCow2.ImageRuns
import Lbd.QCow2.KernelCache

/-!
# Reads after a failed swap of the base

`lbd_qcow2_swap_base` gives the old base up before it knows that the new one can be
used. The reads of a device whose swap has failed are compared with those of the same
device without the swap: they differ in the base, and in what the cluster cache has
got from it.
-/

namespace Lbd.QCow2

open Act

variable {z : Codec} {d e : Device} {b : Base} {base : Option Base} {c k bits vsize : ℕ}

namespace Device

/-- The bytes of a cluster that lie inside of the device. -/
def inside (d : Device) (c : ℕ) : ℕ := min d.clusterSize (d.virtualSize - c * d.clusterSize)

/-- With `base` in place of the device's own base a read of the cluster gets the same bytes, and
no miss. -/
def Agrees (z : Codec) (d : Device) (base : Option Base) (c : ℕ) : Prop :=
  ((lookupBase z d.base d.clusterSize c).bytes d.clusterSize).map (List.take (d.inside c)) =
      ((lookupBase z base d.clusterSize c).bytes d.clusterSize).map (List.take (d.inside c)) ∧
    (d.missHandler.isSome → lookupBase z d.base d.clusterSize c ≠ .unallocated ∧
      lookupBase z base d.clusterSize c ≠ .unallocated)

/-- The bases agree on every cluster that the primary does not have. -/
def AgreesAll (z : Codec) (d : Device) (base : Option Base) : Prop :=
  ∀ c, c * d.clusterSize < d.virtualSize → d.AsksBase c → d.Agrees z base c

/-- The second device has another base, and in the cluster cache perhaps other bytes where the
device has ended. -/
structure Twin (z : Codec) (bits vsize : ℕ) (d e : Device) : Prop where
  settled : Settled d
  clusterBits : d.clusterBits = bits
  virtualSize : d.virtualSize = vsize
  rebased : e = d.rebase e.allocOffset e.freeListHead e.base e.clCache
  clusters : d.clCache.Alike (fun c x y => x.take (d.inside c) = y.take (d.inside c)) e.clCache
  base : ∀ b, e.base = some b → b.Coherent
  agrees : d.AgreesAll z e.base

theorem Twin.setL2 (h : Twin z bits vsize d e) (tick : ℕ) {cache : Cache cacheSize (ℕ → ℕ)}
    (hcache : cache.Holds d.Current) :
    Twin z bits vsize { d with l2Cache := cache, lruTick := tick }
      { e with l2Cache := cache, lruTick := tick } where
  settled := ⟨h.settled.clusterSize, h.settled.entries, h.settled.virtualSize, hcache,
    h.settled.base⟩
  clusterBits := h.clusterBits
  virtualSize := h.virtualSize
  rebased := by
    rw [h.rebased]
    rfl
  clusters := h.clusters
  base := h.base
  agrees := h.agrees

theorem Twin.setCl (h : Twin z bits vsize d e) (tick : ℕ) {s t : Cache cacheSize (List UInt8)}
    (hst : s.Alike (fun c x y => x.take (d.inside c) = y.take (d.inside c)) t) :
    Twin z bits vsize { d with clCache := s, lruTick := tick }
      { e with clCache := t, lruTick := tick } where
  settled := ⟨h.settled.clusterSize, h.settled.entries, h.settled.virtualSize, h.settled.tables,
    h.settled.base⟩
  clusterBits := h.clusterBits
  virtualSize := h.virtualSize
  rebased := by
    rw [h.rebased]
    rfl
  clusters := hst
  base := h.base
  agrees := h.agrees

theorem Twin.lruTick (h : Twin z bits vsize d e) : e.lruTick = d.lruTick := by
  rw [h.rebased]
  rfl

theorem Twin.l2Get (h : Twin z bits vsize d e) (k : ℕ) :
    Lockstep (l2Get k) (l2Get k) d e (fun r d' e' => Twin z bits vsize d' e' ∧
      d'.l2Entries = d.l2Entries ∧
      ∀ i, r = some i → d'.Current (d'.l2Cache i) ∧ (d'.l2Cache i).key = k)
      (Twin z bits vsize) := by
  obtain ⟨r, cache, hget, hcache, hslot, -⟩ := h.settled.l2Get k
  have hget' := hget e.allocOffset e.freeListHead e.base e.clCache
  rw [← h.rebased] at hget'
  exact lockstep_of_ok (hget d.allocOffset d.freeListHead d.base d.clCache) hget'
    ⟨h.setL2 _ hcache, rfl, hslot⟩

theorem Twin.clFind (h : Twin z bits vsize d e) (c : ℕ) :
    Lockstep (clFind c) (clFind c) d e (fun r d' e' => Twin z bits vsize d' e' ∧
      d'.clusterSize = d.clusterSize ∧
      ∀ i, r = some i → (d'.clCache i).valid = true ∧ (d'.clCache i).key = c)
      (Twin z bits vsize) := by
  cases hfind : d.clCache.find c with
  | none =>
    have hfind' := (h.clusters.find c).trans hfind
    exact lockstep_of_ok (clFind_miss hfind) (clFind_miss hfind') ⟨h, rfl, nofun⟩
  | some i =>
    have hfind' := (h.clusters.find c).trans hfind
    refine lockstep_of_ok (clFind_hit hfind) (clFind_hit hfind') ⟨?_, rfl, ?_⟩
    · rw [h.lruTick]
      exact h.setCl _ (h.clusters.touch i _)
    · intro j hj
      obtain rfl := Option.some.inj hj
      have hslot := Cache.find_some hfind
      simpa [Cache.touch] using hslot

/-- What the devices keep while a cluster is loaded into slot `ce`. -/
structure Loading (z : Codec) (bits vsize c : ℕ) (ce : Fin cacheSize) (d e : Device) : Prop where
  twin : Twin z bits vsize d e
  key : (d.clCache ce).key = c

theorem Twin.clAllocEntry (h : Twin z bits vsize d e) (c : ℕ) :
    Lockstep (clAllocEntry c) (clAllocEntry c) d e
      (fun ce d' e' => Loading z bits vsize c ce d' e' ∧
        d' = { d with clCache := d'.clCache, lruTick := d'.lruTick })
      (Twin z bits vsize) := by
  have halloc := clAllocEntry_eq c e
  rw [h.clusters.victim, h.lruTick] at halloc
  exact lockstep_of_ok (clAllocEntry_eq c d) halloc
    ⟨⟨h.setCl _ (h.clusters.reuse _ c _), Cache.assign_key ..⟩, rfl⟩

/-- The outcome of loading cluster `c`: no miss, and the slot of an entry is that of `c`. -/
def Loaded (c : ℕ) (d : Device) : ClEntry → Prop
  | .entry ce => (d.clCache ce).valid = true ∧ (d.clCache ce).key = c
  | .null => True
  | .noData => False

/-- The postcondition of a load. -/
def LoadedTwins (z : Codec) (bits vsize c : ℕ) (r : ClEntry) (d e : Device) : Prop :=
  Twin z bits vsize d e ∧ d.Loaded c r

theorem Loading.fill {ce : Fin cacheSize} {x y : List UInt8} (h : Loading z bits vsize c ce d e)
    (hxy : x.take (d.inside c) = y.take (d.inside c)) :
    Lockstep (do clFill ce x; pure (.entry ce)) (do clFill ce y; pure (.entry ce)) d e
      (LoadedTwins z bits vsize c) (Twin z bits vsize) := by
  have hfill := h.twin.setCl d.lruTick (h.twin.clusters.fill ce (h.key.symm ▸ hxy))
  refine lockstep_of_ok rfl rfl ⟨?_, Cache.fill_valid .., (Cache.fill_key ..).trans h.key⟩
  dsimp only
  rw [h.twin.lruTick]
  exact hfill

theorem Loading.clLoadStored {ce : Fin cacheSize} (h : Loading z bits vsize c ce d e)
    (l2Entry : ℕ) :
    Lockstep (clLoadStored z ce l2Entry) (clLoadStored z ce l2Entry) d e
      (LoadedTwins z bits vsize c) (Twin z bits vsize) := by
  have hfile : loadData z e.backingFile e.clusterSize l2Entry =
      loadData z d.backingFile d.clusterSize l2Entry := by
    rw [h.twin.rebased]
    rfl
  apply lockstep_get
  rw [hfile]
  split
  · exact lockstep_pure ⟨h.twin, trivial⟩
  · exact h.fill rfl

theorem Twin.setBase (h : Twin z bits vsize d e) {base base' : Option Base}
    (hb : ∀ b, base = some b → b.Coherent) (hb' : ∀ b, base' = some b → b.Coherent)
    (hlookup : ∀ n c, lookupBase z base n c = lookupBase z d.base n c)
    (hlookup' : ∀ n c, lookupBase z base' n c = lookupBase z e.base n c) :
    Twin z bits vsize { d with base := base } { e with base := base' } where
  settled := ⟨h.settled.clusterSize, h.settled.entries, h.settled.virtualSize, h.settled.tables, hb⟩
  clusterBits := h.clusterBits
  virtualSize := h.virtualSize
  rebased := by
    rw [h.rebased]
    rfl
  clusters := h.clusters
  base := hb'
  agrees := by
    intro c hc hask
    have hagree := h.agrees c hc hask
    unfold Agrees at hagree ⊢
    rw [hlookup', hlookup]
    exact hagree

theorem Loading.fillFrom {ce : Fin cacheSize} {x y : Option (List UInt8)}
    (h : Loading z bits vsize c ce d e)
    (hxy : x.map (List.take (d.inside c)) = y.map (List.take (d.inside c))) :
    Lockstep (fillFrom ce x) (fillFrom ce y) d e (LoadedTwins z bits vsize c)
      (Twin z bits vsize) := by
  match x, y, hxy with
  | none, none, _ => exact lockstep_pure ⟨h.twin, trivial⟩
  | some _, some _, hxy => exact h.fill (Option.some.inj hxy)

theorem Twin.missHandler (h : Twin z bits vsize d e) : e.missHandler = d.missHandler := by
  rw [h.rebased]
  rfl

theorem Twin.clusterSize (h : Twin z bits vsize d e) : e.clusterSize = d.clusterSize := by
  rw [h.rebased]
  rfl

theorem Loading.clLoadBase {ce : Fin cacheSize} (h : Loading z bits vsize c ce d e)
    (hc : c * d.clusterSize < d.virtualSize) (hask : d.AsksBase c) :
    Lockstep (clLoadBase z ce c) (clLoadBase z ce c) d e (LoadedTwins z bits vsize c)
      (Twin z bits vsize) := by
  obtain ⟨hbytes, hmiss⟩ := h.twin.agrees c hc hask
  rw [← h.twin.clusterSize] at hmiss
  obtain ⟨base, hload, hcoh, hlookup⟩ := clLoadBase_eq h.twin.settled.base ce c
    fun hm => h.twin.clusterSize ▸ (hmiss hm).1
  obtain ⟨base', hload', hcoh', hlookup'⟩ := clLoadBase_eq h.twin.base ce c
    fun hm => (hmiss (h.twin.missHandler ▸ hm)).2
  rw [h.twin.clusterSize] at hload'
  have hloading : Loading z bits vsize c ce { d with base := base } { e with base := base' } :=
    ⟨h.twin.setBase hcoh hcoh' hlookup hlookup', h.key⟩
  have hstep := hloading.fillFrom hbytes
  unfold Lockstep at hstep ⊢
  rw [hload, hload']
  rw [← h.twin.clusterSize] at hstep ⊢
  exact hstep

theorem Twin.clLoad (h : Twin z bits vsize d e) (hc : c * 2 ^ bits < vsize) :
    Lockstep (clLoad z c) (clLoad z c) d e (LoadedTwins z bits vsize c) (Twin z bits vsize) := by
  apply (h.clFind c).bind
  rintro r d₁ e₁ ⟨h₁, -, hslot⟩
  cases r with
  | some ce => exact lockstep_pure ⟨h₁, hslot ce rfl⟩
  | none =>
    have hentries : e₁.l2Entries = d₁.l2Entries := by
      rw [h₁.rebased]
      rfl
    apply lockstep_get
    rw [hentries]
    apply (h₁.l2Get _).bind
    rintro r d₂ e₂ ⟨h₂, hl2, htable⟩
    cases r with
    | none => exact lockstep_pure ⟨h₂, trivial⟩
    | some l2e =>
      have hcache : e₂.l2Cache = d₂.l2Cache := by
        rw [h₂.rebased]
        rfl
      obtain ⟨hcurrent, hkey⟩ := htable l2e rfl
      apply lockstep_get
      rw [hcache, ← hl2]
      apply (h₂.clAllocEntry c).bind
      rintro ce d₃ e₃ ⟨h₃, hframe⟩
      split
      · next hzero =>
        have hask : d₂.AsksBase c := hcurrent.asksBase h₂.settled.entries (hl2 ▸ hkey) hzero
        apply h₃.clLoadBase
        · rw [h₃.twin.settled.clusterSize, h₃.twin.clusterBits, h₃.twin.virtualSize]
          exact hc
        · rw [hframe]
          exact hask
      · exact h₃.clLoadStored _

theorem take_drop_of_take_eq {x y : List UInt8} {n off len : ℕ} (h : x.take n = y.take n)
    (hn : off + len ≤ n) : (x.drop off).take len = (y.drop off).take len := by
  have hcut : ∀ l : List UInt8, (l.drop off).take len = ((l.take n).drop off).take len := by
    intro l
    rw [List.drop_take, List.take_take, min_eq_left (by omega)]
  rw [hcut x, hcut y, h]

theorem Twin.readChunk (h : Twin z bits vsize d e) {ch : Chunk} {off n : ℕ}
    (hch : ch.Fits (2 ^ bits) off n) (hn : off + n ≤ vsize) (retries : ℕ) :
    Lockstep (readChunk z ch retries) (readChunk z ch retries) d e
      (fun _ => Twin z bits vsize) (Twin z bits vsize) := by
  have haddr := hch.addr
  have hpos := hch.pos
  have hinside := hch.inside
  have hbelow := hch.below
  -- no turn meets a miss, so it does not matter what would be done about one
  have hload : ∀ miss, Lockstep (loadChunk z ch miss) (loadChunk z ch miss) d e
      (fun _ => Twin z bits vsize) (Twin z bits vsize) := by
    intro miss
    apply (h.clLoad (by omega : ch.cluster * 2 ^ bits < vsize)).bind
    rintro r d' e' ⟨h', hr⟩
    cases r with
    | null => exact lockstep_throw h'
    | noData => exact hr.elim
    | entry ce =>
      have hbytes : ((e'.clCache ce).val.drop ch.off).take ch.len =
          ((d'.clCache ce).val.drop ch.off).take ch.len := by
        have hval := h'.clusters.val ce hr.1
        rw [hr.2] at hval
        apply take_drop_of_take_eq hval.symm
        unfold inside
        rw [h'.settled.clusterSize, h'.clusterBits, h'.virtualSize]
        omega
      apply lockstep_get
      rw [hbytes]
      exact lockstep_pure h'
  cases retries with
  | zero => exact hload _
  | succ retries => exact hload _

theorem Twin.readSegment (h : Twin z bits vsize d e) (hvsize : vsize < W64) {off n : ℕ}
    (hn : off + n ≤ vsize) :
    Lockstep (readSegment z off n) (readSegment z off n) d e
      (fun _ => Twin z bits vsize) (Twin z bits vsize) := by
  have hbits : e.clusterBits = bits ∧ e.clusterSize = 2 ^ bits := by
    rw [h.rebased]
    exact ⟨h.clusterBits, h.settled.clusterSize.trans (h.clusterBits ▸ rfl)⟩
  apply lockstep_get
  rw [hbits.1, hbits.2, h.settled.clusterSize, h.clusterBits]
  apply lockstep_collect _ h
  intro ch hch d' e' h'
  exact h'.readChunk ((tiles_chunks bits (by omega)).fits hch) hn 3

theorem Twin.read (h : Twin z bits vsize d e) (hvsize : vsize < W64) {off : ℕ}
    {segments : List ℕ} (hn : off + segments.sum ≤ vsize) :
    Lockstep (read z off segments) (read z off segments) d e
      (fun _ => Twin z bits vsize) (Twin z bits vsize) := by
  induction segments generalizing off d e with
  | nil => exact lockstep_pure h
  | cons n segments ih =>
    rw [List.sum_cons] at hn
    apply (h.readSegment hvsize (by omega : off + n ≤ vsize)).bind
    intro bs d' e' h'
    apply (ih h' (by omega : off + n + segments.sum ≤ vsize)).bind
    intro rest d'' e'' h''
    exact lockstep_pure h''

theorem Twin.readAll (h : Twin z bits vsize d e) (hvsize : vsize < W64)
    {reads : List (ℕ × List ℕ)} (hreads : ∀ r ∈ reads, r.1 + r.2.sum ≤ vsize) :
    readAll z reads e = readAll z reads d := by
  induction reads generalizing d e with
  | nil => rfl
  | cons r reads ih =>
    have hstep : Lockstep (Device.read z r.1 r.2) (Device.read z r.1 r.2) d e
        (fun _ => Twin z bits vsize) (Twin z bits vsize) :=
      h.read hvsize (hreads r List.mem_cons_self)
    unfold Device.readAll
    rw [hstep.fst_eq]
    congr 1
    exact ih hstep.snd fun r' hr' => hreads r' (List.mem_cons_of_mem _ hr')

/-- The base after a swap that failed: the new one if it could be opened. -/
def baseAfter (f : Except Errno File) (d : Device) : Option Base :=
  match baseInit f d with
  | .error _ => none
  | .ok b => some b

theorem reloadL1_cases (fault : Option ReloadFault) (d : Device) :
    (∃ a h, ∀ base cl, reloadL1 fault (d.rebase d.allocOffset d.freeListHead base cl) =
        (.error .eio, d.rebase a h base cl)) ∨
      ∀ base cl, ∃ d', reloadL1 fault (d.rebase d.allocOffset d.freeListHead base cl) =
        (.ok (), d') := by
  unfold reloadL1
  simp only [get_bind_apply]
  cases hhdr : (if fault = some .header then none else d.backingFile.readAt 0 headerSize) with
  | none =>
    refine .inl ⟨d.allocOffset, d.freeListHead, fun base cl => ?_⟩
    simp only [rebase, hhdr]
    rfl
  | some hdr =>
    cases htable : (if fault = some .table then none
        else d.backingFile.kernelRead (get64 hdr 24) (get32 hdr 32 * 8)) with
    | none =>
      refine .inl ⟨get64 hdr 36, get64 hdr 48, fun base cl => ?_⟩
      simp only [rebase, hhdr, htable]
      rfl
    | some diskL1 =>
      refine .inr fun base cl => ?_
      simp only [rebase, hhdr, htable]
      exact ⟨_, rfl⟩

/-- A failed swap changes the base and perhaps the allocation state, and the cluster cache has no
part in it. -/
theorem swapBase_fails {f : Except Errno File} {fault : Option ReloadFault} {err : Errno}
    (hd : Settled d) (hfail : (swapBase f fault d).1 = .error err) :
    ∃ a h, ∀ cl, swapBase f fault { d with clCache := cl } =
      (.error err, d.rebase a h (baseAfter f d) cl) := by
  have hflush : ∀ cl, flushAllL2 { d with clCache := cl } = (.ok (), { d with clCache := cl }) :=
    fun cl => flushAllL2_clean fun i hi => (hd.tables i hi).1
  have hswap : ∀ cl, swapBase f fault { d with clCache := cl } =
      (match baseInit f d with
        | .error e => throw e
        | .ok b => do
          modify fun d => { d with base := some b }
          reloadL1 fault
          invalidateAllCaches : KernelM Unit) { d with base := none, clCache := cl } :=
    fun cl => bind_of_ok (hflush cl)
  have hown := hswap d.clCache
  unfold baseAfter
  cases hinit : baseInit f d with
  | error e =>
    rw [hinit] at hown
    obtain rfl : e = err := Except.error.inj ((congrArg Prod.fst hown).symm.trans hfail)
    refine ⟨d.allocOffset, d.freeListHead, fun cl => ?_⟩
    rw [hswap cl, hinit]
    rfl
  | ok b =>
    rw [hinit] at hown
    obtain ⟨a, h, hreload⟩ | hreload := reloadL1_cases fault d
    · have hthen : ∀ cl, (reloadL1 fault >>= fun _ => invalidateAllCaches)
          (d.rebase d.allocOffset d.freeListHead (some b) cl) =
          (.error .eio, d.rebase a h (some b) cl) := fun cl => bind_of_error (hreload (some b) cl)
      have herr := hown.trans (hthen d.clCache)
      obtain rfl : .eio = err := Except.error.inj ((congrArg Prod.fst herr).symm.trans hfail)
      refine ⟨a, h, fun cl => ?_⟩
      rw [hswap cl, hinit]
      exact hthen cl
    · obtain ⟨d', hd'⟩ := hreload (some b) d.clCache
      have hok : swapBase f fault d = invalidateAllCaches d' := hown.trans (bind_of_ok hd')
      rw [hok] at hfail
      cases hfail

theorem baseAfter_coherent (f : Except Errno File) (d : Device) :
    ∀ b, baseAfter f d = some b → b.Coherent := by
  intro b hb
  unfold baseAfter at hb
  split at hb
  · cases hb
  · next hinit =>
    obtain rfl := Option.some.inj hb
    exact baseInit_coherent hinit

theorem Settled.rebase (h : Settled d) (a f : ℕ) (cl : Cache cacheSize (List UInt8))
    (hb : ∀ b, base = some b → b.Coherent) : Settled (d.rebase a f base cl) :=
  ⟨h.clusterSize, h.entries, h.virtualSize, h.tables, hb⟩

theorem clLoad_cold (hd : Settled d) (hcold : ∀ i, (d.clCache i).valid = false)
    (hmiss : d.missHandler = none) (hask : d.AsksBase c) :
    ∃ ce d', clLoad z c d =
      fillFrom ce ((lookupBase z d.base d.clusterSize c).bytes d.clusterSize) d' := by
  obtain ⟨table, hload, hzero⟩ := hask
  have hfind : d.clCache.find c = none := by
    cases hfind : d.clCache.find c with
    | none => rfl
    | some i =>
      have hvalid := (Cache.find_some hfind).1
      rw [hcold i] at hvalid
      cases hvalid
  obtain ⟨r, cache, hget, -, hslot, hnone⟩ := hd.l2Get (c / d.l2Entries % 2 ^ 32)
  cases r with
  | none =>
    rw [hnone rfl] at hload
    cases hload
  | some l2e =>
    obtain ⟨⟨-, table', hload', hval⟩, hkey⟩ := hslot l2e rfl
    rw [hkey, hload] at hload'
    obtain rfl := Option.some.inj hload'
    have hentry : (cache l2e).val (c % d.l2Entries) = 0 :=
      (hval _ (Nat.mod_lt _ hd.entries)).trans hzero
    obtain ⟨base, hbase, -⟩ := clLoadBase_eq (z := z) (d := { d with
        l2Cache := cache
        clCache := (d.clCache.invalidate d.clCache.victim).assign d.clCache.victim c (d.lruTick + 1)
        lruTick := d.lruTick + 1 + 1 }) hd.base d.clCache.victim c (by simp [hmiss])
    refine ⟨_, _, Eq.trans ?_ hbase⟩
    refine (bind_of_ok (clFind_miss hfind)).trans ?_
    refine (bind_of_ok (hget d.allocOffset d.freeListHead d.base d.clCache)).trans ?_
    exact congrFun (if_pos hentry) _

/-- What a read returns for the bytes found. -/
def readResult : Option (List UInt8) → Except Errno (List UInt8)
  | none => .error .eio
  | some bs => .ok bs

theorem readChunk_cold (hd : Settled d) (hcold : ∀ i, (d.clCache i).valid = false)
    (hmiss : d.missHandler = none) {ch : Chunk} (hask : d.AsksBase ch.cluster) (hoff : ch.off = 0)
    (retries : ℕ) :
    (readChunk z ch retries d).1 = readResult
      (((lookupBase z d.base d.clusterSize ch.cluster).bytes d.clusterSize).map
        (List.take ch.len)) := by
  obtain ⟨ce, d', hload⟩ := clLoad_cold (z := z) hd hcold hmiss hask
  have hchunk : ∀ miss, (loadChunk z ch miss d).1 = readResult
      (((lookupBase z d.base d.clusterSize ch.cluster).bytes d.clusterSize).map
        (List.take ch.len)) := by
    intro miss
    cases hbytes : (lookupBase z d.base d.clusterSize ch.cluster).bytes d.clusterSize with
    | none =>
      rw [hbytes] at hload
      exact congrArg Prod.fst (bind_of_ok hload)
    | some buf =>
      rw [hbytes] at hload
      refine (congrArg Prod.fst (bind_of_ok hload)).trans ?_
      change Except.ok ((((d'.clCache.fill ce buf) ce).val.drop ch.off).take ch.len) = _
      rw [Cache.fill_val, hoff]
      rfl
  cases retries with
  | zero => exact hchunk _
  | succ retries => exact hchunk _

theorem read_single {off n : ℕ} {ch : Chunk}
    (h : chunks d.clusterBits d.clusterSize off n = [ch]) :
    (read z off [n] d).1 = (readChunk z ch 3 d).1 := by
  have hsegment : readSegment z off n d = collect (fun c => readChunk z c 3) [ch] d := by
    unfold readSegment
    rw [get_bind_apply, h]
  match hr : readChunk z ch 3 d with
  | (.error e, d') =>
    have hcollect : collect (fun c => readChunk z c 3) [ch] d = (.error e, d') := bind_of_error hr
    exact congrArg Prod.fst (bind_of_error (hsegment.trans hcollect))
  | (.ok bs, d') =>
    have hcollect : collect (fun c => readChunk z c 3) [ch] d = (.ok (bs ++ []), d') :=
      bind_of_ok hr
    refine (congrArg Prod.fst (bind_of_ok (hsegment.trans hcollect))).trans ?_
    change Except.ok (bs ++ [] ++ []) = Except.ok bs
    rw [List.append_nil, List.append_nil]

theorem read_cold (hd : Settled d) (hcold : ∀ i, (d.clCache i).valid = false)
    (hmiss : d.missHandler = none) (hc : c * d.clusterSize < d.virtualSize)
    (hask : d.AsksBase c) :
    (read z (c * d.clusterSize) [d.inside c] d).1 = readResult
      (((lookupBase z d.base d.clusterSize c).bytes d.clusterSize).map
        (List.take (d.inside c))) := by
  have hvsize := hd.virtualSize
  have hpos := Nat.two_pow_pos d.clusterBits
  have hmod : c * 2 ^ d.clusterBits % 2 ^ d.clusterBits = 0 := Nat.mul_mod_left _ _
  have hinside : 0 < d.inside c ∧ d.inside c ≤ 2 ^ d.clusterBits := by
    rw [inside, hd.clusterSize]
    rw [hd.clusterSize] at hc
    omega
  have hchunk : chunkAt d.clusterBits (2 ^ d.clusterBits) (c * 2 ^ d.clusterBits) 0 (d.inside c) =
      ⟨c, 0, 0, d.inside c⟩ := by
    rw [hd.clusterSize] at hc
    unfold chunkAt
    rw [Nat.and_two_pow_sub_one_eq_mod, hmod, Nat.mod_eq_of_lt (hc.trans hvsize),
      Nat.shiftRight_eq_div_pow, Nat.mul_div_cancel _ hpos, Nat.sub_zero, min_eq_right hinside.2]
  have hchunks : chunks d.clusterBits d.clusterSize (c * d.clusterSize) (d.inside c) =
      [⟨c, 0, 0, d.inside c⟩] := by
    rw [hd.clusterSize, chunks_single hinside.1 (by omega), hchunk]
  rw [read_single hchunks]
  exact readChunk_cold hd hcold hmiss hask rfl 3

/-- Every sequence of reads returns after the swap what it would have returned before it. -/
def KeepsReads (z : Codec) (f : Except Errno File) (fault : Option ReloadFault) (d : Device) :
    Prop :=
  ∀ reads, d.InRange reads → readAll z reads (swapBase f fault d).2 = readAll z reads d

section FailedSwap

variable {f : Except Errno File} {fault : Option ReloadFault} {err : Errno}

theorem keepsReads_of_agreesAll (hd : Settled d) (hfail : (swapBase f fault d).1 = .error err)
    (hagree : d.AgreesAll z (baseAfter f d)) : KeepsReads z f fault d := by
  obtain ⟨a, h, hswap⟩ := swapBase_fails hd hfail
  have htwin : Twin z d.clusterBits d.virtualSize d (d.rebase a h (baseAfter f d) d.clCache) := {
    settled := hd
    clusterBits := rfl
    virtualSize := rfl
    rebased := rfl
    clusters := ⟨fun _ => rfl, fun _ => rfl, fun _ => rfl, fun _ _ => rfl⟩
    base := baseAfter_coherent f d
    agrees := hagree }
  intro reads hreads
  rw [show swapBase f fault d = _ from hswap d.clCache]
  exact htwin.readAll hd.virtualSize hreads

theorem readResult_injective : Function.Injective readResult := by
  intro x y h
  cases x <;> cases y <;> cases h <;> rfl

theorem agreesAll_of_keepsReads (hd : Settled d) (hfail : (swapBase f fault d).1 = .error err)
    (hmiss : d.missHandler = none)
    (hkeep : ∀ cl, KeepsReads z f fault { d with clCache := cl }) :
    d.AgreesAll z (baseAfter f d) := by
  intro c hc hask
  obtain ⟨a, h, hswap⟩ := swapBase_fails hd hfail
  have hcold : ∀ i, (d.clCache.purgeAll i).valid = false := fun _ => rfl
  have hrange : d.InRange [(c * d.clusterSize, [d.inside c])] := by
    intro r hr
    rw [List.mem_singleton.mp hr]
    simp only [inside, List.sum_singleton]
    omega
  -- with nothing cached the first read of the cluster shows what the base holds
  have hread := hkeep d.clCache.purgeAll [(c * d.clusterSize, [d.inside c])] hrange
  rw [hswap] at hread
  have hbefore := read_cold (z := z)
    (hd.rebase d.allocOffset d.freeListHead d.clCache.purgeAll hd.base) hcold hmiss hc hask
  have hafter := read_cold (z := z)
    (hd.rebase a h d.clCache.purgeAll (baseAfter_coherent f d)) hcold hmiss hc hask
  have hsame := hbefore.symm.trans ((List.head_eq_of_cons_eq hread).symm.trans hafter)
  refine ⟨readResult_injective hsame, fun hm => ?_⟩
  rw [hmiss] at hm
  cases hm

/-- Without a handler for misses, the reads of a device survive a failed swap, whatever is in its
cluster cache, exactly if the bases before and after agree on the clusters that the primary does
not have. With a handler the agreement is enough. -/
theorem failed_swap_keeps_reads (hd : Settled d) (hfail : (swapBase f fault d).1 = .error err) :
    (d.AgreesAll z (baseAfter f d) → KeepsReads z f fault d) ∧
      (d.missHandler = none →
        ((∀ cl, KeepsReads z f fault { d with clCache := cl }) ↔
          d.AgreesAll z (baseAfter f d))) := by
  refine ⟨keepsReads_of_agreesAll hd hfail, fun hmiss => ?_⟩
  constructor
  · exact agreesAll_of_keepsReads hd hfail hmiss
  · intro hagree cl
    obtain ⟨a, h, hswap⟩ := swapBase_fails hd hfail
    exact keepsReads_of_agreesAll (d := { d with clCache := cl })
      (hd.rebase d.allocOffset d.freeListHead cl hd.base) (congrArg Prod.fst (hswap cl)) hagree

end FailedSwap

section Sample

/-- A file that holds the same byte everywhere. -/
def constFile (size : ℕ) (b : UInt8) : File where
  size := size
  byte a := if a < size then b else 0
  zeroBeyond a ha := if_neg (by omega)
  capacity := size
  faults _ := none
  writes := 0
  failed := false

/-- A new image of one cluster. -/
def oneClusterFile : File := (constFile 8192 0).put 0 (newHeader 12 4096 headerSize 1 8192)

/-- A device of one cluster that the primary does not have, over a raw base of bytes `b`, as
`lbd_qcow2_init` and `lbd_qcow2_base_init` leave it. -/
def oneCluster (b : UInt8) : Device where
  backingFile := oneClusterFile
  clusterBits := 12
  clusterSize := 4096
  l2Entries := 511
  virtualSize := 4096
  l1Table _ := 0
  l1Size := 1
  l1Offset := 4096
  allocOffset := 8192
  freeListHead := 0
  l2Cache _ := ⟨0, false, false, 0, fun _ => 0⟩
  clCache _ := ⟨0, false, false, 0, []⟩
  lruTick := 0
  base := some {
    file := constFile 4096 b
    isQcow2 := false
    size := 4096
    clusterBits := 0
    clusterSize := 0
    l2Entries := 0
    l1Table := fun _ => 0
    l1Size := 0
    l1Offset := 0
    l2Cache := fun _ => ⟨0, false, false, 0, fun _ => 0⟩
    lruTick := 0 }
  missHandler := none

example : (init (oneCluster 1)).1 = .ok () ∧
    (baseInit (.ok (constFile 4096 1)) (oneCluster 1)).isOk := by
  decide +kernel

theorem settled_oneCluster (b : UInt8) : Settled (oneCluster b) where
  clusterSize := by rfl
  entries := show 0 < 511 by decide
  virtualSize := show 4096 < W64 by decide
  tables := nofun
  base := by
    intro b' hb'
    cases hb'
    exact nofun

/-- A base of zeros is not missed. -/
theorem zero_base_kept :
    (swapBase (.error .eio) none (oneCluster 0)).1 = .error .eio ∧
      KeepsReads Codec.none (.error .eio) none (oneCluster 0) := by
  have hfail : (swapBase (.error .eio) none (oneCluster 0)).1 = .error .eio := rfl
  refine ⟨hfail, (failed_swap_keeps_reads (settled_oneCluster 0) hfail).1 ?_⟩
  intro c hc _
  have hc' : c * 4096 < 4096 := hc
  obtain rfl : c = 0 := by omega
  have hbytes : window (constFile 4096 0).byte (0 * 4096) 4096 = List.replicate 4096 0 := by
    simp only [window, constFile, ite_self, List.map_const', List.length_range]
  refine ⟨?_, fun h => by cases h⟩
  change (some (window (constFile 4096 0).byte (0 * 4096) 4096)).map _ =
    (some (List.replicate 4096 0)).map _
  rw [hbytes]

/-- A base of ones is: the byte that a read returns is 1 before the swap and 0 after it. -/
theorem failed_swap_loses_base :
    (swapBase (.error .eio) none (oneCluster 1)).1 = .error .eio ∧
      (read Codec.none 0 [1] (oneCluster 1)).1 = .ok [1] ∧
      (read Codec.none 0 [1] (swapBase (.error .eio) none (oneCluster 1)).2).1 = .ok [0] := by
  decide +kernel

end Sample

end Device

end Lbd.QCow2
