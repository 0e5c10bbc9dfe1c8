import Lbd.QCow2.Requests

/-!
# The caches of the kernel's device

A lookup that finds its table or its cluster cached and one that loads it give the
same result, as long as what is cached agrees with the files.
-/

namespace Lbd.QCow2

open Act

variable {z : Codec} {d : Device} {b : Base} {c k : ℕ}

namespace Base

/-- A lookup that goes past the cache. -/
def lookup (z : Codec) (b : Base) (clusterSize clusterIndex : ℕ) : BaseRead :=
  if b.isQcow2 = false then b.readRaw clusterSize clusterIndex
  else
    match loadTable b.file b.l1Table b.l1Size b.clusterSize
      (clusterIndex / b.l2Entries % 2 ^ 32) with
    | none => .error
    | some table => b.readEntry z clusterSize (table (clusterIndex % b.l2Entries))

/-- The cached tables are those of the file. -/
def Coherent (b : Base) : Prop :=
  b.l2Cache.Holds fun slot =>
    loadTable b.file b.l1Table b.l1Size b.clusterSize slot.key = some slot.val

/-- The bases differ at most in what is cached. -/
def Recached (b b' : Base) : Prop := b' = { b with l2Cache := b'.l2Cache, lruTick := b'.lruTick }

theorem Recached.lookup {b b' : Base} (h : b.Recached b') (clusterSize c : ℕ) :
    b'.lookup z clusterSize c = b.lookup z clusterSize c := by
  rw [h]
  rfl

theorem l2Get_spec (h : b.Coherent) (k : ℕ) :
    (b.l2Get k).1 = loadTable b.file b.l1Table b.l1Size b.clusterSize k ∧
      (b.l2Get k).2.Coherent ∧ b.Recached (b.l2Get k).2 := by
  unfold l2Get
  split
  · next i hfind =>
    obtain ⟨hvalid, hkey⟩ := Cache.find_some hfind
    refine ⟨?_, Cache.Holds.touch h i id, rfl⟩
    rw [← hkey, h i hvalid]
  · dsimp only
    split
    · next hload => exact ⟨hload.symm, Cache.Holds.unload h _, rfl⟩
    · next table hload => exact ⟨hload.symm, Cache.Holds.load h _ hload, rfl⟩

theorem readCluster_spec (h : b.Coherent) (clusterSize c : ℕ) :
    (b.readCluster z clusterSize c).1 = b.lookup z clusterSize c ∧
      (b.readCluster z clusterSize c).2.Coherent ∧
      b.Recached (b.readCluster z clusterSize c).2 := by
  obtain ⟨htable, hcoh, hsame⟩ := b.l2Get_spec h (c / b.l2Entries % 2 ^ 32)
  unfold readCluster lookup
  rw [← htable]
  split
  · exact ⟨rfl, h, rfl⟩
  · dsimp only
    generalize b.l2Get (c / b.l2Entries % 2 ^ 32) = r at hcoh hsame ⊢
    obtain ⟨_ | table, b'⟩ := r
    · exact ⟨rfl, hcoh, hsame⟩
    · refine ⟨?_, hcoh, hsame⟩
      change b'.readEntry z clusterSize _ = b.readEntry z clusterSize _
      rw [show b' = _ from hsame]
      rfl

end Base

/-- No base is a base without clusters. -/
def lookupBase (z : Codec) (base : Option Base) (clusterSize clusterIndex : ℕ) : BaseRead :=
  match base with
  | none => .unallocated
  | some b => b.lookup z clusterSize clusterIndex

/-- What a read that ends at the base gets when nobody handles misses. -/
def BaseRead.bytes (clusterSize : ℕ) : BaseRead → Option (List UInt8)
  | .data buf => some buf
  | .unallocated => some (List.replicate clusterSize 0)
  | .error => none

namespace Device

/-- A clean table that agrees with the file. -/
def Current (d : Device) (slot : Slot (ℕ → ℕ)) : Prop :=
  slot.dirty = false ∧
    ∃ table, loadTable d.backingFile d.l1Table d.l1Size d.clusterSize slot.key = some table ∧
      ∀ j < d.l2Entries, slot.val j = table j

/-- The state between requests: what is cached of L2 tables is what the files hold. -/
structure Settled (d : Device) : Prop where
  clusterSize : d.clusterSize = 2 ^ d.clusterBits
  entries : 0 < d.l2Entries
  virtualSize : d.virtualSize < W64
  tables : d.l2Cache.Holds d.Current
  base : ∀ b, d.base = some b → b.Coherent

/-- A read of the cluster goes on to the base. -/
def AsksBase (d : Device) (c : ℕ) : Prop :=
  ∃ table, loadTable d.backingFile d.l1Table d.l1Size d.clusterSize (c / d.l2Entries % 2 ^ 32) =
    some table ∧ table (c % d.l2Entries) = 0

theorem Current.asksBase {slot : Slot (ℕ → ℕ)} (h : d.Current slot) (hpos : 0 < d.l2Entries)
    (hkey : slot.key = c / d.l2Entries % 2 ^ 32) (hzero : slot.val (c % d.l2Entries) = 0) :
    d.AsksBase c := by
  obtain ⟨-, table, hload, hval⟩ := h
  rw [hkey] at hload
  exact ⟨table, hload, (hval _ (Nat.mod_lt _ hpos)).symm.trans hzero⟩

theorem l2Get_hit {i : Fin cacheSize} (h : d.l2Cache.find k = some i) :
    l2Get k d = (.ok (some i),
      { d with l2Cache := d.l2Cache.touch i d.lruTick, lruTick := d.lruTick + 1 }) := by
  unfold l2Get
  rw [get_bind_apply]
  simp only [h]
  rfl

theorem l2Load_fails (best : Fin cacheSize)
    (h : loadTable d.backingFile d.l1Table d.l1Size d.clusterSize k = none) :
    l2Load best k d = (.ok none, { d with
      l2Cache := (d.l2Cache.assign best k d.lruTick).invalidate best
      lruTick := d.lruTick + 1 }) := by
  change (match loadTable d.backingFile d.l1Table d.l1Size d.clusterSize k with
    | none => _
    | some table => _ : KernelM (Option (Fin cacheSize))) _ = _
  rw [h]
  rfl

theorem l2Load_ok (best : Fin cacheSize) {table : ℕ → ℕ}
    (h : loadTable d.backingFile d.l1Table d.l1Size d.clusterSize k = some table) :
    l2Load best k d = (.ok (some best), { d with
      l2Cache := (d.l2Cache.assign best k d.lruTick).fill best table
      lruTick := d.lruTick + 1 }) := by
  change (match loadTable d.backingFile d.l1Table d.l1Size d.clusterSize k with
    | none => _
    | some table => _ : KernelM (Option (Fin cacheSize))) _ = _
  rw [h]
  rfl

theorem l2Get_miss (h : d.l2Cache.find k = none)
    (hclean : d.l2Cache.Holds fun slot => slot.dirty = false) :
    l2Get k d = l2Load d.l2Cache.victim k d := by
  have hnot : ¬ ((d.l2Cache d.l2Cache.victim).valid = true ∧
      (d.l2Cache d.l2Cache.victim).dirty = true) := by
    intro hv
    simp [hclean _ hv.1] at hv
  have hevict : evict d.l2Cache.victim d = (.ok (), d) := by
    unfold evict
    rw [get_bind_apply, Act.when, if_neg hnot]
    rfl
  unfold l2Get
  rw [get_bind_apply]
  simp only [h]
  exact bind_of_ok hevict

/-- The device with another base and other clusters cached. -/
def rebase (d : Device) (allocOffset freeListHead : ℕ) (base : Option Base)
    (clCache : Cache cacheSize (List UInt8)) : Device :=
  { d with
    allocOffset := allocOffset, freeListHead := freeListHead, base := base, clCache := clCache }

/-- Whether a table is found or loaded, it is that of the file, whatever base the device has. -/
theorem Settled.l2Get (h : Settled d) (k : ℕ) :
    ∃ r cache, (∀ a f base cl, l2Get k (d.rebase a f base cl) =
        (.ok r, { d.rebase a f base cl with l2Cache := cache, lruTick := d.lruTick + 1 })) ∧
      cache.Holds d.Current ∧ (∀ i, r = some i → d.Current (cache i) ∧ (cache i).key = k) ∧
      (r = none → loadTable d.backingFile d.l1Table d.l1Size d.clusterSize k = none) := by
  cases hfind : d.l2Cache.find k with
  | some i =>
    obtain ⟨hvalid, hkey⟩ := Cache.find_some hfind
    refine ⟨some i, d.l2Cache.touch i d.lruTick,
      fun a f base cl => l2Get_hit (d := d.rebase a f base cl) hfind,
      h.tables.touch i id, fun j hj => ?_, nofun⟩
    obtain rfl := Option.some.inj hj
    rw [Cache.touch, Function.update_self]
    exact ⟨h.tables i hvalid, hkey⟩
  | none =>
    have hget : ∀ a f base cl, Device.l2Get k (d.rebase a f base cl) =
        l2Load d.l2Cache.victim k (d.rebase a f base cl) :=
      fun a f base cl => l2Get_miss hfind fun i hi => (h.tables i hi).1
    cases hload : loadTable d.backingFile d.l1Table d.l1Size d.clusterSize k with
    | none =>
      refine ⟨none, (d.l2Cache.assign d.l2Cache.victim k d.lruTick).invalidate d.l2Cache.victim,
        fun a f base cl => ?_, h.tables.unload _, nofun, fun _ => rfl⟩
      exact (hget a f base cl).trans (l2Load_fails (d := d.rebase a f base cl) _ hload)
    | some table =>
      have hslot : d.Current ⟨k, true, false, d.lruTick, table⟩ :=
        ⟨rfl, table, hload, fun _ _ => rfl⟩
      refine ⟨some d.l2Cache.victim,
        (d.l2Cache.assign d.l2Cache.victim k d.lruTick).fill d.l2Cache.victim table,
        fun a f base cl => ?_, h.tables.load _ hslot, fun j hj => ?_, nofun⟩
      · exact (hget a f base cl).trans (l2Load_ok (d := d.rebase a f base cl) _ hload)
      · rw [← Option.some.inj hj]
        exact Cache.load_slot (P := fun slot => d.Current slot ∧ slot.key = k) _ _ ⟨hslot, rfl⟩

theorem flushAllL2_clean (h : d.l2Cache.Holds fun slot => slot.dirty = false) :
    flushAllL2 d = (.ok (), d) := by
  have hflush : ∀ i, ignore (l2Flush i) d = (.ok (), d) := by
    intro i
    have hclean : (d.l2Cache i).valid = false ∨ (d.l2Cache i).dirty = false := by
      cases hv : (d.l2Cache i).valid with
      | false => exact .inl rfl
      | true => exact .inr (h i hv)
    have hl2 : l2Flush i d = (.ok (), d) := by
      unfold l2Flush
      rw [get_bind_apply, if_pos hclean]
      rfl
    unfold ignore
    refine (bind_of_ok (a := .ok ()) ?_).trans rfl
    rw [attempt, hl2]
  suffices hloop : ∀ l : List (Fin cacheSize), (l.forM fun i => ignore (l2Flush i)) d = (.ok (), d)
    from hloop _
  intro l
  induction l with
  | nil => rfl
  | cons i l ih => exact (bind_of_ok (hflush i)).trans ih

theorem clFind_hit {i : Fin cacheSize} (h : d.clCache.find c = some i) :
    clFind c d = (.ok (some i),
      { d with clCache := d.clCache.touch i d.lruTick, lruTick := d.lruTick + 1 }) := by
  unfold clFind
  rw [get_bind_apply]
  simp only [h]
  rfl

theorem clFind_miss (h : d.clCache.find c = none) : clFind c d = (.ok none, d) := by
  unfold clFind
  rw [get_bind_apply]
  simp only [h]
  rfl

theorem clAllocEntry_eq (c : ℕ) (d : Device) :
    clAllocEntry c d = (.ok d.clCache.victim, { d with
      clCache := (d.clCache.invalidate d.clCache.victim).assign d.clCache.victim c d.lruTick
      lruTick := d.lruTick + 1 }) := rfl

theorem baseReadCluster_spec (hb : ∀ b, d.base = some b → b.Coherent) (c : ℕ) :
    ∃ base, baseReadCluster z c d =
        (.ok (d.base.map fun b => b.lookup z d.clusterSize c), { d with base := base }) ∧
      (∀ b, base = some b → b.Coherent) ∧
      ∀ n c', lookupBase z base n c' = lookupBase z d.base n c' := by
  unfold baseReadCluster
  cases hbase : d.base with
  | none => exact ⟨none, by simp [← hbase], nofun, fun _ _ => rfl⟩
  | some b =>
    obtain ⟨hres, hcoh, hsame⟩ := b.readCluster_spec (hb b hbase) (z := z) d.clusterSize c
    refine ⟨some (b.readCluster z d.clusterSize c).2, ?_, ?_, fun n c' => hsame.lookup n c'⟩
    · simp only [Option.map_some, hres]
    · intro b' hb'
      exact Option.some.inj hb' ▸ hcoh

/-- What a base lookup makes of slot `ce`. -/
def clLoadFrom (ce : Fin cacheSize) : BaseRead → KernelM ClEntry
  | .data buf => do
    clFill ce buf
    pure (.entry ce)
  | .error => pure .null
  | .unallocated => Device.clLoadZero ce

/-- Give slot `ce` the bytes, if there are any. -/
def fillFrom (ce : Fin cacheSize) : Option (List UInt8) → KernelM ClEntry
  | none => pure .null
  | some buf => do
    clFill ce buf
    pure (.entry ce)

theorem clLoadFrom_eq {ce : Fin cacheSize} {x : BaseRead}
    (hmiss : d.missHandler.isSome → x ≠ .unallocated) :
    clLoadFrom ce x d = fillFrom ce (x.bytes d.clusterSize) d := by
  cases x with
  | data buf => rfl
  | error => rfl
  | unallocated =>
    have hnone : d.missHandler = none := by
      by_contra hsome
      exact hmiss (Option.isSome_iff_ne_none.mpr hsome) rfl
    change Device.clLoadZero ce d = _
    unfold Device.clLoadZero
    rw [get_bind_apply, hnone]
    rfl

theorem clLoadBase_eq (hb : ∀ b, d.base = some b → b.Coherent) (ce : Fin cacheSize) (c : ℕ)
    (hmiss : d.missHandler.isSome → lookupBase z d.base d.clusterSize c ≠ .unallocated) :
    ∃ base, clLoadBase z ce c d =
        fillFrom ce ((lookupBase z d.base d.clusterSize c).bytes d.clusterSize)
          { d with base := base } ∧
      (∀ b, base = some b → b.Coherent) ∧
      ∀ n c', lookupBase z base n c' = lookupBase z d.base n c' := by
  obtain ⟨base, hread, hcoh, hlookup⟩ := baseReadCluster_spec (z := z) hb c
  have hfrom : clLoadBase z ce c d =
      clLoadFrom ce (lookupBase z d.base d.clusterSize c) { d with base := base } := by
    refine (bind_of_ok hread).trans ?_
    cases d.base with
    | none => rfl
    | some b =>
      simp only [Option.map_some, lookupBase]
      cases b.lookup z d.clusterSize c <;> rfl
  exact ⟨base, hfrom.trans (clLoadFrom_eq (d := { d with base := base }) hmiss), hcoh, hlookup⟩

theorem baseInit_coherent {f : Except Errno File} (h : baseInit f d = .ok b) : b.Coherent := by
  have hempty : ∀ i, (b.l2Cache i).valid = false := by
    cases f with
    | error e => cases h
    | ok f =>
      change (if f.size = 0 then _ else _) = _ at h
      unfold baseInitQcow2 at h
      repeat' split at h
      all_goals cases h
      all_goals exact fun _ => rfl
  intro i hi
  rw [hempty i] at hi
  cases hi

/-- The results of a sequence of reads: an offset and the lengths of the segments each. -/
def readAll (z : Codec) : List (ℕ × List ℕ) → Device → List (Except Errno (List UInt8))
  | [], _ => []
  | (off, segments) :: reads, d =>
    (read z off segments d).1 :: readAll z reads (read z off segments d).2

/-- Reads that the block layer sends: they end inside of the device. -/
def InRange (d : Device) (reads : List (ℕ × List ℕ)) : Prop :=
  ∀ r ∈ reads, r.1 + r.2.sum ≤ d.virtualSize

end Device

end Lbd.QCow2
