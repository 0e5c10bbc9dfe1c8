import Lbd.QCow2.SwapBase

/-!
# Reads of a device over a base

A read returns the primary's data where the primary has the cluster, and the base's
elsewhere. Two lookups do not follow the files: a raw base has no cluster that ends
behind it, and the index of an L2 table is cut to 32 bits.
-/

namespace Lbd.QCow2

open Act

variable {z : Codec} {d d' : Device} {b : Base} {f : File} {c o n off bits : ℕ}
  {D : ℕ → Option (List UInt8)} {x y : List UInt8}

/-- The base's byte at `o`: that of a raw file, or that of the decoded cluster. -/
def Base.byteAt (z : Codec) (b : Base) (o : ℕ) : Option UInt8 :=
  if b.isQcow2 = false then some (b.file.byte o)
  else
    match loadTable b.file b.l1Table b.l1Size b.clusterSize (o / b.clusterSize / b.l2Entries) with
    | none => none
    | some table =>
      if table (o / b.clusterSize % b.l2Entries) = 0 then some 0
      else (loadData z b.file b.clusterSize (table (o / b.clusterSize % b.l2Entries))).map
        fun data => data.getD (o % b.clusterSize) 0

/-- Without a base there are zeros. -/
def baseByte (z : Codec) (base : Option Base) (o : ℕ) : Option UInt8 :=
  match base with
  | none => some 0
  | some b => b.byteAt z o

namespace Device

/-- The byte at `o` of a primary over a base; `none` when a file cannot be read there. -/
def snapshotByte (z : Codec) (d : Device) (o : ℕ) : Option UInt8 :=
  match loadTable d.backingFile d.l1Table d.l1Size d.clusterSize
    (o / d.clusterSize / d.l2Entries) with
  | none => none
  | some table =>
    if table (o / d.clusterSize % d.l2Entries) = 0 then baseByte z d.base o
    else (loadData z d.backingFile d.clusterSize (table (o / d.clusterSize % d.l2Entries))).map
      fun data => data.getD (o % d.clusterSize) 0

/-- The result of a read of `n` bytes that `S` describes. -/
def readOf (S : ℕ → Option UInt8) (off n : ℕ) : Except Errno (List UInt8) :=
  if ∀ i < n, (S (off + i)).isSome then .ok (window (fun o => (S o).getD 0) off n)
  else .error .eio

/-- Every sequence of reads inside of the device returns what the primary and the base hold. -/
def SnapshotReads (z : Codec) (d : Device) : Prop :=
  ∀ reads, d.InRange reads →
    readAll z reads d = reads.map fun r => readOf (d.snapshotByte z) r.1 r.2.sum

/-- The bytes that a read gets for a cluster, when nobody handles misses. -/
def clusterBytes (z : Codec) (d : Device) (c : ℕ) : Option (List UInt8) :=
  match loadTable d.backingFile d.l1Table d.l1Size d.clusterSize (c / d.l2Entries % 2 ^ 32) with
  | none => none
  | some table =>
    if table (c % d.l2Entries) = 0 then
      (lookupBase z d.base d.clusterSize c).bytes d.clusterSize
    else loadData z d.backingFile d.clusterSize (table (c % d.l2Entries))

theorem length_of_readAt (h : f.readAt off n = some x) : x.length = n := by
  unfold File.readAt at h
  split_ifs at h
  rw [← Option.some.inj h, length_window]

theorem length_of_loadData {e : ℕ} (h : loadData z f n e = some x) : x.length = n := by
  unfold loadData at h
  repeat' split at h
  all_goals try cases h
  · exact of_decide_eq_true (Option.filter_eq_some_iff.mp h).2
  · exact length_of_readAt h

theorem length_of_lookup (h : (b.lookup z n c).bytes n = some x) : x.length = n := by
  unfold Base.lookup Base.readRaw Base.readEntry at h
  repeat' split at h
  all_goals try cases h
  · exact List.length_replicate
  · next hread => exact length_of_readAt hread
  · exact List.length_replicate
  · next hload => exact length_of_loadData hload

theorem length_of_clusterBytes (h : d.clusterBytes z c = some x) : x.length = d.clusterSize := by
  unfold clusterBytes at h
  repeat' split at h
  · cases h
  · cases hb : d.base with
    | none =>
      rw [hb] at h
      cases h
      exact List.length_replicate
    | some b =>
      rw [hb] at h
      exact length_of_lookup h
  · exact length_of_loadData h

/-- A device without a handler whose caches hold what the files hold. -/
structure Shows (z : Codec) (bits : ℕ) (D : ℕ → Option (List UInt8)) (d : Device) : Prop where
  settled : Settled d
  clusterBits : d.clusterBits = bits
  noHandler : d.missHandler = none
  bytes : d.clusterBytes z = D
  clusters : d.clCache.Holds fun slot => D slot.key = some slot.val

/-- Only what is cached has changed. -/
def Recached (d d' : Device) : Prop :=
  d' = { d with
    l2Cache := d'.l2Cache, clCache := d'.clCache, lruTick := d'.lruTick, base := d'.base }

theorem Shows.recache (h : Shows z bits D d) (hd : d.Recached d')
    (hl2 : d'.l2Cache.Holds d.Current)
    (hcl : d'.clCache.Holds fun slot => D slot.key = some slot.val)
    (hb : ∀ b, d'.base = some b → b.Coherent)
    (hlookup : ∀ n c, lookupBase z d'.base n c = lookupBase z d.base n c) :
    Shows z bits D d' := by
  refine ⟨?_, ?_, ?_, ?_, hcl⟩
  · rw [hd]
    exact ⟨h.settled.clusterSize, h.settled.entries, h.settled.virtualSize, hl2, hb⟩
  · rw [hd]
    exact h.clusterBits
  · rw [hd]
    exact h.noHandler
  · rw [← h.bytes]
    funext c
    unfold clusterBytes
    rw [hlookup, hd]

/-- The outcome of loading cluster `c`. -/
def Found (D : ℕ → Option (List UInt8)) (c : ℕ) (d : Device) : ClEntry → Prop
  | .entry ce => D c = some (d.clCache ce).val
  | .null => D c = none
  | .noData => False

/-- The postcondition of a load. -/
def Loads (z : Codec) (bits : ℕ) (D : ℕ → Option (List UInt8)) (c : ℕ) (r : ClEntry)
    (d : Device) : Prop :=
  Shows z bits D d ∧ Found D c d r

theorem Shows.fillFrom (h : Shows z bits D d) {ce : Fin cacheSize} (hkey : (d.clCache ce).key = c) :
    Meets (fillFrom ce (D c)) d (Loads z bits D c) fun _ _ => False := by
  cases hD : D c with
  | none => exact ⟨h, hD⟩
  | some buf =>
    refine ⟨h.recache rfl h.settled.tables ?_ h.settled.base fun _ _ => rfl, ?_⟩
    · exact h.clusters.fill ce (by dsimp only; rw [hkey, hD])
    · change D c = some (d.clCache.fill ce buf ce).val
      rw [Cache.fill_val, hD]

theorem Shows.clLoadStored (h : Shows z bits D d) {ce : Fin cacheSize} {e : ℕ}
    (hkey : (d.clCache ce).key = c) (hD : D c = loadData z d.backingFile d.clusterSize e) :
    Meets (clLoadStored z ce e) d (Loads z bits D c) fun _ _ => False := by
  apply (h.fillFrom hkey).congr
  unfold Device.clLoadStored
  rw [get_bind_apply, hD]
  cases loadData z d.backingFile d.clusterSize e <;> rfl

theorem Shows.clLoadBase (h : Shows z bits D d) {ce : Fin cacheSize}
    (hkey : (d.clCache ce).key = c)
    (hD : D c = (lookupBase z d.base d.clusterSize c).bytes d.clusterSize) :
    Meets (clLoadBase z ce c) d (Loads z bits D c) fun _ _ => False := by
  obtain ⟨base, hbase, hcoh, hlookup⟩ := clLoadBase_eq (z := z) h.settled.base ce c
    (by simp [h.noHandler])
  have h' : Shows z bits D { d with base := base } :=
    h.recache rfl h.settled.tables h.clusters hcoh hlookup
  rw [← hD] at hbase
  exact (h'.fillFrom hkey).congr hbase

theorem Shows.clLoad (h : Shows z bits D d) (c : ℕ) :
    Meets (clLoad z c) d (Loads z bits D c) fun _ _ => False := by
  unfold Device.clLoad
  rw [meets_bind]
  cases hfind : d.clCache.find c with
  | some i =>
    obtain ⟨hvalid, hkey⟩ := Cache.find_some hfind
    apply meets_of_ok (clFind_hit hfind)
    refine ⟨h.recache rfl h.settled.tables (h.clusters.touch i id) h.settled.base fun _ _ => rfl,
      ?_⟩
    have hval : D (d.clCache i).key = some (d.clCache i).val := h.clusters i hvalid
    rw [hkey] at hval
    simpa [Found, Cache.touch] using hval
  | none =>
    apply meets_of_ok (clFind_miss hfind)
    simp only [meets_bind, meets_get]
    obtain ⟨r, cache, hget, hcache, hslot, hnone⟩ := h.settled.l2Get (c / d.l2Entries % 2 ^ 32)
    apply meets_of_ok (hget d.allocOffset d.freeListHead d.base d.clCache)
    have h₁ : Shows z bits D { d with l2Cache := cache, lruTick := d.lruTick + 1 } :=
      h.recache rfl hcache h.clusters h.settled.base fun _ _ => rfl
    have hD : D c = d.clusterBytes z c := congrFun h.bytes.symm c
    unfold clusterBytes at hD
    cases r with
    | none =>
      rw [hnone rfl] at hD
      exact ⟨h₁, hD⟩
    | some l2e =>
      obtain ⟨⟨-, table, hload, hval⟩, hkey⟩ := hslot l2e rfl
      rw [hkey] at hload
      simp only [hload] at hD
      have hentry : (cache l2e).val (c % d.l2Entries) = table (c % d.l2Entries) :=
        hval _ (Nat.mod_lt _ h.settled.entries)
      simp only [meets_bind, meets_get]
      apply meets_of_ok (clAllocEntry_eq c _)
      change Meets (if (cache l2e).val (c % d.l2Entries) = 0 then _ else
        Device.clLoadStored z _ ((cache l2e).val (c % d.l2Entries))) _ _ _
      rw [hentry]
      have h₂ : Shows z bits D { d with
          l2Cache := cache
          clCache := (d.clCache.invalidate d.clCache.victim).assign d.clCache.victim c
            (d.lruTick + 1)
          lruTick := d.lruTick + 1 + 1 } :=
        h₁.recache rfl hcache (h.clusters.reuse _) h.settled.base fun _ _ => rfl
      have hslot : ((d.clCache.invalidate d.clCache.victim).assign d.clCache.victim c
          (d.lruTick + 1) d.clCache.victim).key = c := Cache.assign_key ..
      apply meets_ite
      · intro h0
        rw [if_pos h0] at hD
        exact h₂.clLoadBase hslot hD
      · intro h0
        rw [if_neg h0] at hD
        exact h₂.clLoadStored hslot hD

/-- The byte at `o` of what the clusters hold. -/
def shownByte (cs : ℕ) (D : ℕ → Option (List UInt8)) (o : ℕ) : Option UInt8 :=
  (D (o / cs)).map fun data => data.getD (o % cs) 0

theorem window_shownByte {cs len : ℕ} (hc : D c = some x) (hx : x.length = cs)
    (hin : off + len ≤ cs) :
    (x.drop off).take len =
      window (fun o => (shownByte cs D o).getD 0) (c * cs + off) len := by
  have hD : (fun o => (shownByte cs D o).getD 0) = flat cs fun c => (D c).getD [] := by
    funext o
    unfold shownByte flat
    cases hD : D (o / cs) <;> simp [hD]
  have hc' : (D c).getD [] = x := by rw [hc]; rfl
  rw [hD, window_flat (by rw [hc', hx]) hin, hc']

theorem isSome_shownByte {cs len i : ℕ} (hc : D c = some x) (hin : off + len ≤ cs) (hi : i < len) :
    (shownByte cs D (c * cs + off + i)).isSome := by
  unfold shownByte
  rw [add_assoc, div_cluster (by omega), hc]
  rfl

/-- A read has failed because one of its bytes cannot be read. -/
def Unreadable (z : Codec) (bits : ℕ) (D : ℕ → Option (List UInt8)) (off n : ℕ) (e : Errno)
    (d : Device) : Prop :=
  Shows z bits D d ∧ e = .eio ∧ ∃ i < n, shownByte (2 ^ bits) D (off + i) = none

theorem Shows.length (h : Shows z bits D d) (hc : D c = some x) : x.length = 2 ^ bits := by
  rw [← h.bytes] at hc
  rw [length_of_clusterBytes hc, h.settled.clusterSize, h.clusterBits]

theorem Shows.readChunk (h : Shows z bits D d) {ch : Chunk} (hch : ch.Fits (2 ^ bits) off n)
    (retries : ℕ) :
    Meets (readChunk z ch retries) d
      (fun bs d' => bs = window (fun o => (shownByte (2 ^ bits) D o).getD 0) (off + ch.pos) ch.len ∧
        Shows z bits D d' ∧ ∀ i < ch.len, (shownByte (2 ^ bits) D (off + ch.pos + i)).isSome)
      (Unreadable z bits D off n) := by
  have hpos := hch.pos
  have hin := hch.inside
  have hbelow := hch.below
  have hload : ∀ miss, Meets (loadChunk z ch miss) d
      (fun bs d' => bs = window (fun o => (shownByte (2 ^ bits) D o).getD 0) (off + ch.pos) ch.len ∧
        Shows z bits D d' ∧ ∀ i < ch.len, (shownByte (2 ^ bits) D (off + ch.pos + i)).isSome)
      (Unreadable z bits D off n) := by
    intro miss
    unfold loadChunk
    rw [meets_bind]
    apply (h.clLoad ch.cluster).imp
    · rintro r d' ⟨h', hr⟩
      rw [← hch.addr]
      cases r with
      | entry ce =>
        refine ⟨window_shownByte hr (h'.length hr) hin, h', fun i hi => ?_⟩
        exact isSome_shownByte hr hin hi
      | null =>
        refine ⟨h', rfl, ch.pos, by omega, ?_⟩
        rw [← hch.addr, shownByte, div_cluster (by omega), show D ch.cluster = none from hr]
        rfl
      | noData => exact hr.elim
    · exact fun _ _ hE => hE.elim
  cases retries with
  | zero => exact hload _
  | succ retries => exact hload _

/-- The postcondition of a read. -/
def ReadBytes (z : Codec) (bits : ℕ) (D : ℕ → Option (List UInt8)) (off n : ℕ) (bs : List UInt8)
    (d : Device) : Prop :=
  bs = window (fun o => (shownByte (2 ^ bits) D o).getD 0) off n ∧ Shows z bits D d ∧
    ∀ i < n, (shownByte (2 ^ bits) D (off + i)).isSome

theorem Shows.readSegment (h : Shows z bits D d) (hn : off + n ≤ W64) :
    Meets (readSegment z off n) d (ReadBytes z bits D off n) (Unreadable z bits D off n) := by
  simp only [Device.readSegment, meets_bind, meets_get]
  rw [h.settled.clusterSize, h.clusterBits]
  refine meets_collect_pos
    (fun pos d => Shows z bits D d ∧ ∀ i < pos, (shownByte (2 ^ bits) D (off + i)).isSome) _
    (fun ch d' hch hI => ?_) (tiles_chunks bits hn) (Nat.zero_le n) ⟨h, by omega⟩
  apply (hI.1.readChunk hch 3).post
  rintro bs d'' ⟨hbs, h'', hsome⟩
  refine ⟨hbs, h'', fun i hi => ?_⟩
  by_cases hlt : i < ch.pos
  · exact hI.2 i hlt
  · have := hsome (i - ch.pos) (by omega)
    rwa [add_assoc, Nat.add_sub_cancel' (by omega)] at this

theorem Shows.read (h : Shows z bits D d) {segments : List ℕ} (hn : off + segments.sum ≤ W64) :
    Meets (read z off segments) d (ReadBytes z bits D off segments.sum)
      (Unreadable z bits D off segments.sum) := by
  induction segments generalizing off d with
  | nil => exact ⟨rfl, h, nofun⟩
  | cons n segments ih =>
    rw [List.sum_cons] at hn ⊢
    unfold Device.read
    rw [meets_bind]
    apply (h.readSegment (by omega)).imp
    · rintro bs d₁ ⟨rfl, h₁, hsome⟩
      rw [meets_bind]
      apply (ih h₁ (by omega)).imp
      · rintro rest d₂ ⟨rfl, h₂, hsome'⟩
        refine ⟨(window_add ..).symm, h₂, fun i hi => ?_⟩
        by_cases hlt : i < n
        · exact hsome i hlt
        · have := hsome' (i - n) (by omega)
          rwa [add_assoc, Nat.add_sub_cancel' (by omega)] at this
      · rintro e d₂ ⟨h₂, he, i, hi, hnone⟩
        exact ⟨h₂, he, n + i, by omega, by rwa [← add_assoc]⟩
    · rintro e d₁ ⟨h₁, he, i, hi, hnone⟩
      exact ⟨h₁, he, i, by omega, hnone⟩

theorem Shows.read_eq (h : Shows z bits D d) {segments : List ℕ} (hn : off + segments.sum ≤ W64) :
    (Device.read z off segments d).1 = readOf (shownByte (2 ^ bits) D) off segments.sum ∧
      Shows z bits D (Device.read z off segments d).2 := by
  have hread := h.read hn
  unfold Meets at hread
  unfold readOf
  generalize Device.read z off segments d = r at hread ⊢
  obtain ⟨e | bs, d'⟩ := r
  · obtain ⟨h', rfl, i, hi, hnone⟩ := hread
    refine ⟨(if_neg fun hall => ?_).symm, h'⟩
    have := hall i hi
    rw [hnone] at this
    cases this
  · obtain ⟨rfl, h', hsome⟩ := hread
    exact ⟨(if_pos hsome).symm, h'⟩

theorem Shows.readAll (h : Shows z bits D d) {reads : List (ℕ × List ℕ)}
    (hn : ∀ r ∈ reads, r.1 + r.2.sum ≤ W64) :
    readAll z reads d = reads.map fun r => readOf (shownByte (2 ^ bits) D) r.1 r.2.sum := by
  induction reads generalizing d with
  | nil => rfl
  | cons r reads ih =>
    obtain ⟨hres, h'⟩ := h.read_eq (hn r List.mem_cons_self)
    rw [List.map_cons, ← hres, ← ih h' fun r' hr' => hn r' (List.mem_cons_of_mem _ hr')]
    rfl

theorem readOf_congr {S T : ℕ → Option UInt8} (h : ∀ i < n, S (off + i) = T (off + i)) :
    readOf S off n = readOf T off n := by
  have hsome : (∀ i < n, (S (off + i)).isSome) ↔ ∀ i < n, (T (off + i)).isSome :=
    forall₂_congr fun i hi => by rw [h i hi]
  have hwindow : window (fun o => (S o).getD 0) off n = window (fun o => (T o).getD 0) off n := by
    unfold window
    apply List.map_congr_left
    intro i hi
    dsimp only
    rw [h i (List.mem_range.mp hi)]
  unfold readOf
  rw [hwindow]
  exact if_congr hsome rfl rfl

theorem readOf_one (S : ℕ → Option UInt8) (o : ℕ) :
    readOf S o 1 = (S o).elim (.error .eio) fun x => .ok [x] := by
  unfold readOf
  cases hS : S o with
  | none =>
    rw [if_neg fun hall => ?_]
    · rfl
    · have := hall 0 Nat.one_pos
      rw [add_zero, hS] at this
      cases this
  | some x =>
    rw [if_pos]
    · simp [window, hS]
    · intro i hi
      obtain rfl : i = 0 := by omega
      simp [hS]

theorem forall_readOf_iff (S T : ℕ → Option UInt8) (size : ℕ) :
    (∀ reads : List (ℕ × List ℕ), (∀ r ∈ reads, r.1 + r.2.sum ≤ size) →
      (reads.map fun r => readOf S r.1 r.2.sum) = reads.map fun r => readOf T r.1 r.2.sum) ↔
    ∀ o < size, S o = T o := by
  constructor
  · intro hreads o ho
    have hone : readOf S o 1 = readOf T o 1 := by
      refine List.head_eq_of_cons_eq (hreads [(o, [1])] fun r hr => ?_)
      rw [List.mem_singleton.mp hr, List.sum_singleton]
      exact ho
    rw [readOf_one, readOf_one] at hone
    generalize S o = x at hone ⊢
    generalize T o = y at hone ⊢
    cases x <;> cases y <;> cases hone <;> rfl
  · intro hbytes reads hrange
    apply List.map_congr_left
    intro r hr
    apply readOf_congr
    intro i hi
    have := hrange r hr
    exact hbytes _ (by omega)

theorem snapshotReads_iff_bytes (h : Shows z bits (d.clusterBytes z) d) :
    SnapshotReads z d ↔ ∀ o < d.virtualSize,
      shownByte d.clusterSize (d.clusterBytes z) o = d.snapshotByte z o := by
  have hsize := h.settled.virtualSize
  rw [h.settled.clusterSize, h.clusterBits, ← forall_readOf_iff]
  refine forall₂_congr fun reads hrange => ?_
  rw [h.readAll fun r hr => (hrange r hr).trans hsize.le]

/-- A base that `lbd_qcow2_base_init` accepts for the device. -/
structure Accepted (d : Device) (b : Base) : Prop where
  raw : b.isQcow2 = false → b.size = d.virtualSize ∧ b.file.size = d.virtualSize
  qcow2 : b.isQcow2 = true → b.clusterSize = d.clusterSize ∧ b.l2Entries = d.l2Entries

/-- What must hold where the lookups do not follow the files. -/
structure ReadsThrough (z : Codec) (d : Device) : Prop where
  /-- The last cluster of a raw base is not looked at if it ends behind the file. -/
  tail : ∀ b, d.base = some b → b.isQcow2 = false → ∀ o < d.virtualSize,
    o / d.clusterSize / d.l2Entries < 2 ^ 32 →
    d.virtualSize < (o / d.clusterSize + 1) * d.clusterSize → d.AsksBase (o / d.clusterSize) →
    b.file.byte o = 0
  /-- A read behind the first `2 ^ 32` tables goes to another table. -/
  high : ∀ o < d.virtualSize, 2 ^ 32 ≤ o / d.clusterSize / d.l2Entries →
    shownByte d.clusterSize (d.clusterBytes z) o = d.snapshotByte z o

theorem readRaw_byte (hcs : 0 < n) (hsize : b.file.size = b.size) :
    ((b.readRaw n (o / n)).bytes n).map (fun data => data.getD (o % n) 0) =
      if b.size < (o / n + 1) * n then some 0 else some (b.file.byte o) := by
  have hmod := Nat.mod_lt o hcs
  have hdiv := Nat.div_add_mod' o n
  unfold Base.readRaw
  rw [← Nat.succ_mul]
  split_ifs with hend
  · simp [BaseRead.bytes]
  · rw [Nat.succ_mul] at hend
    rw [File.readAt, if_pos (by omega)]
    simp [BaseRead.bytes, window, hmod, hdiv]

theorem lookup_qcow2_byte (hb : b.isQcow2 = true)
    (hlow : o / b.clusterSize / b.l2Entries < 2 ^ 32) :
    ((b.lookup z b.clusterSize (o / b.clusterSize)).bytes b.clusterSize).map
      (fun data => data.getD (o % b.clusterSize) 0) = b.byteAt z o := by
  unfold Base.lookup Base.byteAt
  rw [Nat.mod_eq_of_lt hlow, hb]
  simp only [Bool.true_eq_false, if_false]
  cases loadTable b.file b.l1Table b.l1Size b.clusterSize (o / b.clusterSize / b.l2Entries) with
  | none => rfl
  | some table =>
    dsimp only [Base.readEntry]
    split_ifs with h0
    · simp [BaseRead.bytes]
    · cases loadData z b.file b.clusterSize (table (o / b.clusterSize % b.l2Entries)) <;> rfl

theorem shownByte_low (hb : d.base = some b) (hacc : Accepted d b) (hcs : 0 < d.clusterSize)
    (hlow : o / d.clusterSize / d.l2Entries < 2 ^ 32) :
    shownByte d.clusterSize (d.clusterBytes z) o = d.snapshotByte z o ↔
      (b.isQcow2 = false → d.virtualSize < (o / d.clusterSize + 1) * d.clusterSize →
        d.AsksBase (o / d.clusterSize) → b.file.byte o = 0) := by
  unfold shownByte clusterBytes snapshotByte baseByte AsksBase
  rw [Nat.mod_eq_of_lt hlow]
  cases loadTable d.backingFile d.l1Table d.l1Size d.clusterSize
    (o / d.clusterSize / d.l2Entries) with
  | none => simp
  | some table =>
    simp only [Option.some.injEq, exists_eq_left', hb, lookupBase]
    by_cases h0 : table (o / d.clusterSize % d.l2Entries) = 0
    · simp only [h0, if_true, forall_const]
      cases hq : b.isQcow2 with
      | true =>
        obtain ⟨hcs', hl2⟩ := hacc.qcow2 hq
        rw [← hcs', lookup_qcow2_byte hq (by rwa [hcs', hl2])]
        simp
      | false =>
        obtain ⟨hsize, hfile⟩ := hacc.raw hq
        unfold Base.lookup Base.byteAt
        rw [if_pos hq, if_pos hq, readRaw_byte hcs (hfile.trans hsize.symm), hsize]
        split_ifs with hend
        · simp [hend, eq_comm]
        · simp [hend]
    · simp only [h0, if_false]
      simp

theorem snapshotReads_iff_readsThrough (hb : d.base = some b) (hacc : Accepted d b)
    (h : Shows z bits (d.clusterBytes z) d) : SnapshotReads z d ↔ ReadsThrough z d := by
  have hcs : 0 < d.clusterSize := by
    rw [h.settled.clusterSize]
    exact Nat.two_pow_pos _
  rw [snapshotReads_iff_bytes h]
  constructor
  · intro hbytes
    refine ⟨fun b' hb' hq o ho hlow hend hask => ?_, fun o ho _ => hbytes o ho⟩
    obtain rfl : b = b' := Option.some.inj (hb.symm.trans hb')
    exact (shownByte_low hb hacc hcs hlow).mp (hbytes o ho) hq hend hask
  · intro hthrough o ho
    by_cases hlow : o / d.clusterSize / d.l2Entries < 2 ^ 32
    · exact (shownByte_low hb hacc hcs hlow).mpr fun hq hend hask =>
        hthrough.tail b hb hq o ho hlow hend hask
    · exact hthrough.high o ho (Nat.not_lt.mp hlow)

/-- What `lbd_add_device` does with a qcow2 file and the path of a base. -/
def attach (f : Except Errno File) : KernelM Unit := do
  init
  let d ← Act.get
  match baseInit f d with
  | .error e => Act.throw e
  | .ok b => Act.modify fun d => { d with base := some b }

/-- A device that `lbd_qcow2_init` has set up. -/
structure Fresh (d : Device) : Prop where
  clusterSize : d.clusterSize = 2 ^ d.clusterBits
  lower : 12 ≤ d.clusterBits
  l2Entries : d.l2Entries = (2 ^ d.clusterBits - l2TrailerSize) / 8
  virtualSize : d.virtualSize < W64
  tables : ∀ i, (d.l2Cache i).valid = false
  clusters : ∀ i, (d.clCache i).valid = false

theorem init_fresh (d : Device) :
    Meets init d (fun _ d' => Fresh d' ∧ d'.missHandler = d.missHandler) fun _ _ => True := by
  simp only [init, meets_bind, meets_get]
  cases d.backingFile.readAt 0 headerSize with
  | none => trivial
  | some hdr =>
    apply meets_ite
    · exact fun _ => trivial
    · intro _
      apply meets_ite
      · exact fun _ => trivial
      · intro _
        simp only [meets_bind, meets_modify]
        apply meets_ite
        · exact fun _ => trivial
        · intro hbits
          simp only [meets_bind, meets_modify]
          cases d.backingFile.kernelRead (get64 hdr 24) (get32 hdr 32 * 8) with
          | none => trivial
          | some diskL1 =>
            refine ⟨⟨rfl, ?_, rfl, getBE_lt 8 hdr 16, fun _ => rfl, fun _ => rfl⟩, rfl⟩
            change 12 ≤ get32 hdr 12
            omega

theorem Fresh.accepted (h : Fresh d) (hb : baseInit (.ok f) d = .ok b) : Accepted d b := by
  change (if f.size = 0 then _ else _) = _ at hb
  unfold baseInitQcow2 at hb
  repeat' split at hb
  all_goals cases hb
  · next hbits _ _ _ _ =>
    refine ⟨nofun, fun _ => ?_⟩
    rw [h.clusterSize, h.l2Entries, ← not_not.mp hbits]
    exact ⟨rfl, rfl⟩
  · next hsize => exact ⟨fun _ => ⟨not_not.mp hsize, not_not.mp hsize⟩, nofun⟩

theorem Fresh.shows (h : Fresh d) (hmiss : d.missHandler = none) {base : Option Base}
    (hb : ∀ b, base = some b → b.Coherent) :
    Shows z d.clusterBits ({ d with base := base }.clusterBytes z) { d with base := base } where
  settled := {
    clusterSize := h.clusterSize
    entries := by
      have := Nat.pow_le_pow_right (n := 2) (by norm_num) h.lower
      show 0 < d.l2Entries
      rw [h.l2Entries, l2TrailerSize]
      omega
    virtualSize := h.virtualSize
    tables := fun i hi => by
      rw [h.tables i] at hi
      cases hi
    base := hb }
  clusterBits := rfl
  noHandler := hmiss
  bytes := rfl
  clusters := fun i hi => by
    rw [h.clusters i] at hi
    cases hi

/-- After `lbd_add_device` every read returns what the primary and the base hold exactly if the
last cluster of a raw base, where it is partial and the primary does not have it, is zero, and
if the tables behind the first `2 ^ 32` look like those their index is cut to. -/
theorem snapshot_reads_iff {d₀ : Device} (hattach : attach (.ok f) d₀ = (.ok (), d))
    (hmiss : d₀.missHandler = none) : SnapshotReads z d ↔ ReadsThrough z d := by
  have hspec : Meets (attach (.ok f)) d₀ (fun _ d => ∃ b bits, d.base = some b ∧ Accepted d b ∧
      Shows z bits (d.clusterBytes z) d) fun _ _ => True := by
    simp only [attach, meets_bind, meets_get]
    apply (init_fresh d₀).imp
    · rintro _ d₁ ⟨h₁, hmiss₁⟩
      cases hb : baseInit (.ok f) d₁ with
      | error e => trivial
      | ok b =>
        have hacc := h₁.accepted hb
        refine ⟨b, _, rfl, ⟨hacc.raw, hacc.qcow2⟩, h₁.shows (hmiss₁.trans hmiss) fun b' hb' => ?_⟩
        exact Option.some.inj hb' ▸ baseInit_coherent hb
    · exact fun _ _ _ => trivial
  obtain ⟨b, bits, hb, hacc, h⟩ := hspec.of_eq_ok hattach
  exact snapshotReads_iff_readsThrough hb hacc h

section Sample

/-- A device whose backing file has just been opened. -/
def detached (f : File) : Device where
  backingFile := f
  clusterBits := 0
  clusterSize := 0
  l2Entries := 0
  virtualSize := 0
  l1Table _ := 0
  l1Size := 0
  l1Offset := 0
  allocOffset := 0
  freeListHead := 0
  l2Cache _ := ⟨0, false, false, 0, fun _ => 0⟩
  clCache _ := ⟨0, false, false, 0, []⟩
  lruTick := 0
  base := none
  missHandler := none

/-- An image without data of 4096 bytes, over a raw base of ones. -/
def pageOverOnes (clusterBits : ℕ) : Except Errno Unit × Device :=
  attach (.ok (constFile 4096 1))
    (detached (newFile (File.empty (2 ^ 20) fun _ => none) 4096 clusterBits 1 8192))

/-- With clusters of 4096 bytes the base is read. -/
theorem whole_cluster_shows_base :
    (pageOverOnes 12).1 = .ok () ∧ SnapshotReads Codec.none (pageOverOnes 12).2 := by
  have hok : (pageOverOnes 12).1 = .ok () := by decide +kernel
  have hcs : (pageOverOnes 12).2.clusterSize = 4096 := by decide +kernel
  have hsize : (pageOverOnes 12).2.virtualSize = 4096 := by decide +kernel
  have hattach : pageOverOnes 12 = (.ok (), (pageOverOnes 12).2) := by rw [← hok]
  refine ⟨hok, (snapshot_reads_iff hattach rfl).mpr ⟨?_, ?_⟩⟩
  · intro b _ _ o ho _ hend
    rw [hsize] at ho hend
    rw [hcs] at hend
    omega
  · intro o ho hhigh
    rw [hsize] at ho
    rw [hcs] at hhigh
    have := Nat.div_le_self (o / 4096) (pageOverOnes 12).2.l2Entries
    omega

/-- With clusters of 8192 bytes the only cluster ends behind the base and reads as zero. -/
theorem partial_cluster_hides_base :
    (pageOverOnes 13).1 = .ok () ∧
      (read Codec.none 0 [1] (pageOverOnes 13).2).1 = .ok [0] ∧
      snapshotByte Codec.none (pageOverOnes 13).2 0 = some 1 := by
  decide +kernel

end Sample

end Device

end Lbd.QCow2
