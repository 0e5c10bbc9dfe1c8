import Lbd.QCow2.Ctl

/-!
# The buffers of `lbdctl extract` and `compact`

Whether the two commands end by themselves on a file: both walk through the L2 tables and then
through the clusters, and stop at the first thing that is wrong. It may be an error or not.
-/

namespace Lbd.QCow2.Ctl

open Act

variable {z : Codec} {f : File} {img : Image} {w : Work} {l2 : ℕ → ℕ → ℕ} {c i n : ℕ}

/-- The command printed a reason. -/
def Stop.IsError (e : Stop) : Prop := ∃ q, e = .error q

/-- The command returns an error or finishes. -/
def Returns (m : CtlM Unit) (w : Work) : Prop := Meets m w (fun _ _ => True) fun e _ => e.IsError

/-- Neither command divides by zero or leaves a buffer, whatever the output file is like. -/
def StaysInBounds (z : Codec) (f : File) : Prop :=
  ∀ out, Returns (cmdExtract z) (start f out) ∧ Returns (cmdCompact z) (start f out)

/-- The L2 entry of a cluster in the file. -/
def entryAt (img : Image) (c : ℕ) : ℕ :=
  let l1Idx := c / img.l2Entries % 2 ^ 32
  if img.l1Size ≤ l1Idx ∨ img.l1Table l1Idx = 0 then 0
  else get64 (img.f.slice (img.l1Table l1Idx) img.clusterSize) (8 * (c % img.l2Entries))

/-- A table can be read and has the right checksum. -/
def TableReads (img : Image) (i : ℕ) : Prop :=
  ∃ raw, pread img.f (img.l1Table i) img.clusterSize = some raw ∧
    storedCrc img.clusterSize raw = calcCrc img.clusterSize raw

/-- A cluster has no data, or data that can be read. -/
def ClusterReads (z : Codec) (img : Image) (c : ℕ) : Prop :=
  entryAt img c = 0 ∨ ∃ data, readEntry z img c (entryAt img c) = .ok data

/-- The size of a compressed cluster is at most that of the buffer. -/
def SizeFits (img : Image) (c : ℕ) : Prop :=
  isCompressed (entryAt img c) → ∀ buf, pread img.f (physOffset (entryAt img c)) 4 = some buf →
    get32 buf 0 ≤ compCap img.clusterSize

/-- One of the commands can set the size of its output. -/
def Starts (img : Image) : Prop :=
  img.virtualSize < 2 ^ 63 ∨ alignUp img.clusterSize (img.l1Offset + img.l1Size * 8) < 2 ^ 63

/-- What the tables and the clusters of an image must be like, up to the first error. -/
structure Guarded (z : Codec) (img : Image) : Prop where
  /-- With clusters of less than eight bytes, the first table must not be read. -/
  tables : img.clusterBits ≤ 2 → ∀ i < img.l1Size, img.l1Table i ≠ 0 →
    (∀ k < i, img.l1Table k = 0) → ∀ raw,
      pread img.f (img.l1Table i) img.clusterSize = some raw →
        img.clusterBits = 2 ∧ get32 raw 0 ≠ 0
  clusters : Starts img → (∀ i < img.l1Size, img.l1Table i ≠ 0 → TableReads img i) →
    (img.clusterBits = 3 → img.totalClusters = 0) ∧
      ∀ c < img.totalClusters, (∀ k < c, ClusterReads z img k) → SizeFits img c

/-- What a file must be like. -/
def InBounds (z : Codec) (f : File) : Prop :=
  (∀ hdr, pread f 0 headerSize = some hdr → get64 hdr 0 = magic → get32 hdr 12 < 32) ∧
    ∀ img, openImage f = .ok img → Guarded z img

theorem isError_error (q : CtlError) : Stop.IsError (.error q) := ⟨q, rfl⟩

theorem not_isError {e : Stop} (h : ∀ q, e ≠ .error q) : ¬ e.IsError := fun ⟨q, hq⟩ => h q hq

theorem preadOr_cases (f : File) (what : Piece) (off n : ℕ) :
    (pread f off n = none ∧ preadOr f what off n = .error (.error (.read what))) ∨
      ∃ buf, pread f off n = some buf ∧ preadOr f what off n = .ok buf := by
  unfold preadOr
  cases pread f off n with
  | none => exact .inl ⟨rfl, rfl⟩
  | some buf => exact .inr ⟨buf, rfl, rfl⟩

theorem length_pread {off : ℕ} {buf : List UInt8} (h : pread f off n = some buf) :
    buf.length = n := by
  unfold pread at h
  split_ifs at h
  exact File.length_readFull h

theorem pread_slice {off : ℕ} {buf : List UInt8} (h : pread f off n = some buf) :
    buf = f.slice off n := by
  unfold pread File.readFull File.readAt at h
  split_ifs at h with h1 h2 h3 h4
  · subst h3
    exact (Option.some.inj h).symm
  · exact (Option.some.inj h).symm

theorem pread_of_reads {off : ℕ} {buf : List UInt8} (h : f.Reads off buf) (hoff : off < 2 ^ 63)
    (hn : buf.length = n) (hmax : n ≤ maxRw) : pread f off n = some buf := by
  unfold pread File.readFull
  rw [if_neg (not_lt.mpr hmax), if_neg (not_le.mpr hoff)]
  split_ifs with h0
  · rw [h0, List.length_eq_zero_iff] at hn
    rw [hn]
  · exact h.readAt hn

theorem preadOr_eq_ok {what : Piece} {off : ℕ} {buf : List UInt8} :
    preadOr f what off n = .ok buf ↔ pread f off n = some buf := by
  unfold preadOr
  cases pread f off n <;> simp

/-- The entries of a table of the file. -/
def diskTable (img : Image) (i : ℕ) : ℕ → ℕ := fun j =>
  get64 (img.f.slice (img.l1Table i) img.clusterSize) (8 * j)

theorem eight_mul_l2Entries (hb : 3 ≤ img.clusterBits) (hb' : img.clusterBits < 32) :
    8 * img.l2Entries + 8 = img.clusterSize := eight_mul_entries hb hb'

theorem loadL2_cases (hb : 3 ≤ img.clusterBits) (hb' : img.clusterBits < 32) (i : ℕ) :
    (TableReads img i ∧ loadL2 img i = .ok (diskTable img i)) ∨
      (¬ TableReads img i ∧ ∃ e, loadL2 img i = .error e ∧ e.IsError) := by
  have hcs := eight_mul_l2Entries hb hb'
  unfold loadL2
  rcases preadOr_cases img.f (.l2Table i) (img.l1Table i) img.clusterSize with
    ⟨hread, heq⟩ | ⟨raw, hread, heq⟩
  · rw [heq]
    refine .inr ⟨?_, _, rfl, isError_error _⟩
    rintro ⟨raw, hraw, -⟩
    rw [hread] at hraw
    cases hraw
  · rw [heq]
    change (_ ∧ verifyL2 img i raw = _) ∨ (_ ∧ ∃ e, verifyL2 img i raw = .error e ∧ _)
    unfold verifyL2
    rw [if_neg (by omega), if_neg (show ¬ img.clusterSize < 8 * img.l2Entries by omega)]
    by_cases hcrc : storedCrc img.clusterSize raw = calcCrc img.clusterSize raw
    · rw [if_neg (not_not.mpr hcrc), pread_slice hread]
      exact .inl ⟨⟨raw, hread, hcrc⟩, rfl⟩
    · rw [if_pos hcrc]
      refine .inr ⟨?_, _, rfl, isError_error _⟩
      rintro ⟨raw', hraw, hcrc'⟩
      rw [hread] at hraw
      cases hraw
      exact hcrc hcrc'

theorem loadL2_small (hb : img.clusterBits ≤ 2) (i : ℕ) :
    ∃ e, loadL2 img i = .error e ∧
      (e.IsError ↔ ∀ raw, pread img.f (img.l1Table i) img.clusterSize = some raw →
        img.clusterBits = 2 ∧ get32 raw 0 ≠ 0) := by
  have hentries : img.l2Entries = 2 ^ 29 - 1 := entries_of_small hb
  have hcs : img.clusterSize = 2 ^ img.clusterBits := rfl
  have hle : img.clusterSize ≤ 2 ^ 2 := Nat.pow_le_pow_right (by norm_num) hb
  unfold loadL2
  rcases preadOr_cases img.f (.l2Table i) (img.l1Table i) img.clusterSize with
    ⟨hread, heq⟩ | ⟨raw, hread, heq⟩
  · rw [heq]
    refine ⟨_, rfl, iff_of_true (isError_error _) fun raw hraw => ?_⟩
    rw [hread] at hraw
    cases hraw
  · rw [heq]
    change ∃ e, verifyL2 img i raw = .error e ∧ _
    unfold verifyL2
    by_cases h2 : img.clusterBits = 2
    · have hcs : img.clusterSize = 4 := by
        rw [hcs, h2]
        rfl
      have hcalc : calcCrc 4 raw = 0 := by
        rw [calcCrc, Nat.sub_self, List.take_zero]
        rfl
      rw [if_neg (by omega), if_pos (show img.clusterSize < 8 * img.l2Entries by omega), hcs, hcalc]
      by_cases hcrc : storedCrc 4 raw = 0
      · rw [if_neg (not_not.mpr hcrc)]
        refine ⟨_, rfl, iff_of_false (not_isError nofun) fun hall => ?_⟩
        rw [hcs] at hread
        exact (hall raw hread).2 hcrc
      · rw [if_pos hcrc]
        refine ⟨_, rfl, iff_of_true (isError_error _) fun raw' hraw => ⟨h2, ?_⟩⟩
        rw [hcs] at hread
        rw [hread] at hraw
        cases hraw
        exact hcrc
    · have hlt : img.clusterSize < 4 := by
        rw [hcs]
        exact Nat.pow_lt_pow_right (by norm_num) (show img.clusterBits < 2 by omega)
      rw [if_pos hlt]
      exact ⟨_, rfl, iff_of_false (not_isError nofun) fun hall => h2 (hall raw hread).1⟩

theorem loadTables_cases (img : Image) (n : ℕ) :
    (∃ tables, loadTables img n = .ok tables ∧
      ∀ i < n, img.l1Table i ≠ 0 → loadL2 img i = .ok (tables i)) ∨
    ∃ i < n, ∃ e, img.l1Table i ≠ 0 ∧
      (∀ k < i, img.l1Table k ≠ 0 → ∃ table, loadL2 img k = .ok table) ∧
      loadL2 img i = .error e ∧ loadTables img n = .error e := by
  induction n with
  | zero => exact .inl ⟨_, rfl, nofun⟩
  | succ n ih =>
    rcases ih with ⟨tables, heq, hall⟩ | ⟨i, hi, e, h0, hbefore, herr, heq⟩
    · by_cases h0 : img.l1Table n = 0
      · refine .inl ⟨tables, ?_, fun i hi hi0 => hall i ?_ hi0⟩
        · rw [loadTables, heq]
          exact if_pos h0
        · have : i ≠ n := fun hin => hi0 (hin ▸ h0)
          omega
      · cases hl2 : loadL2 img n with
        | ok table =>
          refine .inl ⟨Function.update tables n table, ?_, fun i hi hi0 => ?_⟩
          · rw [loadTables, heq]
            change (if _ then _ else _) = _
            rw [if_neg h0, hl2]
            rfl
          · by_cases hin : i = n
            · rw [hin, Function.update_self, hl2]
            · rw [Function.update_of_ne hin]
              exact hall i (by omega) hi0
        | error e =>
          refine .inr ⟨n, Nat.lt_succ_self n, e, h0, fun k hk hk0 => ⟨_, hall k hk hk0⟩, hl2, ?_⟩
          rw [loadTables, heq]
          change (if _ then _ else _) = _
          rw [if_neg h0, hl2]
          rfl
    · refine .inr ⟨i, Nat.lt_succ_of_lt hi, e, h0, hbefore, herr, ?_⟩
      rw [loadTables, heq]
      rfl

/-- The tables in memory are those of the file. -/
def Loaded (img : Image) (l2 : ℕ → ℕ → ℕ) : Prop :=
  ∀ i < img.l1Size, img.l1Table i ≠ 0 → l2 i = diskTable img i

theorem readCluster_eq (hn : img.l2Entries ≠ 0) (hl : Loaded img l2) (c : ℕ) :
    readCluster z img l2 c =
      if entryAt img c = 0 then .ok none
      else (readEntry z img c (entryAt img c)).map some := by
  unfold readCluster entryAt
  rw [if_neg hn]
  dsimp only
  by_cases hmiss : img.l1Size ≤ c / img.l2Entries % 2 ^ 32 ∨
      img.l1Table (c / img.l2Entries % 2 ^ 32) = 0
  · rw [if_pos (hmiss.imp_right .inl), if_pos hmiss]
    rfl
  · rw [if_neg hmiss]
    rw [not_or, not_le] at hmiss
    have htable := congrFun (hl _ hmiss.1 hmiss.2) (c % img.l2Entries)
    rw [diskTable] at htable
    rw [← htable]
    by_cases h0 : l2 (c / img.l2Entries % 2 ^ 32) (c % img.l2Entries) = 0
    · rw [if_pos (.inr (.inr h0)), if_pos h0]
    · rw [if_neg, if_neg h0]
      · cases readEntry z img c (l2 (c / img.l2Entries % 2 ^ 32) (c % img.l2Entries)) <;> rfl
      · rintro (hle | h | h)
        · omega
        · exact hmiss.2 h
        · exact h0 h

theorem length_decompressCluster {comp data : List UInt8}
    (h : decompressCluster z img c comp = .ok data) : data.length = img.clusterSize := by
  unfold decompressCluster at h
  split at h
  · cases h
  · split_ifs at h with hlen
    cases h
    exact not_not.mp hlen

theorem isError_of_decompressCluster {comp : List UInt8} {e : Stop}
    (h : decompressCluster z img c comp = .error e) : e.IsError := by
  unfold decompressCluster at h
  split at h
  · cases h
    exact isError_error _
  · split_ifs at h
    cases h
    exact isError_error _

theorem readEntry_cases (z : Codec) (img : Image) (c e : ℕ) :
    (∃ data, readEntry z img c e = .ok data ∧ data.length = img.clusterSize) ∨
    (∃ s, readEntry z img c e = .error s ∧ s.IsError) ∨
    (isCompressed e ∧ ∃ buf, pread img.f (physOffset e) 4 = some buf ∧
      compCap img.clusterSize < get32 buf 0) := by
  unfold readEntry
  by_cases hc : isCompressed e
  · rw [if_pos hc]
    rcases preadOr_cases img.f (.compressedSize c) (physOffset e) 4 with ⟨-, heq⟩ | ⟨buf, hbuf, heq⟩
    · rw [heq]
      exact .inr (.inl ⟨_, rfl, isError_error _⟩)
    · by_cases hcap : compCap img.clusterSize < get32 buf 0
      · exact .inr (.inr ⟨hc, buf, hbuf, hcap⟩)
      · rw [heq]
        dsimp only [bind, Except.bind]
        rw [if_neg hcap]
        rcases preadOr_cases img.f (.compressedData c) (physOffset e + 4) (get32 buf 0) with
          ⟨-, heq'⟩ | ⟨comp, -, heq'⟩
        · rw [heq']
          exact .inr (.inl ⟨_, rfl, isError_error _⟩)
        · rw [heq']
          dsimp only
          cases hdec : decompressCluster z img c comp with
          | error s => exact .inr (.inl ⟨s, rfl, isError_of_decompressCluster hdec⟩)
          | ok data => exact .inl ⟨data, rfl, length_decompressCluster hdec⟩
  · rw [if_neg hc]
    rcases preadOr_cases img.f (.cluster c) (physOffset e) img.clusterSize with
      ⟨-, heq⟩ | ⟨buf, hbuf, heq⟩
    · exact .inr (.inl ⟨_, heq, isError_error _⟩)
    · exact .inl ⟨buf, heq, length_pread hbuf⟩

theorem readEntry_overrun {e : ℕ} {buf : List UInt8} (hc : isCompressed e)
    (hbuf : pread img.f (physOffset e) 4 = some buf)
    (hcap : compCap img.clusterSize < get32 buf 0) :
    readEntry z img c e = .error (.overrun .compBuf) := by
  unfold readEntry
  rw [if_pos hc, preadOr_eq_ok.mpr hbuf]
  exact if_pos hcap

theorem isCompressed_ne_zero {e : ℕ} (h : isCompressed e) : e ≠ 0 := by
  intro h0
  rw [h0] at h
  exact h (Nat.zero_and _)

theorem readCluster_cases (hn : img.l2Entries ≠ 0) (hl : Loaded img l2) (hfit : SizeFits img c) :
    (ClusterReads z img c ∧ ∃ o, readCluster z img l2 c = .ok o ∧
      ∀ data, o = some data → data.length = img.clusterSize) ∨
    ∃ e, readCluster z img l2 c = .error e ∧ e.IsError := by
  rw [readCluster_eq hn hl]
  by_cases h0 : entryAt img c = 0
  · rw [if_pos h0]
    exact .inl ⟨.inl h0, none, rfl, nofun⟩
  · rw [if_neg h0]
    rcases readEntry_cases z img c (entryAt img c) with
      ⟨data, heq, hlen⟩ | ⟨e, heq, he⟩ | ⟨hc, buf, hbuf, hcap⟩
    · rw [heq]
      refine .inl ⟨.inr ⟨data, heq⟩, some data, rfl, ?_⟩
      intro data' h
      rwa [← Option.some.inj h]
    · rw [heq]
      exact .inr ⟨e, rfl, he⟩
    · exact absurd (hfit hc buf hbuf) (not_le.mpr hcap)

theorem readCluster_overrun (hn : img.l2Entries ≠ 0) (hl : Loaded img l2)
    (hfit : ¬ SizeFits img c) : readCluster z img l2 c = .error (.overrun .compBuf) := by
  unfold SizeFits at hfit
  push Not at hfit
  obtain ⟨hc, buf, hbuf, hcap⟩ := hfit
  rw [readCluster_eq hn hl, if_neg (isCompressed_ne_zero hc), readEntry_overrun hc hbuf hcap]
  rfl

theorem readCluster_of_reads (hn : img.l2Entries ≠ 0) (hl : Loaded img l2)
    (h : ClusterReads z img c) : ∃ o, readCluster z img l2 c = .ok o ∧
      ∀ data, o = some data → data.length = img.clusterSize := by
  rw [readCluster_eq hn hl]
  by_cases h0 : entryAt img c = 0
  · rw [if_pos h0]
    exact ⟨none, rfl, nofun⟩
  · obtain ⟨data, heq⟩ := h.resolve_left h0
    rw [if_neg h0, heq]
    refine ⟨some data, rfl, fun data' hd => ?_⟩
    rcases readEntry_cases z img c (entryAt img c) with
      ⟨data'', heq', hlen⟩ | ⟨e, heq', -⟩ | ⟨hc, buf, hbuf, hcap⟩
    · rw [heq] at heq'
      cases heq'
      rwa [← Option.some.inj hd]
    · rw [heq] at heq'
      cases heq'
    · rw [readEntry_overrun hc hbuf hcap] at heq
      cases heq

theorem Returns.bind {m k : CtlM Unit} (hm : Returns m w) (hk : ∀ w, Returns k w) :
    Returns (do m; k) w := by
  unfold Returns
  rw [meets_bind]
  exact hm.post fun _ w' _ => hk w'

theorem returns_pwrite (what : Piece) (off : ℕ) (data : List UInt8) (w : Work) :
    Returns (pwrite what off data) w := by
  unfold Returns Meets pwrite
  by_cases h0 : data = []
  · rw [if_pos h0]
    trivial
  · rw [if_neg h0]
    by_cases hlen : maxRw < data.length
    · rw [if_pos hlen]
      exact isError_error _
    · rw [if_neg hlen]
      dsimp only
      cases (w.out.writeAt off data).1 with
      | false => exact isError_error _
      | true => trivial

theorem returns_ftruncate (size : ℕ) (w : Work) : Returns (ftruncate size) w := by
  unfold Returns Meets ftruncate
  split_ifs
  · exact isError_error _
  · trivial

theorem returns_modify (g : Work → Work) (w : Work) : Returns (Act.modify g) w := trivial

theorem returns_storeCluster (z : Codec) (clusterSize l2Entries ci : ℕ) (data : List UInt8)
    (w : Work) : Returns (storeCluster z clusterSize l2Entries ci data) w := by
  refine Returns.bind (returns_modify _ w) fun w => ?_
  unfold Returns
  rw [meets_bind, meets_get]
  cases compressed z clusterSize data with
  | some comp =>
    exact (returns_pwrite _ _ _ w).bind fun w => (returns_pwrite _ _ _ w).bind fun w =>
      returns_modify _ w
  | none => exact (returns_pwrite _ _ _ w).bind fun w => returns_modify _ w

theorem returns_writeL2 (l2Entries i : ℕ) (w : Work) : Returns (writeL2 l2Entries i) w := by
  unfold Returns writeL2
  rw [meets_bind, meets_get]
  apply meets_ite
  · exact fun _ => trivial
  · exact fun _ => returns_pwrite _ _ _ w

theorem returns_writeMeta (clusterBits l2Entries virtualSize l1Offset l1Size : ℕ) (w : Work) :
    Returns (writeMeta clusterBits l2Entries virtualSize l1Offset l1Size) w := by
  refine Returns.bind ?_ fun w => ?_
  · exact meets_forM_range (fun _ _ => True) trivial fun k _ w _ => returns_writeL2 _ k w
  · unfold Returns
    rw [meets_bind, meets_get, meets_bind]
    generalize newHeader clusterBits virtualSize l1Offset l1Size w.allocOffset = hdr
    refine Meets.post (returns_pwrite _ _ _ w) fun _ w' _ => ?_
    rw [meets_bind]
    refine Meets.post (returns_pwrite _ _ _ w') fun _ w'' _ => ?_
    rw [meets_bind, meets_attempt]
    exact (returns_ftruncate _ w'').imp (fun _ _ _ => trivial) fun _ _ _ => trivial

/-- No write fails and there are `n` bytes left. -/
structure Roomy (n : ℕ) (w : Work) : Prop where
  noFaults : w.out.NoFaults
  room : w.allocOffset + n ≤ w.out.capacity

theorem Roomy.mono {m : ℕ} (h : Roomy n w) (hm : m ≤ n) : Roomy m w :=
  ⟨h.noFaults, by have := h.room; omega⟩

theorem meets_pwrite_roomy {what : Piece} {off : ℕ} {data : List UInt8} (h : w.out.NoFaults)
    (hend : off + data.length ≤ w.out.capacity) (hlen : data.length ≤ maxRw) :
    Meets (pwrite what off data) w
      (fun _ w' => ∃ out, w' = { w with out := out } ∧ out.NoFaults ∧
        out.capacity = w.out.capacity)
      fun _ _ => False := by
  unfold Meets pwrite
  by_cases h0 : data = []
  · rw [if_pos h0]
    exact ⟨w.out, rfl, h, rfl⟩
  · rw [if_neg h0, if_neg (not_lt.mpr hlen), h.writeAt, if_pos hend]
    exact ⟨_, rfl, h.put, rfl⟩

theorem storeCluster_roomy {clusterSize l2Entries ci m : ℕ} {data : List UInt8}
    (hdata : data.length = clusterSize) (hcs : clusterSize ≤ maxRw)
    (h : Roomy (2 * clusterSize + 4096 + m) w) :
    Meets (storeCluster z clusterSize l2Entries ci data) w (fun _ w' => Roomy m w')
      fun _ _ => False := by
  have halloc : ∀ w : Work, Roomy (2 * clusterSize + 4096 + m) w → ∀ i,
      Meets (allocTable clusterSize i) w (fun _ w' => Roomy (clusterSize + 4096 + m) w')
        fun _ _ => False := by
    intro w h i
    have := h.room
    unfold allocTable
    rw [meets_modify]
    split_ifs
    · exact ⟨h.noFaults, by dsimp only; omega⟩
    · exact h.mono (by omega)
  unfold storeCluster
  rw [meets_bind]
  apply (halloc w h _).post
  intro _ w' h'
  have hroom := h'.room
  rw [meets_bind, meets_get]
  cases hcomp : compressed z clusterSize data with
  | some comp =>
    have hlt := (compressed_eq_some hcomp).2.2
    have halign := alignUp_lt (4 + comp.length)
    simp only [meets_bind]
    apply (meets_pwrite_roomy h'.noFaults (by rw [length_beBytes]; omega)
      (by rw [length_beBytes]; norm_num [maxRw])).post
    rintro _ _ ⟨out, rfl, hout, hcap⟩
    apply (meets_pwrite_roomy hout (by dsimp only; omega) (by omega)).post
    rintro _ _ ⟨out', rfl, hout', hcap'⟩
    exact ⟨hout', by dsimp only at hcap' ⊢; omega⟩
  | none =>
    simp only [meets_bind]
    apply (meets_pwrite_roomy h'.noFaults (by omega) (by omega)).post
    rintro _ _ ⟨out, rfl, hout, hcap⟩
    exact ⟨hout, by dsimp only; omega⟩

theorem openImage_wide {hdr : List UInt8} (hhdr : pread f 0 headerSize = some hdr)
    (hmagic : get64 hdr 0 = magic) (hbits : 32 ≤ get32 hdr 12) :
    openImage f = .error .wideShift := by
  unfold openImage
  rw [preadOr_eq_ok.mpr hhdr]
  dsimp only [bind, Except.bind]
  rw [if_neg (not_not.mpr hmagic), if_pos hbits]

theorem openImage_cases (h : ∀ hdr, pread f 0 headerSize = some hdr → get64 hdr 0 = magic →
    get32 hdr 12 < 32) :
    (∃ img, openImage f = .ok img ∧ img.clusterBits < 32) ∨
      ∃ e, openImage f = .error e ∧ e.IsError := by
  unfold openImage
  rcases preadOr_cases f .header 0 headerSize with ⟨-, heq⟩ | ⟨hdr, hhdr, heq⟩
  · rw [heq]
    exact .inr ⟨_, rfl, isError_error _⟩
  · rw [heq]
    dsimp only [bind, Except.bind]
    by_cases hmagic : get64 hdr 0 = magic
    · have hbits := h hdr hhdr hmagic
      rw [if_neg (not_not.mpr hmagic), if_neg (not_le.mpr hbits)]
      rcases preadOr_cases f .l1Table (get64 hdr 24) (get32 hdr 32 * 8) with
        ⟨-, heq'⟩ | ⟨diskL1, -, heq'⟩
      · rw [heq']
        exact .inr ⟨_, rfl, isError_error _⟩
      · rw [heq']
        exact .inl ⟨_, rfl, hbits⟩
    · rw [if_pos hmagic]
      exact .inr ⟨_, rfl, isError_error _⟩

theorem loadTables_guarded (hg : Guarded z img) (hbits : img.clusterBits < 32) :
    (∃ l2, loadTables img img.l1Size = .ok l2 ∧ Loaded img l2 ∧
      ∀ i < img.l1Size, img.l1Table i ≠ 0 → TableReads img i) ∨
    ∃ e, loadTables img img.l1Size = .error e ∧ e.IsError := by
  by_cases hb : img.clusterBits ≤ 2
  · rcases loadTables_cases img img.l1Size with ⟨l2, heq, hall⟩ | ⟨i, hi, e, h0, hbefore, herr, heq⟩
    · have hzero : ∀ i < img.l1Size, img.l1Table i = 0 := by
        intro i hi
        by_contra h0
        obtain ⟨e, he, -⟩ := loadL2_small hb i
        rw [hall i hi h0] at he
        cases he
      exact .inl ⟨l2, heq, fun i hi h0 => absurd (hzero i hi) h0,
        fun i hi h0 => absurd (hzero i hi) h0⟩
    · refine .inr ⟨e, heq, ?_⟩
      obtain ⟨e', he', hiff⟩ := loadL2_small hb i
      rw [herr] at he'
      cases he'
      refine hiff.mpr (hg.tables hb i hi h0 fun k hk => ?_)
      by_contra hk0
      obtain ⟨table, htable⟩ := hbefore k hk hk0
      obtain ⟨e', he', -⟩ := loadL2_small hb k
      rw [htable] at he'
      cases he'
  · have hb3 : 3 ≤ img.clusterBits := by omega
    rcases loadTables_cases img img.l1Size with ⟨l2, heq, hall⟩ | ⟨i, hi, e, h0, -, herr, heq⟩
    · have hreads : ∀ i < img.l1Size, img.l1Table i ≠ 0 →
          TableReads img i ∧ l2 i = diskTable img i := by
        intro i hi h0
        rcases loadL2_cases hb3 hbits i with ⟨hreads, hl2⟩ | ⟨-, e, he, -⟩
        · rw [hall i hi h0] at hl2
          exact ⟨hreads, Except.ok.inj hl2⟩
        · rw [hall i hi h0] at he
          cases he
      exact .inl ⟨l2, heq, fun i hi h0 => (hreads i hi h0).2, fun i hi h0 => (hreads i hi h0).1⟩
    · refine .inr ⟨e, heq, ?_⟩
      rcases loadL2_cases hb3 hbits i with ⟨-, hl2⟩ | ⟨-, e', he', hise⟩
      · rw [herr] at hl2
        cases hl2
      · rw [herr] at he'
        cases he'
        exact hise

theorem meets_ftruncate (size : ℕ) (w : Work) :
    Meets (ftruncate size) w (fun _ _ => size < 2 ^ 63) fun e _ => e.IsError := by
  unfold Meets ftruncate
  split_ifs with h
  · exact isError_error _
  · rw [not_or, not_le] at h
    exact h.1

theorem meets_reserve (clusterSize l1Offset l1Size : ℕ) (w : Work) :
    Meets (reserve clusterSize l1Offset l1Size) w
      (fun _ _ => alignUp clusterSize (l1Offset + l1Size * 8) < 2 ^ 63) fun e _ => e.IsError := by
  unfold reserve createOut
  rw [meets_bind, meets_modify, meets_bind]
  exact (meets_ftruncate _ _).post fun _ _ h => h

theorem l2Entries_ne_zero (hbits : img.clusterBits < 32) (h3 : img.clusterBits ≠ 3) :
    img.l2Entries ≠ 0 := by
  by_cases hb : img.clusterBits ≤ 2
  · have : img.l2Entries = 2 ^ 29 - 1 := entries_of_small hb
    omega
  · have hcs := eight_mul_l2Entries (show 3 ≤ img.clusterBits by omega) hbits
    have hlt : 2 ^ 3 < img.clusterSize := Nat.pow_lt_pow_right (by norm_num) (by omega)
    omega

/-- A turn of a loop ends like the reading of its cluster, or with an error of its own. -/
def ReadsFirst (z : Codec) (img : Image) (l2 : ℕ → ℕ → ℕ) (m : ℕ → CtlM Unit) : Prop :=
  ∀ c w, Meets (m c) w (fun _ _ => ∃ o, readCluster z img l2 c = .ok o)
    fun e _ => e.IsError ∨ readCluster z img l2 c = .error e

theorem Returns.readsFirst {m : CtlM Unit} {o : Option (List UInt8)} (h : Returns m w)
    (ho : readCluster z img l2 c = .ok o) :
    Meets m w (fun _ _ => ∃ o, readCluster z img l2 c = .ok o)
      fun e _ => e.IsError ∨ readCluster z img l2 c = .error e :=
  h.imp (fun _ _ _ => ⟨o, ho⟩) fun _ _ he => .inl he

theorem readsFirst_extractCluster : ReadsFirst z img l2 (extractCluster z img l2) := by
  intro c w
  unfold extractCluster
  rw [meets_bind]
  apply meets_ofExcept
  · intro o ho
    cases o with
    | none => exact meets_pure.mpr ⟨none, ho⟩
    | some data => exact (returns_pwrite _ _ _ w).readsFirst ho
  · exact fun e he => .inr he

theorem readsFirst_compactCluster : ReadsFirst z img l2 (compactCluster z img l2) := by
  intro c w
  unfold compactCluster
  rw [meets_bind]
  apply meets_ofExcept
  · intro o ho
    cases o with
    | none => exact meets_pure.mpr ⟨none, ho⟩
    | some data =>
      apply meets_ite
      · exact fun _ => meets_pure.mpr ⟨_, ho⟩
      · exact fun _ => (returns_storeCluster _ _ _ _ _ w).readsFirst ho
  · exact fun e he => .inr he

theorem returns_clusters {m : ℕ → CtlM Unit} (hm : ReadsFirst z img l2 m)
    (hbits : img.clusterBits < 32) (hl : Loaded img l2)
    (h3 : img.clusterBits = 3 → img.totalClusters = 0)
    (hfit : ∀ c < img.totalClusters, (∀ j < c, ClusterReads z img j) → SizeFits img c)
    (w : Work) : Returns ((List.range img.totalClusters).forM m) w := by
  refine Meets.post (meets_forM_range (fun c _ => ∀ j < c, ClusterReads z img j) nofun ?_)
    fun _ _ _ => trivial
  intro c hc w hbefore
  have hn : img.l2Entries ≠ 0 := l2Entries_ne_zero hbits fun h => by
    have := h3 h
    omega
  have hcases := readCluster_cases (z := z) hn hl (hfit c hc hbefore)
  refine (hm c w).imp (fun _ _ hok j hj => ?_) fun e _ he => ?_
  · obtain ⟨o, hok⟩ := hok
    rw [hok] at hcases
    rcases Nat.lt_succ_iff_lt_or_eq.mp hj with hj | rfl
    · exact hbefore j hj
    · rcases hcases with ⟨hreads, -⟩ | ⟨e, he, -⟩
      · exact hreads
      · cases he
  · rcases he with he | he
    · exact he
    · rw [he] at hcases
      rcases hcases with ⟨-, o, ho, -⟩ | ⟨e', he', hise⟩
      · cases ho
      · cases he'
        exact hise

theorem returns_cmdExtract (h : InBounds z f) (out : File) :
    Returns (cmdExtract z) (start f out) := by
  unfold Returns cmdExtract createOut
  rw [meets_bind, meets_get, meets_bind]
  rcases openImage_cases h.1 with ⟨img, heq, hbits⟩ | ⟨e, heq, he⟩
  · have hg := h.2 img heq
    rw [show (start f out).src = f from rfl, heq, meets_ofExcept_ok, meets_bind, meets_modify,
      meets_bind]
    refine Meets.post (meets_ftruncate _ _) fun _ w hsize => ?_
    rw [meets_bind]
    rcases loadTables_guarded hg hbits with ⟨l2, heq, hl, hreads⟩ | ⟨e, heq, he⟩
    · rw [heq, meets_ofExcept_ok]
      obtain ⟨h3, hfit⟩ := hg.clusters (.inl hsize) hreads
      exact returns_clusters readsFirst_extractCluster hbits hl h3 hfit w
    · rw [heq]
      exact he
  · rw [show (start f out).src = f from rfl, heq]
    exact he

theorem returns_cmdCompact (h : InBounds z f) (out : File) :
    Returns (cmdCompact z) (start f out) := by
  unfold Returns cmdCompact
  rw [meets_bind, meets_get, meets_bind]
  rcases openImage_cases h.1 with ⟨img, heq, hbits⟩ | ⟨e, heq, he⟩
  · have hg := h.2 img heq
    rw [show (start f out).src = f from rfl, heq, meets_ofExcept_ok, meets_bind]
    rcases loadTables_guarded hg hbits with ⟨l2, heq, hl, hreads⟩ | ⟨e, heq, he⟩
    · rw [heq, meets_ofExcept_ok, meets_bind]
      refine Meets.post (meets_reserve _ _ _ _) fun _ w hsize => ?_
      obtain ⟨h3, hfit⟩ := hg.clusters (.inr hsize) hreads
      rw [meets_bind]
      refine Meets.post (returns_clusters readsFirst_compactCluster hbits hl h3 hfit w)
        fun _ w _ => ?_
      exact (returns_writeMeta _ _ _ _ _ w).bind fun w => returns_modify _ w
    · rw [heq]
      exact he
  · rw [show (start f out).src = f from rfl, heq]
    exact he

/-- An output that takes everything. No file system has one; it stands for the runs that no lack of
room ends before the read that goes wrong. -/
def vast : File := File.empty (2 ^ 200) fun _ => none

/-- Nothing stops the commands before cluster `c`, and its reading ends with `e`. -/
structure Stuck (z : Codec) (img : Image) (l2 : ℕ → ℕ → ℕ) (c : ℕ) (e : Stop) : Prop where
  lt : c < img.totalClusters
  before : ∀ k < c, ∃ o, readCluster z img l2 k = .ok o ∧
    ∀ data, o = some data → data.length = img.clusterSize ∧ img.clusterSize ≤ maxRw
  stops : readCluster z img l2 c = .error e

theorem meets_forM_stop {m : ℕ → CtlM Unit} {E : Stop → Work → Prop} (I : ℕ → Work → Prop)
    (hc : c < n) (h0 : I 0 w)
    (hstep : ∀ k < c, ∀ w, I k w → Meets (m k) w (fun _ => I (k + 1)) fun _ _ => False)
    (hstop : ∀ w, I c w → Meets (m c) w (fun _ _ => False) E) :
    Meets ((List.range n).forM m) w (fun _ _ => False) E := by
  refine Meets.post (meets_forM_range (fun k w => k ≤ c ∧ I k w) ⟨Nat.zero_le c, h0⟩ ?_)
    fun _ _ h => by omega
  rintro k - w ⟨hk, hI⟩
  rcases Nat.lt_or_eq_of_le hk with hlt | rfl
  · exact (hstep k hlt w hI).imp (fun _ _ h => ⟨hlt, h⟩) fun _ _ h => h.elim
  · exact (hstop w hI).post fun _ _ h => h.elim

theorem totalClusters_lt : img.totalClusters < W64 := by
  have hmod := Nat.mod_lt (img.virtualSize + img.clusterSize - 1) (show 0 < W64 by norm_num)
  exact lt_of_le_of_lt (Nat.div_le_self _ _) hmod

theorem clusterSize_lt (hbits : img.clusterBits < 32) : img.clusterSize < 2 ^ 32 :=
  Nat.pow_lt_pow_right (by norm_num) hbits

theorem Stuck.extract {e : Stop} (h : Stuck z img l2 c e) (hbits : img.clusterBits < 32)
    (hout : w.out.NoFaults) (hcap : w.out.capacity = 2 ^ 200) :
    Meets ((List.range img.totalClusters).forM (extractCluster z img l2)) w (fun _ _ => False)
      fun e' _ => e' = e := by
  have htotal : img.totalClusters < W64 := totalClusters_lt
  have hcs := clusterSize_lt hbits
  apply meets_forM_stop (fun _ w => w.out.NoFaults ∧ w.out.capacity = 2 ^ 200) h.lt ⟨hout, hcap⟩
  · rintro k hk w ⟨hout, hcap⟩
    obtain ⟨o, heq, hlen⟩ := h.before k hk
    unfold extractCluster
    rw [meets_bind, heq, meets_ofExcept_ok]
    cases o with
    | none => exact ⟨hout, hcap⟩
    | some data =>
      obtain ⟨hdata, hle⟩ := hlen data rfl
      have htake := List.length_take_le' (if img.virtualSize < (k + 1) * img.clusterSize then
        img.virtualSize - k * img.clusterSize else img.clusterSize) data
      have hoff : k * img.clusterSize ≤ 2 ^ 64 * 2 ^ 32 :=
        Nat.mul_le_mul (by have := h.lt; unfold W64 at htotal; omega) hcs.le
      refine Meets.post (meets_pwrite_roomy hout (by omega) (by omega)) ?_
      rintro _ _ ⟨out, rfl, hno, hc⟩
      exact ⟨hno, hc.trans hcap⟩
  · rintro w -
    unfold extractCluster
    rw [meets_bind, h.stops, meets_ofExcept_error]

theorem Stuck.compact {e : Stop} (h : Stuck z img l2 c e)
    (hw : Roomy (c * (2 * img.clusterSize + 4096)) w) :
    Meets ((List.range img.totalClusters).forM (compactCluster z img l2)) w (fun _ _ => False)
      fun e' _ => e' = e := by
  apply meets_forM_stop (fun k w => Roomy ((c - k) * (2 * img.clusterSize + 4096)) w) h.lt hw
  · intro k hk w hw
    obtain ⟨o, heq, hlen⟩ := h.before k hk
    have hsub : c - k = (c - (k + 1)) + 1 := by omega
    rw [hsub, Nat.succ_mul, Nat.add_comm] at hw
    unfold compactCluster
    rw [meets_bind, heq, meets_ofExcept_ok]
    cases o with
    | none => exact hw.mono (Nat.le_add_left _ _)
    | some data =>
      obtain ⟨hdata, hle⟩ := hlen data rfl
      exact meets_ite (fun _ => hw.mono (Nat.le_add_left _ _))
        fun _ => storeCluster_roomy hdata hle hw
  · rintro w -
    unfold compactCluster
    rw [meets_bind, h.stops, meets_ofExcept_error]

theorem meets_ftruncate_vast {size : ℕ} (hsize : size < 2 ^ 63) (hcap : w.out.capacity = 2 ^ 200) :
    Meets (ftruncate size) w (fun _ w' => w' = { w with out := w.out.truncate size })
      fun _ _ => False := by
  unfold Meets ftruncate
  rw [if_neg (by omega)]

theorem Stuck.cmdExtract {e : Stop} (h : Stuck z img l2 c e) (hopen : openImage f = .ok img)
    (hbits : img.clusterBits < 32) (hload : loadTables img img.l1Size = .ok l2)
    (hsize : img.virtualSize < 2 ^ 63) :
    Meets (cmdExtract z) (start f vast) (fun _ _ => False) fun e' _ => e' = e := by
  unfold Ctl.cmdExtract createOut
  rw [meets_bind, meets_get, meets_bind, show (start f vast).src = f from rfl, hopen,
    meets_ofExcept_ok, meets_bind, meets_modify, meets_bind]
  refine (meets_ftruncate_vast hsize rfl).imp (fun _ w hw => ?_) fun _ _ hf => hf.elim
  rw [meets_bind, hload, meets_ofExcept_ok, hw]
  exact h.extract hbits (fun _ => rfl) rfl

theorem Stuck.cmdCompact {e : Stop} (h : Stuck z img l2 c e) (hopen : openImage f = .ok img)
    (hbits : img.clusterBits < 32) (hload : loadTables img img.l1Size = .ok l2)
    (hsize : alignUp img.clusterSize (img.l1Offset + img.l1Size * 8) < 2 ^ 63) :
    Meets (cmdCompact z) (start f vast) (fun _ _ => False) fun e' _ => e' = e := by
  unfold Ctl.cmdCompact reserve createOut
  rw [meets_bind, meets_get, meets_bind, show (start f vast).src = f from rfl, hopen,
    meets_ofExcept_ok, meets_bind, hload, meets_ofExcept_ok, meets_bind, meets_bind,
    meets_modify, meets_bind]
  refine (meets_ftruncate_vast hsize rfl).imp (fun _ w hw => ?_) fun _ _ hf => hf.elim
  rw [meets_modify, meets_bind, hw]
  refine (h.compact ⟨fun _ => rfl, ?_⟩).post fun _ _ hf => hf.elim
  have hlt := h.lt.trans totalClusters_lt
  have hcs := clusterSize_lt hbits
  have hmul : c * (2 * img.clusterSize + 4096) ≤ W64 * (2 * 2 ^ 32 + 4096) :=
    Nat.mul_le_mul hlt.le (by omega)
  change alignUp img.clusterSize (img.l1Offset + img.l1Size * 8) + _ ≤ 2 ^ 200
  unfold W64 at hmul
  omega

theorem Stuck.ends {e : Stop} (h : Stuck z img l2 c e) (hopen : openImage f = .ok img)
    (hbits : img.clusterBits < 32) (hload : loadTables img img.l1Size = .ok l2)
    (hsize : img.virtualSize < 2 ^ 63)
    (hsize' : alignUp img.clusterSize (img.l1Offset + img.l1Size * 8) < 2 ^ 63) :
    (Ctl.cmdExtract z (start f vast)).1 = .error e ∧
      (Ctl.cmdCompact z (start f vast)).1 = .error e := by
  obtain ⟨_, w, heq, rfl⟩ := (h.cmdExtract hopen hbits hload hsize).exists_error
  obtain ⟨_, w', heq', rfl⟩ := (h.cmdCompact hopen hbits hload hsize').exists_error
  rw [heq, heq']
  exact ⟨rfl, rfl⟩

theorem Stuck.not_staysInBounds {e : Stop} (h : Stuck z img l2 c e) (hopen : openImage f = .ok img)
    (hbits : img.clusterBits < 32) (hload : loadTables img img.l1Size = .ok l2)
    (hstarts : Starts img) (he : ¬ e.IsError) : ¬ StaysInBounds z f := by
  intro hstays
  rcases hstarts with hsize | hsize
  · obtain ⟨e', s, heq, rfl⟩ := (h.cmdExtract hopen hbits hload hsize).exists_error
    exact he ((hstays vast).1.of_eq_error heq)
  · obtain ⟨e', s, heq, rfl⟩ := (h.cmdCompact hopen hbits hload hsize).exists_error
    exact he ((hstays vast).2.of_eq_error heq)

theorem loadTables_first (hb : img.clusterBits ≤ 2) (hi : i < img.l1Size) (h0 : img.l1Table i ≠ 0)
    (hbefore : ∀ k < i, img.l1Table k = 0) :
    ∃ e, loadTables img img.l1Size = .error e ∧ loadL2 img i = .error e := by
  rcases loadTables_cases img img.l1Size with ⟨l2, -, hall⟩ | ⟨j, hj, e, hj0, hok, herr, heq⟩
  · obtain ⟨e, he, -⟩ := loadL2_small hb i
    rw [hall i hi h0] at he
    cases he
  · rcases Nat.lt_trichotomy i j with hlt | rfl | hlt
    · obtain ⟨table, htable⟩ := hok i hlt h0
      obtain ⟨e, he, -⟩ := loadL2_small hb i
      rw [htable] at he
      cases he
    · exact ⟨e, heq, herr⟩
    · exact absurd (hbefore j hlt) hj0

theorem StaysInBounds.tables (h : StaysInBounds z f) (hopen : openImage f = .ok img)
    (hb : img.clusterBits ≤ 2) (hi : i < img.l1Size) (h0 : img.l1Table i ≠ 0)
    (hbefore : ∀ k < i, img.l1Table k = 0) {raw : List UInt8}
    (hraw : pread img.f (img.l1Table i) img.clusterSize = some raw) :
    img.clusterBits = 2 ∧ get32 raw 0 ≠ 0 := by
  obtain ⟨e, hload, hl2⟩ := loadTables_first hb hi h0 hbefore
  obtain ⟨e', he', hiff⟩ := loadL2_small hb i
  rw [hl2] at he'
  cases he'
  refine hiff.mp ?_ raw hraw
  have hret := (h vast).2
  unfold Returns cmdCompact at hret
  rwa [meets_bind, meets_get, meets_bind, show (start f vast).src = f from rfl, hopen,
    meets_ofExcept_ok, meets_bind, hload, meets_ofExcept_error] at hret

theorem loadTables_of_reads (hbits : img.clusterBits < 32)
    (hsmall : img.clusterBits ≤ 2 → ∀ i < img.l1Size, img.l1Table i = 0)
    (hreads : ∀ i < img.l1Size, img.l1Table i ≠ 0 → TableReads img i) :
    ∃ l2, loadTables img img.l1Size = .ok l2 ∧ Loaded img l2 := by
  have hl2 : ∀ i < img.l1Size, img.l1Table i ≠ 0 → loadL2 img i = .ok (diskTable img i) := by
    intro i hi h0
    by_cases hb : img.clusterBits ≤ 2
    · exact absurd (hsmall hb i hi) h0
    · rcases loadL2_cases (show 3 ≤ img.clusterBits by omega) hbits i with ⟨-, heq⟩ | ⟨hnot, -⟩
      · exact heq
      · exact absurd (hreads i hi h0) hnot
  rcases loadTables_cases img img.l1Size with ⟨l2, heq, hall⟩ | ⟨i, hi, e, h0, -, herr, -⟩
  · refine ⟨l2, heq, fun i hi h0 => ?_⟩
    have := hall i hi h0
    rw [hl2 i hi h0] at this
    exact (Except.ok.inj this).symm
  · rw [hl2 i hi h0] at herr
    cases herr

/-- A cluster with an entry has a table, and tables of more than a gigabyte cannot be read. -/
theorem clusterSize_le_maxRw (hreads : ∀ i < img.l1Size, img.l1Table i ≠ 0 → TableReads img i)
    (h0 : entryAt img c ≠ 0) : img.clusterSize ≤ maxRw := by
  unfold entryAt at h0
  dsimp only at h0
  split_ifs at h0 with hmiss
  · exact absurd rfl h0
  · rw [not_or, not_le] at hmiss
    obtain ⟨raw, hraw, -⟩ := hreads _ hmiss.1 hmiss.2
    unfold pread at hraw
    by_contra hlt
    rw [if_pos (by omega)] at hraw
    cases hraw

theorem StaysInBounds.guarded (h : StaysInBounds z f) (hopen : openImage f = .ok img)
    (hbits : img.clusterBits < 32) : Guarded z img := by
  refine ⟨fun hb i hi h0 hbefore raw hraw => h.tables hopen hb hi h0 hbefore hraw, ?_⟩
  intro hstarts hreads
  have hsmall : img.clusterBits ≤ 2 → ∀ i < img.l1Size, img.l1Table i = 0 := by
    intro hb i
    induction i using Nat.strong_induction_on with
    | _ i ih =>
      intro hi
      by_contra h0
      obtain ⟨raw, hraw, hcrc⟩ := hreads i hi h0
      obtain ⟨h2, hne⟩ := h.tables hopen hb hi h0 (fun k hk => ih k hk (by omega)) hraw
      have hcs : img.clusterSize = 4 := by
        rw [Image.clusterSize, h2]
        rfl
      rw [hcs, calcCrc, Nat.sub_self, List.take_zero] at hcrc
      exact hne hcrc
  obtain ⟨l2, hload, hl⟩ := loadTables_of_reads hbits hsmall hreads
  have h3 : img.clusterBits = 3 → img.totalClusters = 0 := by
    intro h3
    by_contra htotal
    have hstuck : Stuck z img l2 0 .divideByZero := by
      refine ⟨by omega, nofun, ?_⟩
      have hcs := eight_mul_l2Entries (show 3 ≤ img.clusterBits by omega) hbits
      rw [Image.clusterSize, h3] at hcs
      unfold readCluster
      rw [if_pos (by omega)]
    exact hstuck.not_staysInBounds hopen hbits hload hstarts (not_isError nofun) h
  refine ⟨h3, fun c hc hbefore => ?_⟩
  by_contra hfit
  have hn : img.l2Entries ≠ 0 := l2Entries_ne_zero hbits fun hb => by
    have := h3 hb
    omega
  have hstuck : Stuck z img l2 c (.overrun .compBuf) := by
    refine ⟨hc, fun k hk => ?_, readCluster_overrun hn hl hfit⟩
    obtain ⟨o, heq, hlen⟩ := readCluster_of_reads hn hl (hbefore k hk)
    refine ⟨o, heq, fun data ho => ⟨hlen data ho, clusterSize_le_maxRw hreads (c := c) ?_⟩⟩
    unfold SizeFits at hfit
    push Not at hfit
    exact isCompressed_ne_zero hfit.1
  exact hstuck.not_staysInBounds hopen hbits hload hstarts (not_isError nofun) h

/-- The commands stay in their buffers exactly on these files. -/
theorem staysInBounds_iff (z : Codec) (f : File) : StaysInBounds z f ↔ InBounds z f := by
  constructor
  · intro h
    have hnarrow : ∀ hdr, pread f 0 headerSize = some hdr → get64 hdr 0 = magic →
        get32 hdr 12 < 32 := by
      intro hdr hhdr hmagic
      by_contra hwide
      have hret := (h vast).1
      unfold Returns cmdExtract at hret
      rw [meets_bind, meets_get, meets_bind, show (start f vast).src = f from rfl,
        openImage_wide hhdr hmagic (not_lt.mp hwide), meets_ofExcept_error] at hret
      exact not_isError (show ∀ q, Stop.wideShift ≠ .error q from nofun) hret
    refine ⟨hnarrow, fun img hopen => h.guarded hopen ?_⟩
    rcases openImage_cases hnarrow with ⟨img', heq, hbits⟩ | ⟨e, heq, -⟩
    · rw [hopen] at heq
      cases heq
      exact hbits
    · rw [hopen] at heq
      cases heq
  · exact fun h out => ⟨returns_cmdExtract h out, returns_cmdCompact h out⟩

/-- An image of one cluster, of 4096 bytes, that stands for 8192 bytes of compressed data. -/
def oversizedBytes : List UInt8 :=
  newHeader 12 4096 headerSize 1 20992 ++ (tableBytes 1 (fun _ => 8192) ++
    (List.replicate 4088 0 ++ (l2Bytes 511 (fun _ => l2Compressed ||| 12288) ++
      (beBytes 4 8192 ++ List.replicate 8192 255))))

def oversizedFile : File := (File.empty (2 ^ 20) fun _ => none).put 0 oversizedBytes

def oversizedImage : Image where
  f := oversizedFile
  clusterBits := 12
  virtualSize := 4096
  l1Offset := headerSize
  l1Size := 1
  l1Table := fun i => get64 (tableBytes 1 fun _ => 8192) (8 * i)

theorem length_oversizedTable : (l2Bytes 511 fun _ => l2Compressed ||| 12288).length = 4096 := by
  simp only [l2Bytes, withTrailer, List.length_append, length_tableBytes, List.length_replicate,
    length_beBytes]

theorem oversizedFile_reads :
    oversizedFile.Reads 0 (newHeader 12 4096 headerSize 1 20992) ∧
    oversizedFile.Reads headerSize (tableBytes 1 fun _ => 8192) ∧
    oversizedFile.Reads 8192 (l2Bytes 511 fun _ => l2Compressed ||| 12288) ∧
    oversizedFile.Reads 12288 (beBytes 4 8192) := by
  have hne : oversizedBytes ≠ [] := by
    apply List.ne_nil_of_length_pos
    rw [oversizedBytes, List.length_append, length_newHeader]
    exact Nat.lt_of_lt_of_le (by norm_num [headerSize]) (Nat.le_add_right _ _)
  have hreads : oversizedFile.Reads 0 oversizedBytes := File.reads_put hne
  unfold oversizedBytes at hreads
  rw [File.reads_append, File.reads_append, File.reads_append, File.reads_append,
    File.reads_append, length_newHeader, length_tableBytes, List.length_replicate,
    length_oversizedTable] at hreads
  exact ⟨hreads.1, hreads.2.1, hreads.2.2.2.1, hreads.2.2.2.2.1⟩

theorem openImage_oversizedFile : openImage oversizedFile = .ok oversizedImage := by
  have hfields : HeaderFields (newHeader 12 4096 headerSize 1 20992) 12 4096 headerSize 1 20992 0 :=
    headerFields_newHeader (by norm_num) (by norm_num) (by norm_num [headerSize]) (by norm_num)
      (by norm_num)
  unfold openImage
  rw [preadOr_eq_ok.mpr (pread_of_reads oversizedFile_reads.1 (by norm_num)
    (length_newHeader _ _ _ _ _) (by norm_num [headerSize, maxRw]))]
  dsimp only [bind, Except.bind]
  rw [if_neg (not_not.mpr hfields.magic), hfields.clusterBits, if_neg (by norm_num),
    hfields.l1Offset, hfields.l1Size, hfields.virtualSize,
    preadOr_eq_ok.mpr (pread_of_reads oversizedFile_reads.2.1 (by norm_num [headerSize])
      (length_tableBytes _ _) (by norm_num [maxRw]))]
  rfl

theorem tableReads_oversizedImage : pread oversizedFile 8192 4096 =
    some (l2Bytes 511 fun _ => l2Compressed ||| 12288) :=
  pread_of_reads oversizedFile_reads.2.2.1 (by norm_num) length_oversizedTable
    (by norm_num [maxRw])

theorem overrun_oversizedFile (z : Codec) :
    (cmdExtract z (start oversizedFile vast)).1 = .error (.overrun .compBuf) ∧
      (cmdCompact z (start oversizedFile vast)).1 = .error (.overrun .compBuf) := by
  have hl1 : oversizedImage.l1Table 0 = 8192 := get64_tableBytes (by norm_num) (by norm_num)
  have hbits : oversizedImage.clusterBits < 32 := by
    change 12 < 32
    norm_num
  have hentries : oversizedImage.l2Entries = 511 := by
    have : 8 * oversizedImage.l2Entries + 8 = 2 ^ 12 :=
      eight_mul_l2Entries (by change 3 ≤ 12; norm_num) hbits
    omega
  have htable : TableReads oversizedImage 0 := by
    refine ⟨_, ?_, crc_l2Bytes ⟨12, by norm_num, by norm_num⟩ fun _ => l2Compressed ||| 12288⟩
    rw [hl1]
    exact tableReads_oversizedImage
  obtain ⟨l2, hload, hl⟩ := loadTables_of_reads hbits (fun hb => absurd hb (by decide))
    fun i hi _ => by
      obtain rfl : i = 0 := Nat.lt_one_iff.mp hi
      exact htable
  have hentry : entryAt oversizedImage 0 = l2Compressed ||| 12288 := by
    have hslice := pread_slice tableReads_oversizedImage
    unfold entryAt
    dsimp only
    rw [hentries, Nat.zero_div, Nat.zero_mod, hl1, if_neg (by norm_num [oversizedImage])]
    change get64 (oversizedFile.slice 8192 4096) (8 * (0 % 511)) = _
    rw [← hslice]
    exact get64_l2Bytes (by norm_num) (by decide)
  have hsize : pread oversizedFile 12288 4 = some (beBytes 4 8192) :=
    pread_of_reads oversizedFile_reads.2.2.2 (by norm_num) (length_beBytes _ _)
      (by norm_num [maxRw])
  have hfit : ¬ SizeFits oversizedImage 0 := by
    intro hfit
    have hle := hfit (by rw [hentry]; exact isCompressed_lz _) (beBytes 4 8192)
      (by rw [hentry, physOffset_lz (by norm_num)]; exact hsize)
    revert hle
    decide
  have hstuck : Stuck z oversizedImage l2 0 (.overrun .compBuf) :=
    ⟨by decide, nofun, readCluster_overrun (by omega) hl hfit⟩
  have hvirtual : oversizedImage.virtualSize < 2 ^ 63 := by norm_num [oversizedImage]
  have hreserve : alignUp oversizedImage.clusterSize
      (oversizedImage.l1Offset + oversizedImage.l1Size * 8) < 2 ^ 63 := by
    norm_num [oversizedImage, Image.clusterSize, alignUp, headerSize]
  exact hstuck.ends openImage_oversizedFile hbits hload hvirtual hreserve

/-- The data is read into the buffer without a look at its size. -/
theorem oversizedFile_overruns :
    (∀ z, (cmdExtract z (start oversizedFile vast)).1 = .error (.overrun .compBuf)) ∧
      ∀ z, (cmdCompact z (start oversizedFile vast)).1 = .error (.overrun .compBuf) :=
  ⟨fun z => (overrun_oversizedFile z).1, fun z => (overrun_oversizedFile z).2⟩

end Lbd.QCow2.Ctl
