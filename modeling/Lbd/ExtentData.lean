import Lbd.DaemonStart

/-!
# The data behind an extent

`scanLogIntoExtentMap` over a set of log files and `readExtentData` for what a lookup
returns. Block numbers in the files are arbitrary 64-bit numbers, and so are the arguments of a
lookup: ranges may wrap. An entry is shorter than `2^32` bytes, which keeps the map sound in
spite of that.
-/

namespace Lbd.Daemon

open RunMap ExtentMap

/-- The log files by path. -/
abbrev LogFiles := String → Option Segment

def scanLogIntoExtentMap (files : LogFiles) (em : ExtentMap) (logPath : String) : ExtentMap :=
  match files logPath with
  | none => em
  | some seg => (scanLog logPath seg).foldl ExtentMap.step em

/-- The map after the files at `paths` have been scanned, in that order. -/
def scanFiles (files : LogFiles) (paths : List String) : ExtentMap :=
  paths.foldl (scanLogIntoExtentMap files) ⟨[]⟩

inductive ReadError where
  | noFile
  | skippingEntry (i : ℕ)
  | readingEntry (i : ℕ)
  | outOfRange (offset len data : ℕ)
  /-- slice bounds out of range -/
  | slicePanic (lo hi : ℕ)
deriving DecidableEq, Repr

def readExtentData (files : LogFiles) (ext : Extent) : Except ReadError (List UInt8) :=
  match files ext.val.logPath with
  | none => .error .noFile
  | some seg =>
    if seg.entries.length < ext.val.entryIndex then .error (.skippingEntry seg.entries.length)
    else match seg.entries[ext.val.entryIndex]? with
    | none => .error (.readingEntry ext.val.entryIndex)
    | some entry =>
      let entryOffset := sub64 ext.start ext.val.block * 4096 % W64
      let dataLen := ext.len * 4096 % W64
      let stop := (entryOffset + dataLen) % W64
      if entry.data.length < stop then
        .error (.outOfRange entryOffset dataLen entry.data.length)
      else if stop < entryOffset then .error (.slicePanic entryOffset stop)
      else .ok ((entry.data.drop entryOffset).take (stop - entryOffset))

/-- Writes and trims of whole blocks, writes with all their data. Other entries are skipped. -/
def WellFormed (files : LogFiles) : Prop :=
  ∀ path seg, files path = some seg → ∀ e ∈ seg.entries,
    e.block < W64 ∧ (e.isWrite = true ∨ e.isTrim = true → e.Valid 4096)

/-- The extent lies inside of the entry it names, and reading it gives the bytes which that entry
holds for its blocks. -/
structure PointsAtData (files : LogFiles) (x : Extent) : Prop where
  block_le : x.val.block ≤ x.start
  end_le : x.start + x.len ≤ x.val.block + x.val.length / 4096
  bytes : ∃ seg e bytes, files x.val.logPath = some seg ∧
    seg.entries[x.val.entryIndex]? = some e ∧ e.isWrite = true ∧
    readExtentData files x = .ok bytes ∧ bytes.length = x.len * 4096 ∧
    ∀ i < x.len * 4096, bytes[i]? = e.byteAt 4096 (x.start * 4096 + i)

/-- Every extent that a lookup of `[s, s + m)` returns has its data. -/
def LookupReadable (s m : ℕ) : Prop :=
  ∀ files, WellFormed files → ∀ paths, ∀ x ∈ (scanFiles files paths).lookup s m,
    PointsAtData files x

/-- `x` is a part of the blocks that the write it refers to covers. -/
structure FromEntry (files : LogFiles) (x : Extent) : Prop where
  pos : 0 < x.len
  start_lt : x.start < W64
  source : ∃ seg e, files x.val.logPath = some seg ∧ seg.entries[x.val.entryIndex]? = some e ∧
    e.isWrite = true ∧ x.val.block = e.block ∧ x.val.length = e.length
  le : x.val.block ≤ x.start
  stop_le : x.start + x.len ≤ x.val.block + x.val.length / 4096

def Sound (files : LogFiles) (em : ExtentMap) : Prop := ∀ x ∈ em.extents, FromEntry files x

section Scan

variable {files : LogFiles} {em : ExtentMap} {x : Extent}

theorem FromEntry.within (h : FromEntry files x) {q : Extent} (hq : q.Within x)
    (hlt : q.start < W64) : FromEntry files q where
  pos := hq.pos h.pos
  start_lt := hlt
  source := hq.val ▸ h.source
  le := by
    rw [hq.val]
    exact h.le.trans hq.le
  stop_le := by
    rw [hq.val]
    exact hq.stop_le.trans h.stop_le

theorem numBlocks_lt {e : Entry} (hv : e.Valid 4096) :
    e.numBlocks 4096 = e.length / 4096 ∧ e.numBlocks 4096 ≤ 2 ^ 20 - 1 := by
  have hmul := hv.numBlocks_mul
  have hfits := hv.fits
  omega

/-- An extent has less than `2^20` blocks, since the length of an entry is a `uint32`. -/
theorem FromEntry.len_le (hwf : WellFormed files) (h : FromEntry files x) :
    x.len ≤ 2 ^ 20 - 1 := by
  obtain ⟨seg, e, hfile, hentry, hwrite, -, hlen⟩ := h.source
  have hv := (hwf _ _ hfile e (List.mem_of_getElem? hentry)).2 (.inl hwrite)
  have hblocks := numBlocks_lt hv
  have hle := h.le
  have hstop := h.stop_le
  rw [hlen] at hstop
  omega

theorem Sound.carve (hwf : WellFormed files) (h : Sound files em) {b n : ℕ} (hb : b < W64)
    (hn : n ≤ 2 ^ 20 - 1) {q : Extent} (hq : q ∈ carve W64 b ((b + n) % W64) em.extents) :
    FromEntry files q := by
  obtain ⟨r, hr, hin, hlt⟩ := exists_within_of_mem_carve (c := 2 ^ 20 - 1) (by decide)
    (fun r hr => ⟨(h r hr).start_lt, (h r hr).len_le hwf⟩) hb hn hq
  exact (h r hr).within hin hlt

theorem Sound.entry (hwf : WellFormed files) (h : Sound files em) {path : String}
    {seg : Segment} (hfile : files path = some seg) {e : Entry} {i : ℕ}
    (he : seg.entries[i]? = some e) {op : ExtentMap.Op} (hop : entryOp path e i = some op) :
    Sound files (ExtentMap.step em op) := by
  obtain ⟨hlt, hvalid⟩ := hwf path seg hfile e (List.mem_of_getElem? he)
  unfold entryOp at hop
  dsimp only at hop
  split_ifs at hop with hwrite htrim
  · cases hop
    obtain ⟨hn, hle⟩ := numBlocks_lt (hvalid (.inl hwrite))
    intro q hq
    rcases List.mem_cons.mp ((splice_perm_carve _ _ _ _).mem_iff.mp hq) with rfl | hq
    · exact ⟨Entry.numBlocks_pos, hlt, ⟨seg, e, hfile, he, hwrite, rfl, rfl⟩, le_rfl,
        by dsimp only; omega⟩
    · exact h.carve hwf hlt hle hq
  · cases hop
    obtain ⟨-, hle⟩ := numBlocks_lt (hvalid (.inr htrim))
    exact fun q hq => h.carve hwf hlt hle hq

theorem Sound.scanLog (hwf : WellFormed files) (h : Sound files em) (path : String) :
    Sound files (scanLogIntoExtentMap files em path) := by
  unfold scanLogIntoExtentMap
  cases hfile : files path with
  | none => exact h
  | some seg =>
    have hops : ∀ op ∈ Daemon.scanLog path seg, ∃ e i, seg.entries[i]? = some e ∧
        entryOp path e i = some op := by
      intro op hop
      obtain ⟨⟨e, i⟩, hmem, heq⟩ := List.mem_filterMap.mp hop
      exact ⟨e, i, List.mem_zipIdx_iff_getElem?.mp hmem, heq⟩
    change Sound files ((Daemon.scanLog path seg).foldl ExtentMap.step em)
    generalize Daemon.scanLog path seg = ops at hops
    induction ops generalizing em with
    | nil => exact h
    | cons op ops ih =>
      obtain ⟨e, i, he, hop⟩ := hops op (List.mem_cons_self ..)
      exact ih (h.entry hwf hfile he hop) fun o ho => hops o (List.mem_cons_of_mem _ ho)

/-- However many files have been scanned, every extent is a part of the write it refers to. -/
theorem sound_scanFiles (hwf : WellFormed files) (paths : List String) :
    Sound files (scanFiles files paths) := by
  have hall : ∀ em, Sound files em → Sound files (paths.foldl (scanLogIntoExtentMap files) em) := by
    induction paths with
    | nil => exact fun em h => h
    | cons path paths ih => exact fun em h => ih _ (h.scanLog hwf path)
  exact hall ⟨[]⟩ nofun

end Scan

section Read

variable {files : LogFiles} {em : ExtentMap} {x : Extent}

theorem pointsAtData_of_part (hwf : WellFormed files) {r : Extent} (hr : FromEntry files r)
    (hval : x.val = r.val) (hlt : x.start < W64) (hle : r.start ≤ x.start)
    (hstop : x.start + x.len ≤ r.start + r.len) : PointsAtData files x := by
  obtain ⟨seg, e, hfile, hentry, hwrite, hblock, hlen⟩ := hr.source
  have hv := (hwf _ _ hfile e (List.mem_of_getElem? hentry)).2 (.inl hwrite)
  obtain ⟨hn, hsmall⟩ := numBlocks_lt hv
  have hmul := hv.numBlocks_mul
  have hdata := hv.data (of_decide_eq_true hwrite)
  have hrle := hr.le
  have hrstop := hr.stop_le
  rw [← hval] at hfile hentry hblock hlen hrle hrstop
  rw [hblock] at hrle
  rw [hblock, hlen] at hrstop
  have hindex : x.val.entryIndex < seg.entries.length := (List.getElem?_eq_some_iff.mp hentry).1
  have hoffset : sub64 x.start x.val.block * 4096 % W64 = (x.start - e.block) * 4096 := by
    rw [hblock, sub64_of_le (by omega) hlt, Nat.mod_eq_of_lt]
    unfold W64
    omega
  have hdataLen : x.len * 4096 % W64 = x.len * 4096 := by
    rw [Nat.mod_eq_of_lt]
    unfold W64
    omega
  have hend : ((x.start - e.block) * 4096 + x.len * 4096) % W64 =
      (x.start - e.block) * 4096 + x.len * 4096 := by
    rw [Nat.mod_eq_of_lt]
    unfold W64
    omega
  refine ⟨by omega, by rw [hblock, hlen]; omega, seg, e,
    (e.data.drop ((x.start - e.block) * 4096)).take (x.len * 4096), hfile, hentry, hwrite,
    ?_, ?_, ?_⟩
  · unfold readExtentData
    simp only [hfile, hentry, hoffset, hdataLen, hend, if_neg hindex.not_gt]
    rw [if_neg (by omega), if_neg (by omega), Nat.add_sub_cancel_left]
  · rw [List.length_take, List.length_drop]
    omega
  · intro i hi
    have hop : e.op = .write := of_decide_eq_true hwrite
    rw [List.getElem?_take_of_lt hi, List.getElem?_drop, Entry.byteAt, hop]
    dsimp only
    have hmulle : e.block * 4096 ≤ x.start * 4096 := Nat.mul_le_mul_right _ (hrle.trans hle)
    rw [if_pos (hmulle.trans (Nat.le_add_right _ _)), Nat.sub_mul, Nat.sub_add_comm hmulle]

theorem mem_lookup_wrapped {s m : ℕ} (hx : x ∈ em.lookup s m) :
    ∃ r ∈ em.extents, s < r.stop W64 ∧ r.start < (s + m) % W64 ∧
      x = ⟨max r.start s, sub64 (min (r.stop W64) ((s + m) % W64)) (max r.start s), r.val⟩ := by
  obtain ⟨p, hp, rfl⟩ := List.mem_map.mp hx
  obtain ⟨r, hr, rfl, hlo, hhi⟩ := mem_clip hp
  exact ⟨r, hr, hlo, hhi, rfl⟩

/-- The queries that never see both of their ends inside of one extent after a wrap: such an
extent has at least `2^64 - m + 2` blocks and does not end at `2^64`. -/
def QueryShort (s m : ℕ) : Prop := s + m ≤ W64 ∨ s + 1 = W64 ∨ m ≤ W64 - 2 ^ 20 + 2

instance (s m : ℕ) : Decidable (QueryShort s m) := inferInstanceAs (Decidable (_ ∨ _))

theorem part_of_queryShort {r : Extent} {s m : ℕ} (hs : s < W64) (hm : m < W64)
    (hq : QueryShort s m) (hpos : 0 < r.len) (hlen : r.len ≤ 2 ^ 20 - 1) (hr : r.start < W64)
    (hlo : s < r.stop W64) (hhi : r.start < (s + m) % W64) :
    max r.start s + sub64 (min (r.stop W64) ((s + m) % W64)) (max r.start s) ≤
      r.start + r.len := by
  have hW : 2 ^ 20 - 1 ≤ W64 := by decide
  have hstop : (_ ∧ r.stop W64 = _) ∨ (_ ∧ r.stop W64 = _) :=
    mod_of_lt_two_mul (a := r.start + r.len) (W := W64) (by omega)
  have hend := mod_of_lt_two_mul (a := s + m) (W := W64) (by omega)
  unfold QueryShort at hq
  unfold sub64
  generalize r.stop W64 = stop at *
  generalize (s + m) % W64 = q at *
  unfold W64 at *
  omega

theorem lookupReadable_of_queryShort {s m : ℕ} (hs : s < W64) (hm : m < W64)
    (hq : QueryShort s m) : LookupReadable s m := by
  intro files hwf paths x hx
  obtain ⟨r, hr, hlo, hhi, rfl⟩ := mem_lookup_wrapped hx
  have hsound := sound_scanFiles hwf paths r hr
  exact pointsAtData_of_part hwf hsound rfl (max_lt hsound.start_lt hs) (le_max_left _ _)
    (part_of_queryShort hs hm hq hsound.pos (hsound.len_le hwf) hsound.start_lt hlo hhi)

/-- A log file with one write of `n` blocks. -/
def oneWrite (block n : ℕ) : LogFiles := fun path =>
  if path = "a.log" then
    some ⟨⟨2, 4096, [], 0, ""⟩, [⟨.write, 0, 0, block, n * 4096, 0, List.replicate (n * 4096) 0⟩]⟩
  else none

theorem wellFormed_oneWrite {block n : ℕ} (hb : block < W64) (hpos : 0 < n) (hn : n < 2 ^ 20) :
    WellFormed (oneWrite block n) := by
  intro path seg hfile e he
  unfold oneWrite at hfile
  split_ifs at hfile
  cases hfile
  rw [List.mem_singleton.mp he]
  refine ⟨hb, fun _ => ⟨.inl rfl, ?_, Nat.dvd_mul_left _ _, ?_, fun _ => List.length_replicate⟩⟩ <;>
    dsimp only <;> omega

theorem scanFiles_oneWrite {block n : ℕ} (hpos : 0 < n) :
    scanFiles (oneWrite block n) ["a.log"] = ⟨[⟨block, n, ⟨"a.log", 0, block, n * 4096⟩⟩]⟩ := by
  have hblocks : n * 4096 / 4096 = n := Nat.mul_div_cancel _ (by decide)
  simp [scanFiles, scanLogIntoExtentMap, oneWrite, scanLog, entryOp, Entry.isWrite,
    Entry.numBlocks, hblocks, hpos.ne', ExtentMap.step, addWrite, splice, spliceLoop, sortSearch,
    insertAt]

theorem lookup_single {r : Extent} {s m : ℕ} (hlo : s < r.stop W64)
    (hhi : r.start < (s + m) % W64) :
    ExtentMap.lookup ⟨[r]⟩ s m =
      [⟨max r.start s, sub64 (min (r.stop W64) ((s + m) % W64)) (max r.start s), r.val⟩] := by
  simp [ExtentMap.lookup, clip, hlo.not_ge, hhi.not_ge]

/-- A lookup returns only extents that have their data, in every map that was scanned from
well-formed logs, exactly if it is short. -/
theorem lookupReadable_iff {s m : ℕ} (hs : s < W64) (hm : m < W64) :
    LookupReadable s m ↔ QueryShort s m := by
  refine ⟨fun h => ?_, lookupReadable_of_queryShort hs hm⟩
  by_contra hq
  unfold QueryShort at hq
  -- the write that covers one block more than the two ends on either side
  set q := s + m - W64 with hqdef
  set n := s - q + 2 with hndef
  have hmod : (s + m) % W64 = q := by
    rcases mod_of_lt_two_mul (a := s + m) (W := W64) (by omega) with h | h <;> omega
  have hstop : (⟨q - 1, n, ⟨"a.log", 0, q - 1, n * 4096⟩⟩ : Extent).stop W64 = s + 1 := by
    change (q - 1 + n) % W64 = _
    rw [Nat.mod_eq_of_lt] <;> omega
  have hfound := lookup_single (r := ⟨q - 1, n, ⟨"a.log", 0, q - 1, n * 4096⟩⟩) (s := s) (m := m)
    (by omega) (by rw [hmod]; dsimp only; omega)
  have hall := h (oneWrite (q - 1) n) (wellFormed_oneWrite (by omega) (by omega) (by omega))
    ["a.log"]
  have hmin : min (s + 1) q = q := by omega
  have hmax : max (q - 1) s = s := by omega
  have hlen : sub64 q s = m := sub64_of_wrapped hm (by omega)
  rw [scanFiles_oneWrite (by omega), hfound, hstop, hmod] at hall
  have hend := (hall _ (List.mem_singleton_self _)).end_le
  dsimp only at hend
  rw [Nat.mul_div_cancel _ (by decide), hmin, hmax, hlen] at hend
  omega

/-- The middle block of a write. -/
theorem middle_block_readable :
    (scanFiles (oneWrite 0 3) ["a.log"]).lookup 1 1 = [⟨1, 1, ⟨"a.log", 0, 0, 12288⟩⟩] ∧
      PointsAtData (oneWrite 0 3) ⟨1, 1, ⟨"a.log", 0, 0, 12288⟩⟩ := by
  have hlookup : (scanFiles (oneWrite 0 3) ["a.log"]).lookup 1 1 =
      [⟨1, 1, ⟨"a.log", 0, 0, 12288⟩⟩] := by
    rw [scanFiles_oneWrite (by decide)]
    decide
  have hread : LookupReadable 1 1 := (lookupReadable_iff (by decide) (by decide)).mpr (by decide)
  refine ⟨hlookup, hread (oneWrite 0 3)
    (wellFormed_oneWrite (by decide) (by decide) (by decide)) ["a.log"] _ ?_⟩
  rw [hlookup]
  exact List.mem_singleton_self _

/-- A query of `2^64 - 1` blocks from block 2 on, of a map with the blocks 0, 1 and 2: it returns
an extent of `2^64 - 1` blocks, and reading that slices `[8192:4096]`. -/
theorem wrapped_lookup_panics :
    WellFormed (oneWrite 0 3) ∧
      (scanFiles (oneWrite 0 3) ["a.log"]).lookup 2 (2 ^ 64 - 1) =
        [⟨2, 2 ^ 64 - 1, ⟨"a.log", 0, 0, 12288⟩⟩] ∧
      readExtentData (oneWrite 0 3) ⟨2, 2 ^ 64 - 1, ⟨"a.log", 0, 0, 12288⟩⟩ =
        .error (.slicePanic 8192 4096) := by
  refine ⟨wellFormed_oneWrite (by decide) (by decide) (by decide), ?_, ?_⟩
  · rw [scanFiles_oneWrite (by decide)]
    decide
  · have hoffset : sub64 2 0 * 4096 % W64 = 8192 := by decide
    have hdataLen : (2 ^ 64 - 1) * 4096 % W64 = 2 ^ 64 - 4096 := by decide
    have hend : (8192 + (2 ^ 64 - 4096)) % W64 = 4096 := by decide
    unfold readExtentData oneWrite
    simp only [hoffset, hdataLen, hend, if_true, List.getElem?_cons_zero, List.length_replicate]
    rfl

end Read

end Lbd.Daemon
