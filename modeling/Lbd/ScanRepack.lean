import Lbd.Repack
import Lbd.ScanCrash

/-!
# Repacking the logs of a scanner

A scan logs byte lengths, the repacker counts blocks. The two agree on entries of whole
blocks. A scanner whose device has whole blocks and fewer than `2^32` bytes logs no others.
-/

namespace Lbd

namespace Scan

open LogName

attribute [local irreducible] Device.run Device.runLen

section Emission

variable {now : ℕ → ℕ} {seq block remaining : ℕ} {e : Entry}

theorem trimEntries_op (he : e ∈ trimEntries now seq block remaining) : e.op = .trim := by
  fun_induction trimEntries now seq block remaining with
  | case1 => cases he
  | case2 seq block remaining hpos chunk ih =>
    rcases List.mem_cons.mp he with rfl | he
    · rfl
    · exact ih he

theorem trimEntries_length_le (he : e ∈ trimEntries now seq block remaining) :
    0 < e.length ∧ e.length ≤ 2 ^ 32 - 1 := by
  fun_induction trimEntries now seq block remaining with
  | case1 => cases he
  | case2 seq block remaining hpos chunk ih =>
    rcases List.mem_cons.mp he with rfl | he
    · change 0 < chunk ∧ chunk ≤ _
      unfold chunk
      split_ifs <;> omega
    · exact ih he

theorem trimEntries_end_le (he : e ∈ trimEntries now seq block remaining) :
    e.block * scanBlockSize + e.length ≤ block * scanBlockSize + remaining := by
  fun_induction trimEntries now seq block remaining with
  | case1 => cases he
  | case2 seq block remaining hpos chunk ih =>
    have hle : chunk ≤ remaining := by
      unfold chunk
      split_ifs <;> omega
    rcases List.mem_cons.mp he with rfl | he
    · exact Nat.add_le_add_left hle _
    · have h := ih he
      have hblocks : chunk / scanBlockSize * scanBlockSize ≤ chunk := Nat.div_mul_le_self _ _
      rw [Nat.add_mul] at h
      omega

end Emission

theorem Device.length_buf (d : Device) (k : ℕ) : (d.buf k).length = scanRunSize := by
  induction k with
  | zero => exact List.length_replicate
  | succ k ih =>
    have hrun := d.length_run k
    have hle := d.runLen_le k
    rw [buf]
    split_ifs
    · exact ih
    · rw [List.length_append, List.length_drop, ih]
      omega

theorem Device.length_dataCopy (d : Device) (i : ℕ) : (d.dataCopy i).length = d.runLen i := by
  rw [dataCopy, List.length_take, d.length_buf, Nat.min_eq_left (d.runLen_le i)]

/-- A change lies where a run of the device starts, and its length is in range. -/
structure ScanResult.InRange (d : Device) (r : ScanResult) : Prop where
  block : r.block < d.totalRuns * scanRunBlocks
  length : r.length < 2 ^ 63
  data : r.isTrim = false → 0 < r.data.length ∧ r.data.length ≤ scanRunSize

section InRange

variable {δ : Type*} [DecidableEq δ] {sha : List UInt8 → δ} {d : Device} {db : ℕ → Option δ}
  {k : ℕ} {s : LoopState δ}

structure LoopState.InRange (d : Device) (s : LoopState δ) : Prop where
  entries : ∀ r ∈ s.logEntries, r.InRange d
  pending : ∀ start len, s.pending = some (start, len) → start < d.totalRuns ∧ len < 2 ^ 63

theorem int64_lt (z : ℤ) : int64 z < 2 ^ 63 := Int.bmod_lt (by norm_num)

omit [DecidableEq δ] in
theorem run_block_lt {i : ℕ} (hi : i < d.totalRuns) :
    i * scanRunBlocks < d.totalRuns * scanRunBlocks :=
  Nat.mul_lt_mul_of_pos_right hi (by decide)

omit [DecidableEq δ] in
theorem LoopState.InRange.flushTrim (h : s.InRange d) : s.flushTrim.InRange d where
  entries := by
    intro r hr
    rw [flushTrim_logEntries] at hr
    rcases List.mem_append.mp hr with hr | hr
    · exact h.entries r hr
    · cases hp : s.pending with
      | none => simp [hp] at hr
      | some p =>
        obtain ⟨start, len⟩ := p
        obtain ⟨hstart, hlen⟩ := h.pending start len hp
        simp only [hp, List.mem_singleton] at hr
        subst hr
        exact ⟨run_block_lt hstart, hlen, fun htrim => by cases htrim⟩
  pending := by simp

omit [DecidableEq δ] in
theorem LoopState.InRange.trimRun (h : s.InRange d) (hk : k < d.totalRuns) :
    (s.trimRun k (d.runLen k)).InRange d where
  entries := h.entries
  pending := by
    intro start len hp
    have hle := d.runLen_le k
    have hR : scanRunSize = 61440 := rfl
    unfold LoopState.trimRun at hp
    cases hs : s.pending with
    | none =>
      rw [hs] at hp
      cases hp
      exact ⟨hk, by omega⟩
    | some p =>
      rw [hs] at hp
      cases hp
      exact ⟨(h.pending _ _ hs).1, int64_lt _⟩

theorem LoopState.InRange.detectRun (h : s.InRange d) (hk : k < d.totalRuns) :
    (detectRun sha d db s k).InRange d := by
  have htrim := h.trimRun hk
  have hflush := h.flushTrim
  unfold Scan.detectRun
  dsimp only
  split_ifs with hzero hrow hopen hrow
  · exact htrim
  · exact h
  · exact ⟨htrim.entries, htrim.pending⟩
  · exact hflush
  · refine ⟨fun r hr => ?_, hflush.pending⟩
    rcases List.mem_append.mp hr with hr | hr
    · exact hflush.entries r hr
    · have hle := d.runLen_le k
      have hpos := Device.runLen_pos hk
      have hlen := d.length_dataCopy k
      have hR : scanRunSize = 61440 := rfl
      rw [List.mem_singleton.mp hr]
      exact ⟨run_block_lt hk, by dsimp only; omega, fun _ => by dsimp only; omega⟩

theorem inRange_detect {r : ScanResult} (hr : r ∈ (detect sha d db).logEntries) : r.InRange d := by
  have hall : ∀ k ≤ d.totalRuns, (detectRuns sha d db k).InRange d := by
    intro k hk
    induction k with
    | zero => exact ⟨by simp [detectRuns, LoopState.start], by simp [detectRuns, LoopState.start]⟩
    | succ k ih =>
      rw [detectRuns_succ]
      exact (ih (by omega)).detectRun hk
  exact (hall _ le_rfl).flushTrim.entries r hr

end InRange

def ScanResult.size (r : ScanResult) : ℕ := if r.isTrim then r.length.toNat else r.data.length

/-- The change reaches from the start of a run to the end of a run, among the first `k`. -/
def ScanResult.Spans (d : Device) (k : ℕ) (r : ScanResult) : Prop :=
  ∃ i j, i < j ∧ j ≤ k ∧ r.block = i * scanRunBlocks ∧ i * scanRunSize + r.size = d.reached j

theorem ScanResult.Spans.succ {d : Device} {k : ℕ} {r : ScanResult} (h : r.Spans d k) :
    r.Spans d (k + 1) := by
  obtain ⟨i, j, hij, hjk, hrest⟩ := h
  exact ⟨i, j, hij, by omega, hrest⟩

section Spans

variable {δ : Type*} {sha : List UInt8 → δ} {d : Device} {db : ℕ → Option δ} {k : ℕ}
  {s : LoopState δ}

structure LoopState.Spanned (d : Device) (k : ℕ) (s : LoopState δ) : Prop where
  entries : ∀ r ∈ s.logEntries, r.Spans d k
  pending : ∀ start len, s.pending = some (start, len) → start < k

theorem LoopState.Spanned.flushTrim (h : s.Spanned d k) (hends : s.EndsAt (d.reached k)) :
    s.flushTrim.Spanned d k where
  entries := by
    intro r hr
    rw [flushTrim_logEntries] at hr
    rcases List.mem_append.mp hr with hr | hr
    · exact h.entries r hr
    · cases hp : s.pending with
      | none => simp [hp] at hr
      | some p =>
        obtain ⟨start, len⟩ := p
        simp only [hp, List.mem_singleton] at hr
        subst hr
        obtain ⟨n, rfl, hn⟩ := hends start len hp
        exact ⟨start, k, h.pending start n hp, le_rfl, rfl, hn⟩
  pending := by simp

theorem LoopState.Spanned.trimRun (h : s.Spanned d k) (n : ℕ) :
    (s.trimRun k n).Spanned d (k + 1) where
  entries := fun r hr => (h.entries r hr).succ
  pending := by
    intro start len hp
    unfold LoopState.trimRun at hp
    cases hs : s.pending with
    | none =>
      rw [hs] at hp
      cases hp
      omega
    | some p =>
      rw [hs] at hp
      cases hp
      have := h.pending _ _ hs
      omega

variable [DecidableEq δ] (hsha : Function.Injective sha) (hfit : d.Fits)

include hsha hfit

theorem LoopState.Spanned.detectRun (h : s.Spanned d k) (hends : s.EndsAt (d.reached k))
    (hk : k < d.totalRuns) : (detectRun sha d db s k).Spanned d (k + 1) := by
  have hflush := h.flushTrim hends
  have htrim := h.trimRun (d.runLen k)
  have hsucc : s.flushTrim.Spanned d (k + 1) :=
    ⟨fun r hr => (hflush.entries r hr).succ, by simp⟩
  rw [detectRun_eq hsha hk hfit]
  split_ifs
  · exact htrim
  · refine ⟨fun r hr => (h.entries r hr).succ, fun start len hp => ?_⟩
    have := h.pending start len hp
    omega
  · exact ⟨htrim.entries, htrim.pending⟩
  · exact hsucc
  · refine ⟨fun r hr => ?_, hsucc.pending⟩
    rcases List.mem_append.mp hr with hr | hr
    · exact hsucc.entries r hr
    · rw [List.mem_singleton.mp hr]
      refine ⟨k, k + 1, by omega, le_rfl, rfl, ?_⟩
      rw [Device.reached_succ hk hfit, ← Device.length_run_eq hk hfit]
      exact congrArg _ (if_neg Bool.false_ne_true)

theorem spans_detect {r : ScanResult} (hr : r ∈ (detect sha d db).logEntries) :
    r.Spans d d.totalRuns := by
  have hall : ∀ k ≤ d.totalRuns, (detectRuns sha d db k).Spanned d k := by
    intro k hk
    induction k with
    | zero => exact ⟨by simp [detectRuns, LoopState.start], by simp [detectRuns, LoopState.start]⟩
    | succ k ih =>
      rw [detectRuns_succ]
      exact (ih (by omega)).detectRun hsha hfit (progress_detectRuns hsha hfit (by omega)).endsAt hk
  have hends : (detectRuns sha d db d.totalRuns).EndsAt _ :=
    (progress_detectRuns hsha hfit le_rfl).endsAt
  exact ((hall _ le_rfl).flushTrim hends).entries r hr

end Spans

theorem ScanResult.Spans.fits {d : Device} {r : ScanResult} (h : r.Spans d d.totalRuns) :
    0 < r.size ∧ r.block * scanBlockSize + r.size ≤ d.size := by
  obtain ⟨i, j, hij, hj, hblock, hsize⟩ := h
  have hi := d.lt_totalRuns_iff (i := i) |>.mp (by omega)
  have hmul : i * scanRunSize < j * scanRunSize := Nat.mul_lt_mul_of_pos_right hij (by decide)
  rw [hblock, run_mul]
  unfold Device.reached at hsize
  omega

theorem ScanResult.Spans.dvd {d : Device} {r : ScanResult} (h : r.Spans d d.totalRuns)
    (hd : scanBlockSize ∣ d.size) : scanBlockSize ∣ r.size := by
  obtain ⟨i, j, hij, hj, hblock, hsize⟩ := h
  have hrun : ∀ n, scanBlockSize ∣ n * scanRunSize := fun n =>
    Dvd.dvd.mul_left (Nat.dvd_mul_left _ _) n
  have hreached : scanBlockSize ∣ d.reached j := by
    unfold Device.reached
    rcases min_choice (j * scanRunSize) d.size with h | h <;> rw [h]
    · exact hrun j
    · exact hd
  rw [← hsize] at hreached
  exact (Nat.dvd_add_right (hrun i)).mp hreached

theorem mem_logEntries {now : ℕ → ℕ} {seq : ℕ} {rs : List ScanResult} {e : Entry}
    (h : e ∈ logEntries now seq rs) : ∃ r ∈ rs, ∃ seq', e ∈ r.entries now seq' := by
  induction rs generalizing seq with
  | nil => cases h
  | cons r rs ih =>
    rw [logEntries] at h
    rcases List.mem_append.mp h with h | h
    · exact ⟨r, List.mem_cons_self, seq, h⟩
    · obtain ⟨r', hr', hrest⟩ := ih h
      exact ⟨r', List.mem_cons_of_mem _ hr', hrest⟩

theorem logEntries_append (now : ℕ → ℕ) (seq : ℕ) (rs rs' : List ScanResult) :
    logEntries now seq (rs ++ rs') =
      logEntries now seq rs ++ logEntries now (seq + (logEntries now seq rs).length) rs' := by
  induction rs generalizing seq with
  | nil => rfl
  | cons r rs ih =>
    simp only [List.cons_append, logEntries, ih, List.append_assoc, List.length_append,
      Nat.add_assoc]

theorem ScanResult.entries_of_lt {r : ScanResult} (hpos : 0 < r.size) (hlt : r.size < 2 ^ 32)
    (now : ℕ → ℕ) (seq : ℕ) :
    ∃ e, r.entries now seq = [e] ∧ e.block = r.block ∧ e.length = r.size ∧
      (e.op = .trim ∨ e.op = .write ∧ e.data.length = r.size) := by
  unfold entries
  unfold size at hpos hlt ⊢
  split_ifs at hpos hlt ⊢
  · exact ⟨_, trimEntries_of_lt hpos hlt now seq r.block, rfl, rfl, .inl rfl⟩
  · exact ⟨_, rfl, rfl, Nat.mod_eq_of_lt hlt, .inr ⟨rfl, rfl⟩⟩

theorem World.logs_after {δ : Type*} [DecidableEq δ] {sha : List UInt8 → δ}
    {calls : List (Call × Point)} {log : Name × Segment}
    (h : log ∈ (World.after sha calls).logs.entries) :
    ∃ c ∈ calls, ∃ db, log.2 = c.1.segment (detect sha c.1.device db).logEntries := by
  induction calls using List.reverseRecOn with
  | nil => cases h
  | append_singleton calls c ih =>
    have hold : log ∈ (World.after sha calls).logs.entries → ∃ c' ∈ calls ++ [c], ∃ db,
        log.2 = c'.1.segment (detect sha c'.1.device db).logEntries := by
      intro h
      obtain ⟨c', hc', hrest⟩ := ih h
      exact ⟨c', List.mem_append_left _ hc', hrest⟩
    have hput : log ∈ ((World.after sha calls).logs.insert (logPath c.1.label)
        (c.1.segment (detect sha c.1.device (World.after sha calls).db).logEntries)).entries →
        ∃ c' ∈ calls ++ [c], ∃ db,
          log.2 = c'.1.segment (detect sha c'.1.device db).logEntries := by
      intro h
      rcases SortedMap.mem_insert.mp h with h | ⟨h, -⟩
      · exact ⟨c, by simp, (World.after sha calls).db, by rw [h]⟩
      · exact hold h
    rw [after_concat, scanDevice] at h
    dsimp only at h
    split_ifs at h
    · exact hold h
    · cases hp : c.2 <;> rw [hp] at h
      · exact hold h
      · exact hold h
      · exact hput h
      · exact hput h

theorem rounded_of_valid {bs : ℕ} {e : Entry} (h : e.Valid bs) :
    ∀ x, (e.rounded bs).byteAt bs x = e.byteAt bs x := by
  intro x
  have hmul := h.numBlocks_mul
  unfold Entry.rounded Entry.byteAt
  rw [hmul]
  rcases h.op with hop | hop
  · rw [List.take_of_length_le (h.data hop).le]
  · simp only [hop]

theorem roundable_of_valid {bs : ℕ} {e : Entry} (h : e.Valid bs) : e.Roundable bs where
  op := h.op
  fits := h.numBlocks_mul ▸ h.fits
  data := fun hop => by rw [h.numBlocks_mul, h.data hop]

/-- An entry of a scan lies on the device's blocks; a write has all its data. -/
structure Logged (e : Entry) : Prop where
  op : e.op = .write ∨ e.op = .trim
  pos : 0 < e.length
  lt : e.length < 2 ^ 32
  data : e.op = .write → e.data.length = e.length
  noWrap : e.NoWrap scanBlockSize

theorem noWrap_of_end_lt {e : Entry} (h : e.block * scanBlockSize + e.length < 2 ^ 65) :
    e.NoWrap scanBlockSize := by
  have hnum : e.numBlocks scanBlockSize ≤ e.length / scanBlockSize + 1 := by
    unfold Entry.numBlocks
    generalize e.length / scanBlockSize = n
    dsimp only
    split_ifs <;> omega
  unfold Entry.NoWrap scanBlockSize W64 at *
  omega

theorem ScanResult.InRange.logged {d : Device} {r : ScanResult} (h : r.InRange d) {now : ℕ → ℕ}
    {seq : ℕ} {e : Entry} (he : e ∈ r.entries now seq) : Logged e := by
  have hblock : r.block * scanBlockSize < 2 ^ 63 + scanRunSize := by
    have hruns := d.lt_totalRuns_iff (i := d.totalRuns - 1)
    have hsize := d.size_lt
    have hb := h.block
    unfold scanRunSize scanRunBlocks scanBlockSize at *
    omega
  have hR : scanRunSize = 61440 := rfl
  unfold entries at he
  split_ifs at he with htrim
  · have hend := trimEntries_end_le he
    have hlen := h.length
    obtain ⟨hpos, hle⟩ := trimEntries_length_le he
    have hop := trimEntries_op he
    refine ⟨.inr hop, hpos, by omega, fun hw => ?_, noWrap_of_end_lt (by omega)⟩
    rw [hop] at hw
    cases hw
  · obtain ⟨hpos, hle⟩ := h.data (by simpa using htrim)
    obtain rfl := List.mem_singleton.mp he
    have hmod : r.data.length % 2 ^ 32 = r.data.length := Nat.mod_eq_of_lt (by omega)
    refine ⟨.inl rfl, ?_, ?_, fun _ => hmod.symm, noWrap_of_end_lt ?_⟩ <;> dsimp only <;>
      rw [hmod] <;> omega

section Whole

variable {δ : Type*} [DecidableEq δ] {sha : List UInt8 → δ}

/-- Every logged write and every logged trim is a number of whole blocks. -/
def WholeBlocks (logs : List (Name × Segment)) : Prop :=
  ∀ log ∈ logs, ∀ e ∈ log.2.entries, scanBlockSize ∣ e.length

theorem logged_after {calls : List (Call × Point)} {log : Name × Segment}
    (hlog : log ∈ (World.after sha calls).logs.entries) :
    log.2.header.blockSize = scanBlockSize ∧ ∀ e ∈ log.2.entries, Logged e := by
  obtain ⟨c, -, db, hseg⟩ := World.logs_after hlog
  rw [hseg]
  refine ⟨rfl, fun e he => ?_⟩
  obtain ⟨r, hr, seq, he⟩ := mem_logEntries he
  exact (inRange_detect hr).logged he

theorem runRepack_of_wholeBlocks {calls : List (Call × Point)}
    (hne : (World.after sha calls).logs.entries ≠ [])
    (hwhole : WholeBlocks (World.after sha calls).logs.entries) (label : Name) :
    ∃ out, runRepack label (World.after sha calls).logs.entries = .ok out ∧
      ∀ x, out.apply (fun _ => 0) x = (World.after sha calls).bytes x := by
  have hbs : ∀ log ∈ (World.after sha calls).logs.entries,
      log.2.header.blockSize = scanBlockSize := fun log hlog => (logged_after hlog).1
  have hvalid : ∀ log ∈ (World.after sha calls).logs.entries, ∀ e ∈ log.2.entries,
      e.Valid scanBlockSize ∧ e.NoWrap scanBlockSize := by
    intro log hlog e he
    have h := (logged_after hlog).2 e he
    exact ⟨⟨h.op, h.pos, hwhole log hlog e he, h.lt, h.data⟩, h.noWrap⟩
  obtain ⟨out, hout, hbytes⟩ := runRepack_rounds (by decide) label hne hbs
    (fun log hlog e he => roundable_of_valid (hvalid log hlog e he).1)
    (fun log hlog e he => (hvalid log hlog e he).2)
  refine ⟨out, hout, fun x => ?_⟩
  rw [hbytes, World.bytes, replay_eq_entries hbs]
  congr 2
  refine List.map_congr_left fun e he => ?_
  obtain ⟨log, hlog, he⟩ := List.mem_flatMap.mp he
  exact rounded_of_valid (hvalid log hlog e he).1 x

/-- Whatever the scans of a history wrote, of devices of any sizes and stopped anywhere: if it is
whole blocks, it is repacked without a slice out of range, and to the same bytes. -/
theorem repack_keeps_scans (calls : List (Call × Point))
    (hne : (World.after sha calls).logs.entries ≠ [])
    (hwhole : WholeBlocks (World.after sha calls).logs.entries) (label : Name) :
    ∃ out, runRepack label (World.after sha calls).logs.entries = .ok out ∧
      ∀ x, out.apply (fun _ => 0) x = (World.after sha calls).bytes x :=
  runRepack_of_wholeBlocks hne hwhole label

end Whole

section Survive

variable {δ : Type*} [DecidableEq δ] {sha : List UInt8 → δ} {size : ℕ}

/-- The calls of a scanner that always succeeds. -/
def completed (calls : List Call) : List (Call × Point) := calls.map fun c => (c, .committed)

/-- Whatever the contents of a device of `size` bytes, the logs of its scans can be repacked,
and the result replays to the same bytes on the device. -/
def Survives (sha : List UInt8 → δ) (size : ℕ) : Prop :=
  ∀ calls : List Call, Clocked (completed calls) → (∀ c ∈ calls, c.device.size = size) →
    (World.after sha (completed calls)).logs.entries ≠ [] → ∀ label, ∃ out,
      runRepack label (World.after sha (completed calls)).logs.entries = .ok out ∧
      ∀ x < size, out.apply (fun _ => 0) x = (World.after sha (completed calls)).bytes x

/-- On a device of whole blocks, a change below `2^32` bytes is logged as whole blocks. -/
theorem dvd_of_spans {d : Device} {r : ScanResult} (h : r.Spans d d.totalRuns)
    (hd : scanBlockSize ∣ d.size) (hlt : r.size < 2 ^ 32) {now : ℕ → ℕ} {seq : ℕ} {e : Entry}
    (he : e ∈ r.entries now seq) : scanBlockSize ∣ e.length := by
  obtain ⟨e', hentries, -, hlen, -⟩ := r.entries_of_lt h.fits.1 hlt now seq
  rw [hentries] at he
  obtain rfl := List.mem_singleton.mp he
  exact hlen ▸ h.dvd hd

theorem wholeBlocks_of_size (hsha : Function.Injective sha) {calls : List (Call × Point)}
    (hd : ∀ c ∈ calls, scanBlockSize ∣ c.1.device.size ∧ c.1.device.size < 2 ^ 32) :
    WholeBlocks (World.after sha calls).logs.entries := by
  intro log hlog e he
  obtain ⟨c, hc, db, hseg⟩ := World.logs_after hlog
  rw [hseg] at he
  obtain ⟨r, hr, seq, he⟩ := mem_logEntries he
  obtain ⟨hdvd, hlt⟩ := hd c hc
  have hspans := spans_detect hsha ⟨hlt.le.trans (by norm_num [scanLimit])⟩ hr
  have hfit := hspans.fits.2
  exact dvd_of_spans hspans hdvd (by omega) he

theorem survives_of_size (hsha : Function.Injective sha) {size : ℕ} (hd : scanBlockSize ∣ size)
    (hlt : size < 2 ^ 32) : Survives sha size := by
  intro calls _ hsize hne label
  have hwhole : WholeBlocks (World.after sha (completed calls)).logs.entries := by
    refine wholeBlocks_of_size hsha fun c hc => ?_
    obtain ⟨c', hc', rfl⟩ := List.mem_map.mp hc
    rw [hsize c' hc']
    exact ⟨hd, hlt⟩
  obtain ⟨out, hout, hbytes⟩ := runRepack_of_wholeBlocks hne hwhole label
  exact ⟨out, hout, fun x _ => hbytes x⟩

end Survive

/-- A device full of ones. -/
def ones (size : ℕ) (h : size ≤ scanLimit) : Device :=
  .plain size (fun _ => 1) (h.trans_lt scanLimit_lt)

theorem ones_fits {size : ℕ} (h : size ≤ scanLimit) : (ones size h).Fits := ⟨h⟩

def scanAt (d : Device) (t : ℕ) : Call := ⟨d, "disk", t, fun _ => 0⟩

section Ones

variable {δ : Type*} [DecidableEq δ] {sha : List UInt8 → δ} (hsha : Function.Injective sha)
  {size : ℕ} (h : size ≤ scanLimit)

theorem one_ne_zero_byte : (1 : UInt8) ≠ 0 := by decide

theorem ones_run_ne_zero {j : ℕ} (hj : j < (ones size h).totalRuns) :
    (ones size h).run j ≠ List.replicate ((ones size h).runLen j) 0 :=
  Device.run_ne_zero hj (ones_fits h) one_ne_zero_byte

/-- What a scan logs for run `i` when it stores the run. -/
def runWrite (d : Device) (i : ℕ) : ScanResult :=
  ⟨i * scanRunBlocks, false, d.run i, crc32 (d.run i), (d.run i).length⟩

include hsha

theorem detectRuns_fresh {d : Device} (hfit : d.Fits)
    (hnz : ∀ j < d.totalRuns, d.run j ≠ List.replicate (d.runLen j) 0) {k : ℕ}
    (hk : k ≤ d.totalRuns) :
    (detectRuns sha d (fun _ => none) k).pending = none ∧
      (detectRuns sha d (fun _ => none) k).logEntries = (List.range k).map (runWrite d) := by
  induction k with
  | zero => exact ⟨rfl, rfl⟩
  | succ k ih =>
    obtain ⟨hnone, hlog⟩ := ih (by omega)
    rw [detectRuns_succ, detectRun_eq hsha (by omega) hfit, if_neg (hnz k (by omega)),
      if_neg (by simp), LoopState.flushTrim_of_none hnone]
    refine ⟨hnone, ?_⟩
    rw [List.range_succ, List.map_append, ← hlog]
    rfl

theorem detect_ones : (detect sha (ones size h) fun _ => none).logEntries =
    (List.range (ones size h).totalRuns).map (runWrite (ones size h)) := by
  obtain ⟨hnone, hlog⟩ := detectRuns_fresh hsha (ones_fits h)
    (fun j hj => ones_run_ne_zero h hj) le_rfl
  rw [detect, LoopState.flushTrim_of_none hnone, hlog]

/-- The segment of the first scan. -/
def onesSegment (size : ℕ) (h : size ≤ scanLimit) : Segment :=
  (scanAt (ones size h) 0).segment
    ((List.range (ones size h).totalRuns).map (runWrite (ones size h)))

omit hsha [DecidableEq δ] in
theorem mem_onesSegment {e : Entry} (he : e ∈ (onesSegment size h).entries) :
    ∃ i < (ones size h).totalRuns, e.op = .write ∧ e.block = i * scanRunBlocks ∧
      e.length = (ones size h).runLen i ∧ e.data = (ones size h).run i := by
  obtain ⟨r, hr, seq, he⟩ := mem_logEntries he
  obtain ⟨i, hi, rfl⟩ := List.mem_map.mp hr
  obtain rfl := List.mem_singleton.mp he
  refine ⟨i, List.mem_range.mp hi, rfl, rfl, ?_, rfl⟩
  have hle := (ones size h).runLen_le i
  have hlen := Device.length_run_eq (List.mem_range.mp hi) (ones_fits h)
  have hlt : (ones size h).runLen i < 2 ^ 32 := hle.trans_lt (by decide)
  change ((ones size h).run i).length % 2 ^ 32 = _
  rw [hlen, Nat.mod_eq_of_lt hlt]

omit hsha [DecidableEq δ] in
theorem noWrap_onesSegment {e : Entry} (he : e ∈ (onesSegment size h).entries) :
    e.NoWrap scanBlockSize := by
  obtain ⟨i, hi, -, hblock, hlen, -⟩ := mem_onesSegment h he
  have hend := Device.trim_end_lt hi (ones_fits h)
  refine noWrap_of_end_lt ?_
  rw [hblock, run_mul, hlen]
  omega

theorem logs_ones (hpos : 0 < size) :
    (World.after sha (completed [scanAt (ones size h) 0])).logs.entries =
      [(logPath (scanAt (ones size h) 0).label, onesSegment size h)] := by
  have hruns : 0 < (ones size h).totalRuns := by
    rw [Device.lt_totalRuns_iff, Nat.zero_mul]
    exact hpos
  have hne : (detect sha (ones size h) fun _ => none).logEntries ≠ [] := by
    rw [detect_ones hsha]
    simpa using hruns.ne'
  have hlogs := World.logs_scanDevice (w := .empty) (c := scanAt (ones size h) 0) nofun hne
  have hdetect : detect sha (scanAt (ones size h) 0).device World.empty.db =
      detect sha (ones size h) fun _ => none := rfl
  rw [hdetect, detect_ones hsha] at hlogs
  exact hlogs

theorem bytes_ones {x : ℕ} (hx : x < size) :
    (World.after sha (completed [scanAt (ones size h) 0])).bytes x = 1 := by
  have hempty := World.agrees_empty sha
  change (World.scanDevice sha .empty (scanAt (ones size h) 0) .committed).bytes x = 1
  rw [hempty.bytes_eq hsha (ones_fits h)
    (shortTrims_of_nonzero hsha _ (ones_fits h) fun j hj => ones_run_ne_zero h hj)
    fun n hn => absurd hn List.not_mem_nil]
  exact if_pos hx

omit hsha [DecidableEq δ] in
theorem repack_short_tail (label name : Name) {i : ℕ} (hi : (ones size h).totalRuns = i + 1)
    (hlen : (ones size h).runLen i < scanBlockSize) :
    runRepack label [(name, onesSegment size h)] = .error .sliceOutOfRange := by
  -- the last entry is the write of the last run
  obtain ⟨pre, e, hes, hblock, hop, hd⟩ : ∃ pre e, (onesSegment size h).entries = pre ++ [e] ∧
      e.block = i * scanRunBlocks ∧ e.op = .write ∧ e.data.length = (ones size h).runLen i := by
    have hentries : (onesSegment size h).entries = logEntries (fun _ => 0) 0
        ((List.range (ones size h).totalRuns).map (runWrite (ones size h))) := rfl
    rw [hi, List.range_succ, List.map_append, logEntries_append] at hentries
    exact ⟨_, _, hentries, rfl, rfl, Device.length_run_eq (by omega) (ones_fits h)⟩
  have hw : ∀ e ∈ (onesSegment size h).entries, e.NoWrap scanBlockSize :=
    fun e he => noWrap_onesSegment h he
  have hnum : e.numBlocks scanBlockSize = 1 := by
    obtain ⟨j, hjr, -, -, hj, hdj⟩ := mem_onesSegment h (e := e) (hes ▸ by simp)
    have hjl := Device.length_run_eq hjr (ones_fits h)
    rw [← hdj, hd] at hjl
    rw [Entry.numBlocks, hj, ← hjl, Nat.div_eq_of_lt hlen]
    rfl
  obtain ⟨r, hr, hr1, hr2⟩ := uncoveredPieces_complete hw hes (b := e.block)
    ⟨le_rfl, by omega⟩ (by simp)
  obtain ⟨-, -, -, hpart, -⟩ := uncoveredPieces_sound hw hr
  have hlo : r.lo = e.block := le_antisymm hr1 hpart.lo
  have hhi : r.hi = e.block + 1 := by
    have := hpart.hi
    dsimp only at this
    omega
  have hnone : ∀ seq, repackEntry scanBlockSize seq e r = none := by
    intro seq
    have hend : e.block + 1 < W64 := hnum ▸ hw e (hes ▸ by simp)
    have hmod : scanBlockSize % W64 = scanBlockSize := by decide
    have hslice : ¬ scanBlockSize ≤ e.data.length := by omega
    rw [repackEntry, splitEntry, hlo, hhi, sub64_of_le le_rfl (by omega),
      sub64_of_le (by omega) hend, Nat.sub_self, Nat.add_sub_cancel_left, Nat.one_mul, hmod]
    simp [Entry.isWrite, hop, slice, hslice]
  have hall := repackEntries_eq_none hr hnone 0
  have hbs : (onesSegment size h).header.blockSize = scanBlockSize := rfl
  simp only [runRepack, hbs, List.flatMap_cons, List.flatMap_nil, List.append_nil, hall]

omit hsha [DecidableEq δ] in
theorem rounded_onesSegment {e : Entry} (he : e ∈ (onesSegment size h).entries)
    (hlen : scanBlockSize ≤ e.length) :
    e.Roundable scanBlockSize ∧ ∀ x, e.block * scanBlockSize + e.length / scanBlockSize *
      scanBlockSize ≤ x → (e.rounded scanBlockSize).byteAt scanBlockSize x = none := by
  obtain ⟨i, hi, hop, hblock, hl, hd⟩ := mem_onesSegment h he
  have hle := (ones size h).runLen_le i
  have hdata : e.data.length = e.length := by
    rw [hd, hl, Device.length_run_eq hi (ones_fits h)]
  have hnum : e.numBlocks scanBlockSize = e.length / scanBlockSize := by
    have hpos : 0 < e.length / scanBlockSize := Nat.div_pos hlen (by decide)
    exact if_neg hpos.ne'
  have hmul : e.length / scanBlockSize * scanBlockSize ≤ e.length := Nat.div_mul_le_self _ _
  constructor
  · refine ⟨.inl hop, ?_, fun _ => by rw [hnum, hdata]; exact hmul⟩
    rw [hnum]
    unfold scanRunSize scanRunBlocks scanBlockSize at *
    omega
  · intro x hx
    have hop' : (e.rounded scanBlockSize).op = .write := hop
    unfold Entry.byteAt
    rw [hop']
    simp only [Entry.rounded, hnum]
    rw [if_pos (by omega), List.getElem?_eq_none]
    rw [List.length_take]
    omega

omit hsha [DecidableEq δ] in
theorem repack_odd_tail (label name : Name) {i : ℕ} (hi : (ones size h).totalRuns = i + 1)
    (hlen : scanBlockSize ≤ (ones size h).runLen i) (hodd : ¬ scanBlockSize ∣ size) :
    ∃ out, runRepack label [(name, onesSegment size h)] = .ok out ∧
      out.apply (fun _ => 0) (size - 1) = 0 := by
  have hsize : (ones size h).size = size := rfl
  have hlast := (ones size h).lt_totalRuns_iff (i := i) |>.mp (by omega)
  have hover := (ones size h).lt_totalRuns_iff (i := i + 1)
  have hrun : ∀ j ≤ i, (ones size h).runLen j =
      if j < i then scanRunSize else size - i * scanRunSize := by
    intro j hj
    rw [Device.runLen_eq_min (by omega) (ones_fits h), hsize]
    rcases Nat.lt_or_eq_of_le hj with hlt | rfl
    · have hmul : (j + 1) * scanRunSize ≤ i * scanRunSize := Nat.mul_le_mul_right _ hlt
      rw [Nat.succ_mul] at hmul
      rw [if_pos hlt]
      omega
    · rw [Nat.succ_mul] at hover
      rw [if_neg (lt_irrefl _)]
      omega
  have hentry : ∀ e ∈ (onesSegment size h).entries, e.Roundable scanBlockSize ∧
      (e.rounded scanBlockSize).byteAt scanBlockSize (size - 1) = none := by
    intro e he
    obtain ⟨j, hj, -, hblock, hl, -⟩ := mem_onesSegment h he
    have hj' := hrun j (by omega)
    have hRlen : scanBlockSize ≤ e.length := by
      rw [hl, hj']
      split_ifs with hlt
      · decide
      · rw [hrun i le_rfl, if_neg (lt_irrefl _)] at hlen
        exact hlen
    obtain ⟨hround, hnone⟩ := rounded_onesSegment h he hRlen
    refine ⟨hround, hnone _ ?_⟩
    rw [hblock, run_mul, hl, hj']
    split_ifs with hlt
    · have hmul : (j + 1) * scanRunSize ≤ i * scanRunSize := Nat.mul_le_mul_right _ hlt
      rw [Nat.succ_mul] at hmul
      have hR : scanRunSize / scanBlockSize * scanBlockSize = scanRunSize := by decide
      rw [hR]
      omega
    · obtain rfl : j = i := by omega
      unfold scanRunSize scanRunBlocks scanBlockSize at *
      omega
  have hbs : 0 < scanBlockSize := by decide
  have hblock : ∀ log ∈ [(name, onesSegment size h)], log.2.header.blockSize = scanBlockSize := by
    simp only [List.mem_singleton, forall_eq]
    rfl
  obtain ⟨out, hout, hbytes⟩ := runRepack_rounds hbs label (by simp) hblock
    (by simpa using fun e he => (hentry e he).1)
    (by simpa using fun e he => noWrap_onesSegment h he)
  refine ⟨out, hout, ?_⟩
  rw [hbytes, lastSome_eq_none.mpr, Option.getD_none]
  intro o ho
  obtain ⟨e, he, rfl⟩ := List.mem_map.mp ho
  exact (hentry e (by simpa using he)).2

end Ones

section LongTrim

variable {δ : Type*} [DecidableEq δ] {sha : List UInt8 → δ} (hsha : Function.Injective sha)

theorem trimEntries_two {r : ℕ} (hpos : 0 < r) (h : r < 2 ^ 32) (now : ℕ → ℕ) (seq : ℕ) :
    trimEntries now seq 0 (2 ^ 32 - 1 + r) =
      [⟨.trim, now seq, seq, 0, 2 ^ 32 - 1, 0, []⟩,
        ⟨.trim, now (seq + 1), seq + 1, 1048575, r, 0, []⟩] := by
  have hchunk : (if 2 ^ 32 - 1 < 2 ^ 32 - 1 + r then 2 ^ 32 - 1 else 2 ^ 32 - 1 + r) = 2 ^ 32 - 1 :=
    if_pos (by omega)
  rw [trimEntries, if_neg (by omega), hchunk]
  dsimp only
  rw [Nat.add_sub_cancel_left, trimEntries_of_lt hpos h]
  rfl

include hsha

/-- A scan that finds the first `k` runs zeroed and the others unchanged logs one trim. -/
theorem detect_zeroed {d : Device} (hfit : d.Fits) {db : ℕ → Option δ} {k : ℕ} (hpos : 0 < k)
    (hk : k ≤ d.totalRuns)
    (hz : ∀ j < k, d.run j = List.replicate (d.runLen j) 0 ∧
      db (j * scanRunSize) ≠ some (sha (d.run j)))
    (hu : ∀ j, k ≤ j → j < d.totalRuns → d.run j ≠ List.replicate (d.runLen j) 0 ∧
      db (j * scanRunSize) = some (sha (d.run j))) :
    (detect sha d db).logEntries = [⟨0, true, [], 0, d.reached k⟩] := by
  have hzero : ∀ n, n < k → (detectRuns sha d db (n + 1)).logEntries = [] ∧
      (detectRuns sha d db (n + 1)).pending = some (0, (d.reached (n + 1) : ℤ)) := by
    intro n hn
    induction n with
    | zero =>
      rw [detectRuns_succ, detectRun_eq hsha (by omega) hfit, if_pos (hz 0 hn).1,
        if_neg (hz 0 hn).2,
        Device.reached_succ (by omega) hfit, Nat.zero_mul, Nat.zero_add]
      exact ⟨rfl, rfl⟩
    | succ n ih =>
      obtain ⟨hlog, hpend⟩ := ih (by omega)
      rw [detectRuns_succ, detectRun_eq hsha (by omega) hfit, if_pos (hz _ hn).1,
        if_neg (hz _ hn).2,
        Device.reached_succ (by omega) hfit]
      refine ⟨hlog, ?_⟩
      simp only [LoopState.update, LoopState.trimRun, hpend]
      have hlt := Device.trim_end_lt (show n + 1 < d.totalRuns by omega) hfit
      have hsum := int64_of_lt hlt
      push_cast at hsum
      rw [Device.reached_of_lt (by omega)]
      push_cast
      rw [hsum]
  have hall : ∀ n, k ≤ n → n ≤ d.totalRuns → (detectRuns sha d db n).flushTrim.logEntries =
      [⟨0, true, [], 0, d.reached k⟩] := by
    intro n hn
    induction n, hn using Nat.le_induction with
    | base =>
      intro _
      obtain ⟨k, rfl⟩ := Nat.exists_eq_succ_of_ne_zero hpos.ne'
      obtain ⟨hlog, hpend⟩ := hzero k (by omega)
      simp [LoopState.flushTrim_logEntries, hlog, hpend]
    | succ n hn ih =>
      intro hle
      obtain ⟨hnz, hrow⟩ := hu n hn (by omega)
      rw [detectRuns_succ, detectRun_eq hsha (by omega) hfit, if_neg hnz, if_pos hrow,
        LoopState.flushTrim_flushTrim, ih (by omega)]
  exact hall _ hk le_rfl

/-- A device whose first `T` bytes are zero and the others one. -/
def zeroed (T size : ℕ) (h : size ≤ scanLimit) : Device :=
  .plain size (fun x => if x < T then 0 else 1) (h.trans_lt scanLimit_lt)

omit hsha [DecidableEq δ] in
theorem zeroed_fits {T size : ℕ} (h : size ≤ scanLimit) : (zeroed T size h).Fits := ⟨h⟩

section Zeroed

variable {size : ℕ} (h : size ≤ scanLimit)

omit hsha [DecidableEq δ] in
theorem zeroed_run_eq {T j : ℕ} (hrun : j < (zeroed T size h).totalRuns)
    (hj : ∀ x, j * scanRunSize ≤ x →
    x < j * scanRunSize + (zeroed T size h).runLen j → x < T) :
    (zeroed T size h).run j = List.replicate ((zeroed T size h).runLen j) 0 := by
  rw [Device.run_eq hrun (zeroed_fits h)]
  unfold window
  rw [List.map_eq_replicate_iff.mpr, List.length_range]
  intro i hi
  have hlt := List.mem_range.mp hi
  exact if_pos (hj _ (by omega) (by omega))

omit hsha [DecidableEq δ] in
theorem zeroed_runLen (T j : ℕ) : (zeroed T size h).runLen j = (ones size h).runLen j := by
  unfold Device.runLen
  rfl

omit hsha [DecidableEq δ] in
theorem zeroed_run_of_ge {T j : ℕ} (hj : T ≤ j * scanRunSize) :
    (zeroed T size h).run j = (ones size h).run j := by
  rw [Device.run, Device.run, zeroed_runLen]
  exact window_congr fun a ha _ => if_neg (by omega)

theorem detect_second {k : ℕ} (hpos : 0 < k) (hk : k ≤ (ones size h).totalRuns) :
    (detect sha (zeroed ((ones size h).reached k) size h)
      (World.after sha (completed [scanAt (ones size h) 0])).db).logEntries =
        [⟨0, true, [], 0, (ones size h).reached k⟩] := by
  have hdb : ∀ j < (ones size h).totalRuns,
      (World.after sha (completed [scanAt (ones size h) 0])).db (j * scanRunSize) =
        some (sha ((ones size h).run j)) := by
    intro j hj
    change (World.scanDevice sha .empty (scanAt (ones size h) 0) .committed).db _ = _
    rw [World.db_scanDevice, if_pos rfl,
      newRows_eq hsha (show (scanAt (ones size h) 0).device.Fits from ones_fits h), recorded,
      Nat.mul_div_cancel _ (by decide), if_pos ⟨Nat.mul_mod_left _ _, hj⟩]
    rfl
  have hz : ∀ j < k, (zeroed ((ones size h).reached k) size h).run j =
      List.replicate ((zeroed ((ones size h).reached k) size h).runLen j) 0 := by
    intro j hj
    refine zeroed_run_eq h (show j < (ones size h).totalRuns by omega) fun x _ hx => ?_
    have hend : (ones size h).reached (j + 1) = j * scanRunSize + (ones size h).runLen j :=
      Device.reached_succ (by omega) (ones_fits h)
    have hmul : (j + 1) * scanRunSize ≤ k * scanRunSize := Nat.mul_le_mul_right _ hj
    have hmono : (ones size h).reached (j + 1) ≤ (ones size h).reached k := min_le_min_right _ hmul
    rw [zeroed_runLen] at hx
    omega
  refine detect_zeroed hsha (zeroed_fits h) hpos hk (fun j hj => ⟨hz j hj, ?_⟩) fun j hj hjn => ?_
  · rw [hdb j (by omega), hz j hj, zeroed_runLen]
    intro heq
    exact ones_run_ne_zero h (hj.trans_le hk) (hsha (Option.some.inj heq))
  · have hge : (ones size h).reached k ≤ j * scanRunSize :=
      (min_le_left _ _).trans (Nat.mul_le_mul_right _ hj)
    have hrun := zeroed_run_of_ge h hge
    rw [hrun, zeroed_runLen, hdb j hjn]
    exact ⟨ones_run_ne_zero h hjn, rfl⟩

/-- The two entries of a trim of `2^32 - 1 + r` bytes. -/
def longTrim (r : ℕ) : List Entry :=
  [⟨.trim, 0, 0, 0, 2 ^ 32 - 1, 0, []⟩, ⟨.trim, 0, 1, 1048575, r, 0, []⟩]

omit hsha [DecidableEq δ] in
theorem numBlocks_eq_max (bs : ℕ) (e : Entry) : e.numBlocks bs = max (e.length / bs) 1 := by
  unfold Entry.numBlocks
  generalize e.length / bs = n
  dsimp only
  split_ifs <;> omega

omit hsha [DecidableEq δ] in
theorem trim_byteAt {e : Entry} (h : e.op = .trim) {y : ℕ} (hy : e.block * scanBlockSize ≤ y) :
    e.byteAt scanBlockSize y = if y < e.block * scanBlockSize + e.length then some 0 else none := by
  unfold Entry.byteAt
  rw [h]
  simp only [hy, true_and]

omit hsha [DecidableEq δ] in
theorem two_trims_byteAt {c d : Entry} (hc : c.op = .trim) (hd : d.op = .trim)
    (hcb : c.block = 0) (hdb : d.block = 1048575) {y : ℕ} (hy : 4294963200 ≤ y) :
    lastSome ([c, d].map fun e => e.byteAt scanBlockSize y) =
      if y < max c.length (4294963200 + d.length) then some 0 else none := by
  have hcy : c.block * scanBlockSize = 0 := by rw [hcb, Nat.zero_mul]
  have hdy : d.block * scanBlockSize = 4294963200 := by rw [hdb]; rfl
  simp only [List.map_cons, List.map_nil, lastSome_cons, lastSome_nil, Option.none_or]
  rw [trim_byteAt hc (by omega), trim_byteAt hd (by omega), hcy, hdy]
  split_ifs <;> first | rfl | omega

omit hsha [DecidableEq δ] in
theorem longTrim_byteAt {r y : ℕ} (hy : 4294963200 ≤ y) :
    lastSome ((longTrim r).map fun e => e.byteAt scanBlockSize y) =
      if y < max (2 ^ 32 - 1) (4294963200 + r) then some 0 else none :=
  two_trims_byteAt rfl rfl rfl rfl hy

omit hsha [DecidableEq δ] in
theorem longTrim_rounded {r y : ℕ} (hy : 4294963200 ≤ y) :
    lastSome ((longTrim r).map fun e => (e.rounded scanBlockSize).byteAt scanBlockSize y) =
      if y < 4294963200 + max (r / scanBlockSize) 1 * scanBlockSize then some 0 else none := by
  have h := two_trims_byteAt
    (c := (⟨.trim, 0, 0, 0, 2 ^ 32 - 1, 0, []⟩ : Entry).rounded scanBlockSize)
    (d := (⟨.trim, 0, 1, 1048575, r, 0, []⟩ : Entry).rounded scanBlockSize) rfl rfl rfl rfl hy
  have hfirst : ((⟨.trim, 0, 0, 0, 2 ^ 32 - 1, 0, []⟩ : Entry).rounded scanBlockSize).length =
      4294963200 := by decide
  have hsecond : ((⟨.trim, 0, 1, 1048575, r, 0, []⟩ : Entry).rounded scanBlockSize).length =
      max (r / scanBlockSize) 1 * scanBlockSize :=
    congrArg (· * scanBlockSize) (numBlocks_eq_max _ _)
  rw [hfirst, hsecond, max_eq_right (by omega)] at h
  exact h

omit hsha [DecidableEq δ] in
theorem roundable_longTrim {r : ℕ} (hr : r < 2 ^ 31) {e : Entry} (he : e ∈ longTrim r) :
    e.Roundable scanBlockSize ∧ e.NoWrap scanBlockSize := by
  simp only [longTrim, List.mem_cons, List.not_mem_nil, or_false] at he
  rcases he with rfl | rfl
  · exact ⟨⟨.inr rfl, by decide, fun h => by cases h⟩, by decide⟩
  · refine ⟨⟨.inr rfl, ?_, fun h => by cases h⟩, ?_⟩
    · rw [numBlocks_eq_max]
      unfold scanBlockSize
      dsimp only
      omega
    · rw [Entry.NoWrap, numBlocks_eq_max]
      unfold scanBlockSize W64
      dsimp only
      omega

theorem valid_onesSegment (hd : scanBlockSize ∣ size) {e : Entry}
    (he : e ∈ (onesSegment size h).entries) : e.Valid scanBlockSize ∧ e.NoWrap scanBlockSize := by
  have hlogged : Logged e := by
    obtain ⟨r, hr, seq, he⟩ := mem_logEntries he
    rw [← detect_ones hsha h] at hr
    exact (inRange_detect hr).logged he
  obtain ⟨i, hi, -, -, hlen, -⟩ := mem_onesSegment h he
  have hdvd : scanBlockSize ∣ e.length := by
    rw [hlen, Device.runLen_eq_min hi (ones_fits h)]
    have hrun : scanBlockSize ∣ scanRunSize := Nat.dvd_mul_left _ _
    have hrest : scanBlockSize ∣ (ones size h).size - i * scanRunSize :=
      Nat.dvd_sub hd (hrun.mul_left i)
    rcases min_choice scanRunSize ((ones size h).size - i * scanRunSize) with hmin | hmin <;>
      rw [hmin]
    · exact hrun
    · exact hrest
  exact ⟨⟨hlogged.op, hlogged.pos, hdvd, hlogged.lt, hlogged.data⟩, hlogged.noWrap⟩

/-- The calls that fill the device with ones and then zero its first `k` runs. -/
def fillThenZero (size : ℕ) (h : size ≤ scanLimit) (k : ℕ) : List Call :=
  [scanAt (ones size h) 0, scanAt (zeroed ((ones size h).reached k) size h) 1]

omit hsha [DecidableEq δ] in
theorem clocked_fillThenZero (k : ℕ) : Clocked (completed (fillThenZero size h k)) :=
  ⟨by simp [completed, fillThenZero, scanAt], by simp [completed, fillThenZero, scanAt]; decide⟩

theorem logs_fillThenZero (hpos : 0 < size) {k r : ℕ} (hk : 0 < k)
    (hkn : k ≤ (ones size h).totalRuns) (hr : (ones size h).reached k = 2 ^ 32 - 1 + r)
    (hr0 : 0 < r) (hr1 : r < 2 ^ 32) :
    ∃ n₁ n₂ header, header.blockSize = scanBlockSize ∧
      (World.after sha (completed (fillThenZero size h k))).logs.entries =
        [(n₁, onesSegment size h), (n₂, ⟨header, longTrim r⟩)] := by
  have hdetect : (detect sha (scanAt (zeroed ((ones size h).reached k) size h) 1).device
      (World.after sha (completed [scanAt (ones size h) 0])).db).logEntries =
        [⟨0, true, [], 0, (ones size h).reached k⟩] := detect_second hsha h hk hkn
  have hclock : Clocked (completed [scanAt (ones size h) 0] ++
      [(scanAt (zeroed ((ones size h).reached k) size h) 1, Point.committed)]) :=
    clocked_fillThenZero h k
  have hlogs := World.logs_scanDevice (fun n hn => hclock.keys_lt hn)
    (show (detect sha (scanAt (zeroed ((ones size h).reached k) size h) 1).device
      (World.after sha (completed [scanAt (ones size h) 0])).db).logEntries ≠ [] by simp [hdetect])
  have hseg : (scanAt (zeroed ((ones size h).reached k) size h) 1).segment
      [⟨0, true, [], 0, (ones size h).reached k⟩] =
        ⟨(scanAt (zeroed ((ones size h).reached k) size h) 1).header, longTrim r⟩ := by
    have hentries : logEntries (fun _ => 0) 0 [⟨0, true, [], 0, (ones size h).reached k⟩] =
        longTrim r := by
      simp only [logEntries, ScanResult.entries, if_true, List.append_nil]
      rw [hr, Int.toNat_natCast, trimEntries_two hr0 hr1]
      rfl
    rw [← hentries]
    rfl
  rw [hdetect, logs_ones hsha h hpos, hseg] at hlogs
  exact ⟨_, _, _, rfl, hlogs⟩

/-- The bytes of the logs and of the repacked segment, from the second trim entry on. -/
theorem repack_fillThenZero (hd : scanBlockSize ∣ size) {k r : ℕ} (hk : 0 < k)
    (hkn : k ≤ (ones size h).totalRuns) (hr : (ones size h).reached k = 2 ^ 32 - 1 + r)
    (hr0 : 0 < r) (hr1 : r < 2 ^ 31) (label : Name) :
    ∃ out, runRepack label (World.after sha (completed (fillThenZero size h k))).logs.entries =
        .ok out ∧
      ∀ y, 4294963200 ≤ y → y < size →
        ((World.after sha (completed (fillThenZero size h k))).bytes y =
          if y < max (2 ^ 32 - 1) (4294963200 + r) then 0 else 1) ∧
        out.apply (fun _ => 0) y =
          if y < 4294963200 + max (r / scanBlockSize) 1 * scanBlockSize then 0 else 1 := by
  have hpos : 0 < size := by
    have hruns := (ones size h).lt_totalRuns_iff (i := 0) |>.mp (by omega)
    rw [Nat.zero_mul] at hruns
    exact hruns
  obtain ⟨n₁, n₂, header, hbs, hlogs⟩ := logs_fillThenZero hsha h hpos hk hkn hr hr0 (by omega)
  have hones : ∀ y < size, lastSome ((onesSegment size h).entries.map
      fun e => e.byteAt scanBlockSize y) = some 1 := by
    intro y hy
    have hbytes := bytes_ones hsha h hy
    have hblock : ∀ log ∈ [(logPath (scanAt (ones size h) 0).label, onesSegment size h)],
        log.2.header.blockSize = scanBlockSize := by
      simp only [List.mem_singleton, forall_eq]
      rfl
    rw [World.bytes, logs_ones hsha h hpos, replay_eq_entries hblock] at hbytes
    simp only [List.flatMap_cons, List.flatMap_nil, List.append_nil] at hbytes
    cases hlast : lastSome ((onesSegment size h).entries.map fun e => e.byteAt scanBlockSize y) with
    | none =>
      rw [hlast] at hbytes
      exact absurd hbytes (by decide)
    | some v =>
      rw [hlast] at hbytes
      exact congrArg some hbytes
  have hheader : ∀ log ∈ [(n₁, onesSegment size h), (n₂, ⟨header, longTrim r⟩)],
      log.2.header.blockSize = scanBlockSize := by
    simp only [List.mem_cons, List.not_mem_nil, or_false]
    rintro log (rfl | rfl)
    · rfl
    · exact hbs
  have hentry : ∀ log ∈ [(n₁, onesSegment size h), (n₂, ⟨header, longTrim r⟩)],
      ∀ e ∈ log.2.entries, e.Roundable scanBlockSize ∧ e.NoWrap scanBlockSize := by
    simp only [List.mem_cons, List.not_mem_nil, or_false]
    rintro log (rfl | rfl) e he
    · obtain ⟨hv, hw⟩ := valid_onesSegment hsha h hd he
      exact ⟨roundable_of_valid hv, hw⟩
    · exact roundable_longTrim hr1 he
  obtain ⟨out, hout, hbytes⟩ := runRepack_rounds (by decide) label (by simp) hheader
    (fun log hlog e he => (hentry log hlog e he).1) (fun log hlog e he => (hentry log hlog e he).2)
  refine ⟨out, hlogs ▸ hout, fun y hy hys => ⟨?_, ?_⟩⟩
  · rw [World.bytes, hlogs, replay_eq_entries hheader]
    simp only [List.flatMap_cons, List.flatMap_nil, List.append_nil, List.map_append,
      lastSome_append, hones y hys, longTrim_byteAt hy]
    split_ifs <;> rfl
  · have hround : (onesSegment size h).entries.map
        (fun e => (e.rounded scanBlockSize).byteAt scanBlockSize y) =
          (onesSegment size h).entries.map fun e => e.byteAt scanBlockSize y :=
      List.map_congr_left fun e he => rounded_of_valid (valid_onesSegment hsha h hd he).1 y
    rw [hbytes]
    simp only [List.flatMap_cons, List.flatMap_nil, List.append_nil, List.map_append,
      lastSome_append, hround, hones y hys, longTrim_rounded hy]
    split_ifs <;> rfl

end Zeroed

end LongTrim

section Sizes

variable {δ : Type*} [DecidableEq δ] {sha : List UInt8 → δ} (hsha : Function.Injective sha)
  {size : ℕ} (h : size ≤ scanLimit)

include hsha h

theorem dvd_of_survives (hs : Survives sha size) : scanBlockSize ∣ size := by
  by_contra hodd
  have hpos : 0 < size := Nat.pos_of_ne_zero fun h0 => hodd (h0 ▸ Nat.dvd_zero _)
  have hruns : 0 < (ones size h).totalRuns := by
    rw [Device.lt_totalRuns_iff, Nat.zero_mul]
    exact hpos
  obtain ⟨i, hi⟩ := Nat.exists_eq_succ_of_ne_zero hruns.ne'
  obtain ⟨out, hout, hbytes⟩ := hs [scanAt (ones size h) 0]
    ⟨by simp [completed], by simp [completed, scanAt]; decide⟩
      (by simp [scanAt, ones, Device.plain])
    (by rw [logs_ones hsha h hpos]; simp) []
  rw [logs_ones hsha h hpos] at hout
  by_cases hlen : (ones size h).runLen i < scanBlockSize
  · rw [repack_short_tail h [] _ hi hlen] at hout
    cases hout
  · obtain ⟨out', hout', hlost⟩ := repack_odd_tail h [] _ hi (not_lt.mp hlen) hodd
    rw [hout'] at hout
    obtain rfl := Except.ok.inj hout
    have hsame := hbytes (size - 1) (by omega)
    rw [hlost, bytes_ones hsha h (by omega)] at hsame
    exact absurd hsame (by decide)

theorem lt_of_survives (hs : Survives sha size) : size < 2 ^ 32 := by
  by_contra hge
  have hd := dvd_of_survives hsha h hs
  -- the run that ends the first trim of at least `2^32` bytes, or the last run
  let k := min (ones size h).totalRuns 69906
  have hsize : (ones size h).size = size := rfl
  have hreached : (ones size h).reached k = min 4295024640 size := by
    have hmul : 69906 * scanRunSize = 4295024640 := by decide
    have hlast := (ones size h).lt_totalRuns_iff (i := 69906)
    rw [hmul, hsize] at hlast
    rcases Nat.lt_or_ge 69906 (ones size h).totalRuns with hlt | hle
    · simp only [k, Nat.min_eq_right hlt.le, Device.reached, hmul, hsize]
    · simp only [k, Nat.min_eq_left hle, Device.reached_totalRuns, hsize]
      omega
  have hk : 0 < k := by
    have h1 := (ones size h).lt_totalRuns_iff (i := 0)
    rw [Nat.zero_mul, hsize] at h1
    simp only [k]
    omega
  obtain ⟨r, hr⟩ := Nat.exists_eq_add_of_le (show 2 ^ 32 - 1 ≤ (ones size h).reached k by omega)
  obtain ⟨out, hout, hbytes⟩ := repack_fillThenZero hsha h hd hk (min_le_left _ _) hr (by omega)
    (by omega) []
  obtain ⟨out', hout', hsame⟩ := hs (fillThenZero size h k) (clocked_fillThenZero h k)
    (by simp [fillThenZero, scanAt, ones, zeroed, Device.plain])
    (by
      intro hnil
      rw [hnil] at hout
      cases hout) []
  rw [hout] at hout'
  obtain rfl := Except.ok.inj hout'
  have hcompare : ∀ y, 4294963200 ≤ y → y < size →
      ((if y < 4294963200 + max (r / scanBlockSize) 1 * scanBlockSize then 0 else 1 : UInt8) =
        if y < max (2 ^ 32 - 1) (4294963200 + r) then 0 else 1) := by
    intro y hy hys
    obtain ⟨h1, h2⟩ := hbytes y hy hys
    rw [← h1, ← h2, hsame y hys]
  unfold scanBlockSize at hcompare hd
  by_cases hr1 : r = 1
  · -- one byte more than a 32-bit length: the logs leave the last byte
    have hc := hcompare 4294967295 (by omega) (by omega)
    rw [hr1, if_pos (by omega), if_neg (by omega)] at hc
    exact absurd hc (by decide)
  · -- the repacked segment leaves the byte that starts the last block
    have hc := hcompare (4294963200 + r - 1) (by omega) (by omega)
    rw [if_neg (by omega), if_pos (by omega)] at hc
    exact absurd hc (by decide)

/-- The logs of a device survive repacking, whatever its contents, exactly when it consists of
whole blocks and has fewer than `2^32` bytes: on any other size some content is lost or cannot be
sliced. -/
theorem survives_iff : Survives sha size ↔ scanBlockSize ∣ size ∧ size < 2 ^ 32 :=
  ⟨fun hs => ⟨dvd_of_survives hsha h hs, lt_of_survives hsha h hs⟩,
    fun hs => survives_of_size hsha hs.1 hs.2⟩

end Sizes

section WholeOnes

variable {δ : Type*} [DecidableEq δ] {sha : List UInt8 → δ} (hsha : Function.Injective sha)
  {size : ℕ} (h : size ≤ scanLimit)

include hsha

theorem logs_ones_ne_nil (hpos : 0 < size) :
    (World.after sha [(scanAt (ones size h) 0, .committed)]).logs.entries ≠ [] := by
  change (World.after sha (completed [scanAt (ones size h) 0])).logs.entries ≠ []
  rw [logs_ones hsha h hpos]
  exact List.cons_ne_nil _ _

theorem wholeBlocks_ones (hpos : 0 < size) (hd : scanBlockSize ∣ size) :
    WholeBlocks (World.after sha [(scanAt (ones size h) 0, .committed)]).logs.entries := by
  change WholeBlocks (World.after sha (completed [scanAt (ones size h) 0])).logs.entries
  rw [logs_ones hsha h hpos]
  intro log hlog e he
  rw [List.mem_singleton.mp hlog] at he
  exact (valid_onesSegment hsha h hd he).1.dvd

end WholeOnes

theorem pow33_le : 2 ^ 33 ≤ scanLimit := by norm_num [scanLimit]

/-- A device of `2^33` ones: every write is whole blocks and there is no trim. -/
theorem repack_keeps_ones : ∃ out,
    runRepack [] (World.after id [(scanAt (ones (2 ^ 33) pow33_le) 0, .committed)]).logs.entries =
      .ok out ∧
    ∀ x, out.apply (fun _ => 0) x =
      (World.after id [(scanAt (ones (2 ^ 33) pow33_le) 0, .committed)]).bytes x :=
  repack_keeps_scans _ (logs_ones_ne_nil Function.injective_id pow33_le (by norm_num))
    (wholeBlocks_ones Function.injective_id pow33_le (by norm_num) (by norm_num [scanBlockSize])) []

theorem one_le_scanLimit : 1 ≤ scanLimit := by norm_num [scanLimit]

/-- A device of one byte: its only entry is sliced out of range. -/
theorem repack_one_byte :
    runRepack [] (World.after id [(scanAt (ones 1 one_le_scanLimit) 0, .committed)]).logs.entries =
      .error .sliceOutOfRange := by
  have hruns : (ones 1 one_le_scanLimit).totalRuns = 0 + 1 := by decide
  have hlen : (ones 1 one_le_scanLimit).runLen 0 < scanBlockSize := by
    rw [Device.runLen_eq_min (by omega) (ones_fits one_le_scanLimit)]
    decide
  have hlogs : (World.after id (completed [scanAt (ones 1 one_le_scanLimit) 0])).logs.entries = _ :=
    logs_ones Function.injective_id one_le_scanLimit one_pos
  change runRepack []
    (World.after id (completed [scanAt (ones 1 one_le_scanLimit) 0])).logs.entries = _
  rw [hlogs]
  exact repack_short_tail one_le_scanLimit [] _ hruns hlen

end Scan

end Lbd
