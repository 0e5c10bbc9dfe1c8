import Lbd.Scan
import Lbd.SortedMap

/-!
# Publishing a scan, and stopping in the middle of it

The second half of `ScanDevice`: the changes are written to `disk.<label>.log.tmp`,
the file is renamed, then the hash table is updated in one transaction. A call may
stop anywhere; what it leaves behind is a published log, a committed table, or both.
-/

namespace Lbd

namespace Scan

open LogName

/-- The entries of a trim of `remaining` bytes, cut so that every length fits in 32 bits. -/
def trimEntries (now : ℕ → ℕ) (seq block remaining : ℕ) : List Entry :=
  if remaining = 0 then []
  else
    let chunk := if 2 ^ 32 - 1 < remaining then 2 ^ 32 - 1 else remaining
    ⟨.trim, now seq, seq, block, chunk, 0, []⟩ ::
      trimEntries now (seq + 1) (block + chunk / scanBlockSize) (remaining - chunk)
termination_by remaining
decreasing_by
  split_ifs <;> omega

/-- The entries written for one change. -/
def ScanResult.entries (now : ℕ → ℕ) (seq : ℕ) (r : ScanResult) : List Entry :=
  if r.isTrim then trimEntries now seq r.block r.length.toNat
  else [⟨.write, now seq, seq, r.block, r.data.length % 2 ^ 32, r.crc, r.data⟩]

def logEntries (now : ℕ → ℕ) : ℕ → List ScanResult → List Entry
  | _, [] => []
  | seq, r :: rs =>
    let es := r.entries now seq
    es ++ logEntries now (seq + es.length) rs

/-- The instants a call sees, the path it is given and the device behind it. -/
structure Call where
  device : Device
  devicePath : String
  time : ℕ
  now : ℕ → ℕ

def Call.label (c : Call) : Name := tai64nLabel c.time

def Call.header (c : Call) : Header :=
  ⟨2, scanBlockSize, c.label, c.device.size, c.devicePath⟩

def Call.segment (c : Call) (changes : List ScanResult) : Segment :=
  ⟨c.header, logEntries c.now 0 changes⟩

/-- A log file being written. -/
structure TmpFile where
  header : Option Header
  entries : List Entry
deriving DecidableEq, Repr

/-- What survives a call: the published logs, unfinished files, and the committed table. -/
structure World (δ : Type*) where
  logs : SortedMap Name Segment
  tmps : SortedMap Name TmpFile
  db : ℕ → Option δ

/-- How far a call has come. -/
inductive Point where
  /-- nothing is left: the file was not created yet, or an error return removed it -/
  | unwritten
  /-- the header, if written, and so many entries are in the `.log.tmp` file -/
  | writing (header : Bool) (entries : ℕ)
  /-- the log has its final name; nothing is committed -/
  | renamed
  /-- the transaction is committed, as at a successful return -/
  | committed
deriving DecidableEq, Repr

section Stop

variable {δ : Type*} [DecidableEq δ] (sha : List UInt8 → δ)

/-- `ScanDevice`, up to the point given. Without changes no file is written. -/
def World.scanDevice (w : World δ) (c : Call) (p : Point) : World δ :=
  let s := detect sha c.device w.db
  if s.logEntries = [] then w
  else
    let seg := c.segment s.logEntries
    match p with
    | .unwritten => w
    | .writing header n =>
      { w with
        tmps := w.tmps.insert (tmpPath c.label)
          ⟨if header then some seg.header else none, seg.entries.take n⟩ }
    | .renamed => { w with logs := w.logs.insert (logPath c.label) seg }
    | .committed =>
      { w with logs := w.logs.insert (logPath c.label) seg, db := upsert w.db s.dbOps }

/-- The bytes that replaying all `disk.*.log` files in name order gives. -/
def World.bytes (w : World δ) : ℕ → UInt8 := replay w.logs.entries

def World.empty : World δ := ⟨.empty, .empty, fun _ => none⟩

/-- The calls made so far, each with the point it reached. -/
def World.after (calls : List (Call × Point)) : World δ :=
  calls.foldl (fun w c => w.scanDevice sha c.1 c.2) .empty

end Stop

theorem apply_write (bs : ℕ) (m : ℕ → UInt8) {e : Entry} (h : e.op = .write) :
    e.apply bs m = overlay m (e.block * bs) e.data := by
  funext x
  simp only [Entry.apply, Entry.byteAt, h, overlay]
  by_cases h1 : e.block * bs ≤ x
  · by_cases h2 : x < e.block * bs + e.data.length
    · rw [if_pos h1, if_pos ⟨h1, h2⟩, List.getElem?_eq_getElem (by omega),
        List.getD_eq_getElem _ _ (by omega), Option.getD_some]
    · rw [if_pos h1, if_neg fun h => h2 h.2, List.getElem?_eq_none (by omega), Option.getD_none]
  · rw [if_neg h1, if_neg fun h => h1 h.1, Option.getD_none]

theorem apply_trim (bs : ℕ) (m : ℕ → UInt8) {e : Entry} (h : e.op = .trim) :
    e.apply bs m = overlay m (e.block * bs) (List.replicate e.length 0) := by
  funext x
  simp only [Entry.apply, Entry.byteAt, h, overlay, List.length_replicate]
  split_ifs with hx
  · rw [List.getD_replicate _ (by omega)]
    rfl
  · rfl

theorem trimEntries_of_lt {len : ℕ} (hpos : 0 < len) (h : len < 2 ^ 32) (now : ℕ → ℕ)
    (seq block : ℕ) : trimEntries now seq block len =
      [⟨.trim, now seq, seq, block, len, 0, []⟩] := by
  have hchunk : (if 2 ^ 32 - 1 < len then 2 ^ 32 - 1 else len) = len := if_neg (by omega)
  rw [trimEntries, if_neg hpos.ne', hchunk]
  dsimp only
  rw [Nat.sub_self, trimEntries, if_pos rfl]

/-- The trim of a change fits in one entry. -/
def ScanResult.Short (r : ScanResult) : Prop := r.isTrim = true → r.length < 2 ^ 32

instance (r : ScanResult) : Decidable r.Short := inferInstanceAs (Decidable (_ → _))

theorem ScanResult.foldl_entries {r : ScanResult} (hr : r.Short) (now : ℕ → ℕ) (seq : ℕ)
    (m : ℕ → UInt8) : (r.entries now seq).foldl (Entry.apply scanBlockSize) m = r.apply m := by
  unfold entries ScanResult.apply
  by_cases htrim : r.isTrim = true
  · rw [if_pos htrim, if_pos htrim]
    have hlt : r.length.toNat < 2 ^ 32 := by
      have := hr htrim
      omega
    rcases Nat.eq_zero_or_pos r.length.toNat with hz | hpos
    · rw [hz, trimEntries, if_pos rfl]
      exact (funext fun x => overlay_of_not (by simp; omega)).symm
    · rw [trimEntries_of_lt hpos hlt, List.foldl_cons, List.foldl_nil, apply_trim _ _ rfl]
  · rw [if_neg htrim, if_neg htrim, List.foldl_cons, List.foldl_nil, apply_write _ _ rfl]

theorem foldl_logEntries {rs : List ScanResult} (h : ∀ r ∈ rs, r.Short) (now : ℕ → ℕ) (seq : ℕ)
    (m : ℕ → UInt8) :
    (logEntries now seq rs).foldl (Entry.apply scanBlockSize) m =
      rs.foldl ScanResult.apply m := by
  induction rs generalizing seq m with
  | nil => rfl
  | cons r rs ih =>
    obtain ⟨hr, hrs⟩ := List.forall_mem_cons.mp h
    rw [logEntries, List.foldl_append, ScanResult.foldl_entries hr, ih hrs, List.foldl_cons]

def Point.published : Point → Bool
  | .renamed => true
  | .committed => true
  | _ => false

section Calls

variable {δ : Type*} [DecidableEq δ] {sha : List UInt8 → δ} {w : World δ} {c : Call} {p : Point}

theorem World.db_scanDevice :
    (w.scanDevice sha c p).db = if p = .committed then newRows sha c.device w.db else w.db := by
  unfold scanDevice newRows
  dsimp only
  split_ifs with hlog hp hp
  · rfl
  · rfl
  · rw [hp]
  · cases p <;> first | rfl | exact absurd rfl hp

/-- Every trim of the scan is below `2^32` bytes. -/
def World.ShortTrims (sha : List UInt8 → δ) (w : World δ) (d : Device) : Prop :=
  ∀ r ∈ (detect sha d w.db).logEntries, r.Short

theorem World.bytes_scanDevice (hshort : w.ShortTrims sha c.device)
    (hnew : ∀ n ∈ w.logs.keys, n < logPath c.label) :
    (w.scanDevice sha c p).bytes =
      if p.published then (detect sha c.device w.db).logEntries.foldl ScanResult.apply w.bytes
      else w.bytes := by
  have hput : replay (w.logs.insert (logPath c.label)
      (c.segment (detect sha c.device w.db).logEntries)).entries =
      (detect sha c.device w.db).logEntries.foldl ScanResult.apply w.bytes := by
    rw [SortedMap.insert_entries_of_forall_lt hnew, replay, List.foldl_append]
    exact foldl_logEntries hshort _ _ _
  unfold scanDevice
  dsimp only
  split_ifs with hlog hp hp
  · rw [hlog]
    rfl
  · rfl
  · cases p <;> first | exact hput | cases hp
  · cases p <;> first | rfl | exact absurd rfl hp

theorem World.logs_scanDevice (hnew : ∀ n ∈ w.logs.keys, n < logPath c.label)
    (hne : (detect sha c.device w.db).logEntries ≠ []) :
    (w.scanDevice sha c .committed).logs.entries =
      w.logs.entries ++ [(logPath c.label, c.segment (detect sha c.device w.db).logEntries)] := by
  unfold scanDevice
  dsimp only
  rw [if_neg hne]
  exact SortedMap.insert_entries_of_forall_lt hnew

theorem World.keys_scanDevice {n : Name} (h : n ∈ (w.scanDevice sha c p).logs.keys) :
    n = logPath c.label ∨ n ∈ w.logs.keys := by
  have hput : ∀ seg, n ∈ (w.logs.insert (logPath c.label) seg).keys →
      n = logPath c.label ∨ n ∈ w.logs.keys := by
    intro seg hn
    obtain ⟨v, hv⟩ := SortedMap.mem_keys.mp hn
    rcases SortedMap.mem_insert.mp hv with he | ⟨hmem, -⟩
    · exact .inl (congrArg Prod.fst he)
    · exact .inr (SortedMap.mem_keys.mpr ⟨v, hmem⟩)
  unfold scanDevice at h
  dsimp only at h
  split_ifs at h
  · exact .inr h
  · cases p <;> first | exact .inr h | exact hput _ h

/-- Calls at increasing clock values. -/
structure Clocked (calls : List (Call × Point)) : Prop where
  increasing : calls.Pairwise fun a b => a.1.time < b.1.time
  inRange : ∀ c ∈ calls, ClockInRange c.1.time

theorem Clocked.of_prefix {pre calls : List (Call × Point)} (h : Clocked calls)
    (hp : pre <+: calls) : Clocked pre :=
  ⟨h.increasing.sublist hp.sublist, fun c hc => h.inRange c (hp.subset hc)⟩

theorem Clocked.exists_later {calls : List (Call × Point)} (h : Clocked calls)
    (hend : ∀ c ∈ calls, ClockInRange (c.1.time + 1)) :
    ∃ t, ClockInRange t ∧ ∀ c ∈ calls, c.1.time < t := by
  rcases calls.eq_nil_or_concat with rfl | ⟨pre, c, rfl⟩
  · exact ⟨0, by decide, by simp⟩
  · rw [List.concat_eq_append] at h hend ⊢
    refine ⟨c.1.time + 1, hend c (by simp), fun c' hc' => ?_⟩
    rcases List.mem_append.mp hc' with hc' | hc'
    · have := (List.pairwise_append.mp h.increasing).2.2 c' hc' c (List.mem_singleton_self c)
      omega
    · rw [List.mem_singleton.mp hc']
      omega

theorem Clocked.concat {calls : List (Call × Point)} (h : Clocked calls) {c : Call × Point}
    (hr : ClockInRange c.1.time) (hlt : ∀ c' ∈ calls, c'.1.time < c.1.time) :
    Clocked (calls ++ [c]) where
  increasing := by
    refine List.pairwise_append.mpr ⟨h.increasing, List.pairwise_singleton _ _, ?_⟩
    intro a ha b hb
    rw [List.mem_singleton.mp hb]
    exact hlt a ha
  inRange := by
    intro a ha
    rcases List.mem_append.mp ha with ha | ha
    · exact h.inRange a ha
    · rw [List.mem_singleton.mp ha]
      exact hr

theorem World.after_concat (calls : List (Call × Point)) (c : Call × Point) :
    World.after sha (calls ++ [c]) = (World.after sha calls).scanDevice sha c.1 c.2 := by
  simp [after]

theorem World.keys_after {calls : List (Call × Point)} {n : Name}
    (h : n ∈ (World.after sha calls).logs.keys) : ∃ c ∈ calls, n = logPath c.1.label := by
  induction calls using List.reverseRecOn with
  | nil => cases h
  | append_singleton calls c ih =>
    rw [after_concat] at h
    rcases keys_scanDevice h with rfl | h
    · exact ⟨c, by simp, rfl⟩
    · obtain ⟨c', hc', rfl⟩ := ih h
      exact ⟨c', by simp [hc'], rfl⟩

theorem Clocked.keys_lt {calls : List (Call × Point)} {c : Call × Point}
    (h : Clocked (calls ++ [c])) {n : Name} (hn : n ∈ (World.after sha calls).logs.keys) :
    n < logPath c.1.label := by
  obtain ⟨c', hc', rfl⟩ := World.keys_after hn
  have hlt := (List.pairwise_append.mp h.increasing).2.2 c' hc' c (List.mem_singleton_self c)
  have hlabel := tai64nLabel_lt (h.inRange c (by simp)) hlt
  exact (logPath_lt_logPath (by simp [Call.label])).mpr hlabel

/-- The next call that succeeds brings the logs to the content of whatever device it scans, of
at most `scanLimit` bytes. -/
def Restores (sha : List UInt8 → δ) (calls : List (Call × Point)) : Prop :=
  ∀ c : Call, Clocked (calls ++ [(c, .committed)]) → c.device.size ≤ scanLimit →
    (World.after sha calls).ShortTrims sha c.device →
      ∀ x < c.device.size,
        (World.after sha (calls ++ [(c, .committed)])).bytes x = c.device.content x

/-- A call that does not stop between renaming and committing, or whose device agrees with
every row of the table as far as the device reaches. -/
def Harmless (sha : List UInt8 → δ) (w : World δ) (c : Call) (p : Point) : Prop :=
  p = .renamed → ∀ off data, w.db off = some (sha data) → ∀ (j : ℕ) (hj : j < data.length),
    off + j < c.device.size → c.device.content (off + j) = data[j]

def World.Agrees (sha : List UInt8 → δ) (w : World δ) : Prop := Scan.Agrees sha w.db w.bytes

omit [DecidableEq δ] in
theorem World.agrees_empty (sha : List UInt8 → δ) : (World.empty : World δ).Agrees sha := nofun

omit [DecidableEq δ] in
theorem harmless_of_ne {sha : List UInt8 → δ} {w : World δ} {c : Call} {p : Point}
    (h : p ≠ .renamed) : Harmless sha w c p := fun hp => absurd hp h

/-- Every row is the digest of a run of some device. -/
def World.RowsOfRuns (sha : List UInt8 → δ) (w : World δ) : Prop :=
  ∀ off h, w.db off = some h → ∃ (d : Device) (i : ℕ), d.Fits ∧ i < d.totalRuns ∧
    off = i * scanRunSize ∧ h = sha (d.run i)

theorem World.Agrees.bytes_eq (hsha : Function.Injective sha) (hw : w.Agrees sha)
    (hfit : c.device.Fits) (hshort : w.ShortTrims sha c.device)
    (hnew : ∀ n ∈ w.logs.keys, n < logPath c.label) :
    (w.scanDevice sha c p).bytes =
      if p.published then upTo c.device.content w.bytes c.device.size else w.bytes := by
  rw [bytes_scanDevice hshort hnew, detect_array hsha hfit hw]

/-- The logs and the table still agree after a call exactly when the call was harmless. -/
theorem World.agrees_scanDevice_iff (hsha : Function.Injective sha) (hw : w.Agrees sha)
    (hfit : c.device.Fits) (hshort : w.ShortTrims sha c.device)
    (hnew : ∀ n ∈ w.logs.keys, n < logPath c.label) :
    (w.scanDevice sha c p).Agrees sha ↔ Harmless sha w c p := by
  unfold World.Agrees
  rw [hw.bytes_eq hsha hfit hshort hnew, db_scanDevice]
  cases p with
  | unwritten => exact ⟨fun _ => nofun, fun _ => hw⟩
  | writing header n => exact ⟨fun _ => nofun, fun _ => hw⟩
  | committed =>
    refine ⟨fun _ => nofun, fun _ => ?_⟩
    rw [if_pos rfl, newRows_eq hsha hfit]
    exact Scan.Agrees.detect hfit hw
  | renamed =>
    simp only [Point.published, if_true, reduceCtorEq, if_false]
    constructor
    · intro h _ off data hrow j hj hlt
      obtain ⟨-, data', hd, -, hat⟩ := h off _ hrow
      obtain rfl := hsha hd
      have hbyte := At.getElem hat hj
      rw [← hbyte]
      exact (if_pos hlt).symm
    · intro h off dig hrow
      obtain ⟨hmod, data, rfl, hlen, hat⟩ := hw off dig hrow
      refine ⟨hmod, data, rfl, hlen, at_of_getElem fun j hj => ?_⟩
      by_cases hlt : off + j < c.device.size
      · exact (if_pos hlt).trans (h rfl off data hrow j hj hlt)
      · exact (if_neg hlt).trans (At.getElem hat hj)

theorem World.rowsOfRuns_after (hsha : Function.Injective sha) {calls : List (Call × Point)}
    (hfit : ∀ c ∈ calls, c.1.device.Fits) : (World.after sha calls).RowsOfRuns sha := by
  induction calls using List.reverseRecOn with
  | nil =>
    intro off h hoff
    cases hoff
  | append_singleton calls c ih =>
    intro off h hoff
    have hc := hfit c (by simp)
    have hold := ih fun c' hc' => hfit c' (List.mem_append_left _ hc')
    rw [after_concat, db_scanDevice] at hoff
    split_ifs at hoff
    · rw [newRows_eq hsha hc, recorded] at hoff
      split_ifs at hoff with hin
      · refine ⟨c.1.device, off / scanRunSize, hc, hin.2, ?_, (Option.some.inj hoff).symm⟩
        exact (Nat.div_mul_cancel (Nat.dvd_of_mod_eq_zero hin.1)).symm
      · exact hold off h hoff
    · exact hold off h hoff

end Calls

/-- A device that ends with `data` at `off` and has no zero byte before. -/
def probe (off : ℕ) (data : List UInt8) (h : off + data.length ≤ scanLimit) : Device :=
  .plain (off + data.length) (fun x => if x < off then 1 else data.getD (x - off) 0)
    (h.trans_lt scanLimit_lt)

section Probe

variable {i : ℕ} {data : List UInt8} (h : i * scanRunSize + data.length ≤ scanLimit)
  (hpos : 0 < data.length) (hle : data.length ≤ scanRunSize)

theorem probe_content {off : ℕ} (h : off + data.length ≤ scanLimit) {j : ℕ}
    (hj : j < data.length) : (probe off data h).content (off + j) = data[j] := by
  change (if off + j < off then 1 else data.getD (off + j - off) 0) = _
  rw [if_neg (by omega), Nat.add_sub_cancel_left, List.getD_eq_getElem _ _ hj]

theorem probe_fits : (probe (i * scanRunSize) data h).Fits := ⟨h⟩

include hpos hle

theorem probe_totalRuns : (probe (i * scanRunSize) data h).totalRuns = i + 1 := by
  have h1 := (probe (i * scanRunSize) data h).lt_totalRuns_iff (i := i)
  have h2 := (probe (i * scanRunSize) data h).lt_totalRuns_iff (i := i + 1)
  rw [Nat.succ_mul] at h2
  simp only [probe, Device.plain] at h1 h2 ⊢
  omega

theorem probe_run : (probe (i * scanRunSize) data h).run i = data := by
  have hsize : (probe (i * scanRunSize) data h).size = i * scanRunSize + data.length := rfl
  have hi : i < (probe (i * scanRunSize) data h).totalRuns := by
    rw [probe_totalRuns h hpos hle]
    omega
  have hlen : (probe (i * scanRunSize) data h).runLen i = data.length := by
    rw [Device.runLen_eq_min hi (probe_fits h), hsize]
    omega
  rw [Device.run_eq hi (probe_fits h), hlen]
  apply List.ext_getElem
  · simp
  · intro j hj hj'
    simp [window, probe, Device.plain, hj']

theorem probe_run_ne_zero {j : ℕ} (hj : j < i) :
    (probe (i * scanRunSize) data h).run j ≠
      List.replicate ((probe (i * scanRunSize) data h).runLen j) 0 := by
  have hlt : j * scanRunSize < i * scanRunSize := Nat.mul_lt_mul_of_pos_right hj (by decide)
  refine Device.run_ne_zero ?_ (probe_fits h) ?_
  · rw [probe_totalRuns h hpos hle]
    omega
  · simp [probe, Device.plain, hlt]

end Probe

section Restore

variable {δ : Type*} [DecidableEq δ] {sha : List UInt8 → δ} (hsha : Function.Injective sha)
  {calls : List (Call × Point)}

include hsha

theorem restores_of_agrees (h : (World.after sha calls).Agrees sha) : Restores sha calls := by
  intro c hc hsize hshort x hx
  rw [World.after_concat, h.bytes_eq hsha ⟨hsize⟩ hshort fun n hn => hc.keys_lt hn]
  exact if_pos hx

/-- A row that does not describe the logs is missed by the next scan of a device that ends
with what the row describes. -/
theorem agrees_of_restores (hc : Clocked calls)
    (hend : ∀ c ∈ calls, ClockInRange (c.1.time + 1)) (hsize : ∀ c ∈ calls, c.1.device.Fits)
    (h : Restores sha calls) : (World.after sha calls).Agrees sha := by
  intro off dig hrow
  obtain ⟨d, i, hd, hi, rfl, rfl⟩ := World.rowsOfRuns_after hsha hsize off dig hrow
  have hlen := Device.length_run_eq hi hd
  have hfit : i * scanRunSize + (d.run i).length ≤ scanLimit := by
    rw [hlen]
    exact (Device.add_runLen_le hi hd).trans hd.size_le
  have hpos : 0 < (d.run i).length := Device.length_run_pos hi
  have hle : (d.run i).length ≤ scanRunSize := hlen ▸ d.runLen_le i
  refine ⟨Nat.mul_mod_left _ _, d.run i, rfl, hle, at_of_getElem fun j hj => ?_⟩
  obtain ⟨t, ht, hlater⟩ := hc.exists_later hend
  let c : Call := ⟨probe (i * scanRunSize) (d.run i) hfit, "", t, fun _ => 0⟩
  have hcc : Clocked (calls ++ [(c, .committed)]) := hc.concat ht hlater
  have hdetect : detect sha c.device (World.after sha calls).db =
      detectRuns sha c.device (World.after sha calls).db i := by
    apply detect_eq_of_last hsha (probe_fits hfit) (probe_totalRuns hfit hpos hle)
    · rw [hrow, probe_run hfit hpos hle]
    · exact fun j hj => probe_run_ne_zero hfit hpos hle hj
  have hi' : i < c.device.totalRuns := by
    rw [probe_totalRuns hfit hpos hle]
    omega
  have hnz : ∀ j < i, c.device.run j ≠ List.replicate (c.device.runLen j) 0 :=
    fun j hj => probe_run_ne_zero hfit hpos hle hj
  obtain ⟨hnone, hwrites⟩ :
      (detectRuns sha c.device (World.after sha calls).db i).pending = none ∧ _ :=
    writes_detectRuns hsha (probe_fits hfit) hi'.le hnz
  have hshort : (World.after sha calls).ShortTrims sha c.device := by
    intro r hr htrim
    rw [hdetect] at hr
    rw [hwrites r hr] at htrim
    cases htrim
  have hbytes := h c hcc (probe_fits hfit).size_le hshort (i * scanRunSize + j)
    (Nat.add_lt_add_left hj _)
  rw [World.after_concat, World.bytes_scanDevice hshort fun n hn => hcc.keys_lt hn,
    hdetect] at hbytes
  have hkeep : (detectRuns sha c.device (World.after sha calls).db i).array
      (World.after sha calls).bytes (i * scanRunSize + j) = _ :=
    array_detectRuns_of_ge hsha (probe_fits hfit) hi'.le (by rw [Device.reached_of_lt hi']; omega)
  rw [LoopState.array, LoopState.flushTrim_of_none hnone] at hkeep
  rw [← hkeep]
  exact hbytes.trans (probe_content hfit hj)

/-- Every history: each stop is made good by the next successful scan, whatever it finds,
exactly when each call was harmless at its time. -/
theorem restores_iff_harmless (hc : Clocked calls)
    (hend : ∀ c ∈ calls, ClockInRange (c.1.time + 1))
    (hsize : ∀ c ∈ calls, c.1.device.size ≤ scanLimit)
    (hshort : ∀ pre c, pre ++ [c] <+: calls → (World.after sha pre).ShortTrims sha c.1.device) :
    (∀ pre, pre <+: calls → Restores sha pre) ↔
      ∀ pre c, pre ++ [c] <+: calls → Harmless sha (World.after sha pre) c.1 c.2 := by
  have hiff : ∀ pre, pre <+: calls → (Restores sha pre ↔ (World.after sha pre).Agrees sha) :=
    fun pre hp => ⟨agrees_of_restores hsha (hc.of_prefix hp) (fun c hm => hend c (hp.subset hm))
      fun c hm => ⟨hsize c (hp.subset hm)⟩, restores_of_agrees hsha⟩
  have hstep : ∀ pre c, pre ++ [c] <+: calls → (World.after sha pre).Agrees sha →
      ((World.after sha (pre ++ [c])).Agrees sha ↔ Harmless sha (World.after sha pre) c.1 c.2) := by
    intro pre c hp hag
    rw [World.after_concat]
    exact World.agrees_scanDevice_iff hsha hag ⟨hsize c (hp.subset (by simp))⟩ (hshort pre c hp)
      fun n hn => (hc.of_prefix hp).keys_lt hn
  constructor
  · intro h pre c hp
    have hpre : pre <+: calls := (List.prefix_append pre [c]).trans hp
    exact (hstep pre c hp ((hiff pre hpre).mp (h pre hpre))).mp
      ((hiff _ hp).mp (h _ hp))
  · intro h pre hp
    apply (hiff pre hp).mpr
    induction pre using List.reverseRecOn with
    | nil =>
      intro off dig hoff
      cases hoff
    | append_singleton pre c ih =>
      exact (hstep pre c hp (ih ((List.prefix_append pre [c]).trans hp))).mpr (h pre c hp)

omit calls in
theorem shortTrims_of_nonzero (w : World δ) {d : Device} (hfit : d.Fits)
    (hnz : ∀ j < d.totalRuns, d.run j ≠ List.replicate (d.runLen j) 0) : w.ShortTrims sha d := by
  obtain ⟨hnone, hwrites⟩ : (detectRuns sha d w.db d.totalRuns).pending = none ∧ _ :=
    writes_detectRuns hsha hfit le_rfl hnz
  intro r hr htrim
  rw [detect, LoopState.flushTrim_of_none hnone] at hr
  rw [hwrites r hr] at htrim
  cases htrim

end Restore

/-- The scan, at clock value `t`, of a device that holds the single byte `b`. -/
def scanByte (b : UInt8) (t : ℕ) : Call :=
  ⟨.plain 1 (fun _ => b) (by norm_num), "disk", t, fun _ => 0⟩

theorem scanByte_totalRuns (b : UInt8) (t : ℕ) : (scanByte b t).device.totalRuns = 1 := by
  norm_num [Device.totalRuns, scanByte, Device.plain, scanRunSize, scanRunBlocks, scanBlockSize]

theorem scanByte_fits (b : UInt8) (t : ℕ) : (scanByte b t).device.Fits :=
  ⟨by norm_num [scanByte, Device.plain, scanLimit]⟩

theorem scanByte_run_ne_zero {b : UInt8} (hb : b ≠ 0) (t : ℕ) :
    ∀ j < (scanByte b t).device.totalRuns, (scanByte b t).device.run j ≠
      List.replicate ((scanByte b t).device.runLen j) 0 :=
  fun _ hj => Device.run_ne_zero hj (scanByte_fits b t) hb

theorem scanByte_run (b : UInt8) (t : ℕ) : (scanByte b t).device.run 0 = [b] := by
  have hruns : 0 < (scanByte b t).device.totalRuns := by rw [scanByte_totalRuns]; omega
  have hlen : (scanByte b t).device.runLen 0 = 1 := by
    rw [Device.runLen_eq_min hruns (scanByte_fits b t)]
    rfl
  rw [Device.run_eq hruns (scanByte_fits b t), hlen]
  rfl

theorem scanByte_db (b : UInt8) (t : ℕ) :
    (World.scanDevice id .empty (scanByte b t) .committed).db =
      fun off => if off % scanRunSize = 0 ∧ off / scanRunSize < 1 then some [b] else none := by
  rw [World.db_scanDevice, if_pos rfl, newRows_eq Function.injective_id (scanByte_fits b t),
    scanByte_totalRuns]
  funext off
  unfold recorded
  split_ifs with hin
  · rw [Nat.lt_one_iff.mp hin.2, scanByte_run]
    rfl
  · rfl

theorem World.scanByte_unchanged {w : World (List UInt8)} {b : UInt8} (h : w.db 0 = some [b])
    (t : ℕ) (p : Point) : w.scanDevice id (scanByte b t) p = w := by
  have hdetect : detect id (scanByte b t).device w.db = .start := by
    rw [detect_eq_of_last Function.injective_id (scanByte_fits b t) (i := 0)
      (scanByte_totalRuns b t) ?_ (by simp)]
    · rfl
    · rw [Nat.zero_mul, h, scanByte_run]
      rfl
  unfold scanDevice
  rw [hdetect]
  rfl

/-- The scan of a device of two bytes, the first of which is `1`. -/
def scanGrown (t : ℕ) : Call :=
  ⟨.plain 2 (fun x => if x = 0 then 1 else 5) (by norm_num), "disk", t, fun _ => 0⟩

theorem scanGrown_fits (t : ℕ) : (scanGrown t).device.Fits :=
  ⟨by norm_num [scanGrown, Device.plain, scanLimit]⟩

theorem scanGrown_run_ne_zero (t : ℕ) :
    ∀ j < (scanGrown t).device.totalRuns, (scanGrown t).device.run j ≠
      List.replicate ((scanGrown t).device.runLen j) 0 := by
  intro j hj
  refine Device.run_ne_zero hj (scanGrown_fits t) ?_
  simp only [scanGrown, Device.plain]
  split_ifs <;> decide

theorem concat_prefix_triple {α : Type*} {pre : List α} {x a b c : α}
    (h : pre ++ [x] <+: [a, b, c]) :
    pre = [] ∧ x = a ∨ pre = [a] ∧ x = b ∨ pre = [a, b] ∧ x = c := by
  obtain ⟨post, h⟩ := h
  rcases pre with _ | ⟨p, _ | ⟨q, _ | ⟨r, pre⟩⟩⟩
  · exact .inl ⟨rfl, (List.cons.inj h).1⟩
  · simp only [List.cons_append, List.nil_append, List.cons.injEq] at h
    exact .inr (.inl ⟨by rw [h.1], h.2.1⟩)
  · simp only [List.cons_append, List.nil_append, List.cons.injEq] at h
    exact .inr (.inr ⟨by rw [h.1, h.2.1], h.2.2.1⟩)
  · simp at h

/-- A scan succeeds, the next stops in the middle of its file, and the third, of a device that has
only grown, stops between the renaming and the commit. -/
theorem stops_restored :
    Restores id [(scanByte 1 0, Point.committed), (scanByte 2 1, Point.writing true 1),
      (scanGrown 2, Point.renamed)] := by
  have hinj : Function.Injective (id : List UInt8 → List UInt8) := Function.injective_id
  apply (restores_iff_harmless hinj ⟨by simp [scanByte, scanGrown], by simp; decide⟩
    (by simp; decide) (by norm_num [scanByte, scanGrown, Device.plain, scanLimit]) ?_).mpr ?_ _
    (List.prefix_refl _)
  · intro pre c hp
    rcases concat_prefix_triple hp with ⟨-, rfl⟩ | ⟨-, rfl⟩ | ⟨-, rfl⟩
    · exact shortTrims_of_nonzero hinj _ (scanByte_fits 1 0) (scanByte_run_ne_zero (by decide) 0)
    · exact shortTrims_of_nonzero hinj _ (scanByte_fits 2 1) (scanByte_run_ne_zero (by decide) 1)
    · exact shortTrims_of_nonzero hinj _ (scanGrown_fits 2) (scanGrown_run_ne_zero 2)
  · intro pre c hp
    rcases concat_prefix_triple hp with ⟨-, rfl⟩ | ⟨-, rfl⟩ | ⟨rfl, rfl⟩
    · exact harmless_of_ne (by decide)
    · exact harmless_of_ne (by decide)
    · -- the only row is the digest of `1`, which is still the first byte
      intro _ off data hrow j hj _
      have hdb : (World.after id [(scanByte 1 0, Point.committed),
          (scanByte 2 1, Point.writing true 1)]).db =
            (World.scanDevice id .empty (scanByte 1 0) .committed).db := by
        change (World.scanDevice id (World.scanDevice id .empty (scanByte 1 0) .committed)
          (scanByte 2 1) (.writing true 1)).db = _
        rw [World.db_scanDevice, if_neg (by decide)]
      rw [hdb, scanByte_db] at hrow
      dsimp only at hrow
      split_ifs at hrow with hin
      obtain rfl : [1] = data := Option.some.inj hrow
      obtain rfl : j = 0 := by simpa using hj
      obtain rfl : off = 0 := by
        rw [← Nat.div_add_mod off scanRunSize, hin.1, Nat.lt_one_iff.mp hin.2]
        rfl
      rfl

/-- A scan of `1` succeeds, a scan of `2` stops before its commit, and the device goes back to
`1`: the next scan succeeds and finds no change, and the logs still say `2`. -/
theorem stop_before_commit_not_restored :
    Clocked [(scanByte 1 0, .committed), (scanByte 2 1, .renamed), (scanByte 1 2, .committed)] ∧
      (World.after id [(scanByte 1 0, .committed), (scanByte 2 1, .renamed),
        (scanByte 1 2, .committed)]).bytes 0 = 2 ∧
      (scanByte 1 2).device.content 0 = 1 := by
  have hinj : Function.Injective (id : List UInt8 → List UInt8) := Function.injective_id
  have hclock : Clocked
      ([(scanByte 1 0, .committed)] ++ [(scanByte 2 1, .renamed)] ++
      [(scanByte 1 2, .committed)]) :=
    ⟨by simp [scanByte], by simp [scanByte]; decide⟩
  refine ⟨hclock, ?_, rfl⟩
  have hclock12 := hclock.of_prefix (List.prefix_append _ _)
  -- after the first scan the table holds the digest of `1` and agrees with the logs
  let w : World (List UInt8) := World.scanDevice id .empty (scanByte 1 0) .committed
  have hdb : w.db 0 = some [1] := by
    change (World.scanDevice id .empty (scanByte 1 0) .committed).db 0 = _
    rw [scanByte_db]
    rfl
  have hag : w.Agrees id := by
    refine (World.agrees_scanDevice_iff hinj (World.agrees_empty id)
      (scanByte_fits 1 0) ?_ ?_).mpr ?_
    · exact shortTrims_of_nonzero hinj _ (scanByte_fits 1 0) (scanByte_run_ne_zero (by decide) 0)
    · exact fun n hn => absurd hn List.not_mem_nil
    · exact harmless_of_ne (by decide)
  -- the second scan publishes `2` and leaves the table
  have hbytes : (w.scanDevice id (scanByte 2 1) .renamed).bytes 0 = 2 := by
    rw [hag.bytes_eq hinj (scanByte_fits 2 1) (shortTrims_of_nonzero hinj _ (scanByte_fits 2 1)
      (scanByte_run_ne_zero (by decide) 1)) fun n hn => hclock12.keys_lt hn]
    rfl
  have hdb2 : (w.scanDevice id (scanByte 2 1) .renamed).db 0 = some [1] := by
    rw [World.db_scanDevice]
    exact hdb
  change ((w.scanDevice id (scanByte 2 1) .renamed).scanDevice id
    (scanByte 1 2) .committed).bytes 0 = 2
  rw [World.scanByte_unchanged hdb2, hbytes]

end Scan

end Lbd
