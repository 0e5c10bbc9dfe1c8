import Lbd.Bytes
import Lbd.Crc
import Lbd.Log

/-!
# Scanning a device for changes

`scan.go` up to the list of changes it will log: `BuildHoleMap` and the detection
loop of `ScanDevice`. The digest is a parameter; the hash table `run_hashes` is a
function from run offsets to digests. Sums of offsets and lengths are `int64`: the end of
the last run wraps on devices of more than `2^63 - 32768` bytes.
-/

namespace Lbd

namespace Scan

def scanBlockSize : ℕ := 4096

def scanRunBlocks : ℕ := 15

def scanRunSize : ℕ := scanRunBlocks * scanBlockSize

/-- The last multiple of the run size below `2^63`, which is `2^63 - 32768`. A run that starts here
has an end, before it is cut, that is no `int64`. -/
def scanLimit : ℕ := 9223372036854743040

theorem scanLimit_lt : scanLimit < 2 ^ 63 := by norm_num [scanLimit]

theorem scanLimit_eq : scanLimit = 150119987579016 * scanRunSize := by
  norm_num [scanLimit, scanRunSize, scanRunBlocks, scanBlockSize]

/-- What `Seek(pos, SEEK_DATA)` returns: a position, `ENXIO`, or any other error. -/
inductive SeekData where
  | found (pos : ℕ)
  | enxio
  | unsupported
deriving DecidableEq, Repr

/-- A device or file that does not change while it is scanned. A hole reads as zeros. -/
structure Device where
  size : ℕ
  size_lt : size < 2 ^ 63
  content : ℕ → UInt8
  seekData : ℕ → SeekData
  seekHole : ℕ → Option ℕ
  found_ge : ∀ pos p, seekData pos = .found p → pos ≤ p
  hole_gt : ∀ pos p q, seekData pos = .found p → seekHole p = some q → p < q
  hole_zero : ∀ pos p, seekData pos = .found p → ∀ x, pos ≤ x → x < p → content x = 0
  tail_zero : ∀ pos, seekData pos = .enxio → ∀ x, pos ≤ x → x < size → content x = 0

/-- A device without `SEEK_DATA`. -/
def Device.plain (size : ℕ) (content : ℕ → UInt8) (h : size < 2 ^ 63) : Device where
  size := size
  size_lt := h
  content := content
  seekData := fun _ => .unsupported
  seekHole := fun _ => none
  found_ge := by simp
  hole_gt := by simp
  hole_zero := by simp
  tail_zero := by simp

/-- A sum as an `int64` holds it. -/
def int64 (z : ℤ) : ℤ := z.bmod (2 ^ 64)

theorem int64_of_lt {n : ℕ} (h : n < 2 ^ 63) : int64 n = n := by
  unfold int64
  rw [Int.bmod_eq_of_le] <;> omega

theorem int64_le (n : ℕ) : int64 n ≤ n := by
  unfold int64
  have h := Int.bmod_def (n : ℤ) (2 ^ 64)
  split_ifs at h <;> omega

/-- `holeRange`: the bytes from `start` up to `stop`. -/
structure HoleRange where
  start : ℕ
  stop : ℕ
deriving DecidableEq, Repr

/-- The hole between `pos` and the next data, if there is one. -/
def holeBefore (pos p : ℕ) : List HoleRange := if pos < p then [⟨pos, p⟩] else []

/-- The loop of `BuildHoleMap`; `none` where it gives up because seeking is not supported. -/
def holesFrom (d : Device) (pos : ℕ) : Option (List HoleRange) :=
  if pos < d.size then
    match _hs : d.seekData pos with
    | .enxio => some [⟨pos, d.size⟩]
    | .unsupported => none
    | .found p =>
      match _hq : d.seekHole p with
      | none => some (holeBefore pos p)
      | some q => (holesFrom d q).map (holeBefore pos p ++ ·)
  else some []
termination_by d.size - pos
decreasing_by
  have h1 := d.found_ge pos p _hs
  have h2 := d.hole_gt pos p q _hs _hq
  omega

def buildHoleMap (d : Device) : List HoleRange :=
  if d.size = 0 then [] else (holesFrom d 0).getD []

def isRunInHole (holes : List HoleRange) (start : ℕ) (stop : ℤ) : Bool :=
  holes.any fun h => h.start ≤ start && stop ≤ h.stop

/-- The device reads as zero in every listed range. -/
def ReadsZero (d : Device) (holes : List HoleRange) : Prop :=
  ∀ r ∈ holes, ∀ x, r.start ≤ x → x < r.stop → x < d.size → d.content x = 0

theorem readsZero_holeBefore {d : Device} {pos p : ℕ} (h : d.seekData pos = .found p) :
    ReadsZero d (holeBefore pos p) := by
  unfold holeBefore
  split_ifs
  · intro r hr x h1 h2 _
    rw [List.mem_singleton.mp hr] at h1 h2
    exact d.hole_zero pos p h x h1 h2
  · intro r hr
    cases hr

theorem readsZero_holesFrom {d : Device} {pos : ℕ} {holes : List HoleRange}
    (h : holesFrom d pos = some holes) : ReadsZero d holes := by
  fun_induction holesFrom d pos generalizing holes with
  | case1 pos hpos hs =>
    cases h
    intro r hr x h1 h2 hx
    rw [List.mem_singleton.mp hr] at h1
    exact d.tail_zero pos hs x h1 hx
  | case2 pos hpos hs => cases h
  | case3 pos hpos p hs hq =>
    cases h
    exact readsZero_holeBefore hs
  | case4 pos hpos p hs q hq ih =>
    obtain ⟨rest, hrest, rfl⟩ := Option.map_eq_some_iff.mp h
    intro r hr
    rcases List.mem_append.mp hr with hr | hr
    · exact readsZero_holeBefore hs r hr
    · exact ih hrest r hr
  | case5 pos hpos =>
    cases h
    intro r hr
    cases hr

theorem readsZero_buildHoleMap (d : Device) : ReadsZero d (buildHoleMap d) := by
  unfold buildHoleMap
  split_ifs
  · intro r hr
    cases hr
  · cases h : holesFrom d 0 with
    | none =>
      intro r hr
      cases hr
    | some holes => exact readsZero_holesFrom h

theorem window_of_isRunInHole {d : Device} {start n : ℕ} (hn : start + n ≤ d.size)
    (h : isRunInHole (buildHoleMap d) start (start + n : ℕ) = true) :
    window d.content start n = List.replicate n 0 := by
  obtain ⟨r, hr, hin⟩ := List.any_eq_true.mp h
  simp only [Bool.and_eq_true, decide_eq_true_eq] at hin
  unfold window
  rw [List.map_eq_replicate_iff.mpr ?_, List.length_range]
  intro i hi
  have := List.mem_range.mp hi
  exact readsZero_buildHoleMap d r hr _ (by omega) (by omega) (by omega)

/-- `scanResult`: a change detected by a scan; a trim has no data. -/
structure ScanResult where
  block : ℕ
  isTrim : Bool
  data : List UInt8
  crc : UInt32
  length : ℤ
deriving DecidableEq, Repr

/-- `dbUpdate`: the digest to store for a run. -/
structure DbUpdate (δ : Type*) where
  offset : ℕ
  hexHash : δ
deriving DecidableEq, Repr

/-- The variables of the loop. `pending` is the start run and the length in bytes of the
trim being coalesced. -/
structure LoopState (δ : Type*) where
  logEntries : List ScanResult
  dbOps : List (DbUpdate δ)
  pending : Option (ℕ × ℤ)

def LoopState.start {δ : Type*} : LoopState δ := ⟨[], [], none⟩

def LoopState.flushTrim {δ : Type*} (s : LoopState δ) : LoopState δ :=
  match s.pending with
  | none => s
  | some (start, len) =>
    { s with
      logEntries := s.logEntries ++ [⟨start * scanRunBlocks, true, [], 0, len⟩]
      pending := none }

/-- Run `i` of `n` zero bytes joins the pending trim, or becomes it. -/
def LoopState.trimRun {δ : Type*} (i n : ℕ) (s : LoopState δ) : LoopState δ :=
  { s with
    pending :=
      match s.pending with
      | none => some (i, n)
      | some (start, len) => some (start, int64 (len + n)) }

def LoopState.logWrite {δ : Type*} (i : ℕ) (data : List UInt8) (s : LoopState δ) : LoopState δ :=
  { s with
    logEntries := s.logEntries ++ [⟨i * scanRunBlocks, false, data, crc32 data, data.length⟩] }

def LoopState.update {δ : Type*} (offset : ℕ) (hexHash : δ) (s : LoopState δ) : LoopState δ :=
  { s with dbOps := s.dbOps ++ [⟨offset, hexHash⟩] }

namespace Device

def totalRuns (d : Device) : ℕ :=
  if d.size % scanRunSize ≠ 0 then d.size / scanRunSize + 1 else d.size / scanRunSize

def runLen (d : Device) (i : ℕ) : ℕ :=
  if d.size < int64 (i * scanRunSize + scanRunSize) then d.size - i * scanRunSize else scanRunSize

/-- The bytes of run `i`, as `ReadAt` returns them: no more than the device has. -/
def run (d : Device) (i : ℕ) : List UInt8 :=
  window d.content (i * scanRunSize) (min (d.runLen i) (d.size - i * scanRunSize))

def inHole (d : Device) (i : ℕ) : Bool :=
  isRunInHole (buildHoleMap d) (i * scanRunSize) (int64 (i * scanRunSize + d.runLen i))

/-- The variable `buf` after `k` runs: a read overwrites the front and leaves the rest. -/
def buf (d : Device) : ℕ → List UInt8
  | 0 => List.replicate scanRunSize 0
  | k + 1 => if d.inHole k then d.buf k else d.run k ++ (d.buf k).drop (d.run k).length

/-- What is logged for run `i`: as much of the buffer as the run is long. -/
def dataCopy (d : Device) (i : ℕ) : List UInt8 := (d.buf (i + 1)).take (d.runLen i)

end Device

section Detect

variable {δ : Type*} [DecidableEq δ] (sha : List UInt8 → δ)

/-- The digest of run `i` and whether the run is all zeros. -/
def runHash (d : Device) (i : ℕ) : δ × Bool :=
  if d.inHole i then
    (sha (List.replicate (d.runLen i) 0), true)
  else
    let data := d.run i
    (sha data, sha data = sha (List.replicate data.length 0))

/-- The body of the loop for run `i`. -/
def detectRun (d : Device) (db : ℕ → Option δ) (s : LoopState δ) (i : ℕ) : LoopState δ :=
  let offset := i * scanRunSize
  let (hexHash, isZeros) := runHash sha d i
  if isZeros then
    if db offset = some hexHash then
      -- an unchanged run joins a trim that is already open, but opens none
      if s.pending.isSome then s.trimRun i (d.runLen i) else s
    else (s.trimRun i (d.runLen i)).update offset hexHash
  else if db offset = some hexHash then s.flushTrim
  else (s.flushTrim.logWrite i (d.dataCopy i)).update offset hexHash

/-- The loop over the first `k` runs. -/
def detectRuns (d : Device) (db : ℕ → Option δ) (k : ℕ) : LoopState δ :=
  (List.range k).foldl (detectRun sha d db) .start

/-- `ScanDevice` up to the last `flushTrim`. -/
def detect (d : Device) (db : ℕ → Option δ) : LoopState δ :=
  (detectRuns sha d db d.totalRuns).flushTrim

/-- The `INSERT ... ON CONFLICT DO UPDATE` statements. -/
def upsert (db : ℕ → Option δ) (ops : List (DbUpdate δ)) : ℕ → Option δ :=
  ops.foldl (fun db op => Function.update db op.offset (some op.hexHash)) db

/-- The table a successful scan commits: no statement is run when there is nothing to log. -/
def newRows (d : Device) (db : ℕ → Option δ) : ℕ → Option δ :=
  let s := detect sha d db
  if s.logEntries = [] then db else upsert db s.dbOps

end Detect

/-- A change applied to an array of bytes. -/
def ScanResult.apply (m : ℕ → UInt8) (r : ScanResult) : ℕ → UInt8 :=
  overlay m (r.block * scanBlockSize) (if r.isTrim then List.replicate r.length.toNat 0 else r.data)

namespace Device

variable (d : Device)

/-- How far the first `k` runs reach. -/
def reached (k : ℕ) : ℕ := min (k * scanRunSize) d.size

/-- The end of every run is an `int64`, also before the last one is cut. -/
structure Fits : Prop where
  size_le : d.size ≤ scanLimit

theorem lt_totalRuns_iff {i : ℕ} : i < d.totalRuns ↔ i * scanRunSize < d.size := by
  unfold totalRuns scanRunSize scanRunBlocks scanBlockSize
  split_ifs <;> omega

theorem reached_totalRuns : d.reached d.totalRuns = d.size := by
  have h := d.lt_totalRuns_iff (i := d.totalRuns)
  unfold reached
  omega

theorem runLen_le (i : ℕ) : d.runLen i ≤ scanRunSize := by
  have h := int64_le (i * scanRunSize + scanRunSize)
  unfold runLen
  push_cast at h
  split_ifs <;> omega

theorem length_run (i : ℕ) : (d.run i).length = min (d.runLen i) (d.size - i * scanRunSize) :=
  length_window

variable {d} {i : ℕ} (hi : i < d.totalRuns)

include hi

theorem reached_of_lt : d.reached i = i * scanRunSize := by
  have h := d.lt_totalRuns_iff.mp hi
  unfold reached
  omega

theorem runLen_pos : 0 < d.runLen i := by
  have h := d.lt_totalRuns_iff.mp hi
  have hR : 0 < scanRunSize := by decide
  unfold runLen
  split_ifs <;> omega

theorem length_run_pos : 0 < (d.run i).length := by
  have h := d.lt_totalRuns_iff.mp hi
  have hpos := runLen_pos hi
  rw [d.length_run]
  omega

variable (hfit : d.Fits)

include hfit

theorem run_end_lt : i * scanRunSize + scanRunSize < 2 ^ 63 := by
  have h := (d.lt_totalRuns_iff.mp hi).trans_le hfit.size_le
  rw [scanLimit_eq] at h
  calc i * scanRunSize + scanRunSize = (i + 1) * scanRunSize := (Nat.succ_mul _ _).symm
    _ ≤ 150119987579016 * scanRunSize :=
      Nat.mul_le_mul_right _ (Nat.lt_of_mul_lt_mul_right h)
    _ < 2 ^ 63 := scanLimit_eq ▸ scanLimit_lt

theorem runLen_eq_min : d.runLen i = min scanRunSize (d.size - i * scanRunSize) := by
  have hend := int64_of_lt (run_end_lt hi hfit)
  unfold runLen
  push_cast at hend
  rw [hend]
  split_ifs <;> omega

theorem reached_succ : d.reached (i + 1) = i * scanRunSize + d.runLen i := by
  have h := d.lt_totalRuns_iff.mp hi
  rw [runLen_eq_min hi hfit]
  unfold reached
  rw [Nat.succ_mul]
  omega

theorem add_runLen_le : i * scanRunSize + d.runLen i ≤ d.size := by
  rw [← reached_succ hi hfit]
  exact min_le_right _ _

theorem trim_end_lt : i * scanRunSize + d.runLen i < 2 ^ 63 :=
  (add_runLen_le hi hfit).trans_lt d.size_lt

theorem length_run_eq : (d.run i).length = d.runLen i := by
  have h := add_runLen_le hi hfit
  rw [d.length_run]
  omega

theorem run_eq : d.run i = window d.content (i * scanRunSize) (d.runLen i) := by
  have h := add_runLen_le hi hfit
  rw [run, Nat.min_eq_left (by omega)]

theorem inHole_eq :
    d.inHole i = isRunInHole (buildHoleMap d) (i * scanRunSize)
      (i * scanRunSize + d.runLen i : ℕ) := by
  have hend := run_end_lt hi hfit
  have hle := d.runLen_le i
  have h := int64_of_lt (n := i * scanRunSize + d.runLen i) (by omega)
  rw [inHole, ← h]
  push_cast
  rfl

theorem dataCopy_eq (hole : d.inHole i = false) : d.dataCopy i = d.run i := by
  rw [dataCopy, buf, hole, if_neg Bool.false_ne_true, ← length_run_eq hi hfit, List.take_left]

end Device

theorem Device.run_ne_zero {d : Device} {i : ℕ} (hi : i < d.totalRuns) (hfit : d.Fits)
    (h : d.content (i * scanRunSize) ≠ 0) : d.run i ≠ List.replicate (d.runLen i) 0 := by
  intro hz
  have hat : At d.content (i * scanRunSize) (List.replicate (d.runLen i) 0) := by
    rw [At, List.length_replicate, ← Device.run_eq hi hfit]
    exact hz
  have hbyte := hat.getElem (i := 0) (by simpa using Device.runLen_pos hi)
  rw [List.getElem_replicate, Nat.add_zero] at hbyte
  exact h hbyte

section Correct

variable {δ : Type*} [DecidableEq δ] {sha : List UInt8 → δ} (hsha : Function.Injective sha)

include hsha

omit [DecidableEq δ] hsha in
theorem run_of_inHole {d : Device} {i : ℕ} (hi : i < d.totalRuns) (hfit : d.Fits)
    (hole : d.inHole i = true) : d.run i = List.replicate (d.runLen i) 0 := by
  rw [Device.run_eq hi hfit]
  exact window_of_isRunInHole (Device.add_runLen_le hi hfit) (Device.inHole_eq hi hfit ▸ hole)

theorem runHash_eq {d : Device} {i : ℕ} (hi : i < d.totalRuns) (hfit : d.Fits) :
    runHash sha d i = (sha (d.run i), decide (d.run i = List.replicate (d.runLen i) 0)) := by
  unfold runHash
  dsimp only
  split_ifs with hole
  · simp [run_of_inHole hi hfit hole]
  · simp only [hsha.eq_iff, Device.length_run_eq hi hfit]

theorem detectRun_eq {d : Device} {db : ℕ → Option δ} {i : ℕ} (hi : i < d.totalRuns)
    (hfit : d.Fits) (s : LoopState δ) :
    detectRun sha d db s i =
      if d.run i = List.replicate (d.runLen i) 0 then
        if db (i * scanRunSize) = some (sha (d.run i)) then
          if s.pending.isSome then s.trimRun i (d.runLen i) else s
        else (s.trimRun i (d.runLen i)).update (i * scanRunSize) (sha (d.run i))
      else if db (i * scanRunSize) = some (sha (d.run i)) then s.flushTrim
      else (s.flushTrim.logWrite i (d.run i)).update (i * scanRunSize) (sha (d.run i)) := by
  unfold detectRun
  rw [runHash_eq hsha hi hfit]
  simp only [decide_eq_true_eq]
  -- only a run outside the holes is written, and its copy is the run
  by_cases hz : d.run i = List.replicate (d.runLen i) 0
  · rw [if_pos hz, if_pos hz]
  · have hole : d.inHole i = false := by
      by_contra hin
      exact hz (run_of_inHole hi hfit (Bool.eq_true_of_not_eq_false hin))
    rw [if_neg hz, if_neg hz, Device.dataCopy_eq hi hfit hole]

omit hsha [DecidableEq δ]

/-- The array once the changes found so far, with the open trim, are applied to `m`. -/
def LoopState.array (m : ℕ → UInt8) (s : LoopState δ) : ℕ → UInt8 :=
  s.flushTrim.logEntries.foldl ScanResult.apply m

@[simp] theorem LoopState.flushTrim_pending (s : LoopState δ) : s.flushTrim.pending = none := by
  unfold flushTrim
  split
  · assumption
  · rfl

@[simp] theorem LoopState.flushTrim_dbOps (s : LoopState δ) : s.flushTrim.dbOps = s.dbOps := by
  unfold flushTrim
  split <;> rfl

theorem LoopState.flushTrim_of_none {s : LoopState δ} (h : s.pending = none) :
    s.flushTrim = s := by
  unfold flushTrim
  rw [h]

@[simp] theorem LoopState.flushTrim_flushTrim (s : LoopState δ) :
    s.flushTrim.flushTrim = s.flushTrim :=
  flushTrim_of_none s.flushTrim_pending

theorem LoopState.flushTrim_logEntries (s : LoopState δ) :
    s.flushTrim.logEntries = s.logEntries ++
      match s.pending with
      | none => []
      | some (start, len) => [⟨start * scanRunBlocks, true, [], 0, len⟩] := by
  unfold flushTrim
  cases s.pending <;> simp

theorem LoopState.flushTrim_logEntries_eq_nil (s : LoopState δ) :
    s.flushTrim.logEntries = [] ↔ s.pending = none ∧ s.logEntries = [] := by
  rw [flushTrim_logEntries]
  cases s.pending <;> simp

theorem LoopState.trimRun_pending (s : LoopState δ) (i n : ℕ) : (s.trimRun i n).pending ≠ none := by
  unfold trimRun
  cases s.pending <;> simp

@[simp] theorem LoopState.array_update (off : ℕ) (h : δ) (s : LoopState δ) (m : ℕ → UInt8) :
    (s.update off h).array m = s.array m := by
  unfold array
  rw [flushTrim_logEntries, flushTrim_logEntries]
  rfl

@[simp] theorem LoopState.array_flushTrim (s : LoopState δ) (m : ℕ → UInt8) :
    s.flushTrim.array m = s.array m := by
  unfold array
  rw [flushTrim_flushTrim]

theorem run_mul (i : ℕ) : i * scanRunBlocks * scanBlockSize = i * scanRunSize := Nat.mul_assoc _ _ _

theorem LoopState.array_logWrite (s : LoopState δ) (i : ℕ) (data : List UInt8) (m : ℕ → UInt8) :
    (s.flushTrim.logWrite i data).array m = overlay (s.array m) (i * scanRunSize) data := by
  have hnone : (s.flushTrim.logWrite i data).pending = none := s.flushTrim_pending
  rw [array, flushTrim_of_none hnone, logWrite, List.foldl_append]
  simp only [List.foldl_cons, List.foldl_nil, ScanResult.apply, Bool.false_eq_true, if_false,
    run_mul, array]

/-- The open trim ends at `pos`. -/
def LoopState.EndsAt (s : LoopState δ) (pos : ℕ) : Prop :=
  ∀ start len, s.pending = some (start, len) → ∃ n : ℕ, len = n ∧ start * scanRunSize + n = pos

theorem LoopState.endsAt_of_none {s : LoopState δ} (h : s.pending = none) (pos : ℕ) :
    s.EndsAt pos := by
  intro start len hp
  rw [h] at hp
  cases hp

theorem LoopState.trimRun_of_some {s : LoopState δ} {i : ℕ} (hp : s.EndsAt (i * scanRunSize))
    {n : ℕ} (hlt : i * scanRunSize + n < 2 ^ 63) {start : ℕ} {len : ℤ}
    (h : s.pending = some (start, len)) :
    ∃ m : ℕ, len = m ∧ start * scanRunSize + m = i * scanRunSize ∧
      (s.trimRun i n).pending = some (start, ((m + n : ℕ) : ℤ)) := by
  obtain ⟨m, rfl, hm⟩ := hp start len h
  have hsum := int64_of_lt (n := m + n) (by omega)
  push_cast at hsum
  refine ⟨m, rfl, hm, ?_⟩
  simp only [trimRun, h, hsum]
  push_cast
  rfl

theorem LoopState.array_trimRun {s : LoopState δ} {i : ℕ} (hp : s.EndsAt (i * scanRunSize))
    {n : ℕ} (hlt : i * scanRunSize + n < 2 ^ 63) (m : ℕ → UInt8) :
    (s.trimRun i n).array m = overlay (s.array m) (i * scanRunSize) (List.replicate n 0) := by
  unfold array
  rw [flushTrim_logEntries, flushTrim_logEntries]
  have hlog : (s.trimRun i n).logEntries = s.logEntries := rfl
  cases h : s.pending with
  | none =>
    simp only [trimRun, h, List.append_nil, List.foldl_append, List.foldl_cons, List.foldl_nil,
      ScanResult.apply, if_true, run_mul, Int.toNat_natCast]
  | some p =>
    obtain ⟨start, len⟩ := p
    obtain ⟨k, rfl, hk, hpend⟩ := trimRun_of_some hp hlt h
    have happ : overlay (overlay (s.logEntries.foldl ScanResult.apply m) (start * scanRunSize)
        (List.replicate k 0)) (start * scanRunSize + (List.replicate k (0 : UInt8)).length)
        (List.replicate n 0) = _ := overlay_append
    rw [List.length_replicate, hk, List.replicate_append_replicate] at happ
    simp only [hlog, hpend, List.foldl_append, List.foldl_cons, List.foldl_nil, ScanResult.apply,
      if_true, run_mul, Int.toNat_natCast]
    exact happ.symm

theorem LoopState.endsAt_trimRun {s : LoopState δ} {i : ℕ} (hp : s.EndsAt (i * scanRunSize))
    {n : ℕ} (hlt : i * scanRunSize + n < 2 ^ 63) :
    (s.trimRun i n).EndsAt (i * scanRunSize + n) := by
  intro start len h
  cases hs : s.pending with
  | none =>
    unfold trimRun at h
    rw [hs] at h
    cases h
    exact ⟨n, rfl, rfl⟩
  | some p =>
    obtain ⟨start', len'⟩ := p
    obtain ⟨m, -, hm, hpend⟩ := trimRun_of_some hp hlt hs
    rw [hpend] at h
    cases h
    exact ⟨m + n, rfl, by omega⟩

/-- The hash table once the first `k` runs are recorded. -/
def recorded (sha : List UInt8 → δ) (d : Device) (db : ℕ → Option δ) (k : ℕ) : ℕ → Option δ :=
  fun off =>
    if off % scanRunSize = 0 ∧ off / scanRunSize < k then some (sha (d.run (off / scanRunSize)))
    else db off

theorem recorded_succ (d : Device) (db : ℕ → Option δ) (k : ℕ) :
    recorded sha d db (k + 1) =
      Function.update (recorded sha d db k) (k * scanRunSize) (some (sha (d.run k))) := by
  funext off
  have hpos : 0 < scanRunSize := by decide
  by_cases hk : off = k * scanRunSize
  · subst hk
    simp [recorded, Nat.mul_div_cancel _ hpos]
  · rw [Function.update_of_ne hk]
    unfold recorded
    by_cases hmod : off % scanRunSize = 0
    · have hne : off / scanRunSize ≠ k := by
        rintro rfl
        exact hk (Nat.div_mul_cancel (Nat.dvd_of_mod_eq_zero hmod)).symm
      simp only [hmod, true_and, show off / scanRunSize < k + 1 ↔ off / scanRunSize < k by omega]
    · simp [hmod]

theorem LoopState.upsert_update (db : ℕ → Option δ) (s : LoopState δ) (off : ℕ) (h : δ) :
    upsert db (s.update off h).dbOps = Function.update (upsert db s.dbOps) off (some h) := by
  simp [upsert, update]

/-- The table and the array agree: every row is the digest of bytes that stand at its
offset, inside one run. -/
def Agrees (sha : List UInt8 → δ) (db : ℕ → Option δ) (m : ℕ → UInt8) : Prop :=
  ∀ off h, db off = some h → off % scanRunSize = 0 ∧
    ∃ data : List UInt8, h = sha data ∧ data.length ≤ scanRunSize ∧ At m off data

/-- What holds of the loop's variables after the first `k` runs. -/
structure Progress (sha : List UInt8 → δ) (d : Device) (db : ℕ → Option δ) (k : ℕ)
    (s : LoopState δ) : Prop where
  endsAt : s.EndsAt (d.reached k)
  rows : upsert db s.dbOps = recorded sha d db k
  quiet : s.pending = none → s.logEntries = [] → s.dbOps = []

theorem Progress.start (d : Device) (db : ℕ → Option δ) : Progress sha d db 0 .start where
  endsAt := LoopState.endsAt_of_none rfl _
  rows := by
    funext off
    simp [recorded, LoopState.start, upsert]
  quiet := fun _ _ => rfl

section Step

variable {d : Device} {db : ℕ → Option δ} {m : ℕ → UInt8} {i : ℕ} {s : LoopState δ}

theorem recorded_skip (hrow : db (i * scanRunSize) = some (sha (d.run i))) :
    recorded sha d db (i + 1) = recorded sha d db i := by
  have hk : recorded sha d db i (i * scanRunSize) = some (sha (d.run i)) := by
    have hpos : 0 < scanRunSize := by decide
    simp [recorded, Nat.mul_div_cancel _ hpos, hrow]
  rw [recorded_succ, ← hk, Function.update_eq_self]

variable [DecidableEq δ]

include hsha

theorem Progress.detectRun (h : Progress sha d db i s) (hi : i < d.totalRuns) (hfit : d.Fits) :
    Progress sha d db (i + 1) (detectRun sha d db s i) := by
  have hends : s.EndsAt (i * scanRunSize) := Device.reached_of_lt hi ▸ h.endsAt
  have htrim : (s.trimRun i (d.runLen i)).EndsAt (d.reached (i + 1)) := by
    rw [Device.reached_succ hi hfit]
    exact LoopState.endsAt_trimRun hends (Device.trim_end_lt hi hfit)
  rw [detectRun_eq hsha hi hfit]
  split_ifs with hz hrow hpend hrow
  · exact ⟨htrim, h.rows.trans (recorded_skip hrow).symm,
      fun hn _ => absurd hn (s.trimRun_pending i _)⟩
  · exact ⟨LoopState.endsAt_of_none (by simpa using hpend) _,
      h.rows.trans (recorded_skip hrow).symm, h.quiet⟩
  · refine ⟨htrim, ?_, fun hn _ => absurd hn (s.trimRun_pending i _)⟩
    rw [LoopState.upsert_update, recorded_succ, ← h.rows]
    rfl
  · refine ⟨LoopState.endsAt_of_none s.flushTrim_pending _, ?_, fun _ hlog => ?_⟩
    · rw [s.flushTrim_dbOps, recorded_skip hrow, h.rows]
    · obtain ⟨hnone, hlog⟩ := s.flushTrim_logEntries_eq_nil.mp hlog
      rw [s.flushTrim_dbOps, h.quiet hnone hlog]
  · refine ⟨LoopState.endsAt_of_none s.flushTrim_pending _, ?_, fun _ hlog => ?_⟩
    · rw [LoopState.upsert_update, recorded_succ, ← h.rows, LoopState.logWrite,
        s.flushTrim_dbOps]
    · exact absurd hlog (List.append_ne_nil_of_right_ne_nil _ (List.cons_ne_nil _ _))

/-- What one run does to the array: it stores the run, or leaves it where its digest is in
the table. -/
theorem array_detectRun (hends : s.EndsAt (i * scanRunSize)) (hi : i < d.totalRuns)
    (hfit : d.Fits) :
    (detectRun sha d db s i).array m = overlay (s.array m) (i * scanRunSize) (d.run i) ∨
      db (i * scanRunSize) = some (sha (d.run i)) ∧
        (detectRun sha d db s i).array m = s.array m := by
  have hlt := Device.trim_end_lt hi hfit
  rw [detectRun_eq hsha hi hfit]
  split_ifs with hz hrow hpend hrow
  · exact .inl (by rw [LoopState.array_trimRun hends hlt, hz])
  · exact .inr ⟨hrow, rfl⟩
  · exact .inl (by rw [LoopState.array_update, LoopState.array_trimRun hends hlt, hz])
  · exact .inr ⟨hrow, s.array_flushTrim m⟩
  · exact .inl (by rw [LoopState.array_update, LoopState.array_logWrite])

end Step

section Loop

variable [DecidableEq δ] {d : Device} {db : ℕ → Option δ} {m : ℕ → UInt8}

theorem detectRuns_succ (k : ℕ) :
    detectRuns sha d db (k + 1) = detectRun sha d db (detectRuns sha d db k) k := by
  simp [detectRuns, List.range_succ]

variable (hfit : d.Fits)

include hsha hfit

theorem progress_detectRuns {k : ℕ} (hk : k ≤ d.totalRuns) :
    Progress sha d db k (detectRuns sha d db k) := by
  induction k with
  | zero => exact Progress.start d db
  | succ k ih =>
    rw [detectRuns_succ]
    exact (ih (by omega)).detectRun hsha (by omega) hfit

theorem endsAt_detectRuns {k : ℕ} (hk : k < d.totalRuns) :
    (detectRuns sha d db k).EndsAt (k * scanRunSize) :=
  Device.reached_of_lt hk ▸ (progress_detectRuns hsha hfit hk.le).endsAt

theorem array_detectRuns_of_ge {k : ℕ} (hk : k ≤ d.totalRuns) {x : ℕ} (hx : d.reached k ≤ x) :
    (detectRuns sha d db k).array m x = m x := by
  induction k with
  | zero => rfl
  | succ k ih =>
    have hlt : k < d.totalRuns := by omega
    rw [Device.reached_succ hlt hfit] at hx
    have hprev := ih hlt.le (by rw [Device.reached_of_lt hlt]; omega)
    rw [detectRuns_succ]
    obtain h | ⟨-, h⟩ := array_detectRun hsha (m := m) (endsAt_detectRuns hsha hfit hlt) hlt hfit
    · rw [h, overlay_of_not (.inr (by rw [Device.length_run_eq hlt hfit]; exact hx)), hprev]
    · rw [h, hprev]

/-- Over an array that agrees with the table, the loop stores the content as far as it has
come. -/
theorem array_detectRuns (hm : Agrees sha db m) {k : ℕ} (hk : k ≤ d.totalRuns) :
    (detectRuns sha d db k).array m = upTo d.content m (d.reached k) := by
  induction k with
  | zero =>
    simp [Device.reached, detectRuns, LoopState.array, LoopState.start, LoopState.flushTrim]
  | succ k ih =>
    have hlt : k < d.totalRuns := by omega
    rw [detectRuns_succ, Device.reached_succ hlt hfit]
    obtain h | ⟨hrow, h⟩ := array_detectRun hsha (m := m) (endsAt_detectRuns hsha hfit hlt) hlt hfit
    · rw [h, ih hlt.le, Device.reached_of_lt hlt, Device.run_eq hlt hfit]
      exact overlay_upTo _ _ _ _
    · obtain ⟨-, data, hd, -, hat⟩ := hm _ _ hrow
      rw [← hsha hd, At, Device.length_run_eq hlt hfit, Device.run_eq hlt hfit] at hat
      rw [h, ih hlt.le, Device.reached_of_lt hlt, upTo_add_of_window_eq hat]

theorem newRows_eq : newRows sha d db = recorded sha d db d.totalRuns := by
  have h : Progress sha d db d.totalRuns _ := progress_detectRuns hsha hfit le_rfl
  rw [← h.rows, newRows, detect, LoopState.flushTrim_dbOps]
  split_ifs with hlog
  · obtain ⟨hnone, hlog⟩ := (LoopState.flushTrim_logEntries_eq_nil _).mp hlog
    rw [h.quiet hnone hlog]
    rfl
  · rfl

/-- The changes turn the array into the content on the whole device and leave the rest. -/
theorem detect_array (hm : Agrees sha db m) :
    (detect sha d db).logEntries.foldl ScanResult.apply m = upTo d.content m d.size := by
  rw [← d.reached_totalRuns]
  exact array_detectRuns hsha hfit hm le_rfl

theorem writes_detectRuns {k : ℕ} (hk : k ≤ d.totalRuns)
    (hnz : ∀ j < k, d.run j ≠ List.replicate (d.runLen j) 0) :
    (detectRuns sha d db k).pending = none ∧
      ∀ r ∈ (detectRuns sha d db k).logEntries, r.isTrim = false := by
  induction k with
  | zero => exact ⟨rfl, by simp [detectRuns, LoopState.start]⟩
  | succ k ih =>
    obtain ⟨hnone, hwrites⟩ := ih (by omega) fun j hj => hnz j (by omega)
    rw [detectRuns_succ, detectRun_eq hsha (by omega) hfit, if_neg (hnz k (by omega)),
      LoopState.flushTrim_of_none hnone]
    split_ifs
    · exact ⟨hnone, hwrites⟩
    · refine ⟨hnone, fun r hr => ?_⟩
      rcases List.mem_append.mp hr with hr | hr
      · exact hwrites r hr
      · rw [List.mem_singleton.mp hr]

/-- A last run whose digest is in the table is left alone when no zero run comes before it. -/
theorem detect_eq_of_last {i : ℕ} (hlast : d.totalRuns = i + 1)
    (hrow : db (i * scanRunSize) = some (sha (d.run i)))
    (hnz : ∀ j < i, d.run j ≠ List.replicate (d.runLen j) 0) :
    detect sha d db = detectRuns sha d db i := by
  have hi : i < d.totalRuns := by omega
  have hnone : (detectRuns sha d db i).pending = none := (writes_detectRuns hsha hfit hi.le hnz).1
  have hsame : detectRun sha d db (detectRuns sha d db i) i = detectRuns sha d db i := by
    rw [detectRun_eq hsha hi hfit, if_pos hrow, if_pos hrow, hnone,
      LoopState.flushTrim_of_none hnone]
    simp
  rw [detect, hlast, detectRuns_succ, hsame, LoopState.flushTrim_of_none hnone]

end Loop

omit [DecidableEq δ] in
theorem Agrees.detect {d : Device} (hfit : d.Fits) {db : ℕ → Option δ} {m : ℕ → UInt8}
    (hm : Agrees sha db m) :
    Agrees sha (recorded sha d db d.totalRuns) (upTo d.content m d.size) := by
  intro off h hoff
  unfold recorded at hoff
  split_ifs at hoff with hin
  · obtain ⟨hmod, hlt⟩ := hin
    have hmul : off / scanRunSize * scanRunSize = off :=
      Nat.div_mul_cancel (Nat.dvd_of_mod_eq_zero hmod)
    refine ⟨hmod, d.run (off / scanRunSize), (Option.some.inj hoff).symm, ?_, ?_⟩
    · rw [Device.length_run_eq hlt hfit]
      exact d.runLen_le _
    · rw [At, Device.length_run_eq hlt hfit]
      have hle := Device.add_runLen_le hlt hfit
      rw [hmul] at hle
      rw [Device.run_eq hlt hfit, hmul]
      refine window_congr fun a _ ha => if_pos (by omega)
  · obtain ⟨hmod, data, hdata, hlen, hat⟩ := hm off h hoff
    refine ⟨hmod, data, hdata, hlen, (window_congr fun a ha _ => if_neg ?_).trans hat⟩
    have hge : d.size ≤ off := by
      have hlt := d.lt_totalRuns_iff (i := off / scanRunSize)
      rw [Nat.div_mul_cancel (Nat.dvd_of_mod_eq_zero hmod)] at hlt
      have hnot : ¬ off / scanRunSize < d.totalRuns := fun h => hin ⟨hmod, h⟩
      omega
    omega

end Correct

section Scans

variable {δ : Type*} [DecidableEq δ] {sha : List UInt8 → δ}

/-- The hash table and the array that the changes of all scans have been applied to. -/
structure Mirror (δ : Type*) where
  db : ℕ → Option δ
  array : ℕ → UInt8

def Mirror.empty : Mirror δ := ⟨fun _ => none, fun _ => 0⟩

/-- One scan, its changes applied to the array. -/
def Mirror.scan (sha : List UInt8 → δ) (s : Mirror δ) (d : Device) : Mirror δ :=
  ⟨newRows sha d s.db, (detect sha d s.db).logEntries.foldl ScanResult.apply s.array⟩

def Mirror.scans (sha : List UInt8 → δ) (ds : List Device) : Mirror δ :=
  ds.foldl (Mirror.scan sha) .empty

theorem Mirror.scans_concat (ds : List Device) (d : Device) :
    Mirror.scans sha (ds ++ [d]) = (Mirror.scans sha ds).scan sha d := by
  simp [scans]

theorem Mirror.array_scans_singleton (d : Device) : (Mirror.scans sha [d]).array =
    (detect sha d fun _ => none).logEntries.foldl ScanResult.apply fun _ => 0 := rfl

theorem Mirror.agrees_scans (hsha : Function.Injective sha) {ds : List Device}
    (hfit : ∀ d ∈ ds, d.Fits) :
    Agrees sha (Mirror.scans sha ds).db (Mirror.scans sha ds).array := by
  induction ds using List.reverseRecOn with
  | nil =>
    intro off h hoff
    cases hoff
  | append_singleton ds d ih =>
    have hag := ih fun d' hd' => hfit d' (List.mem_append_left _ hd')
    have hd := hfit d (by simp)
    rw [scans_concat, scan, detect_array hsha hd hag, newRows_eq hsha hd]
    exact hag.detect hd

/-- After every scan of any sequence of contents of at most `scanLimit` bytes, the array is
the content of the device. -/
theorem scans_capture_content (hsha : Function.Injective sha) (ds : List Device) (d : Device)
    (hfit : ∀ d' ∈ ds ++ [d], d'.size ≤ scanLimit) {x : ℕ} (hx : x < d.size) :
    (Mirror.scans sha (ds ++ [d])).array x = d.content x := by
  have hfits : ∀ d' ∈ ds, d'.Fits := fun d' hd' => ⟨hfit d' (List.mem_append_left _ hd')⟩
  have hag := Mirror.agrees_scans hsha hfits
  rw [Mirror.scans_concat, Mirror.scan, detect_array hsha ⟨hfit d (by simp)⟩ hag]
  exact if_pos hx

/-- A device that shrinks to one zero byte and grows again. -/
theorem scans_capture_shrunk_device :
    (Mirror.scans id ([.plain 70000 (fun _ => 5) (by norm_num), .plain 1 (fun _ => 0) (by norm_num)]
      ++ [.plain 61442 (fun x => if x = 0 then 0 else 5) (by norm_num)])).array 61441 = 5 :=
  scans_capture_content Function.injective_id _ _ (by simp [Device.plain, scanLimit])
    (x := 61441) (by decide)

theorem foldl_trims {rs : List ScanResult} (h : ∀ r ∈ rs, r.isTrim = true) :
    rs.foldl ScanResult.apply (fun _ => 0) = fun _ => 0 := by
  induction rs with
  | nil => rfl
  | cons r rs ih =>
    obtain ⟨hr, hrs⟩ := List.forall_mem_cons.mp h
    have hzero : ScanResult.apply (fun _ => 0) r = fun _ => 0 := by
      funext x
      rw [ScanResult.apply, if_pos hr, overlay]
      split_ifs with hx
      · rw [List.length_replicate] at hx
        exact List.getD_replicate _ (by omega)
      · rfl
    rw [List.foldl_cons, hzero, ih hrs]

theorem trims_of_inHole {d : Device} {db : ℕ → Option δ} {k : ℕ}
    (hole : ∀ i < k, d.inHole i = true) :
    ∀ r ∈ (detectRuns sha d db k).logEntries, r.isTrim = true := by
  induction k with
  | zero => exact List.forall_mem_nil _
  | succ k ih =>
    have hprev := ih fun i hi => hole i (by omega)
    have hhash : runHash sha d k = (sha (List.replicate (d.runLen k) 0), true) :=
      if_pos (hole k (by omega))
    rw [detectRuns_succ, detectRun, hhash]
    dsimp only
    rw [if_pos rfl]
    split_ifs <;> exact hprev

/-- A sparse file: a hole of `start` bytes, then ones. -/
def holeThenOnes (start size : ℕ) (hsize : size < 2 ^ 63) : Device where
  size := size
  size_lt := hsize
  content := fun x => if x < start then 0 else 1
  seekData := fun pos => .found (max pos start)
  seekHole := fun p => if p < size then some size else none
  found_ge := by
    intro pos p h
    cases h
    exact le_max_left _ _
  hole_gt := by
    intro pos p q _ hq
    split_ifs at hq with hlt
    cases hq
    exact hlt
  hole_zero := by
    intro pos p h x hpos hx
    cases h
    exact if_pos ((lt_max_iff.mp hx).resolve_left hpos.not_gt)
  tail_zero := by
    intro pos h
    cases h

section HoleThenOnes

variable {start size : ℕ} (hsize : size < 2 ^ 63)

theorem content_holeThenOnes : (holeThenOnes start size hsize).content start = 1 :=
  if_neg (lt_irrefl _)

theorem holesFrom_holeThenOnes (hpos : 0 < start) (hlt : start < size) :
    holesFrom (holeThenOnes start size hsize) 0 = some [⟨0, start⟩] := by
  have hend : holesFrom (holeThenOnes start size hsize) size = some [] := by
    rw [holesFrom, if_neg (show ¬ size < (holeThenOnes start size hsize).size from lt_irrefl _)]
  have hfound : (holeThenOnes start size hsize).seekData 0 = .found start :=
    congrArg SeekData.found (Nat.max_eq_right (Nat.zero_le _))
  have hseek : (holeThenOnes start size hsize).seekHole start = some size := if_pos hlt
  rw [holesFrom, if_pos (show 0 < (holeThenOnes start size hsize).size from hpos.trans hlt)]
  split
  · rename_i h
    rw [hfound] at h
    cases h
  · rename_i h
    rw [hfound] at h
    cases h
  · rename_i p h
    rw [hfound] at h
    cases h
    split
    · rename_i h
      rw [hseek] at h
      cases h
    · rename_i q h
      rw [hseek] at h
      cases h
      rw [hend, holeBefore, if_pos hpos]
      rfl

theorem inHole_holeThenOnes (hpos : 0 < start) (hlt : start < size) {i : ℕ}
    (h : int64 (i * scanRunSize + (holeThenOnes start size hsize).runLen i) ≤ start) :
    (holeThenOnes start size hsize).inHole i = true := by
  have hmap : buildHoleMap (holeThenOnes start size hsize) = [⟨0, start⟩] := by
    rw [buildHoleMap, if_neg (show (holeThenOnes start size hsize).size ≠ 0 from
      (hpos.trans hlt).ne'), holesFrom_holeThenOnes hsize hpos hlt, Option.getD_some]
  rw [Device.inHole, hmap, isRunInHole, List.any_cons, List.any_nil, Bool.or_false,
    Bool.and_eq_true, decide_eq_true_eq, decide_eq_true_eq]
  exact ⟨Nat.zero_le _, h⟩

end HoleThenOnes

/-- A file of `2^63 - 1` bytes whose hole ends where the last run starts. -/
def farData : Device := holeThenOnes scanLimit (2 ^ 63 - 1) (by norm_num)

theorem wrapped_end : int64 (150119987579016 * 61440 + 61440) < 0 := by
  norm_num [int64, Int.bmod]

theorem runLen_of_wrapped {d : Device} {i : ℕ} (h : int64 (i * scanRunSize + scanRunSize) < 0) :
    d.runLen i = scanRunSize := if_neg (by omega)

theorem farData_inHole {i : ℕ} (hi : i < farData.totalRuns) : farData.inHole i = true := by
  have hrun : i * 61440 < 2 ^ 63 - 1 := farData.lt_totalRuns_iff.mp hi
  apply inHole_holeThenOnes _ (by norm_num [scanLimit]) (by norm_num [scanLimit])
  change int64 (i * scanRunSize + farData.runLen i) ≤ _
  rcases Nat.lt_or_ge i 150119987579016 with hlt | hge
  · have hle := int64_le (i * scanRunSize + farData.runLen i)
    have hbound : i * scanRunSize + farData.runLen i ≤ scanLimit :=
      calc i * scanRunSize + farData.runLen i ≤ i * scanRunSize + scanRunSize :=
            Nat.add_le_add_left (farData.runLen_le i) _
        _ = (i + 1) * scanRunSize := (Nat.succ_mul _ _).symm
        _ ≤ 150119987579016 * scanRunSize := Nat.mul_le_mul_right _ hlt
        _ = scanLimit := scanLimit_eq.symm
    push_cast at hle
    exact hle.trans (by exact_mod_cast hbound)
  · have hlt : i * 61440 < 150119987579017 * 61440 := hrun.trans (by norm_num)
    obtain rfl : i = 150119987579016 :=
      le_antisymm (Nat.le_of_lt_succ (Nat.lt_of_mul_lt_mul_right hlt)) hge
    have hwrap : int64 ((150119987579016 : ℕ) * scanRunSize + scanRunSize) < 0 := wrapped_end
    rw [runLen_of_wrapped hwrap]
    exact hwrap.le.trans (Int.natCast_nonneg _)

/-- The end of the last run wraps, so the run is taken for a part of the hole before it: a trim is
logged in place of its data. -/
theorem last_run_lost :
    (Mirror.scans id [farData]).array scanLimit = 0 ∧ scanLimit < farData.size ∧
      farData.content scanLimit = 1 := by
  refine ⟨?_, by norm_num [farData, holeThenOnes, scanLimit], content_holeThenOnes _⟩
  have htrims : ∀ r ∈ (detect id farData fun _ => none).logEntries, r.isTrim = true := by
    intro r hr
    rw [detect, LoopState.flushTrim_logEntries] at hr
    rcases List.mem_append.mp hr with hr | hr
    · exact trims_of_inHole (fun i hi => farData_inHole hi) r hr
    · cases hp : (detectRuns id farData (fun _ => none) farData.totalRuns).pending with
      | none =>
        rw [hp] at hr
        cases hr
      | some p =>
        rw [hp] at hr
        rw [List.mem_singleton.mp hr]
  rw [Mirror.array_scans_singleton, foldl_trims htrims]

end Scans

end Scan

end Lbd
