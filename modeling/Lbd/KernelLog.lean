import Lbd.Cbor
import Lbd.Crc
import Lbd.Log
import Lbd.SortedMap

/-!
# The write-ahead log of the kernel module

`lbd_main.c`: logged requests are encoded into a buffer, the buffer goes to a
lazily opened `disk.<label>.log.tmp`, and a rotation gives the file its final
name. Every open and every write of the log file may fail.
-/

namespace Lbd.KernelLog

open Cbor LogName

def logBufSize : ℕ := 5 * 1024 * 1024

def blockSize : ℕ := 4096

def logVersion : ℕ := 2

/-- The parts of `struct lbd_device` that stay the same. `labels` are the labels the clock
gives to the segments, `compress` is the result of LZ4, empty where it fails. -/
structure Device where
  maxSize : ℕ
  size : ℕ
  backingPath : List UInt8
  compress : List UInt8 → List UInt8
  labels : ℕ → Name
  size_lt : size < W64
  -- the arrays `backing_path` and `log_segment_label` with their terminators
  path_lt : backingPath.length < 256
  length_labels : ∀ i, (labels i).length = 24

def ascii (s : Name) : List UInt8 := s.map fun c => UInt8.ofNat c.toNat

/-- The map that `lbd_write_log_header` encodes. -/
def headerFields (dev : Device) (label : Name) : List Field :=
  [(1, .uint logVersion), (2, .uint blockSize), (3, .text (ascii label)), (4, .uint dev.size),
    (5, .text dev.backingPath)]

/-- The fields that writes and trims share. -/
def commonFields (op : Char) (e : Entry) : List Field :=
  [(1, .text (ascii [op])), (2, .uint e.timestampNS), (3, .uint e.sequence), (4, .uint e.block),
    (5, .uint e.length)]

/-- The map of a log entry; its `data` is as stored, compressed. -/
def entryFields (e : Entry) : List Field :=
  match e.op with
  | .write =>
    commonFields 'W' e ++ [(6, .uint e.checksum.toNat), (7, .bytes e.data)]
  | _ => commonFields 'T' e

/-- What `lbd_log_write` encodes in front of the compressed data. -/
def writeHead (e : Entry) : List UInt8 :=
  encHead 5 7 ++ (commonFields 'W' e).flatMap encField ++ encField (6, .uint e.checksum.toNat) ++
    (encHead 0 7 ++ encHead 2 e.data.length)

/-- An encoder over `cap` bytes; its error is sticky. -/
def encode (cap : ℕ) (bytes : List UInt8) : Option (List UInt8) :=
  if bytes.length ≤ cap then some bytes else none

/-- `file` is the content of the open `.log.tmp`, `published` are the files with final names. -/
structure LogState where
  seq : ℕ
  segment : ℕ
  buf : List UInt8
  file : Option (List UInt8)
  hasEntries : Bool
  published : SortedMap Name (List UInt8)
deriving DecidableEq

/-- How one flush goes: whether the file can be opened, if it has to be, and how many bytes
reach it, if not all. -/
structure FlushIo where
  opens : Bool
  wrote : Option ℕ
deriving DecidableEq, Repr

/-- `kernel_write` of the whole buffer behind `content`. -/
def writeBuf (io : FlushIo) (content : List UInt8) (s : LogState) : Bool × LogState :=
  match io.wrote with
  | none => (true, { s with file := some (content ++ s.buf), buf := [] })
  | some n =>
    (decide (s.buf.length ≤ n), { s with file := some (content ++ s.buf.take n), buf := [] })

/-- `lbd_log_flush`: a failure drops the buffer. -/
def flush (io : FlushIo) (s : LogState) : Bool × LogState :=
  if s.buf = [] then (true, s)
  else
    match s.file with
    | some content => writeBuf io content s
    | none => if io.opens then writeBuf io [] s else (false, { s with buf := [] })

/-- `lbd_log_buf_append`. There is no result when `memcpy` runs past the end of the buffer. -/
def append (io : FlushIo) (data : List UInt8) (s : LogState) : Option (Bool × LogState) :=
  if logBufSize < s.buf.length + data.length then
    match flush io s with
    | (false, s) => some (false, s)
    | (true, s) =>
      if logBufSize < s.buf.length + data.length then none
      else some (true, { s with buf := s.buf ++ data })
  else some (true, { s with buf := s.buf ++ data })

/-- `lbd_begin_segment`. The header goes into an empty buffer, so its append does not flush. -/
def beginSegment (dev : Device) (segment : ℕ) (s : LogState) : LogState :=
  { s with
    segment := segment
    file := none
    hasEntries := false
    buf := (encode 512 (encMap (headerFields dev (dev.labels segment)))).getD [] }

/-- `lbd_rename_file` to the final name. -/
def publish (dev : Device) (content : List UInt8) (s : LogState) : LogState :=
  { s with published := s.published.insert (logPath (dev.labels s.segment)) content }

def rotateSegment (dev : Device) (io : FlushIo) (s : LogState) : LogState :=
  if s.hasEntries then
    let s := (flush io s).2
    match s.file with
    | some content => beginSegment dev (s.segment + 1) (publish dev content s)
    | none => beginSegment dev (s.segment + 1) s
  else s

def maybeRotateSegment (dev : Device) (io : FlushIo) (s : LogState) : LogState :=
  if dev.maxSize ≤ (s.file.getD []).length + s.buf.length then rotateSegment dev io s else s

def finalizeLog (dev : Device) (io : FlushIo) (s : LogState) : LogState :=
  let s := if s.hasEntries then (flush io s).2 else s
  match s.file with
  | some content =>
    { (if s.hasEntries then publish dev content s else s) with file := none }
  | none => s

/-- The state once the device is added. -/
def start (dev : Device) : LogState := beginSegment dev 0 ⟨0, 0, [], none, false, .empty⟩

/-- A request or an expiry of the age timer. `flush` says whether the backing file could be
synced. -/
inductive Event where
  | write (sector : ℕ) (data : List UInt8) (time : ℕ)
  | discard (sector length time : ℕ)
  | flush (synced : Bool)
  | timer
deriving DecidableEq, Repr

/-- The flushes a request can make: before the entry, before its data, and to rotate. -/
structure Io where
  entry : FlushIo
  data : FlushIo
  rotate : FlushIo
deriving DecidableEq, Repr

/-- `(loff_t)sector * 512 / LBD_BLOCK_SIZE`: the product wraps from sector `2^54` on. -/
def blockOf (sector : ℕ) : ℕ :=
  ((((sector * 512 : ℕ) : ℤ).bmod W64).tdiv blockSize % W64).toNat

theorem toNat_emod_lt (z : ℤ) {n : ℕ} (h : 0 < n) : (z % n).toNat < n := by
  have hlt := Int.emod_lt_of_pos z (Int.natCast_pos.mpr h)
  omega

theorem blockOf_lt (sector : ℕ) : blockOf sector < W64 := toNat_emod_lt _ (by decide)

theorem lt_W64 {n : ℕ} (h : n < 2 ^ 63) : n < W64 := by
  unfold W64
  omega

theorem bmod_W64 {n : ℕ} (h : n < 2 ^ 63) : (n : ℤ).bmod W64 = n := by
  unfold W64
  rw [Int.bmod_eq_of_le] <;> omega

theorem quotient_W64 {n : ℕ} (h : n < 2 ^ 63) (k : ℕ) :
    (((n : ℤ).bmod W64).tdiv k % W64).toNat = n / k := by
  have hdiv : n / k < W64 := (Nat.div_le_self _ _).trans_lt (lt_W64 h)
  rw [bmod_W64 h, ← Int.ofNat_tdiv, ← Int.natCast_mod, Int.toNat_natCast, Nat.mod_eq_of_lt hdiv]

theorem blockOf_eq {sector : ℕ} (h : sector * 512 < 2 ^ 63) :
    blockOf sector = sector * 512 / blockSize := quotient_W64 h blockSize

def writeEntry (dev : Device) (seq sector : ℕ) (data : List UInt8) (time : ℕ) : Entry where
  op := .write
  timestampNS := time % W64
  sequence := seq
  block := blockOf sector
  length := data.length % 2 ^ 32
  checksum := crc32 data
  data := dev.compress data

def trimEntry (seq sector length time : ℕ) : Entry where
  op := .trim
  timestampNS := time % W64
  sequence := seq
  block := blockOf sector
  length := length % 2 ^ 32
  checksum := 0
  data := []

/-- The end of a logged request. -/
def logged (dev : Device) (io : FlushIo) (s : LogState) : LogState :=
  maybeRotateSegment dev io { s with hasEntries := true }

def logWrite (dev : Device) (io : Io) (sector : ℕ) (data : List UInt8) (time : ℕ) (s : LogState) :
    Option LogState :=
  let e := writeEntry dev s.seq sector data time
  if data = [] ∨ e.data = [] then some s
  else
    match encode 128 (writeHead e) with
    | none => some s
    | some tmp => do
      match ← append io.entry tmp { s with seq := (s.seq + 1) % W64 } with
      | (false, s) => some s
      | (true, s) =>
        match ← append io.data e.data s with
        | (false, s) => some s
        | (true, s) => some (logged dev io.rotate s)

def logDiscard (dev : Device) (io : Io) (sector length time : ℕ) (s : LogState) :
    Option LogState :=
  let e := trimEntry s.seq sector length time
  match encode 64 (encMap (entryFields e)) with
  | none => some s
  | some tmp => do
    match ← append io.entry tmp { s with seq := (s.seq + 1) % W64 } with
    | (false, s) => some s
    | (true, s) => some (logged dev io.rotate s)

def handle (dev : Device) (s : LogState) : Event × Io → Option LogState
  | (.write sector data time, io) => logWrite dev io sector data time s
  | (.discard sector length time, io) => logDiscard dev io sector length time s
  | (.flush synced, io) => some (if synced then rotateSegment dev io.rotate s else s)
  | (.timer, io) => some (rotateSegment dev io.rotate s)

def run (dev : Device) : LogState → List (Event × Io) → Option LogState
  | s, [] => some s
  | s, e :: es => do run dev (← handle dev s e) es

/-- The header as stored. -/
structure SegmentHeader where
  version : ℕ
  blockSize : ℕ
  label : List UInt8
  deviceSize : ℕ
  backingPath : List UInt8
deriving DecidableEq, Repr

def parseHeader : List Field → Option SegmentHeader
  | [(1, .uint version), (2, .uint blockSize), (3, .text label), (4, .uint deviceSize),
      (5, .text backingPath)] => some ⟨version, blockSize, label, deviceSize, backingPath⟩
  | _ => none

def parseEntry : List Field → Option Entry
  | [(1, .text op), (2, .uint time), (3, .uint seq), (4, .uint block), (5, .uint length),
      (6, .uint checksum), (7, .bytes data)] =>
    if op = ascii ['W'] then
      some ⟨.write, time, seq, block, length, UInt32.ofNat checksum, data⟩
    else none
  | [(1, .text op), (2, .uint time), (3, .uint seq), (4, .uint block), (5, .uint length)] =>
    if op = ascii ['T'] then some ⟨.trim, time, seq, block, length, 0, []⟩ else none
  | _ => none

/-- A log file as a CBOR sequence: one header, then entries up to the end of the file. -/
def readLog (bytes : List UInt8) : Option (SegmentHeader × List Entry) := do
  match ← decSeq bytes with
  | [] => none
  | m :: ms => return (← parseHeader m, ← ms.mapM parseEntry)

/-- An entry that the module writes. -/
structure Stored (e : Entry) : Prop where
  op : e.op = .write ∨ e.op = .trim ∧ e.checksum = 0 ∧ e.data = []
  time : e.timestampNS < W64
  sequence : e.sequence < W64
  block : e.block < W64
  length : e.length < 2 ^ 32
  data : e.data.length ≤ logBufSize

/-- The bytes of a segment with the given entries. -/
def segmentBytes (dev : Device) (label : Name) (es : List Entry) : List UInt8 :=
  encMap (headerFields dev label) ++ (es.map entryFields).flatMap encMap

variable {dev : Device} {label : Name} {e : Entry}

theorem length_ascii (s : Name) : (ascii s).length = s.length := List.length_map _

theorem mapFits_headerFields (h : label.length = 24) : MapFits (headerFields dev label) := by
  refine ⟨by simp [headerFields], ?_⟩
  have hsize := dev.size_lt
  have hpath := dev.path_lt
  simp only [headerFields, List.forall_mem_cons, Field.Fits, Value.Fits, length_ascii, h,
    logVersion, blockSize, List.not_mem_nil, false_implies, implies_true, and_true]
  unfold W64 at hsize
  omega

theorem Stored.mapFits (h : Stored e) : MapFits (entryFields e) := by
  have htime := h.time
  have hseq := h.sequence
  have hblock := h.block
  have hlength := h.length
  have hdata := h.data
  have hcrc := e.checksum.toNat_lt
  unfold W64 at htime hseq hblock
  unfold logBufSize at hdata
  unfold entryFields
  split
  · refine ⟨by simp [commonFields], ?_⟩
    simp only [commonFields, List.cons_append, List.nil_append, List.forall_mem_cons, Field.Fits,
      Value.Fits, length_ascii, List.length_singleton, List.not_mem_nil, false_implies,
      implies_true, and_true]
    omega
  · refine ⟨by simp [commonFields], ?_⟩
    simp only [commonFields, List.forall_mem_cons, Field.Fits, Value.Fits, length_ascii,
      List.length_singleton, List.not_mem_nil, false_implies, implies_true, and_true]
    omega

theorem Stored.parseEntry (h : Stored e) : parseEntry (entryFields e) = some e := by
  obtain ⟨op, time, seq, block, length, checksum, data⟩ := e
  obtain hop | ⟨hop, hsum, hdata⟩ := h.op
  · dsimp only at hop
    subst hop
    simp [entryFields, commonFields, KernelLog.parseEntry]
  · dsimp only at hop hsum hdata
    subst hop hsum hdata
    simp [entryFields, commonFields, KernelLog.parseEntry]

theorem mapM_parseEntry {es : List Entry} (hes : ∀ e ∈ es, Stored e) :
    (es.map entryFields).mapM KernelLog.parseEntry = some es := by
  induction es with
  | nil => rfl
  | cons e es ih =>
    obtain ⟨he, hes⟩ := List.forall_mem_cons.mp hes
    simp [he.parseEntry, ih hes]

theorem readLog_segmentBytes (h : label.length = 24) {es : List Entry} (hes : ∀ e ∈ es, Stored e) :
    readLog (segmentBytes dev label es) =
      some (⟨logVersion, blockSize, ascii label, dev.size, dev.backingPath⟩, es) := by
  have hbytes : segmentBytes dev label es =
      (headerFields dev label :: es.map entryFields).flatMap encMap := rfl
  have hfits : ∀ m ∈ headerFields dev label :: es.map entryFields, MapFits m := by
    rw [List.forall_mem_cons, List.forall_mem_map]
    exact ⟨mapFits_headerFields h, fun e he => (hes e he).mapFits⟩
  rw [readLog, hbytes, decSeq_flatMap hfits]
  simp [mapM_parseEntry hes, headerFields, parseHeader]

theorem length_commonFields_le (op : Char) (e : Entry) :
    ((commonFields op e).flatMap encField).length ≤ 43 := by
  have htime := length_encHead_le 0 e.timestampNS
  have hseq := length_encHead_le 0 e.sequence
  have hblock := length_encHead_le 0 e.block
  have hlength := length_encHead_le 0 e.length
  simp only [commonFields, List.flatMap_cons, List.flatMap_nil, List.append_nil, encField, encValue,
    List.length_append, length_ascii, List.length_singleton,
      length_encHead_of_lt (by norm_num : 1 < 24),
    length_encHead_of_lt (by norm_num : 2 < 24), length_encHead_of_lt (by norm_num : 3 < 24),
    length_encHead_of_lt (by norm_num : 4 < 24), length_encHead_of_lt (by norm_num : 5 < 24)]
  omega

theorem length_writeHead (e : Entry) : (writeHead e).length ≤ 128 := by
  have hcommon := length_commonFields_le 'W' e
  have hsum := length_encHead_le 0 e.checksum.toNat
  have hdata := length_encHead_le 2 e.data.length
  simp only [writeHead, List.length_append, encField, encValue,
    length_encHead_of_lt (by norm_num : 6 < 24), length_encHead_of_lt (by norm_num : 7 < 24)]
  omega

theorem encode_writeHead (e : Entry) : encode 128 (writeHead e) = some (writeHead e) :=
  if_pos (length_writeHead e)

theorem length_of_encode {cap : ℕ} {bytes out : List UInt8} (h : encode cap bytes = some out) :
    bytes.length ≤ cap := by
  unfold encode at h
  split_ifs at h with hle
  exact hle

theorem encode_trim (h : e.op = .trim) :
    encode 64 (encMap (entryFields e)) = some (encMap (entryFields e)) := by
  have hcommon := length_commonFields_le 'T' e
  have hfields : entryFields e = commonFields 'T' e := by rw [entryFields, h]
  have hhead : (encHead 5 (commonFields 'T' e).length).length = 1 := rfl
  apply if_pos
  rw [hfields, encMap, List.length_append, hhead]
  omega

theorem encode_header (h : label.length = 24) :
    encode 512 (encMap (headerFields dev label)) = some (encMap (headerFields dev label)) := by
  have hpath := dev.path_lt
  have hheads : ∀ major val, (encHead major val).length ≤ 9 := length_encHead_le
  have hmap := hheads 5 (headerFields dev label).length
  have hversion := hheads 0 logVersion
  have hblock := hheads 0 blockSize
  have hlabel := hheads 3 24
  have hsize := hheads 0 dev.size
  have htext := hheads 3 dev.backingPath.length
  apply if_pos
  rw [encMap, List.length_append]
  simp only [headerFields, List.flatMap_cons, List.flatMap_nil, List.append_nil, encField, encValue,
    List.length_append, length_ascii, h, length_encHead_of_lt (by norm_num : 1 < 24),
    length_encHead_of_lt (by norm_num : 2 < 24), length_encHead_of_lt (by norm_num : 3 < 24),
    length_encHead_of_lt (by norm_num : 4 < 24),
      length_encHead_of_lt (by norm_num : 5 < 24)] at hmap ⊢
  omega

theorem writeHead_append (h : e.op = .write) : writeHead e ++ e.data = encMap (entryFields e) := by
  rw [entryFields, h]
  simp [writeHead, encMap, commonFields, encField, encValue]

end Lbd.KernelLog
