import Lbd.CborRead
import Lbd.KernelLog

/-!
# Reading the kernel's log with `lbdctl log`

`cmd_log_cbor` of `lbdctl.c` and its streaming decoder, against what `lbd_write_log_header`,
`lbd_log_write` and `lbd_log_discard` encode. LZ4 is a parameter.
-/

namespace Lbd.LogDump

open Cbor KernelLog

/-- `n` items one behind the other. -/
def skipItems (skip : List UInt8 → Option (List UInt8)) : ℕ → List UInt8 → Option (List UInt8)
  | 0, bs => some bs
  | n + 1, bs => (skip bs).bind (skipItems skip n)

/-- `cbor_skip`; `depth` bounds the nesting, of which every level takes a byte. -/
def cborSkip : ℕ → List UInt8 → Option (List UInt8)
  | 0, _ => none
  | depth + 1, bs => do
    let ((major, val), rest) ← decHead bs
    match major with
    | 0 | 1 | 7 => some rest
    | 2 | 3 => (takeBytes val rest).map Prod.snd
    | 4 => skipItems (cborSkip depth) val rest
    | 5 => skipItems (cborSkip depth) (2 * val) rest
    | _ => none

/-- A step that fails with `e` where there is nothing to read. -/
def orFail {ε α : Type*} (e : ε) : Option α → Except ε α
  | some a => .ok a
  | none => .error e

/-- The variables that the header is read into. -/
structure DumpHeader where
  version : ℕ
  blockSize : ℕ
  segmentLabel : List UInt8
  deviceSize : ℕ
  backingPath : List UInt8
deriving DecidableEq, Repr

def DumpHeader.start : DumpHeader := ⟨0, 4096, [], 0, []⟩

/-- What keeps the header from being read. -/
inductive HeaderFault where
  | map
  | key
  | value
deriving DecidableEq, Repr

def headerField (h : DumpHeader) (key : ℕ) (bs : List UInt8) :
    Except HeaderFault (DumpHeader × List UInt8) :=
  orFail .value <| match key with
    | 1 => (decUint bs).map fun x => ({ h with version := x.1 % 2 ^ 32 }, x.2)
    | 2 => (decUint bs).map fun x => ({ h with blockSize := x.1 % 2 ^ 32 }, x.2)
    | 3 => (decText 32 bs).map fun x => ({ h with segmentLabel := cString x.1 }, x.2)
    | 4 => (decUint bs).map fun x => ({ h with deviceSize := x.1 }, x.2)
    | 5 => (decText 256 bs).map fun x => ({ h with backingPath := cString x.1 }, x.2)
    | _ => (cborSkip bs.length bs).map fun rest => (h, rest)

/-- The variables that an entry is read into; `checksum` and `data` once they are there. -/
structure EntryVars where
  op : UInt8
  timestampNS : ℕ
  sequence : ℕ
  block : ℕ
  length : ℕ
  checksum : Option ℕ
  data : Option (List UInt8)
deriving DecidableEq, Repr

def EntryVars.start : EntryVars := ⟨0, 0, 0, 0, 0, none, none⟩

/-- Why the entries end. `eof` is the end of the file. -/
inductive LogEnd where
  | eof
  | head
  | notMap (major : ℕ)
  | key
  | field
  | truncated
  | decompress
  | outOfFuel
deriving DecidableEq, Repr

def entryField (v : EntryVars) (key : ℕ) (bs : List UInt8) :
    Except LogEnd (EntryVars × List UInt8) :=
  match key with
  | 1 => orFail .field <| (decText 4 bs).map fun x => ({ v with op := x.1.headD 0 }, x.2)
  | 2 => orFail .field <| (decUint bs).map fun x => ({ v with timestampNS := x.1 }, x.2)
  | 3 => orFail .field <| (decUint bs).map fun x => ({ v with sequence := x.1 }, x.2)
  | 4 => orFail .field <| (decUint bs).map fun x => ({ v with block := x.1 }, x.2)
  | 5 => orFail .field <| (decUint bs).map fun x => ({ v with length := x.1 % 2 ^ 32 }, x.2)
  | 6 =>
    orFail .field <| (decUint bs).map fun x => ({ v with checksum := some (x.1 % 2 ^ 32) }, x.2)
  | 7 =>
    match decMajor 2 bs with
    | none => .error .field
    | some (len, rest) =>
      orFail .truncated <| (takeBytes len rest).map fun x => ({ v with data := some x.1 }, x.2)
  | _ => orFail .field <| (cborSkip bs.length bs).map fun rest => (v, rest)

/-- LZ4 blocks: what is compressed is not empty, within `LZ4_compressBound`, and decompressed
again. -/
structure Lz4 where
  compress : List UInt8 → List UInt8
  decompress : List UInt8 → ℕ → Option (List UInt8)
  compress_ne_nil : ∀ d, d ≠ [] → compress d ≠ []
  length_compress_le : ∀ d, (compress d).length ≤ d.length + d.length / 255 + 16
  decompress_compress : ∀ d, d ≠ [] → decompress (compress d) d.length = some d

/-- `LZ4_decompress_safe`, whose lengths are of type `int`. -/
def lz4DecompressSafe (z : Lz4) (data : List UInt8) (length : ℕ) : Option (List UInt8) :=
  let size := (BitVec.ofNat 32 data.length).toInt
  let capacity := (BitVec.ofNat 32 length).toInt
  if size < 0 ∨ capacity < 0 then none else z.decompress (data.take size.toNat) capacity.toNat

/-- An entry as it is printed. -/
structure Shown where
  isTrim : Bool
  timestampNS : ℕ
  sequence : ℕ
  block : ℕ
  length : ℕ
  checksum : Option ℕ
  data : Option (List UInt8)
  crcOk : Bool
deriving DecidableEq, Repr

/-- The payload once it is decompressed, if it has to be. -/
def payload (z : Lz4) (v : EntryVars) : Option (Option (List UInt8)) :=
  match v.data with
  | none => some none
  | some data =>
    if 0 < v.length ∧ 0 < data.length then (lz4DecompressSafe z data v.length).map some
    else some (some data)

/-- The end of the loop's body. -/
def finishEntry (z : Lz4) (v : EntryVars) : Option Shown :=
  (payload z v).map fun data =>
    { isTrim := v.op = UInt8.ofNat 'T'.toNat
      timestampNS := v.timestampNS
      sequence := v.sequence
      block := v.block
      length := v.length
      checksum := v.checksum
      data := data
      crcOk := match data, v.checksum with
        | some bytes, some sum => (crc32Calc bytes).toNat = sum
        | _, _ => true }

/-- The loop over the entries: what it printed and why it ended. -/
def logEntries (z : Lz4) : ℕ → List UInt8 → List Shown × LogEnd
  | _, [] => ([], .eof)
  | 0, _ :: _ => ([], .outOfFuel)
  | fuel + 1, bs =>
    match decHead bs with
    | none => ([], .head)
    | some ((major, count), rest) =>
      if major ≠ 5 then ([], .notMap major)
      else
        match keyed LogEnd.key entryField count .start rest with
        | .error e => ([], e)
        | .ok (v, rest) =>
          match finishEntry z v with
          | none => ([], .decompress)
          | some e =>
            let out := logEntries z fuel rest
            (e :: out.1, out.2)

structure Dump where
  header : DumpHeader
  entries : List Shown
  ending : LogEnd
deriving DecidableEq, Repr

def cmdLogCbor (z : Lz4) (bs : List UInt8) : Except HeaderFault Dump :=
  match decMajor 5 bs with
  | none => .error .map
  | some (count, rest) =>
    match keyed HeaderFault.key headerField count .start rest with
    | .error e => .error e
    | .ok (h, rest) =>
      let out := logEntries z rest.length rest
      .ok ⟨h, out.1, out.2⟩

/-- The header of a segment. The texts are C strings in arrays of 32 and 256 bytes. -/
structure LogHeader where
  segmentLabel : List UInt8
  deviceSize : ℕ
  backingPath : List UInt8
  label_lt : segmentLabel.length < 32
  label_nul : 0 ∉ segmentLabel
  size_lt : deviceSize < W64
  path_lt : backingPath.length < 256
  path_nul : 0 ∉ backingPath

def LogHeader.fields (h : LogHeader) : List Field :=
  [(1, .uint logVersion), (2, .uint blockSize), (3, .text h.segmentLabel),
    (4, .uint h.deviceSize), (5, .text h.backingPath)]

def lbdWriteLogHeader (h : LogHeader) : Option (List UInt8) := encode 512 (encMap h.fields)

/-- A request that is logged: `lbd_queue_rq` hands out at most 128 KiB at a time. -/
inductive Record where
  | write (data : List UInt8)
  | trim (length : ℕ)

def Record.Valid : Record → Prop
  | write data => data ≠ [] ∧ data.length ≤ 131072
  | trim length => length < 2 ^ 32

structure Logged where
  timestampNS : ℕ
  sequence : ℕ
  block : ℕ
  record : Record
  time_lt : timestampNS < W64
  sequence_lt : sequence < W64
  block_lt : block < W64
  valid : record.Valid

/-- The entry as it is stored. -/
def Logged.entry (z : Lz4) (r : Logged) : Entry :=
  match r.record with
  | .write data =>
    ⟨.write, r.timestampNS, r.sequence, r.block, data.length % 2 ^ 32, crc32 data,
      z.compress data⟩
  | .trim length => ⟨.trim, r.timestampNS, r.sequence, r.block, length, 0, []⟩

/-- `lbd_log_write` and `lbd_log_discard`, as far as they encode. -/
def Logged.encoded (z : Lz4) (r : Logged) : Option (List UInt8) :=
  match r.record with
  | .write data => (encode 128 (writeHead (r.entry z))).map (· ++ z.compress data)
  | .trim _ => encode 64 (encMap (entryFields (r.entry z)))

/-- A header and entries, one behind the other; none where an encoder ran out of its buffer. -/
def encodeLog (z : Lz4) (h : LogHeader) (rs : List Logged) : Option (List UInt8) := do
  let head ← lbdWriteLogHeader h
  let entries ← rs.mapM (Logged.encoded z)
  return head ++ entries.flatten

/-- What is to be printed for a request: the payload itself, its length, and a valid checksum. -/
def Logged.shown (r : Logged) : Shown :=
  match r.record with
  | .write data =>
    ⟨false, r.timestampNS, r.sequence, r.block, data.length, some (crc32 data).toNat, some data,
      true⟩
  | .trim length => ⟨true, r.timestampNS, r.sequence, r.block, length, none, none, true⟩

theorem encode_headerFields (h : LogHeader) :
    lbdWriteLogHeader h = some (encMap h.fields) := by
  have hlabel := h.label_lt
  have hpath := h.path_lt
  have hheads : ∀ major val, (encHead major val).length ≤ 9 := length_encHead_le
  have hmap := hheads 5 h.fields.length
  have hversion := hheads 0 logVersion
  have hblock := hheads 0 blockSize
  have hlabelHead := hheads 3 h.segmentLabel.length
  have hsize := hheads 0 h.deviceSize
  have hpathHead := hheads 3 h.backingPath.length
  apply if_pos
  rw [encMap, List.length_append]
  simp only [LogHeader.fields, List.flatMap_cons, List.flatMap_nil, List.append_nil, encField,
    encValue, List.length_append, length_encHead_of_lt (by norm_num : 1 < 24),
    length_encHead_of_lt (by norm_num : 2 < 24), length_encHead_of_lt (by norm_num : 3 < 24),
    length_encHead_of_lt (by norm_num : 4 < 24), length_encHead_of_lt (by norm_num : 5 < 24)]
    at hmap ⊢
  omega

theorem Logged.encoded_eq (z : Lz4) (r : Logged) :
    r.encoded z = some (encMap (entryFields (r.entry z))) := by
  unfold Logged.encoded
  cases hr : r.record with
  | write data =>
    have hentry : r.entry z = ⟨.write, r.timestampNS, r.sequence, r.block,
        data.length % 2 ^ 32, crc32 data, z.compress data⟩ := by rw [Logged.entry, hr]
    have happend := writeHead_append (e := r.entry z) (by rw [hentry])
    dsimp only
    rw [encode_writeHead, Option.map_some, ← happend]
    congr
    rw [hentry]
  | trim length =>
    exact encode_trim (by rw [Logged.entry, hr])

section RoundTrip

variable (z : Lz4)

/-- The header's fields, once read. -/
def setHeader (h : DumpHeader) : Field → DumpHeader
  | (1, .uint n) => { h with version := n % 2 ^ 32 }
  | (2, .uint n) => { h with blockSize := n % 2 ^ 32 }
  | (3, .text t) => { h with segmentLabel := cString t }
  | (4, .uint n) => { h with deviceSize := n }
  | (5, .text t) => { h with backingPath := cString t }
  | _ => h

theorem headerField_encValue (h : LogHeader) {f : Field} (hf : f ∈ h.fields) (d : DumpHeader)
    (rest : List UInt8) :
    headerField d f.1 (encValue f.2 ++ rest) = .ok (setHeader d f, rest) := by
  have hlabel := h.label_lt
  have hpath := h.path_lt
  simp only [LogHeader.fields, List.mem_cons, List.not_mem_nil, or_false] at hf
  rcases hf with rfl | rfl | rfl | rfl | rfl
  · simp [headerField, encValue, decUint_encHead, logVersion, setHeader, orFail]
  · simp [headerField, encValue, decUint_encHead, blockSize, setHeader, orFail]
  · simp [headerField, decText_encValue hlabel (by omega), setHeader, orFail]
  · simp [headerField, encValue, decUint_encHead h.size_lt, setHeader, orFail]
  · simp [headerField, decText_encValue hpath (by omega), setHeader, orFail]

theorem keyed_header (h : LogHeader) (rest : List UInt8) :
    keyed HeaderFault.key headerField h.fields.length .start
      (h.fields.flatMap encField ++ rest) =
        .ok (⟨logVersion, blockSize, h.segmentLabel, h.deviceSize, h.backingPath⟩, rest) := by
  have hkeys : ∀ f ∈ h.fields, f.1 < 2 ^ 64 := by simp [LogHeader.fields]
  rw [keyed_encField hkeys (fun f hf d r => headerField_encValue h hf d r)]
  simp [LogHeader.fields, setHeader, DumpHeader.start, cString_eq_self.mpr h.label_nul,
    cString_eq_self.mpr h.path_nul, logVersion, blockSize]

/-- An entry's fields, once read. -/
def setEntry (v : EntryVars) : Field → EntryVars
  | (1, .text t) => { v with op := t.headD 0 }
  | (2, .uint n) => { v with timestampNS := n }
  | (3, .uint n) => { v with sequence := n }
  | (4, .uint n) => { v with block := n }
  | (5, .uint n) => { v with length := n % 2 ^ 32 }
  | (6, .uint n) => { v with checksum := some (n % 2 ^ 32) }
  | (7, .bytes d) => { v with data := some d }
  | _ => v

variable {z}

theorem entryField_common {e : Entry} (he : Stored e) {op : Char} {f : Field}
    (hf : f ∈ commonFields op e) (v : EntryVars) (rest : List UInt8) :
    entryField v f.1 (encValue f.2 ++ rest) = .ok (setEntry v f, rest) := by
  simp only [commonFields, List.mem_cons, List.not_mem_nil, or_false] at hf
  rcases hf with rfl | rfl | rfl | rfl | rfl
  · simp [entryField, decText_encValue, length_ascii, setEntry, orFail]
  · simp [entryField, encValue, decUint_encHead he.time, setEntry, orFail]
  · simp [entryField, encValue, decUint_encHead he.sequence, setEntry, orFail]
  · simp [entryField, encValue, decUint_encHead he.block, setEntry, orFail]
  · simp [entryField, encValue, decUint_encHead (he.length.trans pow32_lt_W64), setEntry, orFail]

theorem entryField_bytes {data : List UInt8} (h : data.length < 2 ^ 64) (v : EntryVars)
    (rest : List UInt8) :
    entryField v 7 (encValue (.bytes data) ++ rest) = .ok (setEntry v (7, .bytes data), rest) := by
  have hhead : decMajor 2 (encHead 2 data.length ++ (data ++ rest)) =
      some (data.length, data ++ rest) :=
    decMajor_eq_some.mpr ⟨_, isHead_encHead (by decide) h, rfl⟩
  simp only [entryField, encValue, List.append_assoc, hhead, takeBytes_append]
  rfl

theorem entryField_encValue {e : Entry} (he : Stored e) {f : Field} (hf : f ∈ entryFields e)
    (v : EntryVars) (rest : List UInt8) :
    entryField v f.1 (encValue f.2 ++ rest) = .ok (setEntry v f, rest) := by
  unfold entryFields at hf
  split at hf
  · rcases List.mem_append.mp hf with hf | hf
    · exact entryField_common he hf v rest
    · have hdata := he.data
      have hsum := e.checksum.toNat_lt
      unfold logBufSize at hdata
      simp only [List.mem_cons, List.not_mem_nil, or_false] at hf
      rcases hf with rfl | rfl
      · simp [entryField, encValue, decUint_encHead (hsum.trans pow32_lt_W64), setEntry, orFail]
      · exact entryField_bytes (by omega) v rest
  · exact entryField_common he hf v rest

theorem Logged.stored (z : Lz4) (r : Logged) : Stored (r.entry z) := by
  have hvalid := r.valid
  unfold Logged.entry
  cases hr : r.record with
  | write data =>
    rw [hr] at hvalid
    have hlen := hvalid.2
    have hcomp := z.length_compress_le data
    refine ⟨.inl rfl, r.time_lt, r.sequence_lt, r.block_lt, ?_, ?_⟩
    · exact Nat.mod_lt _ (by decide)
    · change (z.compress data).length ≤ _
      unfold logBufSize
      omega
  | trim length =>
    rw [hr] at hvalid
    exact ⟨.inr ⟨rfl, rfl, rfl⟩, r.time_lt, r.sequence_lt, r.block_lt, hvalid, Nat.zero_le _⟩

theorem keyed_entry (z : Lz4) (r : Logged) (rest : List UInt8) :
    keyed LogEnd.key entryField (entryFields (r.entry z)).length .start
      ((entryFields (r.entry z)).flatMap encField ++ rest) =
        .ok ((entryFields (r.entry z)).foldl setEntry .start, rest) := by
  have hfits := (r.stored z).mapFits.2
  exact keyed_encField (fun f hf => (hfits f hf).1)
    (fun f hf v rest => entryField_encValue (r.stored z) hf v rest) _ _

theorem lz4DecompressSafe_compress (z : Lz4) {data : List UInt8} (hne : data ≠ [])
    (hlen : data.length ≤ 131072) :
    lz4DecompressSafe z (z.compress data) data.length = some data := by
  have hcomp := z.length_compress_le data
  have hint : ∀ {n : ℕ}, n < 2 ^ 31 → (BitVec.ofNat 32 n).toInt = n := by
    intro n hn
    rw [BitVec.toInt_eq_toNat_cond, BitVec.toNat_ofNat]
    split_ifs <;> omega
  have hsize := hint (n := (z.compress data).length) (by omega)
  have hcap := hint (n := data.length) (by omega)
  unfold lz4DecompressSafe
  dsimp only
  rw [hsize, hcap, if_neg (by omega), Int.toNat_natCast, Int.toNat_natCast, List.take_length]
  exact z.decompress_compress data hne

theorem finishEntry_entry (z : Lz4) (r : Logged) :
    finishEntry z ((entryFields (r.entry z)).foldl setEntry .start) = some r.shown := by
  have hvalid := r.valid
  cases hr : r.record with
  | write data =>
    rw [hr] at hvalid
    obtain ⟨hne, hlen⟩ := hvalid
    have hmod : data.length % 2 ^ 32 = data.length := Nat.mod_eq_of_lt (by omega)
    have hsum : (crc32 data).toNat % 2 ^ 32 = (crc32 data).toNat :=
      Nat.mod_eq_of_lt (crc32 data).toNat_lt
    have hvars : (entryFields (r.entry z)).foldl setEntry .start =
        ⟨UInt8.ofNat 'W'.toNat, r.timestampNS, r.sequence, r.block, data.length,
          some (crc32 data).toNat, some (z.compress data)⟩ := by
      simp only [Logged.entry, hr, entryFields, commonFields, List.cons_append, List.nil_append,
        List.foldl_cons, List.foldl_nil, setEntry, hmod, hsum]
      rfl
    have hpos : 0 < data.length ∧ 0 < (z.compress data).length :=
      ⟨List.length_pos_of_ne_nil hne, List.length_pos_of_ne_nil (z.compress_ne_nil data hne)⟩
    rw [hvars, finishEntry, payload]
    dsimp only
    rw [if_pos hpos, lz4DecompressSafe_compress z hne hlen, Logged.shown, hr]
    simp [crc32Calc_eq]
  | trim length =>
    rw [hr] at hvalid
    have hmod : length % 2 ^ 32 = length := Nat.mod_eq_of_lt hvalid
    have hvars : (entryFields (r.entry z)).foldl setEntry .start =
        ⟨UInt8.ofNat 'T'.toNat, r.timestampNS, r.sequence, r.block, length, none, none⟩ := by
      simp only [Logged.entry, hr, entryFields, commonFields, List.foldl_cons, List.foldl_nil,
        setEntry, hmod]
      rfl
    rw [hvars, Logged.shown, hr]
    rfl

theorem logEntries_encoded (z : Lz4) (rs : List Logged) {fuel : ℕ} (hfuel : rs.length ≤ fuel) :
    logEntries z fuel (rs.map fun r => encMap (entryFields (r.entry z))).flatten =
      (rs.map Logged.shown, .eof) := by
  induction rs generalizing fuel with
  | nil => cases fuel <;> rfl
  | cons r rs ih =>
    obtain ⟨fuel, rfl⟩ : ∃ k, fuel = k + 1 := ⟨fuel - 1, by simp at hfuel; omega⟩
    set rest := (rs.map fun r => encMap (entryFields (r.entry z))).flatten with hrest
    have hhead : decHead (encMap (entryFields (r.entry z)) ++ rest) =
        some ((5, (entryFields (r.entry z)).length),
          (entryFields (r.entry z)).flatMap encField ++ rest) := by
      rw [encMap, List.append_assoc]
      exact decHead_encHead (by decide) (r.stored z).mapFits.1 _
    rw [List.map_cons, List.flatten_cons, ← hrest]
    obtain ⟨b, bs, hb⟩ := List.exists_cons_of_ne_nil
      (List.append_ne_nil_of_left_ne_nil (encMap_ne_nil (entryFields (r.entry z))) rest)
    rw [hb] at hhead ⊢
    simp only [logEntries, hhead, ne_eq, not_true_eq_false, if_false, keyed_entry,
      finishEntry_entry]
    rw [ih (by simpa using hfuel)]
    rfl

/-- The log that the module writes fits its buffers and is read back by `lbdctl log`. -/
theorem log_roundTrip (z : Lz4) (h : LogHeader) (rs : List Logged) :
    ∃ bytes, encodeLog z h rs = some bytes ∧
      cmdLogCbor z bytes = .ok
        ⟨⟨logVersion, blockSize, h.segmentLabel, h.deviceSize, h.backingPath⟩,
          rs.map Logged.shown, .eof⟩ := by
  have hentries : rs.mapM (Logged.encoded z) =
      some (rs.map fun r => encMap (entryFields (r.entry z))) := by
    induction rs with
    | nil => rfl
    | cons r rs ih => simp [Logged.encoded_eq, ih]
  set rest := (rs.map fun r => encMap (entryFields (r.entry z))).flatten with hrest
  refine ⟨encMap h.fields ++ rest, ?_, ?_⟩
  · rw [encodeLog, encode_headerFields, hentries]
    rfl
  · have hmap : decMajor 5 (encMap h.fields ++ rest) =
        some (h.fields.length, h.fields.flatMap encField ++ rest) :=
      decMajor_eq_some.mpr ⟨_, isHead_encHead (by decide) (by simp [LogHeader.fields]),
        by rw [encMap, List.append_assoc]⟩
    have hfuel : rs.length ≤ rest.length := by
      have hlen := length_le_flatMap_encMap (rs.map fun r => entryFields (r.entry z))
      rwa [List.length_map, List.flatMap_map, List.flatMap_def] at hlen
    simp only [cmdLogCbor, hmap, keyed_header]
    rw [hrest, logEntries_encoded z rs (hrest ▸ hfuel)]

/-- Blocks of one sequence of literals, as LZ4 makes them of inputs of up to 12 bytes. -/
def literals : Lz4 where
  compress d := UInt8.ofNat (16 * min d.length 15) :: d
  decompress c _ := some c.tail
  compress_ne_nil _ _ := List.cons_ne_nil _ _
  length_compress_le d := by
    rw [List.length_cons]
    omega
  decompress_compress _ _ := rfl

/-- A segment with a write of three bytes and a trim of the largest length. -/
theorem small_log_roundTrip :
    ∃ bytes, encodeLog literals
        ⟨[97], 8192, [47, 97], by decide, by decide, by decide, by decide, by decide⟩
        [⟨5, 0, 1, .write [1, 2, 3], by decide, by decide, by decide, by decide, by decide⟩,
          ⟨6, 1, 0, .trim (2 ^ 32 - 1), by decide, by decide, by decide, Nat.lt_succ_self _⟩] =
            some bytes ∧
      cmdLogCbor literals bytes = .ok
        ⟨⟨2, 4096, [97], 8192, [47, 97]⟩,
          [⟨false, 5, 0, 1, 3, some (crc32 [1, 2, 3]).toNat, some [1, 2, 3], true⟩,
            ⟨true, 6, 1, 0, 2 ^ 32 - 1, none, none, true⟩], .eof⟩ :=
  log_roundTrip literals _ _

end RoundTrip

end Lbd.LogDump
