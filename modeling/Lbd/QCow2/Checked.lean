import Lbd.QCow2.Image

/-!
# Opening and reading any file

`OpenQCow2File` takes the cluster bits and the size of the L1 table as they stand in the file.
Here are `OpenQCow2File` and `ReadAt` with all that can happen then: a division by zero, an index
outside of a slice, a loop that does not advance. Sizes are computed in `uint32`.
-/

namespace Lbd.QCow2.Checked

/-- How a call ends other than by returning a result: an error, or what the Go run time stops
it for. A loop that still goes on after all its `fuel` is `outOfFuel`. -/
inductive Stop where
  | error (e : QCow2Error)
  | divideByZero
  | sliceBounds
  | outOfFuel
deriving DecidableEq, Repr

abbrev CheckedM := Act QCow2Image Stop

def openQCow2File (f : File) : Except Stop QCow2Image :=
  match f.readFull 0 headerSize with
  | none => .error (.error (.read .header))
  | some hdr =>
    if get64 hdr 0 ≠ magic then .error (.error .badMagic)
    else if get32 hdr 8 ≠ version then .error (.error (.unsupportedVersion (get32 hdr 8)))
    else
      let clusterBits := get32 hdr 12
      let clusterSize := if clusterBits < 32 then 2 ^ clusterBits else 0
      let l1Size := get32 hdr 32
      match f.readFull (get64 hdr 24) (l1Size * 8 % 2 ^ 32) with
      | none => .error (.error (.read .l1Table))
      | some l1Buf =>
        -- with a shorter buffer one of the entries lies outside of it
        if 2 ^ 32 ≤ l1Size * 8 then .error .sliceBounds
        else .ok {
          f := f
          readOnly := false
          clusterBits := clusterBits
          clusterSize := clusterSize
          l2Entries := sub32 clusterSize l2TrailerSize / 8
          virtualSize := get64 hdr 16
          l1Table := fun i => get64 l1Buf (8 * i)
          l1Size := l1Size
          l1Offset := get64 hdr 24
          allocOffset := get64 hdr 36
          freeListHead := get64 hdr 48
          l2Cache := fun _ => none }

def readFile (op : FileOp) (off n : ℕ) : CheckedM (List UInt8) := fun img =>
  match img.f.readFull off n with
  | some bs => (.ok bs, img)
  | none => (.error (.error (.read op)), img)

/-- `binary.BigEndian.Uint32(buf[off:])` and `Uint64`, for `k` bytes. -/
def field (k : ℕ) (buf : List UInt8) (off : ℕ) : CheckedM ℕ :=
  if buf.length < off + k then Act.throw .sliceBounds else pure (getBE k buf off)

/-- The loop over the entries of a table: each is eight bytes of the buffer. -/
def entries (buf : List UInt8) : CheckedM (ℕ → ℕ) := do
  let img ← Act.get
  if ∃ j < img.l2Entries, buf.length < 8 * j % 2 ^ 32 + 8 then Act.throw .sliceBounds
  else pure fun j => get64 buf (8 * j)

def trailerCrc (buf : List UInt8) (trailer : ℕ) : ℕ := (crc32c (buf.take trailer)).toNat

/-- The check of the trailer. -/
def verifyCrc (l1Idx : ℕ) (buf : List UInt8) (trailer : ℕ) : CheckedM Unit := do
  let stored ← field 4 buf trailer
  if stored ≠ trailerCrc buf trailer then
    Act.throw (.error (.l2Checksum l1Idx stored (trailerCrc buf trailer)))
  else pure ()

/-- The part of `getL2` that loads a table. -/
def loadL2 (l1Idx : ℕ) : CheckedM (ℕ → ℕ) := do
  let img ← Act.get
  let buf ← readFile .l2Table (img.l1Table l1Idx) img.clusterSize
  verifyCrc l1Idx buf (sub32 img.clusterSize 4)
  entries buf

def getL2 (l1Idx : ℕ) : CheckedM (ℕ → ℕ) := do
  let img ← Act.get
  match img.l2Cache l1Idx with
  | some l2 => pure l2
  | none => do
    let l2 ← (if l1Idx < img.l1Size ∧ img.l1Table l1Idx ≠ 0 then loadL2 l1Idx
      else pure fun _ => 0)
    Act.modify fun img => { img with l2Cache := Function.update img.l2Cache l1Idx (some l2) }
    pure l2

/-- The end of `ReadCluster`, for a non-zero entry. -/
def readEntry (z : Codec) (l2Entry : ℕ) : CheckedM (List UInt8) := do
  let img ← Act.get
  if isCompressed l2Entry then do
    let buf ← readFile .compressedSize (physOffset l2Entry) 4
    let compData ← readFile .compressedData (physOffset l2Entry + 4) (get32 buf 0)
    match z.decompress compData img.clusterSize with
    | none => Act.throw (.error .decompress)
    | some data =>
      if data.length ≠ img.clusterSize then
        Act.throw (.error (.decompressedLength data.length img.clusterSize))
      else pure data
  else readFile .cluster (physOffset l2Entry) img.clusterSize

def readCluster (z : Codec) (clusterIdx : ℕ) : CheckedM (List UInt8) := do
  let img ← Act.get
  if img.l2Entries = 0 then Act.throw .divideByZero
  else
    let l1Idx := clusterIdx / img.l2Entries % 2 ^ 32
    let l2Idx := clusterIdx % img.l2Entries
    if img.l1Size ≤ l1Idx ∨ img.l1Table l1Idx = 0 then pure (List.replicate img.clusterSize 0)
    else do
      let l2 ← getL2 l1Idx
      if l2 l2Idx = 0 then pure (List.replicate img.clusterSize 0)
      else readEntry z (l2 l2Idx)

/-- The loop of `ReadAt`; `acc` is what it has copied so far. The offset is a 64-bit word. -/
def readLoop (z : Codec) : ℕ → ℕ → List UInt8 → ℕ → CheckedM (List UInt8)
  | _, _, acc, 0 => pure acc
  | 0, _, _, _ + 1 => Act.throw .outOfFuel
  | fuel + 1, guestOffset, acc, remaining + 1 => do
    let img ← Act.get
    let offInCluster := guestOffset % W64 &&& sub32 img.clusterSize 1
    let copyLen : ℤ := min ((img.clusterSize : ℤ) - offInCluster) (remaining + 1)
    let clusterData ← readCluster z ((guestOffset % W64) >>> img.clusterBits)
    if copyLen < 0 ∨ (clusterData.length : ℤ) < offInCluster + copyLen then Act.throw .sliceBounds
    else
      readLoop z fuel (guestOffset + copyLen.toNat)
        (acc ++ (clusterData.drop offInCluster).take copyLen.toNat)
        (remaining + 1 - copyLen.toNat)

/-- `ReadAt` of `n` bytes -/
def readAt (z : Codec) (fuel guestOffset n : ℕ) : CheckedM (List UInt8) :=
  readLoop z fuel guestOffset [] n

/-- What the opener makes of the header. -/
structure Opened (img : QCow2Image) : Prop where
  clusterSize : img.clusterSize = if img.clusterBits < 32 then 2 ^ img.clusterBits else 0
  l2Entries : img.l2Entries = sub32 img.clusterSize l2TrailerSize / 8
  l1Size : img.l1Size * 8 < 2 ^ 32

theorem opened {f : File} {img : QCow2Image} (h : openQCow2File f = .ok img) :
    Opened img ∧ ∀ i, img.l2Cache i = none := by
  unfold openQCow2File at h
  split at h
  · cases h
  · next hdr _ =>
    by_cases hm : get64 hdr 0 ≠ magic
    · rw [if_pos hm] at h
      cases h
    · by_cases hv : get32 hdr 8 ≠ version
      · rw [if_neg hm, if_pos hv] at h
        cases h
      · rw [if_neg hm, if_neg hv] at h
        dsimp only at h
        split at h
        · cases h
        · by_cases hsize : 2 ^ 32 ≤ get32 hdr 32 * 8
          · rw [if_pos hsize] at h
            cases h
          · rw [if_neg hsize] at h
            cases h
            exact ⟨⟨rfl, rfl, not_le.mp hsize⟩, fun _ => rfl⟩

namespace Opened

variable {img : QCow2Image} (h : Opened img)

include h

theorem clusterSize_eq (hb : img.clusterBits < 32) : img.clusterSize = 2 ^ img.clusterBits := by
  rw [h.clusterSize, if_pos hb]

theorem clusterSize_zero (hb : 32 ≤ img.clusterBits) : img.clusterSize = 0 := by
  rw [h.clusterSize, if_neg (not_lt.mpr hb)]

theorem l2Entries_three (hb : img.clusterBits = 3) : img.l2Entries = 0 := by
  rw [h.l2Entries, h.clusterSize_eq (by omega), hb, sub32]
  rfl

theorem l2Entries_wrapped (hb : img.clusterBits ≤ 2 ∨ 32 ≤ img.clusterBits) :
    img.l2Entries = 2 ^ 29 - 1 := by
  rw [h.l2Entries]
  rcases hb with hb | hb
  · rw [h.clusterSize_eq (by omega), entries_of_small hb]
  · rw [h.clusterSize_zero hb, sub32]
    rfl

theorem eight_mul_l2Entries (hb : 4 ≤ img.clusterBits) (hb' : img.clusterBits < 32) :
    8 * img.l2Entries + 8 = 2 ^ img.clusterBits := by
  rw [h.l2Entries, h.clusterSize_eq hb', eight_mul_entries (by omega) hb']

end Opened

end Lbd.QCow2.Checked
