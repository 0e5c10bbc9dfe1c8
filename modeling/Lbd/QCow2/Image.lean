import Lbd.Chunks
import Lbd.Words
import Lbd.QCow2.FreeList

/-!
# `QCow2Image`

The reader and writer of `qcow2.go`. Tables are functions of the index. An L2
table that the source changes through a slice is put back into the cache.
-/

namespace Lbd.QCow2

/-- The file operations that errors name. -/
inductive FileOp
  | header
  | l1Table
  | truncate
  | l2Table
  | compressedSize
  | compressedData
  | cluster
  | freeTombstone
  | freeLink
  | compressedCluster
  | uncompressedCluster
  | allocOffset
  | freeListHead
deriving DecidableEq, Repr

inductive QCow2Error
  | clusterBits
  /-- The file ends before the bytes to read. -/
  | read (op : FileOp)
  | write (op : FileOp)
  | badMagic
  | unsupportedVersion (version : ℕ)
  | l2Checksum (l1Idx stored computed : ℕ)
  | l1OutOfRange (l1Idx max : ℕ)
  | decompress
  | decompressedLength (got expected : ℕ)
  /-- The run-time check of an index into a buffer for the L1 table; the source panics. -/
  | l1Buffer
deriving DecidableEq, Repr

structure QCow2Image where
  f : File
  readOnly : Bool
  clusterBits : ℕ
  clusterSize : ℕ
  l2Entries : ℕ
  virtualSize : ℕ
  l1Table : ℕ → ℕ
  l1Size : ℕ
  l1Offset : ℕ
  allocOffset : ℕ
  freeListHead : ℕ
  l2Cache : ℕ → Option (ℕ → ℕ)

/-- The guest bytes that one L2 table maps. -/
def tableSpan (clusterSize : ℕ) : ℕ := (clusterSize - l2TrailerSize) / 8 * clusterSize

/-- The number of L1 entries for a virtual size, in `uint64` and then `uint32`. -/
def newL1Size (virtualSize clusterSize : ℕ) : ℕ :=
  let l1Size := (virtualSize + tableSpan clusterSize - 1) % W64 / tableSpan clusterSize % 2 ^ 32
  if l1Size = 0 then 1 else l1Size

def newImage (f : File) (virtualSize clusterBits l1Size allocOffset : ℕ) : QCow2Image where
  f := f
  readOnly := false
  clusterBits := clusterBits
  clusterSize := 2 ^ clusterBits
  l2Entries := (2 ^ clusterBits - l2TrailerSize) / 8
  virtualSize := virtualSize
  l1Table := fun _ => 0
  l1Size := l1Size
  l1Offset := headerSize
  allocOffset := allocOffset
  freeListHead := 0
  l2Cache := fun _ => none

/-- `CreateQCow2` on the file that `O_TRUNC` left empty. -/
def createQCow2 (f : File) (virtualSize clusterBits : ℕ) : Except QCow2Error QCow2Image :=
  if clusterBits < 12 ∨ 24 < clusterBits then .error .clusterBits
  else
    let clusterSize := 2 ^ clusterBits
    let l1Size := newL1Size virtualSize clusterSize
    let l1Offset := headerSize
    let allocOffset := alignUp clusterSize (l1Offset + l1Size * 8)
    let w := f.writeAt 0 (newHeader clusterBits virtualSize l1Offset l1Size allocOffset)
    if ¬ w.1 then .error (.write .header)
    else
      let w := w.2.writeAt l1Offset (List.replicate (l1Size * 8 % 2 ^ 32) 0)
      if ¬ w.1 then .error (.write .l1Table)
      else if w.2.capacity < allocOffset then .error (.write .truncate)
      else .ok (newImage (w.2.extend allocOffset) virtualSize clusterBits l1Size allocOffset)

/-- `OpenQCow2File`: it does not check the cluster bits, and `uint32(1) << 32` is 0. -/
def openQCow2File (f : File) : Except QCow2Error QCow2Image :=
  match f.readAt 0 headerSize with
  | none => .error (.read .header)
  | some hdr =>
    if get64 hdr 0 ≠ magic then .error .badMagic
    else if get32 hdr 8 ≠ version then .error (.unsupportedVersion (get32 hdr 8))
    else
      let clusterBits := get32 hdr 12
      let clusterSize := if clusterBits < 32 then 2 ^ clusterBits else 0
      let l1Size := get32 hdr 32
      match f.readAt (get64 hdr 24) (l1Size * 8 % 2 ^ 32) with
      | none => .error (.read .l1Table)
      | some l1Buf =>
        -- the length of the buffer was computed in `uint32`
        if 2 ^ 32 ≤ l1Size * 8 then .error .l1Buffer
        else .ok {
          f := f
          readOnly := false
          clusterBits := clusterBits
          clusterSize := clusterSize
          l2Entries := (clusterSize + 2 ^ 32 - l2TrailerSize) % 2 ^ 32 / 8
          virtualSize := get64 hdr 16
          l1Table := fun i => get64 l1Buf (8 * i)
          l1Size := l1Size
          l1Offset := get64 hdr 24
          allocOffset := get64 hdr 36
          freeListHead := get64 hdr 48
          l2Cache := fun _ => none }

theorem eight_mul_entries {bits : ℕ} (hb : 3 ≤ bits) (hb' : bits < 32) :
    8 * (sub32 (2 ^ bits) l2TrailerSize / 8) + 8 = 2 ^ bits := by
  obtain ⟨k, rfl⟩ : ∃ k, bits = k + 3 := ⟨bits - 3, by omega⟩
  have hlt : 2 ^ (k + 3) < 2 ^ 32 := Nat.pow_lt_pow_right (by norm_num) hb'
  have := Nat.one_le_two_pow (n := k)
  rw [sub32, l2TrailerSize]
  rw [pow_add] at hlt ⊢
  omega

theorem entries_of_small {bits : ℕ} (hb : bits ≤ 2) :
    sub32 (2 ^ bits) l2TrailerSize / 8 = 2 ^ 29 - 1 := by
  rw [sub32]
  interval_cases bits <;> rfl

abbrev ImageM := Act QCow2Image QCow2Error

namespace QCow2Image

def readFile (op : FileOp) (off n : ℕ) : ImageM (List UInt8) := fun img =>
  match img.f.readAt off n with
  | some bs => (.ok bs, img)
  | none => (.error (.read op), img)

def writeFile (op : FileOp) (off : ℕ) (data : List UInt8) : ImageM Unit := fun img =>
  let w := img.f.writeAt off data
  (if w.1 then .ok () else .error (.write op), { img with f := w.2 })

def loadL2 (l1Idx : ℕ) : ImageM (ℕ → ℕ) := do
  let img ← Act.get
  let buf ← readFile .l2Table (img.l1Table l1Idx) img.clusterSize
  if storedCrc img.clusterSize buf ≠ calcCrc img.clusterSize buf then
    Act.throw (.l2Checksum l1Idx (storedCrc img.clusterSize buf) (calcCrc img.clusterSize buf))
  else pure fun j => get64 buf (8 * j)

def getL2 (l1Idx : ℕ) : ImageM (ℕ → ℕ) := do
  let img ← Act.get
  match img.l2Cache l1Idx with
  | some l2 => pure l2
  | none => do
    let l2 ← (if l1Idx < img.l1Size ∧ img.l1Table l1Idx ≠ 0 then loadL2 l1Idx
      else pure fun _ => 0)
    Act.modify fun img => { img with l2Cache := Function.update img.l2Cache l1Idx (some l2) }
    pure l2

def allocateL2 (l1Idx : ℕ) : ImageM (ℕ → ℕ) := do
  let img ← Act.get
  if img.l1Size ≤ l1Idx then Act.throw (.l1OutOfRange l1Idx (img.l1Size - 1))
  else if img.l1Table l1Idx ≠ 0 then getL2 l1Idx
  else do
    -- allocate the table at the append point
    Act.modify fun img => { img with
      l1Table := Function.update img.l1Table l1Idx img.allocOffset
      allocOffset := (img.allocOffset + img.clusterSize) % W64 }
    writeFile .l2Table img.allocOffset (withTrailer (List.replicate (img.clusterSize - 4) 0))
    Act.modify fun img => { img with
      l2Cache := Function.update img.l2Cache l1Idx (some fun _ => 0) }
    pure fun _ => 0

/-- `l2[l2Idx] = l2Entry`, for the slice `l2` that the cache holds. -/
def setL2Entry (l1Idx : ℕ) (l2 : ℕ → ℕ) (l2Idx l2Entry : ℕ) : ImageM Unit :=
  Act.modify fun img => { img with
    l2Cache := Function.update img.l2Cache l1Idx (some (Function.update l2 l2Idx l2Entry)) }

def readOldAllocSize (l2Entry : ℕ) : ImageM ℕ := do
  let img ← Act.get
  if l2Entry = 0 then pure 0
  else if isCompressed l2Entry then do
    let buf ← readFile .compressedSize (physOffset l2Entry) 4
    pure (alignUp compAlign (4 + get32 buf 0))
  else pure img.clusterSize

def freeExtent (phys extentSize : ℕ) : ImageM Unit := do
  let img ← Act.get
  writeFile .freeTombstone phys (tombstone extentSize img.freeListHead)
  Act.modify fun img => { img with freeListHead := phys }

def appendSpace (needed : ℕ) : ImageM ℕ := do
  let img ← Act.get
  Act.modify fun img => { img with allocOffset := (img.allocOffset + needed) % W64 }
  pure img.allocOffset

/-- Take a found extent out of the free list; `false` when the link could not be written. -/
def unlink (fit : Fit) : ImageM Bool :=
  if fit.isFirst then do
    Act.modify fun img => { img with freeListHead := fit.nextFree }
    pure true
  else do
    let r ← Act.attempt (writeFile .freeLink (fit.prevPhys + 8) (beBytes 8 fit.nextFree))
    pure r.isOk

/-- What is left of the extent goes back to the free list; a failure only wastes it. -/
def splitExtent (fit : Fit) (needed : ℕ) : ImageM Unit :=
  Act.when (freeEntryMin ≤ fit.extentSize - needed) do
    let _ ← Act.attempt (freeExtent (fit.cur + needed) (fit.extentSize - needed))
    pure ()

def allocSpace (needed : ℕ) : ImageM ℕ := do
  let img ← Act.get
  match scanFree img.f needed freeScanLimit 0 true img.freeListHead with
  | none => appendSpace needed
  | some fit => do
    let unlinked ← unlink fit
    if unlinked then do
      splitExtent fit needed
      pure fit.cur
    else appendSpace needed

/-- The place for the new data of a cluster: where the old data is when it fits there. -/
def placeCluster (oldL2Entry oldAlloc newAlloc : ℕ) : ImageM ℕ :=
  if 0 < oldAlloc ∧ newAlloc ≤ oldAlloc then pure (physOffset oldL2Entry)
  else do
    Act.when (0 < oldAlloc) (freeExtent (physOffset oldL2Entry) oldAlloc)
    allocSpace newAlloc

/-- Compress and write a full cluster, updating the L2 entry. -/
def writeCluster (z : Codec) (clusterIdx : ℕ) (data : List UInt8) : ImageM Unit := do
  let img ← Act.get
  let l1Idx := clusterIdx / img.l2Entries % 2 ^ 32
  let l2Idx := clusterIdx % img.l2Entries
  let l2 ← allocateL2 l1Idx
  let oldL2Entry := l2 l2Idx
  let oldAlloc ← readOldAllocSize oldL2Entry
  if data.all (· == 0) then do
    Act.when (oldL2Entry ≠ 0 ∧ 0 < oldAlloc) (freeExtent (physOffset oldL2Entry) oldAlloc)
    setL2Entry l1Idx l2 l2Idx 0
  else match compressed z img.clusterSize data with
    | some comp => do
      let phys ← placeCluster oldL2Entry oldAlloc (alignUp compAlign (4 + comp.length))
      writeFile .compressedCluster phys (beBytes 4 comp.length ++ comp)
      setL2Entry l1Idx l2 l2Idx (l2Compressed ||| phys)
    | none => do
      let phys ← placeCluster oldL2Entry oldAlloc img.clusterSize
      writeFile .uncompressedCluster phys data
      setL2Entry l1Idx l2 l2Idx phys

/-- The data that a non-zero entry points to. -/
def readEntry (z : Codec) (l2Entry : ℕ) : ImageM (List UInt8) := do
  let img ← Act.get
  if isCompressed l2Entry then do
    let buf ← readFile .compressedSize (physOffset l2Entry) 4
    let compData ← readFile .compressedData (physOffset l2Entry + 4) (get32 buf 0)
    match z.decompress compData img.clusterSize with
    | none => Act.throw .decompress
    | some data =>
      if data.length ≠ img.clusterSize then
        Act.throw (.decompressedLength data.length img.clusterSize)
      else pure data
  else readFile .cluster (physOffset l2Entry) img.clusterSize

def readCluster (z : Codec) (clusterIdx : ℕ) : ImageM (List UInt8) := do
  let img ← Act.get
  let l1Idx := clusterIdx / img.l2Entries % 2 ^ 32
  let l2Idx := clusterIdx % img.l2Entries
  if img.l1Size ≤ l1Idx ∨ img.l1Table l1Idx = 0 then pure (List.replicate img.clusterSize 0)
  else do
    let l2 ← getL2 l1Idx
    if l2 l2Idx = 0 then pure (List.replicate img.clusterSize 0) else readEntry z (l2 l2Idx)

def readChunk (z : Codec) (c : Chunk) : ImageM (List UInt8) := do
  let clusterData ← readCluster z c.cluster
  pure ((clusterData.drop c.off).take c.len)

def readAt (z : Codec) (guestOffset n : ℕ) : ImageM (List UInt8) := do
  let img ← Act.get
  Act.collect (readChunk z) (chunks img.clusterBits img.clusterSize guestOffset n)

def writeChunk (z : Codec) (data : List UInt8) (c : Chunk) : ImageM Unit := do
  let clusterData ← readCluster z c.cluster
  writeCluster z c.cluster (overwrite clusterData c.off ((data.drop c.pos).take c.len))

def writeAt (z : Codec) (data : List UInt8) (guestOffset : ℕ) : ImageM Unit := do
  let img ← Act.get
  (chunks img.clusterBits img.clusterSize guestOffset data.length).forM (writeChunk z data)

def trimWhole (clusterIdx : ℕ) : ImageM Unit := do
  let img ← Act.get
  let l1Idx := clusterIdx / img.l2Entries % 2 ^ 32
  let l2Idx := clusterIdx % img.l2Entries
  Act.when (l1Idx < img.l1Size ∧ img.l1Table l1Idx ≠ 0) do
    let l2 ← getL2 l1Idx
    Act.when (l2 l2Idx ≠ 0) do
      let oldAlloc ← readOldAllocSize (l2 l2Idx)
      Act.when (0 < oldAlloc) (freeExtent (physOffset (l2 l2Idx)) oldAlloc)
      setL2Entry l1Idx l2 l2Idx 0

def trimPart (z : Codec) (c : Chunk) : ImageM Unit := do
  let img ← Act.get
  let clusterData ← readCluster z c.cluster
  let l1Idx := c.cluster / img.l2Entries % 2 ^ 32
  let l2Idx := c.cluster % img.l2Entries
  Act.when (l1Idx < img.l1Size ∧ img.l1Table l1Idx ≠ 0) do
    let l2 ← getL2 l1Idx
    Act.when (l2 l2Idx ≠ 0)
      (writeCluster z c.cluster (overwrite clusterData c.off (List.replicate c.len 0)))

def trimChunk (z : Codec) (c : Chunk) : ImageM Unit := do
  let img ← Act.get
  if c.off = 0 ∧ c.len = img.clusterSize then trimWhole c.cluster else trimPart z c

def trim (z : Codec) (guestOffset length : ℕ) : ImageM Unit := do
  let img ← Act.get
  (chunks img.clusterBits img.clusterSize guestOffset length).forM (trimChunk z)

def writeL2Table (l1Idx : ℕ) (l2 : ℕ → ℕ) : ImageM Unit := do
  let img ← Act.get
  Act.when (img.l1Table l1Idx ≠ 0)
    (writeFile .l2Table (img.l1Table l1Idx) (l2Bytes img.l2Entries l2))

/-- The length of the buffer is computed in `uint32`; one that is too short cannot be filled. -/
def writeL1Table : ImageM Unit := do
  let img ← Act.get
  if 2 ^ 32 ≤ img.l1Size * 8 then Act.throw .l1Buffer
  else writeFile .l1Table img.l1Offset (tableBytes img.l1Size img.l1Table)

def writeAllocOffset : ImageM Unit := do
  let img ← Act.get
  writeFile .allocOffset 36 (beBytes 8 img.allocOffset)
  writeFile .freeListHead 48 (beBytes 8 img.freeListHead)

def writeCached (l2Cache : ℕ → Option (ℕ → ℕ)) (l1Idx : ℕ) : ImageM Unit :=
  match l2Cache l1Idx with
  | some l2 => writeL2Table l1Idx l2
  | none => pure ()

/-- The cached tables are written in the order of their indexes; the source iterates over a map,
in any order. -/
def writeCachedTables : ImageM Unit := do
  let img ← Act.get
  (List.range img.l1Size).forM (writeCached img.l2Cache)

def flush : ImageM Unit := do
  writeCachedTables
  writeL1Table
  writeAllocOffset

def close : ImageM Unit := do
  let img ← Act.get
  Act.when (img.readOnly = false) do
    writeCachedTables
    writeL1Table
    writeAllocOffset

/-- `Close` and then `OpenQCow2` of the same file. -/
def reopen : ImageM Unit := do
  close
  let img ← Act.get
  match openQCow2File img.f with
  | .ok img' => Act.modify fun _ => img'
  | .error e => Act.throw e

end QCow2Image

end Lbd.QCow2
