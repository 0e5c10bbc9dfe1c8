import Lbd.QCow2.Kernel

/-!
# Requests to the kernel's qcow2 device

`lbd_qcow2_read`, `lbd_qcow2_write` and `lbd_qcow2_discard`, attaching and
detaching the backing file and the base, and the daemon's answer to a miss.
A device serves one request at a time.
-/

namespace Lbd.QCow2

namespace QCow2Image

/-- `handleMiss` of the daemon up to its answer, for the assembled cluster data. -/
def serveMiss (z : Codec) (clusterIndex : ℕ) : Option (List UInt8) → ImageM MissAction
  | none => pure .missContinue
  | some clusterData => do
    let img ← Act.get
    writeAt z clusterData (clusterIndex * img.clusterSize)
    flush
    pure .missRetry

end QCow2Image

namespace Device

/-- The daemon writes to the file that the base layer reads, if that is a qcow2 file. -/
def handleMiss (z : Codec) (clusterIndex : ℕ) : KernelM MissAction := fun d =>
  match d.missHandler with
  | none => (.ok .missContinue, d)
  | some mh =>
    let img := match d.base with
      | some b => if b.isQcow2 then { mh.baseImg with f := b.file } else mh.baseImg
      | none => mh.baseImg
    let r := QCow2Image.serveMiss z clusterIndex (mh.assemble clusterIndex) img
    let answer := match r.1 with
      | .ok action => action
      | .error _ => .missContinue
    let base := d.base.map fun b => if b.isQcow2 then { b with file := r.2.f } else b
    (.ok answer, { d with base := base, missHandler := some { mh with baseImg := r.2 } })

def invalidateForRetry (clusterIndex : ℕ) : KernelM Unit :=
  Act.modify fun d => { d with
    clCache := d.clCache.purge clusterIndex
    base := d.base.map fun b =>
      if b.isQcow2 then
        { b with l2Cache := b.l2Cache.purge (clusterIndex / b.l2Entries % 2 ^ 32) }
      else b }

/-- Look up the bytes of one turn; a missing cluster is left to `miss`. -/
def loadChunk (z : Codec) (c : Chunk) (miss : KernelM (List UInt8)) : KernelM (List UInt8) := do
  let r ← clLoad z c.cluster
  match r with
  | .entry ce => do
    let d ← Act.get
    pure (((d.clCache ce).val.drop c.off).take c.len)
  | .null => Act.throw .eio
  | .noData => miss

/-- One turn of the read loop; `retries` is how often a miss may still be retried. -/
def readChunk (z : Codec) (c : Chunk) : (retries : ℕ) → KernelM (List UInt8)
  | 0 => loadChunk z c do
    let _ ← handleMiss z c.cluster
    pure (List.replicate c.len 0)
  | retries + 1 => loadChunk z c do
    let action ← handleMiss z c.cluster
    match action with
    | .missRetry => do
      invalidateForRetry c.cluster
      readChunk z c retries
    | .missContinue => pure (List.replicate c.len 0)

/-- The loop over the bytes of one segment. -/
def readSegment (z : Codec) (guestOffset n : ℕ) : KernelM (List UInt8) := do
  let d ← Act.get
  Act.collect (fun c => readChunk z c 3) (chunks d.clusterBits d.clusterSize guestOffset n)

/-- `lbd_qcow2_read` into segments of the given lengths. -/
def read (z : Codec) : (guestOffset : ℕ) → (segments : List ℕ) → KernelM (List UInt8)
  | _, [] => pure []
  | guestOffset, n :: segments => do
    let bs ← readSegment z guestOffset n
    let rest ← read z (guestOffset + n) segments
    pure (bs ++ rest)

/-- Make room for the new data of a cluster, in place if it fits. -/
def placeCluster (free : KernelM Unit) (oldL2Entry oldAlloc newAlloc : ℕ) : KernelM ℕ :=
  if 0 < oldAlloc ∧ newAlloc ≤ oldAlloc then pure (physOffset oldL2Entry)
  else do
    Act.when (0 < oldAlloc) free
    allocSpace newAlloc

/-- Compress and store the data of a cluster; the result is its new L2 entry. -/
def storeCluster (z : Codec) (free : KernelM Unit) (data : List UInt8) (oldL2Entry oldAlloc : ℕ) :
    KernelM ℕ := do
  let d ← Act.get
  match compressed z d.clusterSize data with
  | some comp => do
    let phys ← placeCluster free oldL2Entry oldAlloc (alignUp compAlign (4 + comp.length))
    kernelWrite phys (beBytes 4 comp.length)
    kernelWrite (phys + 4) comp
    pure (l2Compressed ||| phys)
  | none => do
    let phys ← placeCluster free oldL2Entry oldAlloc d.clusterSize
    kernelWrite phys data
    pure phys

/-- The cache entry that a write goes to; a missing cluster starts as zeros. -/
def clForWrite (z : Codec) (clusterIndex : ℕ) : KernelM (Fin cacheSize) := do
  let r ← clLoad z clusterIndex
  match r with
  | .entry ce => pure ce
  | .noData => clGetZero clusterIndex
  | .null => Act.throw .eio

def l2GetOrFail (l1Index : ℕ) : KernelM (Fin cacheSize) := do
  let r ← l2Get l1Index
  match r with
  | some l2e => pure l2e
  | none => Act.throw .eio

/-- Change the data of a cached cluster and write it back. `free` is what the caller does with
the old extent when the new data does not fit there. -/
def rewriteCluster (z : Codec) (free : ℕ → ℕ → KernelM Unit) (ce l2e : Fin cacheSize)
    (l2Idx off : ℕ) (bs : List UInt8) : KernelM Unit := do
  let d ← Act.get
  let oldL2Entry := (d.l2Cache l2e).val l2Idx
  let data := overwrite (d.clCache ce).val off bs
  let oldAlloc ← readOldAllocSize oldL2Entry
  Act.modify fun d => { d with clCache := d.clCache.setVal ce data }
  let l2Entry ← storeCluster z (free (physOffset oldL2Entry) oldAlloc) data oldL2Entry oldAlloc
  setL2Entry l2e l2Idx l2Entry
  l2Flush l2e
  writeAllocOffset

def writeChunk (z : Codec) (data : List UInt8) (c : Chunk) : KernelM Unit := do
  let d ← Act.get
  let l1Idx := c.cluster / d.l2Entries % 2 ^ 32
  let l2Idx := c.cluster % d.l2Entries
  l2Alloc l1Idx
  let ce ← clForWrite z c.cluster
  let l2e ← l2GetOrFail l1Idx
  rewriteCluster z freeExtent ce l2e l2Idx c.off ((data.drop c.pos).take c.len)

/-- `lbd_qcow2_write` of the data gathered from the segments. -/
def write (z : Codec) (guestOffset : ℕ) (segments : List (List UInt8)) : KernelM Unit := do
  let d ← Act.get
  (chunks d.clusterBits d.clusterSize guestOffset segments.flatten.length).forM
    (writeChunk z segments.flatten)

/-- `lbd_qcow2_discard` does not look at the result of `lbd_qcow2_free_extent`. -/
def freeQuietly (phys extentSize : ℕ) : KernelM Unit := ignore (freeExtent phys extentSize)

def discardEntry (l2e : Fin cacheSize) (l2Idx : ℕ) : KernelM Unit := do
  let d ← Act.get
  let oldL2 := (d.l2Cache l2e).val l2Idx
  Act.when (oldL2 ≠ 0) do
    let oldSz ← readOldAllocSize oldL2
    Act.when (0 < oldSz) (freeQuietly (physOffset oldL2) oldSz)
    setL2Entry l2e l2Idx 0
    l2Flush l2e

def discardTable (l1Idx l2Idx : ℕ) : KernelM Unit := do
  let r ← l2Get l1Idx
  match r with
  | some l2e => discardEntry l2e l2Idx
  | none => pure ()

def discardWhole (clusterIndex : ℕ) : KernelM Unit := do
  let d ← Act.get
  let l1Idx := clusterIndex / d.l2Entries % 2 ^ 32
  let l2Idx := clusterIndex % d.l2Entries
  Act.when (l1Idx < d.l1Size ∧ d.l1Table l1Idx ≠ 0) (discardTable l1Idx l2Idx)
  clInvalidate clusterIndex

/-- Zero a part of a cluster, if the primary has it. -/
def discardCached (z : Codec) (ce : Fin cacheSize) (l1Idx l2Idx off len : ℕ) : KernelM Unit := do
  let l2e ← l2GetOrFail l1Idx
  let d ← Act.get
  Act.when ((d.l2Cache l2e).val l2Idx ≠ 0)
    (rewriteCluster z freeQuietly ce l2e l2Idx off (List.replicate len 0))

def discardPart (z : Codec) (c : Chunk) : KernelM Unit := do
  let d ← Act.get
  let l1Idx := c.cluster / d.l2Entries % 2 ^ 32
  let l2Idx := c.cluster % d.l2Entries
  l2Alloc l1Idx
  let r ← clLoad z c.cluster
  match r with
  | .entry ce => discardCached z ce l1Idx l2Idx c.off c.len
  | .noData => pure ()
  | .null => Act.throw .eio

def discardChunk (z : Codec) (c : Chunk) : KernelM Unit := do
  let d ← Act.get
  if c.off = 0 ∧ c.len = d.clusterSize then discardWhole c.cluster else discardPart z c

def discard (z : Codec) (guestOffset length : ℕ) : KernelM Unit := do
  let d ← Act.get
  (chunks d.clusterBits d.clusterSize guestOffset length).forM (discardChunk z)

/-- `lbd_qcow2_init`. -/
def init : KernelM Unit := do
  let d ← Act.get
  match d.backingFile.readAt 0 headerSize with
  | none => Act.throw .eio
  | some hdr =>
    if get64 hdr 0 ≠ magic then Act.throw .einval
    else if get32 hdr 8 ≠ version then Act.throw .einval
    else do
      Act.modify fun d => { d with clusterBits := get32 hdr 12 }
      if get32 hdr 12 < 12 ∨ 24 < get32 hdr 12 then Act.throw .einval
      else do
        Act.modify fun d => { d with
          clusterSize := 2 ^ get32 hdr 12
          l2Entries := (2 ^ get32 hdr 12 - l2TrailerSize) / 8
          virtualSize := get64 hdr 16
          l1Offset := get64 hdr 24
          l1Size := get32 hdr 32
          allocOffset := get64 hdr 36
          freeListHead := get64 hdr 48
          lruTick := 0 }
        match d.backingFile.kernelRead (get64 hdr 24) (get32 hdr 32 * 8) with
        | none => Act.throw .eio
        | some diskL1 => Act.modify fun d => { d with
            l1Table := fun i => get64 diskL1 (8 * i)
            l2Cache := fun i => { d.l2Cache i with valid := false, dirty := false }
            clCache := fun i => { d.clCache i with valid := false, dirty := false } }

/-- The loop over the L2 cache in `lbd_qcow2_flush_all_l2` and `lbd_qcow2_destroy`. -/
def flushAllL2 : KernelM Unit :=
  (List.finRange cacheSize).forM fun e => ignore (l2Flush e)

/-- `lbd_qcow2_destroy`; the memory it frees is not used again. -/
def destroy : KernelM Unit := do
  flushAllL2
  ignore writeAllocOffset
  ignore writeFreeListHead

/-- A read of `lbd_qcow2_reload_l1` that fails although the file is long enough. -/
inductive ReloadFault
  | header
  | table
deriving DecidableEq, Repr

def reloadL1 (fault : Option ReloadFault) : KernelM Unit := do
  let d ← Act.get
  match if fault = some .header then none else d.backingFile.readAt 0 headerSize with
  | none => Act.throw .eio
  | some hdr => do
    Act.modify fun d => { d with allocOffset := get64 hdr 36, freeListHead := get64 hdr 48 }
    match if fault = some .table then none
      else d.backingFile.kernelRead (get64 hdr 24) (get32 hdr 32 * 8) with
    | none => Act.throw .eio
    | some diskL1 => Act.modify fun d => { d with
        l1Table := fun i => get64 diskL1 (8 * i)
        l1Size := get32 hdr 32
        l1Offset := get64 hdr 24 }

def invalidateAllCaches : KernelM Unit :=
  Act.modify fun d => { d with
    clCache := d.clCache.purgeAll
    l2Cache := d.l2Cache.purgeAll
    base := d.base.map fun b =>
      if b.isQcow2 then { b with l2Cache := b.l2Cache.purgeAll } else b }

/-- `lbd_qcow2_base_init` for a qcow2 file. -/
def baseInitQcow2 (f : File) (hdr : List UInt8) (d : Device) : Except Errno Base :=
  if get32 hdr 8 ≠ version then .error .einval
  else if get32 hdr 12 ≠ d.clusterBits then .error .einval
  else if get64 hdr 16 ≠ d.virtualSize then .error .einval
  else match f.kernelRead (get64 hdr 24) (get32 hdr 32 * 8) with
    | none => .error .eio
    | some diskL1 => .ok {
        file := f
        isQcow2 := true
        size := get64 hdr 16
        clusterBits := get32 hdr 12
        clusterSize := 2 ^ get32 hdr 12
        l2Entries := (2 ^ get32 hdr 12 - l2TrailerSize) / 8
        l1Table := fun i => get64 diskL1 (8 * i)
        l1Size := get32 hdr 32
        l1Offset := get64 hdr 24
        l2Cache := fun _ => ⟨0, false, false, 0, fun _ => 0⟩
        lruTick := 0 }

/-- `lbd_qcow2_base_init`; `f` is what opening the path gives: a regular file other than the
backing file, or an error. -/
def baseInit (f : Except Errno File) (d : Device) : Except Errno Base := do
  let f ← f
  if f.size = 0 then .error .einval
  else match f.readAt 0 8 with
    | none => .error .eio
    | some buf =>
      if get64 buf 0 = magic then
        match f.readAt 0 headerSize with
        | none => .error .eio
        | some hdr => baseInitQcow2 f hdr d
      else if f.size ≠ d.virtualSize then .error .einval
      else .ok {
        file := f
        isQcow2 := false
        size := f.size
        clusterBits := 0
        clusterSize := 0
        l2Entries := 0
        l1Table := fun _ => 0
        l1Size := 0
        l1Offset := 0
        l2Cache := fun _ => ⟨0, false, false, 0, fun _ => 0⟩
        lruTick := 0 }

def swapBase (f : Except Errno File) (fault : Option ReloadFault) : KernelM Unit := do
  flushAllL2
  Act.modify fun d => { d with base := none }
  let d ← Act.get
  match baseInit f d with
  | .error e => Act.throw e
  | .ok b => do
    Act.modify fun d => { d with base := some b }
    reloadL1 fault
    invalidateAllCaches

end Device

end Lbd.QCow2
