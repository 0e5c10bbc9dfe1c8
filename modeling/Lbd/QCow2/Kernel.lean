import Lbd.LruCache
import Lbd.QCow2.Image

/-!
# The kernel's qcow2 backing store

The request path of `lbd_qcow2.c`: the allocator, the caches of L2 tables and of
clusters, the base layer, and reads that ask user space for missing clusters.
`NULL` is `none`, and a cache entry is named by its slot. Positions are numbers that do
not wrap; results about a whole device state the sizes for which `loff_t` holds them.
-/

namespace Lbd.QCow2

/-- A failed or short file operation is `-EIO` here, whatever the file system says. -/
inductive Errno
  | eio
  | enospc
  | einval
deriving DecidableEq, Repr

def cacheSize : ℕ := 16

def compressBound (n : ℕ) : ℕ := n + n / 255 + 16

/-- The load of `lbd_qcow2_l2_get` and of `lbd_qcow2_base_l2_get`. -/
def loadTable (f : File) (l1Table : ℕ → ℕ) (l1Size clusterSize l1Index : ℕ) : Option (ℕ → ℕ) :=
  if l1Index < l1Size ∧ l1Table l1Index ≠ 0 then
    match f.readAt (l1Table l1Index) clusterSize with
    | none => none
    | some raw =>
      if storedCrc clusterSize raw ≠ calcCrc clusterSize raw then none
      else some fun j => get64 raw (8 * j)
  else some fun _ => 0

/-- The data that a non-zero L2 entry points to, in the primary or in the base. -/
def loadData (z : Codec) (f : File) (clusterSize l2Entry : ℕ) : Option (List UInt8) :=
  if isCompressed l2Entry then
    match f.readAt (physOffset l2Entry) 4 with
    | none => none
    | some buf =>
      if compressBound clusterSize < get32 buf 0 then none
      else match f.readAt (physOffset l2Entry + 4) (get32 buf 0) with
        | none => none
        | some comp => (z.decompress comp clusterSize).filter fun data => data.length = clusterSize
  else f.readAt (physOffset l2Entry) clusterSize

/-- `struct lbd_qcow2_base`; `size` is the size of a raw file or the virtual size. -/
structure Base where
  file : File
  isQcow2 : Bool
  size : ℕ
  clusterBits : ℕ
  clusterSize : ℕ
  l2Entries : ℕ
  l1Table : ℕ → ℕ
  l1Size : ℕ
  l1Offset : ℕ
  l2Cache : Cache cacheSize (ℕ → ℕ)
  lruTick : ℕ

/-- The outcome of `lbd_qcow2_base_read_cluster`: 0, 1 or an error. -/
inductive BaseRead
  | data (buf : List UInt8)
  | unallocated
  | error

namespace Base

def l2Get (b : Base) (l1Index : ℕ) : Option (ℕ → ℕ) × Base :=
  match b.l2Cache.find l1Index with
  | some i =>
    (some (b.l2Cache i).val,
      { b with l2Cache := b.l2Cache.touch i b.lruTick, lruTick := b.lruTick + 1 })
  | none =>
    let best := b.l2Cache.victim
    let cache := b.l2Cache.assign best l1Index b.lruTick
    match loadTable b.file b.l1Table b.l1Size b.clusterSize l1Index with
    | none => (none, { b with l2Cache := cache.invalidate best, lruTick := b.lruTick + 1 })
    | some table =>
      (some table, { b with l2Cache := cache.fill best table, lruTick := b.lruTick + 1 })

/-- A raw base has no cluster that ends behind the file. -/
def readRaw (b : Base) (clusterSize clusterIndex : ℕ) : BaseRead :=
  if b.size < clusterIndex * clusterSize + clusterSize then .unallocated
  else match b.file.readAt (clusterIndex * clusterSize) clusterSize with
    | some buf => .data buf
    | none => .error

def readEntry (z : Codec) (b : Base) (clusterSize l2Entry : ℕ) : BaseRead :=
  if l2Entry = 0 then .unallocated
  else match loadData z b.file clusterSize l2Entry with
    | some buf => .data buf
    | none => .error

def readCluster (z : Codec) (b : Base) (clusterSize clusterIndex : ℕ) : BaseRead × Base :=
  if b.isQcow2 = false then (b.readRaw clusterSize clusterIndex, b)
  else
    let l1Idx := clusterIndex / b.l2Entries % 2 ^ 32
    let l2Idx := clusterIndex % b.l2Entries
    match b.l2Get l1Idx with
    | (none, b') => (.error, b')
    | (some table, b') => (b'.readEntry z clusterSize (table l2Idx), b')

end Base

inductive MissAction
  | missRetry
  | missContinue
deriving DecidableEq, Repr

/-- The daemon that answers misses: the base image as it has opened it, and what its extent map
and the logs say about a cluster. -/
structure MissHandler where
  baseImg : QCow2Image
  assemble : ℕ → Option (List UInt8)

/-- The parts of `struct lbd_device` that the request path uses, with its `struct lbd_qcow2`. -/
structure Device where
  backingFile : File
  clusterBits : ℕ
  clusterSize : ℕ
  l2Entries : ℕ
  virtualSize : ℕ
  l1Table : ℕ → ℕ
  l1Size : ℕ
  l1Offset : ℕ
  allocOffset : ℕ
  freeListHead : ℕ
  l2Cache : Cache cacheSize (ℕ → ℕ)
  clCache : Cache cacheSize (List UInt8)
  lruTick : ℕ
  base : Option Base
  missHandler : Option MissHandler

abbrev KernelM := Act Device Errno

namespace Device

def kernelWrite (off : ℕ) (data : List UInt8) : KernelM Unit := fun d =>
  let w := d.backingFile.writeAt off data
  (if w.1 then .ok () else .error .eio, { d with backingFile := w.2 })

def nextTick : KernelM ℕ := fun d => (.ok d.lruTick, { d with lruTick := d.lruTick + 1 })

def writeAllocOffset : KernelM Unit := do
  let d ← Act.get
  kernelWrite 36 (beBytes 8 d.allocOffset)

def writeFreeListHead : KernelM Unit := do
  let d ← Act.get
  kernelWrite 48 (beBytes 8 d.freeListHead)

/-- Call a function and ignore its error. -/
def ignore (m : KernelM Unit) : KernelM Unit := do
  let _ ← Act.attempt m
  pure ()

/-- The size of what an L2 entry occupies, 0 on error. -/
def readOldAllocSize (l2Entry : ℕ) : KernelM ℕ := do
  let d ← Act.get
  if l2Entry = 0 then pure 0
  else if isCompressed l2Entry then
    match d.backingFile.readAt (physOffset l2Entry) 4 with
    | none => pure 0
    | some buf => pure (alignUp compAlign (4 + get32 buf 0))
  else pure d.clusterSize

def freeExtent (phys extentSize : ℕ) : KernelM Unit := do
  let d ← Act.get
  kernelWrite phys (tombstone extentSize d.freeListHead)
  Act.modify fun d => { d with freeListHead := phys }
  writeFreeListHead

def appendSpace (needed : ℕ) : KernelM ℕ := do
  let d ← Act.get
  Act.modify fun d => { d with allocOffset := d.allocOffset + needed }
  pure d.allocOffset

/-- Take a found extent out of the free list; `false` when the link could not be written. -/
def unlink (fit : Fit) : KernelM Bool :=
  if fit.isFirst then do
    Act.modify fun d => { d with freeListHead := fit.nextFree }
    pure true
  else do
    let r ← Act.attempt (kernelWrite (fit.prevPhys + 8) (beBytes 8 fit.nextFree))
    match r with
    | .ok _ => pure true
    | .error _ => pure false

/-- The rest of a found extent goes back to the free list if it can hold a tombstone. -/
def splitExtent (fit : Fit) (needed : ℕ) : KernelM Unit :=
  if freeEntryMin ≤ fit.extentSize - needed then do
    let r ← Act.attempt (freeExtent (fit.cur + needed) (fit.extentSize - needed))
    match r with
    | .ok _ => pure ()
    | .error _ => ignore writeFreeListHead
  else ignore writeFreeListHead

def allocSpace (needed : ℕ) : KernelM ℕ := do
  let d ← Act.get
  match scanFree d.backingFile needed freeScanLimit 0 true d.freeListHead with
  | none => appendSpace needed
  | some fit => do
    let linked ← unlink fit
    if linked then do
      splitExtent fit needed
      pure fit.cur
    else appendSpace needed

/-- A dirty table is written before its slot is reused; a failure is only logged. -/
def evict (best : Fin cacheSize) : KernelM Unit := do
  let d ← Act.get
  Act.when ((d.l2Cache best).valid = true ∧ (d.l2Cache best).dirty = true) do
    Act.when (d.l1Table (d.l2Cache best).key ≠ 0) <|
      ignore (kernelWrite (d.l1Table (d.l2Cache best).key)
        (l2Bytes d.l2Entries (d.l2Cache best).val))
    Act.modify fun d => { d with l2Cache := d.l2Cache.setDirty best false }

def l2Load (best : Fin cacheSize) (l1Index : ℕ) : KernelM (Option (Fin cacheSize)) := do
  let tick ← nextTick
  Act.modify fun d => { d with l2Cache := d.l2Cache.assign best l1Index tick }
  let d ← Act.get
  match loadTable d.backingFile d.l1Table d.l1Size d.clusterSize l1Index with
  | none => do
    Act.modify fun d => { d with l2Cache := d.l2Cache.invalidate best }
    pure none
  | some table => do
    Act.modify fun d => { d with l2Cache := d.l2Cache.fill best table }
    pure (some best)

def l2Get (l1Index : ℕ) : KernelM (Option (Fin cacheSize)) := do
  let d ← Act.get
  match d.l2Cache.find l1Index with
  | some i => do
    let tick ← nextTick
    Act.modify fun d => { d with l2Cache := d.l2Cache.touch i tick }
    pure (some i)
  | none => do
    let best := d.l2Cache.victim
    evict best
    l2Load best l1Index

def l2Flush (e : Fin cacheSize) : KernelM Unit := do
  let d ← Act.get
  if (d.l2Cache e).valid = false ∨ (d.l2Cache e).dirty = false then pure ()
  else if d.l1Table (d.l2Cache e).key = 0 then Act.throw .eio
  else do
    kernelWrite (d.l1Table (d.l2Cache e).key) (l2Bytes d.l2Entries (d.l2Cache e).val)
    Act.modify fun d => { d with l2Cache := d.l2Cache.setDirty e false }

def l2Alloc (l1Index : ℕ) : KernelM Unit := do
  let d ← Act.get
  if d.l1Size ≤ l1Index then Act.throw .enospc
  else if d.l1Table l1Index ≠ 0 then pure ()
  else do
    -- the table stands at the append point
    Act.modify fun d => { d with
      l1Table := Function.update d.l1Table l1Index d.allocOffset
      allocOffset := d.allocOffset + d.clusterSize }
    kernelWrite d.allocOffset (withTrailer (List.replicate (d.clusterSize - 4) 0))
    kernelWrite (d.l1Offset + l1Index * 8) (beBytes 8 d.allocOffset)

/-- `l2e->table[l2_idx] = l2_entry` with the dirty flag. -/
def setL2Entry (l2e : Fin cacheSize) (l2Idx l2Entry : ℕ) : KernelM Unit :=
  Act.modify fun d => { d with
    l2Cache := (d.l2Cache.setVal l2e
      (Function.update (d.l2Cache l2e).val l2Idx l2Entry)).setDirty l2e true }

/-- A cluster cache entry, `NULL`, or `ERR_PTR(-ENODATA)`. -/
inductive ClEntry
  | entry (ce : Fin cacheSize)
  | null
  | noData

def clFind (clusterIndex : ℕ) : KernelM (Option (Fin cacheSize)) := do
  let d ← Act.get
  match d.clCache.find clusterIndex with
  | some i => do
    let tick ← nextTick
    Act.modify fun d => { d with clCache := d.clCache.touch i tick }
    pure (some i)
  | none => pure none

def clInvalidate (clusterIndex : ℕ) : KernelM Unit := do
  let d ← Act.get
  match d.clCache.find clusterIndex with
  | some i => Act.modify fun d => { d with clCache := d.clCache.invalidate i }
  | none => pure ()

/-- `lbd_qcow2_cl_alloc_entry` and the assignments that follow each of its calls. -/
def clAllocEntry (clusterIndex : ℕ) : KernelM (Fin cacheSize) := do
  let d ← Act.get
  let best := d.clCache.victim
  let tick ← nextTick
  Act.modify fun d => { d with
    clCache := (d.clCache.invalidate best).assign best clusterIndex tick }
  pure best

def clFill (ce : Fin cacheSize) (data : List UInt8) : KernelM Unit :=
  Act.modify fun d => { d with clCache := d.clCache.fill ce data }

def clGetZero (clusterIndex : ℕ) : KernelM (Fin cacheSize) := do
  let r ← clFind clusterIndex
  match r with
  | some ce => pure ce
  | none => do
    let d ← Act.get
    let ce ← clAllocEntry clusterIndex
    clFill ce (List.replicate d.clusterSize 0)
    pure ce

def baseReadCluster (z : Codec) (clusterIndex : ℕ) : KernelM (Option BaseRead) := fun d =>
  match d.base with
  | none => (.ok none, d)
  | some b =>
    let r := b.readCluster z d.clusterSize clusterIndex
    (.ok (some r.1), { d with base := some r.2 })

/-- A cluster that the primary and the base do not have is missing if there is a handler. -/
def clLoadZero (ce : Fin cacheSize) : KernelM ClEntry := do
  let d ← Act.get
  if d.missHandler.isSome then pure .noData
  else do
    clFill ce (List.replicate d.clusterSize 0)
    pure (.entry ce)

def clLoadBase (z : Codec) (ce : Fin cacheSize) (clusterIndex : ℕ) : KernelM ClEntry := do
  let r ← baseReadCluster z clusterIndex
  match r with
  | some (.data buf) => do
    clFill ce buf
    pure (.entry ce)
  | some .error => pure .null
  | some .unallocated => clLoadZero ce
  | none => clLoadZero ce

def clLoadStored (z : Codec) (ce : Fin cacheSize) (l2Entry : ℕ) : KernelM ClEntry := do
  let d ← Act.get
  match loadData z d.backingFile d.clusterSize l2Entry with
  | none => pure .null
  | some data => do
    clFill ce data
    pure (.entry ce)

def clLoad (z : Codec) (clusterIndex : ℕ) : KernelM ClEntry := do
  let r ← clFind clusterIndex
  match r with
  | some ce => pure (.entry ce)
  | none => do
    let d ← Act.get
    let l1Idx := clusterIndex / d.l2Entries % 2 ^ 32
    let l2Idx := clusterIndex % d.l2Entries
    let r ← l2Get l1Idx
    match r with
    | none => pure .null
    | some l2e => do
      let d ← Act.get
      let ce ← clAllocEntry clusterIndex
      if (d.l2Cache l2e).val l2Idx = 0 then clLoadBase z ce clusterIndex
      else clLoadStored z ce ((d.l2Cache l2e).val l2Idx)

end Device

end Lbd.QCow2
