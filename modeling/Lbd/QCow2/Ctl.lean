import Lbd.QCow2.Kernel

/-!
# `lbdctl convert`, `extract` and `compact`

The commands of `lbdctl.c` that write and read whole images. They check less of an image than the
kernel does, so the model has what then goes wrong: a division by zero, a shift by 32 bits or
more, an access outside of a buffer. Memory is never short.
-/

namespace Lbd.QCow2.Ctl

/-- What a command reads or writes. -/
inductive Piece
  | header
  | l1Table
  | l2Table (i : ℕ)
  | compressedSize (cluster : ℕ)
  | compressedData (cluster : ℕ)
  | cluster (cluster : ℕ)
deriving DecidableEq, Repr

/-- The reasons that the commands print. -/
inductive CtlError
  | read (what : Piece)
  | write (what : Piece)
  | extend
  | emptyInput
  | badMagic
  | l2Checksum (i stored computed : ℕ)
  | decompress (cluster : ℕ)
deriving DecidableEq, Repr

inductive Buffer
  | l1Table
  | diskL2
  | compBuf
deriving DecidableEq, Repr

/-- How a command ends without success: by an error, or by what C leaves undefined. -/
inductive Stop
  | error (e : CtlError)
  | divideByZero
  | wideShift
  | overrun (b : Buffer)
deriving DecidableEq, Repr

/-- The two files of a command and the variables that its loops change. -/
structure Work where
  src : File
  out : File
  allocOffset : ℕ
  l1Table : ℕ → ℕ
  l2Tables : ℕ → ℕ → ℕ

abbrev CtlM := Act Work Stop

def start (src out : File) : Work where
  src := src
  out := out
  allocOffset := 0
  l1Table := fun _ => 0
  l2Tables := fun _ _ => 0

def pread (f : File) (off n : ℕ) : Option (List UInt8) :=
  if maxRw < n then none else f.readFull off n

def preadOr (f : File) (what : Piece) (off n : ℕ) : Except Stop (List UInt8) :=
  match pread f off n with
  | some buf => .ok buf
  | none => .error (.error (.read what))

/-- `pwrite` to the output; a short write is an error, and what it leaves is not modelled. -/
def pwrite (what : Piece) (off : ℕ) (data : List UInt8) : CtlM Unit := fun w =>
  if data = [] then (.ok (), w)
  else if maxRw < data.length then (.error (.error (.write what)), w)
  else
    let r := w.out.writeAt off data
    (if r.1 then .ok () else .error (.error (.write what)), { w with out := r.2 })

/-- `open` of the output with `O_TRUNC`. -/
def createOut : CtlM Unit := Act.modify fun w => { w with out := w.out.truncate 0 }

def ftruncate (size : ℕ) : CtlM Unit := fun w =>
  if 2 ^ 63 ≤ size ∨ w.out.capacity < size then (.error (.error .extend), w)
  else (.ok (), { w with out := w.out.truncate size })

/-- An image whose header and L1 table were read. -/
structure Image where
  f : File
  clusterBits : ℕ
  virtualSize : ℕ
  l1Offset : ℕ
  l1Size : ℕ
  l1Table : ℕ → ℕ

namespace Image

variable (img : Image)

def clusterSize : ℕ := 2 ^ img.clusterBits

def l2Entries : ℕ := sub32 img.clusterSize l2TrailerSize / 8

def totalClusters : ℕ := (img.virtualSize + img.clusterSize - 1) % W64 / img.clusterSize

end Image

/-- The header and the L1 table; the version and the cluster bits are taken as they are. -/
def openImage (f : File) : Except Stop Image := do
  let hdr ← preadOr f .header 0 headerSize
  if get64 hdr 0 ≠ magic then .error (.error .badMagic)
  else if 32 ≤ get32 hdr 12 then .error .wideShift
  else do
    let diskL1 ← preadOr f .l1Table (get64 hdr 24) (get32 hdr 32 * 8)
    .ok {
      f := f
      clusterBits := get32 hdr 12
      virtualSize := get64 hdr 16
      l1Offset := get64 hdr 24
      l1Size := get32 hdr 32
      l1Table := fun i => get64 diskL1 (8 * i) }

/-- Verify the checksum of a table and take its entries. -/
def verifyL2 (img : Image) (i : ℕ) (raw : List UInt8) : Except Stop (ℕ → ℕ) :=
  -- the offset of the checksum wraps
  if img.clusterSize < 4 then .error (.overrun .diskL2)
  else if storedCrc img.clusterSize raw ≠ calcCrc img.clusterSize raw then
    .error (.error (.l2Checksum i (storedCrc img.clusterSize raw) (calcCrc img.clusterSize raw)))
  else if img.clusterSize < 8 * img.l2Entries then .error (.overrun .diskL2)
  else .ok fun j => get64 raw (8 * j)

def loadL2 (img : Image) (i : ℕ) : Except Stop (ℕ → ℕ) := do
  let raw ← preadOr img.f (.l2Table i) (img.l1Table i) img.clusterSize
  verifyL2 img i raw

/-- The first `n` L2 tables. -/
def loadTables (img : Image) : ℕ → Except Stop (ℕ → ℕ → ℕ)
  | 0 => .ok fun _ _ => 0
  | n + 1 => do
    let tables ← loadTables img n
    if img.l1Table n = 0 then .ok tables
    else do
      let l2 ← loadL2 img n
      .ok (Function.update tables n l2)

/-- `LZ4_compressBound`, 0 for what LZ4 does not take. -/
def compCap (clusterSize : ℕ) : ℕ :=
  if 0x7E000000 < clusterSize then 0 else compressBound clusterSize

/-- `LZ4_decompress_safe` into the cluster buffer. -/
def decompressCluster (z : Codec) (img : Image) (ci : ℕ) (comp : List UInt8) :
    Except Stop (List UInt8) :=
  match z.decompress comp img.clusterSize with
  | none => .error (.error (.decompress ci))
  | some data =>
    if data.length ≠ img.clusterSize then .error (.error (.decompress ci)) else .ok data

/-- The data of cluster `ci`, which has the non-zero entry `l2Entry`. A read counts with the
length that it asks for, whatever the file has there: it runs past a buffer that is shorter. -/
def readEntry (z : Codec) (img : Image) (ci l2Entry : ℕ) : Except Stop (List UInt8) :=
  if isCompressed l2Entry then do
    let sizeBuf ← preadOr img.f (.compressedSize ci) (physOffset l2Entry) 4
    if compCap img.clusterSize < get32 sizeBuf 0 then .error (.overrun .compBuf)
    else do
      let comp ← preadOr img.f (.compressedData ci) (physOffset l2Entry + 4) (get32 sizeBuf 0)
      decompressCluster z img ci comp
  else preadOr img.f (.cluster ci) (physOffset l2Entry) img.clusterSize

/-- The data of cluster `ci`, if it has any. -/
def readCluster (z : Codec) (img : Image) (l2 : ℕ → ℕ → ℕ) (ci : ℕ) :
    Except Stop (Option (List UInt8)) :=
  if img.l2Entries = 0 then .error .divideByZero
  else
    let l1Idx := ci / img.l2Entries % 2 ^ 32
    let l2Idx := ci % img.l2Entries
    if img.l1Size ≤ l1Idx ∨ img.l1Table l1Idx = 0 ∨ l2 l1Idx l2Idx = 0 then .ok none
    else do
      let data ← readEntry z img ci (l2 l1Idx l2Idx)
      .ok (some data)

def extractCluster (z : Codec) (img : Image) (l2 : ℕ → ℕ → ℕ) (ci : ℕ) : CtlM Unit := do
  let data ← Act.ofExcept (readCluster z img l2 ci)
  match data with
  | none => pure ()
  | some data =>
    -- the last cluster may be a part of one
    let writeLen := if img.virtualSize < (ci + 1) * img.clusterSize then
      img.virtualSize - ci * img.clusterSize else img.clusterSize
    pwrite (.cluster ci) (ci * img.clusterSize) (data.take writeLen)

def cmdExtract (z : Codec) : CtlM Unit := do
  let w ← Act.get
  let img ← Act.ofExcept (openImage w.src)
  createOut
  ftruncate img.virtualSize
  let l2 ← Act.ofExcept (loadTables img img.l1Size)
  (List.range img.totalClusters).forM (extractCluster z img l2)

/-- Reserve the place of an L2 table. -/
def allocTable (clusterSize l1Idx : ℕ) : CtlM Unit := Act.modify fun w =>
  if w.l1Table l1Idx = 0 then
    { w with
      l1Table := Function.update w.l1Table l1Idx w.allocOffset
      allocOffset := w.allocOffset + clusterSize }
  else w

/-- Set an L2 entry and go on behind the `n` bytes that it stands for. -/
def setEntry (l1Idx l2Idx l2Entry n : ℕ) : CtlM Unit := Act.modify fun w => { w with
  l2Tables := Function.update w.l2Tables l1Idx
    (Function.update (w.l2Tables l1Idx) l2Idx l2Entry)
  allocOffset := w.allocOffset + n }

/-- Compress and store a cluster at the append point. -/
def storeCluster (z : Codec) (clusterSize l2Entries ci : ℕ) (data : List UInt8) : CtlM Unit := do
  let l1Idx := ci / l2Entries % 2 ^ 32
  let l2Idx := ci % l2Entries
  allocTable clusterSize l1Idx
  let w ← Act.get
  match compressed z clusterSize data with
  | some comp => do
    pwrite (.compressedSize ci) w.allocOffset (beBytes 4 comp.length)
    pwrite (.compressedData ci) (w.allocOffset + 4) comp
    setEntry l1Idx l2Idx (l2Compressed ||| w.allocOffset) (alignUp compAlign (4 + comp.length))
  | none => do
    pwrite (.cluster ci) w.allocOffset data
    setEntry l1Idx l2Idx w.allocOffset clusterSize

def writeL2 (l2Entries i : ℕ) : CtlM Unit := do
  let w ← Act.get
  if w.l1Table i = 0 then pure ()
  else pwrite (.l2Table i) (w.l1Table i) (l2Bytes l2Entries (w.l2Tables i))

/-- Write the tables and the header; that the last `ftruncate` fails is only a warning. -/
def writeMeta (clusterBits l2Entries virtualSize l1Offset l1Size : ℕ) : CtlM Unit := do
  (List.range l1Size).forM (writeL2 l2Entries)
  let w ← Act.get
  pwrite .header 0 (newHeader clusterBits virtualSize l1Offset l1Size w.allocOffset)
  pwrite .l1Table l1Offset (tableBytes l1Size w.l1Table)
  let _ ← Act.attempt (ftruncate w.allocOffset)
  pure ()

/-- The output before its first cluster: room for the header and the L1 table. -/
def reserve (clusterSize l1Offset l1Size : ℕ) : CtlM Unit := do
  let allocOffset := alignUp clusterSize (l1Offset + l1Size * 8)
  createOut
  ftruncate allocOffset
  Act.modify fun w => { w with
    allocOffset := allocOffset, l1Table := fun _ => 0, l2Tables := fun _ _ => 0 }

/-- The cluster bits of a converted image are fixed. -/
def convertGeometry : Geometry := ⟨16, Geometry.lower_sixteen, Geometry.upper_sixteen⟩

/-- Zero clusters are left out. The L1 index is not compared with the size of the table. -/
def convertCluster (z : Codec) (l1Size ci : ℕ) : CtlM Unit := do
  let w ← Act.get
  let clusterSize := convertGeometry.clusterSize
  let l2Entries := convertGeometry.l2Entries
  let data := w.src.slice (ci * clusterSize) clusterSize
  if data.all (· == 0) then pure ()
  else if l1Size ≤ ci / l2Entries % 2 ^ 32 then Act.throw (.overrun .l1Table)
  else storeCluster z clusterSize l2Entries ci data

def cmdConvert (z : Codec) : CtlM Unit := do
  let w ← Act.get
  let clusterSize := convertGeometry.clusterSize
  let virtualSize := w.src.size
  if virtualSize = 0 then Act.throw (.error .emptyInput)
  else do
    let totalClusters := (virtualSize + clusterSize - 1) / clusterSize
    let l1Size := newL1Size virtualSize clusterSize
    reserve clusterSize headerSize l1Size
    (List.range totalClusters).forM (convertCluster z l1Size)
    writeMeta convertGeometry.clusterBits convertGeometry.l2Entries virtualSize headerSize l1Size

/-- Zero clusters are left out. -/
def compactCluster (z : Codec) (img : Image) (l2 : ℕ → ℕ → ℕ) (ci : ℕ) : CtlM Unit := do
  let data ← Act.ofExcept (readCluster z img l2 ci)
  match data with
  | none => pure ()
  | some data =>
    if data.all (· == 0) then pure ()
    else storeCluster z img.clusterSize img.l2Entries ci data

/-- `cmd_compact`; the output is the temporary file, which replaces the image in the end. -/
def cmdCompact (z : Codec) : CtlM Unit := do
  let w ← Act.get
  let img ← Act.ofExcept (openImage w.src)
  let l2 ← Act.ofExcept (loadTables img img.l1Size)
  reserve img.clusterSize img.l1Offset img.l1Size
  (List.range img.totalClusters).forM (compactCluster z img l2)
  writeMeta img.clusterBits img.l2Entries img.virtualSize img.l1Offset img.l1Size
  Act.modify fun w => { w with src := w.out }

end Lbd.QCow2.Ctl
