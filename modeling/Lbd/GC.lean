import Lbd.Crc
import Lbd.LiveMap

/-!
# The log compactor

`gc.go`: `RunGC` over a store of decoded segments. Every `Put`, `Delete` and
`SaveLiveMap` may fail, with or without having taken effect.
-/

namespace Lbd

open RunMap LogName

/-- What a `LogStore` holds; `List` is `segments.entries`. -/
structure Store where
  segments : SortedMap Name Segment
  liveMap : Option LiveMap
deriving DecidableEq

inductive Fault where
  | none
  | failsBefore
  | failsAfter
deriving DecidableEq, Repr

/-- How the calls of one run on the store go. -/
structure Faults where
  put : Fault
  delete : Name → Fault
  save : Fault

inductive GCError where
  | noLogFiles
  | sliceOutOfRange
  | storing
  | removing (path : Name)
  | saving
deriving DecidableEq, Repr

structure GCConfig where
  threshold : ℤ
  dryRun : Bool
deriving DecidableEq, Repr

structure GCResult where
  stats : List SegmentStats
  retireIndexes : List ℕ
  threshold : ℤ
  retiredCount : ℕ
  copiedEntries : ℕ
  copiedBytes : ℕ
  newSegmentPath : Option Name
  deletedPaths : List Name
deriving DecidableEq, Repr

/-- The reverse loop of `computeRetireLiveness`: from the last entry to the first, the
part of each entry that no later one covers. -/
def withinLive : List (Entry × ℕ) → List (List Interval) × BlockSet
  | [] => ([], ⟨[]⟩)
  | (e, n) :: rest =>
    let later := withinLive rest
    let hi := (e.block + n) % W64
    let uncovered := later.2.uncovered e.block hi
    (uncovered :: later.1, if uncovered = [] then later.2 else later.2.add e.block hi)

def computeRetireLiveness (entries : List (Entry × ℕ)) (segExtents : List LiveExtent) :
    List (List Interval) :=
  (withinLive entries).1.map fun live =>
    live.flatMap fun r => intersectRange segExtents r.lo r.hi

/-- `readSegmentEntries`: the entries with their block counts. -/
def readSegmentEntries (blockSize : ℕ) (entries : List Entry) : List (Entry × ℕ) :=
  entries.map fun e => (e, e.numBlocks blockSize)

/-- The parts of the entries that no later entry covers, in the order of the entries. -/
def uncoveredPieces (blockSize : ℕ) (entries : List Entry) : List (Entry × Interval) :=
  (entries.zip (withinLive (readSegmentEntries blockSize entries)).1).flatMap
    fun p => p.2.map fun r => (p.1, r)

/-- The live ranges of a segment's entries, in the order they are copied. -/
def livePieces (blockSize : ℕ) (entries : List Entry) (segExtents : List LiveExtent) :
    List (Entry × Interval) :=
  (entries.zip (computeRetireLiveness (readSegmentEntries blockSize entries) segExtents)).flatMap
    fun p => p.2.map fun r => (p.1, r)

/-- `data[lo:hi]`, which panics when the bounds are out of range. -/
def slice (data : List UInt8) (lo hi : ℕ) : Option (List UInt8) :=
  if lo ≤ hi ∧ hi ≤ data.length then some ((data.drop lo).take (hi - lo)) else none

/-- The copy of the part `r` of entry `e`. -/
def splitEntry (blockSize : ℕ) (now : ℕ → ℕ) (seq : ℕ) (e : Entry) (r : Interval) :
    Option Entry :=
  if e.isWrite then
    (slice e.data (sub64 r.lo e.block * blockSize % W64)
      (sub64 r.hi e.block * blockSize % W64)).map fun data =>
        { op := e.op, timestampNS := now seq, sequence := seq, block := r.lo
          length := data.length % 2 ^ 32, checksum := crc32 data, data := data }
  else
    some { op := e.op, timestampNS := now seq, sequence := seq, block := r.lo
           length := sub64 r.hi r.lo * blockSize % W64 % 2 ^ 32, checksum := 0, data := [] }

def splitEntries (blockSize : ℕ) (now : ℕ → ℕ) : ℕ → List (Entry × Interval) → Option (List Entry)
  | _, [] => some []
  | seq, p :: ps => do
    let e ← splitEntry blockSize now seq p.1 p.2
    let es ← splitEntries blockSize now (seq + 1) ps
    return e :: es

def copiedBytes (entries : List Entry) : ℕ :=
  entries.foldl (fun n e => if e.isWrite then (n + e.length) % W64 else n) 0

namespace Store

def put (store : Store) (id : Name) (seg : Segment) : Store :=
  { store with segments := store.segments.insert id seg }

def delete (store : Store) (id : Name) : Store :=
  { store with segments := store.segments.erase id }

def saveLiveMap (store : Store) (lm : LiveMap) : Store := { store with liveMap := some lm }

end Store

/-- The deletion loop: `update` is what the live map does after each successful `Delete`.
Stops at the first path that cannot be removed. -/
def deleteRetired (faults : Faults) (update : LiveMap → Name → LiveMap) :
    List Name → Store → LiveMap → Option Name × Store × LiveMap
  | [], store, lm => (none, store, lm)
  | path :: paths, store, lm =>
    match faults.delete path with
    | .none => deleteRetired faults update paths (store.delete path) (update lm path)
    | .failsBefore => (some path, store, lm)
    | .failsAfter => (some path, store.delete path, lm)

/-- `SaveLiveMap`, then return `result`. -/
def finish (faults : Faults) (store : Store) (lm : LiveMap) (result : GCResult) :
    Except GCError GCResult × Store :=
  match faults.save with
  | .none => (.ok result, store.saveLiveMap lm)
  | .failsBefore => (.error .saving, store)
  | .failsAfter => (.error .saving, store.saveLiveMap lm)

/-- Drops the segments of the map that the store no longer has. -/
def cleanUp (store : Store) (lm : LiveMap) : LiveMap :=
  lm.segments.keys.foldl
    (fun m segID => if segID ∈ store.segments.keys then m else m.removeSegment segID) lm

/-- The live map the run starts from: the saved one, cleaned up, or a new one. -/
def startMap (store : Store) (firstHeader : Header) : LiveMap :=
  match store.liveMap with
  | some lm => cleanUp store lm
  | none => .new firstHeader.blockSize

def logsToProcess (store : Store) : List (Name × Segment) :=
  match store.liveMap with
  | some lm => store.segments.entries.filter fun log => lm.lastLabel < labelFromLogPath log.1
  | none => store.segments.entries

/-- The live map once the new logs have been processed. -/
def analyze (store : Store) (firstHeader : Header) : LiveMap :=
  (logsToProcess store).foldl LiveMap.processLog (startMap store firstHeader)

def retireIndexes (threshold : ℤ) (stats : List SegmentStats) : List ℕ :=
  (List.range stats.length).filter fun si =>
    !(si + 1 = stats.length && 1 < stats.length) &&
      (stats[si]?).any fun s => s.utilizationBelow threshold && 0 < s.totalWriteBytes

def retirePaths (stats : List SegmentStats) (indexes : List ℕ) : List Name :=
  indexes.filterMap fun ri => (stats[ri]?).map (·.path)

/-- All pieces to copy: segment by segment, skipping those without live extents. -/
def retirePieces (blockSize : ℕ) (store : Store) (lm : LiveMap) (paths : List Name) :
    List (Entry × Interval) :=
  paths.flatMap fun path =>
    let segExtents := lm.segmentLiveExtents path
    if segExtents = [] then []
    else
      match store.segments.find? path with
      | some seg => livePieces blockSize seg.entries segExtents
      | none => [] -- not reached: the map was cleaned up, so the store has every path

/-- The live map's update after the deletion of a copied segment. -/
def handOver (finalID : Name) (lm : LiveMap) (path : Name) : LiveMap :=
  let m := lm.reattributeSegment path finalID
  { m with segments := m.segments.erase path }

def compactedSegment (header : Header) (label : Name) (entries : List Entry) : Segment :=
  ⟨{ header with segmentLabel := label }, entries⟩

/-- The live map after the deletions, with the new segment's totals. -/
def addCompacted (lm : LiveMap) (finalID : Name) (entries : List Entry) : LiveMap :=
  { lm with segments := lm.segments.insert finalID ⟨entries.length, copiedBytes entries⟩ }

/-- The retire part of a run that copies live entries into a new segment. -/
def retireLive (faults : Faults) (label : Name) (now : ℕ → ℕ) (firstHeader : Header)
    (store : Store) (lm : LiveMap) (paths : List Name) (result : GCResult) :
    Except GCError GCResult × Store :=
  let blockSize := firstHeader.blockSize
  match splitEntries blockSize now 0 (retirePieces blockSize store lm paths) with
  | none => (.error .sliceOutOfRange, store)
  | some entries =>
    let finalID := logPath label
    let seg := compactedSegment firstHeader label entries
    match faults.put with
    | .failsBefore => (.error .storing, store)
    | .failsAfter => (.error .storing, store.put finalID seg)
    | .none =>
      match deleteRetired faults (handOver finalID) paths (store.put finalID seg) lm with
      | (some path, store, _) => (.error (.removing path), store)
      | (none, store, lm) =>
        finish faults store (addCompacted lm finalID entries)
          { result with
            newSegmentPath := some finalID
            copiedEntries := entries.length
            copiedBytes := copiedBytes entries
            retiredCount := paths.length
            deletedPaths := paths }

/-- The retire part of a run whose retired segments have no live extents. -/
def retireDead (faults : Faults) (store : Store) (lm : LiveMap) (paths : List Name)
    (result : GCResult) : Except GCError GCResult × Store :=
  match deleteRetired faults LiveMap.removeSegment paths store lm with
  | (some path, store, _) => (.error (.removing path), store)
  | (none, store, lm) =>
    finish faults store lm { result with retiredCount := paths.length, deletedPaths := paths }

/-- `RunGC`. `label` is the value of `TAI64NLabel()`, `now` the timestamps of the copies. -/
def runGC (cfg : GCConfig) (faults : Faults) (label : Name) (now : ℕ → ℕ) (store : Store) :
    Except GCError GCResult × Store :=
  match store.segments.entries with
  | [] => (.error .noLogFiles, store)
  | first :: _ =>
    let firstHeader := first.2.header
    let lm := analyze store firstHeader
    let stats := lm.computeStats
    let retire := retireIndexes cfg.threshold stats
    let result : GCResult := ⟨stats, retire, cfg.threshold, 0, 0, 0, none, []⟩
    if retire = [] ∨ cfg.dryRun then finish faults store lm result
    else
      let paths := retirePaths stats retire
      if paths.all fun path => lm.segmentLiveExtents path = [] then
        retireDead faults store lm paths result
      else retireLive faults label now firstHeader store lm paths result

/-- The segments a run retires: those with a utilization below the threshold, except the
newest one. -/
def retiring (cfg : GCConfig) (store : Store) : List Name :=
  match store.segments.entries with
  | [] => []
  | first :: _ =>
    let stats := (analyze store first.2.header).computeStats
    if cfg.dryRun then [] else retirePaths stats (retireIndexes cfg.threshold stats)

end Lbd
