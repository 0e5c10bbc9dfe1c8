import Lbd.BlockSet
import Lbd.Binary64
import Lbd.Log
import Lbd.RunMap
import Lbd.SortedMap

/-!
# The live map of the compactor

`livemap.go`: which segment owns each block, kept as a list of extents across
runs of the compactor.
-/

namespace Lbd

open RunMap LogName

/-- `Segment` and `IsTrim` of an extent. -/
structure Owner where
  segment : Name
  isTrim : Bool
deriving DecidableEq, Repr

/-- `Start` and `Blocks` are the run, the rest is its value. -/
abbrev LiveExtent := Run Owner

structure SegInfo where
  totalEntries : ℕ
  totalWriteBytes : ℕ
deriving DecidableEq, Repr

structure LiveMap where
  lastLabel : Name
  blockSize : ℕ
  extents : List LiveExtent
  segments : SortedMap Name SegInfo
deriving DecidableEq

structure SegmentStats where
  path : Name
  totalWriteBytes : ℕ
  liveWriteBytes : ℕ
  totalEntries : ℕ
  liveEntries : ℕ
deriving DecidableEq, Repr

/-- `Utilization() < threshold / 100`; a segment without write bytes has utilization 1. -/
def SegmentStats.utilizationBelow (s : SegmentStats) (threshold : ℤ) : Bool :=
  let util := if s.totalWriteBytes = 0 then Binary64.ofNat 1
    else (Binary64.ofNat s.liveWriteBytes).div (Binary64.ofNat s.totalWriteBytes)
  -- a negative fraction is below every utilization
  0 ≤ threshold && util.lt ((Binary64.ofNat threshold.toNat).div (Binary64.ofNat 100))

namespace LiveMap

def new (blockSize : ℕ) : LiveMap := ⟨[], blockSize, [], .empty⟩

def applyOp (lm : LiveMap) (startBlock numBlocks : ℕ) (segment : Name) (isTrim : Bool) : LiveMap :=
  { lm with extents := splice W64 startBlock numBlocks ⟨segment, isTrim⟩ lm.extents }

def applyWrite (lm : LiveMap) (startBlock numBlocks : ℕ) (segment : Name) : LiveMap :=
  lm.applyOp startBlock numBlocks segment false

def applyTrim (lm : LiveMap) (startBlock numBlocks : ℕ) (segment : Name) : LiveMap :=
  lm.applyOp startBlock numBlocks segment true

def addSegmentEntry (lm : LiveMap) (segment : Name) (isWrite : Bool) (writeBytes : ℕ) : LiveMap :=
  let seg := (lm.segments.find? segment).getD ⟨0, 0⟩
  { lm with
    segments := lm.segments.insert segment
      ⟨seg.totalEntries + 1,
        if isWrite then (seg.totalWriteBytes + writeBytes) % W64 else seg.totalWriteBytes⟩ }

def removeSegment (lm : LiveMap) (segment : Name) : LiveMap :=
  { lm with
    segments := lm.segments.erase segment
    extents := lm.extents.filter fun ext => ext.val.segment ≠ segment }

def reattributeSegment (lm : LiveMap) (oldSeg newSeg : Name) : LiveMap :=
  { lm with
    extents := mergeAdjacent W64 (lm.extents.map
      (Run.map fun o => if o.segment = oldSeg then { o with segment := newSeg } else o)) }

def segmentLiveExtents (lm : LiveMap) (segment : Name) : List LiveExtent :=
  lm.extents.filter fun ext => ext.val.segment = segment

def liveBytes (lm : LiveMap) (segment : Name) : ℕ :=
  lm.extents.foldl (fun n ext =>
    if ext.val.segment = segment ∧ ext.val.isTrim = false then (n + ext.len * lm.blockSize) % W64
    else n) 0

def computeStats (lm : LiveMap) : List SegmentStats :=
  lm.segments.entries.map fun s =>
    { path := s.1
      totalEntries := s.2.totalEntries
      totalWriteBytes := s.2.totalWriteBytes
      liveWriteBytes := lm.liveBytes s.1
      liveEntries := (lm.segmentLiveExtents s.1).length }

end LiveMap

def intersectRange (extents : List LiveExtent) (lo hi : ℕ) : List Interval :=
  (clip W64 lo hi extents).map fun p => ⟨p.1, p.2.1⟩

namespace LiveMap

/-- The body of the entry loop of `RunGC`. -/
def applyEntry (blockSize : ℕ) (logID : Name) (lm : LiveMap) (e : Entry) : LiveMap :=
  if e.isWrite then
    (lm.applyWrite e.block (e.numBlocks blockSize) logID).addSegmentEntry logID true e.length
  else if e.isTrim then
    (lm.applyTrim e.block (e.numBlocks blockSize) logID).addSegmentEntry logID false 0
  else lm

def processLog (lm : LiveMap) (log : Name × Segment) : LiveMap :=
  { log.2.entries.foldl (applyEntry log.2.header.blockSize log.1) lm with
    lastLabel := labelFromLogPath log.1 }

/-- Each entry of the list ends clear of the extents it is applied to. -/
def EntriesClear (blockSize : ℕ) (logID : Name) : LiveMap → List Entry → Prop
  | _, [] => True
  | lm, e :: es =>
    EndClear W64 (e.block + e.numBlocks blockSize) lm.extents ∧
      EntriesClear blockSize logID (lm.applyEntry blockSize logID e) es

instance decidableEntriesClear (blockSize : ℕ) (logID : Name) :
    (lm : LiveMap) → (es : List Entry) → Decidable (EntriesClear blockSize logID lm es)
  | _, [] => .isTrue trivial
  | lm, e :: es =>
    have := decidableEntriesClear blockSize logID (lm.applyEntry blockSize logID e) es
    inferInstanceAs (Decidable (_ ∧ _))

def LogsClear : LiveMap → List (Name × Segment) → Prop
  | _, [] => True
  | lm, log :: logs =>
    EntriesClear log.2.header.blockSize log.1 lm log.2.entries ∧ LogsClear (lm.processLog log) logs

instance decidableLogsClear :
    (lm : LiveMap) → (logs : List (Name × Segment)) → Decidable (LogsClear lm logs)
  | _, [] => .isTrue trivial
  | lm, log :: logs =>
    have := decidableLogsClear (lm.processLog log) logs
    inferInstanceAs (Decidable (_ ∧ _))

-- The owner of a block is the segment of the last entry that covers it.

end LiveMap

/-- The owner the entry gives to block `b`, if it touches it. -/
def Entry.owner (blockSize : ℕ) (logID : Name) (e : Entry) (b : ℕ) : Option Owner :=
  if e.Covers blockSize b then
    if e.isWrite then some ⟨logID, false⟩ else if e.isTrim then some ⟨logID, true⟩ else none
  else none

def logOwner (log : Name × Segment) (b : ℕ) : Option Owner :=
  lastSome (log.2.entries.map fun e => e.owner log.2.header.blockSize log.1 b)

def lastOwner (logs : List (Name × Segment)) (b : ℕ) : Option Owner :=
  lastSome (logs.map fun log => logOwner log b)

theorem lastOwner_cons (log : Name × Segment) (logs : List (Name × Segment)) (b : ℕ) :
    lastOwner (log :: logs) b = (lastOwner logs b).or (logOwner log b) := rfl

theorem lastOwner_append (l m : List (Name × Segment)) (b : ℕ) :
    lastOwner (l ++ m) b = (lastOwner m b).or (lastOwner l b) := by
  rw [lastOwner, List.map_append, lastSome_append]
  rfl

/-- Non-empty extents that do not wrap, sorted and disjoint. -/
structure Sound (l : List LiveExtent) : Prop where
  fits : Fits W64 l
  ordered : Ordered l

theorem Entry.Valid.owner_eq {bs : ℕ} {e : Entry} (hv : e.Valid bs) (logID : Name) (b : ℕ) :
    e.owner bs logID b = if e.Covers bs b then some ⟨logID, e.isTrim⟩ else none := by
  unfold Entry.owner
  rcases hv.op with h | h <;> simp [Entry.isWrite, Entry.isTrim, h]

namespace LiveMap

variable {bs : ℕ} {logID : Name} {lm : LiveMap}

@[simp] theorem addSegmentEntry_extents (lm : LiveMap) (seg : Name) (w : Bool) (n : ℕ) :
    (lm.addSegmentEntry seg w n).extents = lm.extents := rfl

@[simp] theorem addSegmentEntry_lastLabel (lm : LiveMap) (seg : Name) (w : Bool) (n : ℕ) :
    (lm.addSegmentEntry seg w n).lastLabel = lm.lastLabel := rfl

theorem applyEntry_extents {e : Entry} (hv : e.Valid bs) :
    (lm.applyEntry bs logID e).extents =
      splice W64 e.block (e.numBlocks bs) ⟨logID, e.isTrim⟩ lm.extents := by
  rcases hv.op with h | h <;>
    simp [applyEntry, applyWrite, applyTrim, applyOp, Entry.isWrite, Entry.isTrim, h]

theorem sound_applyEntry {e : Entry} (hv : e.Valid bs) (hw : e.NoWrap bs) (h : Sound lm.extents)
    (hc : EndClear W64 (e.block + e.numBlocks bs) lm.extents) :
    Sound (lm.applyEntry bs logID e).extents := by
  rw [applyEntry_extents hv]
  exact ⟨fits_splice Entry.numBlocks_pos hw h.fits,
    ordered_splice Entry.numBlocks_pos hw h.fits h.ordered hc⟩

theorem holds_applyEntry {e : Entry} (hv : e.Valid bs) (hw : e.NoWrap bs) (h : Sound lm.extents)
    (b : ℕ) (o : Owner) :
    Holds (lm.applyEntry bs logID e).extents b o ↔
      overriding (e.owner bs logID b) (Holds lm.extents b) o := by
  rw [applyEntry_extents hv, holds_splice hw h.fits, hv.owner_eq]
  by_cases hb : e.Covers bs b
  · rw [if_pos hb, overriding_some, eq_comm]
    exact iff_of_eq (if_pos hb)
  · rw [if_neg hb, overriding_none]
    exact iff_of_eq (if_neg hb)

theorem foldl_applyEntry_spec {es : List Entry} (hv : ∀ e ∈ es, e.Valid bs)
    (hw : ∀ e ∈ es, e.NoWrap bs) (h : Sound lm.extents) (hc : EntriesClear bs logID lm es) :
    Sound (es.foldl (applyEntry bs logID) lm).extents ∧
      ∀ b o, Holds (es.foldl (applyEntry bs logID) lm).extents b o ↔
        overriding (lastSome (es.map fun e => e.owner bs logID b)) (Holds lm.extents b) o := by
  induction es generalizing lm with
  | nil => exact ⟨h, fun b o => Iff.rfl⟩
  | cons e es ih =>
    obtain ⟨hve, hves⟩ := List.forall_mem_cons.mp hv
    obtain ⟨hwe, hwes⟩ := List.forall_mem_cons.mp hw
    obtain ⟨hs, ho⟩ := ih hves hwes (sound_applyEntry hve hwe h hc.1) hc.2
    refine ⟨hs, fun b o => ?_⟩
    rw [List.foldl_cons, ho, List.map_cons, lastSome_cons, overriding_or]
    exact overriding_congr (holds_applyEntry hve hwe h b) _ _

theorem processLog_spec {log : Name × Segment} (hv : log.2.Valid bs) (hw : log.2.NoWrap)
    (h : Sound lm.extents) (hc : EntriesClear log.2.header.blockSize log.1 lm log.2.entries) :
    Sound (lm.processLog log).extents ∧
      ∀ b o, Holds (lm.processLog log).extents b o ↔
        overriding (logOwner log b) (Holds lm.extents b) o :=
  foldl_applyEntry_spec (hv.1 ▸ hv.2) hw h hc

theorem foldl_processLog_spec {logs : List (Name × Segment)} (hv : ∀ log ∈ logs, log.2.Valid bs)
    (hw : ∀ log ∈ logs, log.2.NoWrap) (h : Sound lm.extents) (hc : LogsClear lm logs) :
    Sound (logs.foldl processLog lm).extents ∧
      ∀ b o, Holds (logs.foldl processLog lm).extents b o ↔
        overriding (lastOwner logs b) (Holds lm.extents b) o := by
  induction logs generalizing lm with
  | nil => exact ⟨h, fun b o => Iff.rfl⟩
  | cons log logs ih =>
    obtain ⟨hvl, hvls⟩ := List.forall_mem_cons.mp hv
    obtain ⟨hwl, hwls⟩ := List.forall_mem_cons.mp hw
    obtain ⟨hs1, ho1⟩ := processLog_spec hvl hwl h hc.1
    obtain ⟨hs, ho⟩ := ih hvls hwls hs1 hc.2
    refine ⟨hs, fun b o => ?_⟩
    rw [List.foldl_cons, ho, lastOwner_cons, overriding_or]
    exact overriding_congr (ho1 b) _ _

theorem sound_removeSegment (h : Sound lm.extents) (seg : Name) :
    Sound (lm.removeSegment seg).extents :=
  ⟨h.fits.filter _, h.ordered.filter _⟩

theorem holds_removeSegment {seg : Name} {b : ℕ} {o : Owner} :
    Holds (lm.removeSegment seg).extents b o ↔ Holds lm.extents b o ∧ o.segment ≠ seg := by
  refine (holds_filter (p := fun o : Owner => decide (o.segment ≠ seg))).trans ?_
  simp

theorem sound_reattributeSegment (h : Sound lm.extents) (old seg : Name) :
    Sound (lm.reattributeSegment old seg).extents :=
  ⟨fits_mergeAdjacent (h.fits.map _), ordered_mergeAdjacent (h.fits.map _) (h.ordered.map _)⟩

theorem holds_reattributeSegment (h : Sound lm.extents) {old seg : Name} {b : ℕ} {o : Owner} :
    Holds (lm.reattributeSegment old seg).extents b o ↔
      ∃ v, Holds lm.extents b v ∧ (if v.segment = old then { v with segment := seg } else v) =
        o := by
  rw [reattributeSegment, holds_mergeAdjacent (h.fits.map _), holds_map]

theorem holds_segmentLiveExtents {seg : Name} {b : ℕ} {o : Owner} :
    Holds (lm.segmentLiveExtents seg) b o ↔ Holds lm.extents b o ∧ o.segment = seg := by
  refine (holds_filter (p := fun o : Owner => decide (o.segment = seg))).trans ?_
  simp

theorem sound_segmentLiveExtents (h : Sound lm.extents) (seg : Name) :
    Sound (lm.segmentLiveExtents seg) :=
  ⟨h.fits.filter _, h.ordered.filter _⟩

end LiveMap

end Lbd
