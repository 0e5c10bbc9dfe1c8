import Lbd.LiveMap
import Lbd.RunSets

/-!
# Runs of operations on the live map

Which segment owns a block does not depend on how earlier operations have cut the
extents, and not on their order either. The order is lost when the end of a new range
cuts an extent that has another one behind it.
-/

namespace Lbd.LiveMap

open RunMap LogName

inductive Op
  | applyWrite (startBlock numBlocks : ℕ) (segment : Name)
  | applyTrim (startBlock numBlocks : ℕ) (segment : Name)
  | addSegmentEntry (segment : Name) (isWrite : Bool) (writeBytes : ℕ)
  | removeSegment (segment : Name)
  | reattributeSegment (oldSeg newSeg : Name)

/-- Ranges are not empty and their end fits in 64 bits. -/
def Op.Valid : Op → Prop
  | .applyWrite s n _ => 0 < n ∧ s + n < W64
  | .applyTrim s n _ => 0 < n ∧ s + n < W64
  | _ => True

def step (lm : LiveMap) : Op → LiveMap
  | .applyWrite s n seg => lm.applyWrite s n seg
  | .applyTrim s n seg => lm.applyTrim s n seg
  | .addSegmentEntry seg isWrite writeBytes => lm.addSegmentEntry seg isWrite writeBytes
  | .removeSegment seg => lm.removeSegment seg
  | .reattributeSegment old new => lm.reattributeSegment old new

def run (blockSize : ℕ) (ops : List Op) : LiveMap := ops.foldl step (new blockSize)

/-- The owners after the operation, block by block. -/
def Op.owners (own : ℕ → Option Owner) : Op → ℕ → Option Owner
  | .applyWrite s n seg, b => if s ≤ b ∧ b < s + n then some ⟨seg, false⟩ else own b
  | .applyTrim s n seg, b => if s ≤ b ∧ b < s + n then some ⟨seg, true⟩ else own b
  | .addSegmentEntry .., b => own b
  | .removeSegment seg, b => (own b).filter fun o => o.segment ≠ seg
  | .reattributeSegment old new, b =>
    (own b).map fun o => if o.segment = old then { o with segment := new } else o

def owners (ops : List Op) : ℕ → Option Owner := ops.foldl Op.owners fun _ => none

/-- The extents are not empty, lie apart and give each block its owner. -/
structure Represents (own : ℕ → Option Owner) (l : List LiveExtent) : Prop where
  fits : Fits W64 l
  apart : Apart l
  holds : ∀ b o, Holds l b o ↔ own b = some o

variable {own : ℕ → Option Owner} {lm : LiveMap} {l : List LiveExtent} {ops : List Op} {op : Op}
  {blockSize s n : ℕ} {seg : Name} {isTrim : Bool}

theorem Represents.applyOp (h : Represents own lm.extents) (hn : 0 < n) (hfit : s + n < W64) :
    Represents (fun b => if s ≤ b ∧ b < s + n then some ⟨seg, isTrim⟩ else own b)
      (lm.applyOp s n seg isTrim).extents where
  fits := fits_splice hn hfit h.fits
  apart := apart_splice hfit h.fits h.apart
  holds b o := by
    refine (holds_splice hfit h.fits).trans ?_
    split_ifs
    · rw [Option.some.injEq, eq_comm]
    · exact h.holds b o

theorem Represents.removeSegment (h : Represents own lm.extents) (seg : Name) :
    Represents (fun b => (own b).filter fun o => o.segment ≠ seg)
      (lm.removeSegment seg).extents where
  fits := h.fits.filter _
  apart := h.apart.filter _
  holds b o := by
    rw [holds_removeSegment, h.holds, Option.filter_eq_some_iff]
    simp

theorem Represents.reattributeSegment (h : Represents own lm.extents) (old seg : Name) :
    Represents
      (fun b => (own b).map fun o => if o.segment = old then { o with segment := seg } else o)
      (lm.reattributeSegment old seg).extents where
  fits := fits_mergeAdjacent (h.fits.map _)
  apart := apart_mergeAdjacent (h.fits.map _) (h.apart.map _)
  holds b o := by
    refine (holds_mergeAdjacent (h.fits.map _)).trans (holds_map.trans ?_)
    rw [Option.map_eq_some_iff]
    simp only [h.holds]

theorem Represents.step (h : Represents own lm.extents) (hop : op.Valid) :
    Represents (op.owners own) (lm.step op).extents := by
  cases op with
  | applyWrite s n seg => exact h.applyOp hop.1 hop.2
  | applyTrim s n seg => exact h.applyOp hop.1 hop.2
  | addSegmentEntry seg isWrite writeBytes => exact h
  | removeSegment seg => exact h.removeSegment seg
  | reattributeSegment old new => exact h.reattributeSegment old new

theorem Represents.foldl (h : Represents own lm.extents) (hops : ∀ op ∈ ops, op.Valid) :
    Represents (ops.foldl Op.owners own) (ops.foldl LiveMap.step lm).extents := by
  induction ops generalizing own lm with
  | nil => exact h
  | cons op ops ih =>
    obtain ⟨hop, hops⟩ := List.forall_mem_cons.mp hops
    exact ih (h.step hop) hops

theorem represents_run (hops : ∀ op ∈ ops, op.Valid) :
    Represents (owners ops) (run blockSize ops).extents := by
  refine Represents.foldl ⟨?_, List.Pairwise.nil, ?_⟩ hops
  · exact fun r hr => nomatch hr
  · intro b o
    simp [new, Holds]

/-- The blocks that the segment owns by a write. -/
def written (own : ℕ → Option Owner) (seg : Name) : Set ℕ := {b | own b = some ⟨seg, false⟩}

theorem Represents.written_eq (h : Represents own l) (seg : Name) :
    written own seg = addresses
      (l.filter fun ext => ext.val.segment = seg ∧ ext.val.isTrim = false) := by
  ext b
  have hval : ∀ o : Owner, o = ⟨seg, false⟩ ↔ o.segment = seg ∧ o.isTrim = false := by
    rintro ⟨segment, isTrim⟩
    simp
  simp only [written, addresses, Set.mem_ofPred_eq, ← h.holds, Holds, List.mem_filter,
    decide_eq_true_eq, ← hval]
  exact exists_congr fun r => by tauto

theorem foldl_liveBytes (blockSize : ℕ) (seg : Name) (l : List LiveExtent) {k : ℕ} (hk : k < W64) :
    l.foldl (fun k ext => if ext.val.segment = seg ∧ ext.val.isTrim = false
        then (k + ext.len * blockSize) % W64 else k) k =
      (k + blockSize * ((l.filter fun ext =>
        ext.val.segment = seg ∧ ext.val.isTrim = false).map fun r => r.len).sum) % W64 := by
  induction l generalizing k with
  | nil => exact (Nat.mod_eq_of_lt hk).symm
  | cons ext l ih =>
    rw [List.foldl_cons]
    by_cases hext : ext.val.segment = seg ∧ ext.val.isTrim = false
    · rw [if_pos hext, ih (Nat.mod_lt _ (by norm_num [W64])), Nat.mod_add_mod]
      simp only [hext, and_self, decide_true, List.filter_cons_of_pos, List.map_cons, List.sum_cons]
      congr 1
      ring
    · rw [if_neg hext, ih hk, List.filter_cons_of_neg (by simpa using hext)]

theorem Represents.liveBytes_eq (h : Represents own lm.extents) (seg : Name) :
    lm.liveBytes seg = (lm.blockSize * (written own seg).ncard) % W64 := by
  rw [h.written_eq, (h.apart.filter _).ncard_addresses]
  have := foldl_liveBytes lm.blockSize seg lm.extents (k := 0) (by norm_num [W64])
  rwa [Nat.zero_add] at this

theorem blockSize_step (lm : LiveMap) (op : Op) : (lm.step op).blockSize = lm.blockSize := by
  cases op <;> rfl

theorem blockSize_run (blockSize : ℕ) (ops : List Op) :
    (run blockSize ops).blockSize = blockSize := by
  suffices h : ∀ lm : LiveMap, (ops.foldl LiveMap.step lm).blockSize = lm.blockSize from h _
  induction ops with
  | nil => exact fun _ => rfl
  | cons op ops ih => exact fun lm => (ih _).trans (blockSize_step lm op)

/-- The extents after the operations give each block its owner, each block once, and the
statistics count the blocks. -/
structure OwnershipCorrect (blockSize : ℕ) (ops : List Op) : Prop where
  nonempty : ∀ ext ∈ (run blockSize ops).extents, 0 < ext.len
  once : ∀ b, ((run blockSize ops).extents.filter fun ext => ext.Covers b).length ≤ 1
  owner : ∀ b o, Holds (run blockSize ops).extents b o ↔ owners ops b = some o
  stats : ∀ stats ∈ (run blockSize ops).computeStats,
    stats.liveWriteBytes = blockSize * (written (owners ops) stats.path).ncard

/-- Ownership is kept by every sequence of operations; the byte count of a segment is exact if
and only if it fits in 64 bits. -/
theorem ownershipCorrect_iff (hops : ∀ op ∈ ops, op.Valid) :
    OwnershipCorrect blockSize ops ↔
      ∀ seg ∈ (run blockSize ops).segments.keys,
        blockSize * (written (owners ops) seg).ncard < W64 := by
  have h : Represents (owners ops) (run blockSize ops).extents := represents_run hops
  have hbytes : ∀ seg, (run blockSize ops).liveBytes seg =
      (blockSize * (written (owners ops) seg).ncard) % W64 := by
    intro seg
    rw [h.liveBytes_eq, blockSize_run]
  constructor
  · intro hc seg hseg
    obtain ⟨⟨seg, info⟩, hmem, rfl⟩ := List.mem_map.mp hseg
    have hstats := hc.stats _ (List.mem_map.mpr ⟨_, hmem, rfl⟩)
    rw [← hstats, hbytes]
    exact Nat.mod_lt _ (by norm_num [W64])
  · intro hfit
    refine ⟨fun ext hext => (h.fits ext hext).1, h.apart.covers_once, h.holds, ?_⟩
    intro stats hstats
    obtain ⟨⟨seg, info⟩, hmem, rfl⟩ := List.mem_map.mp hstats
    exact (hbytes seg).trans (Nat.mod_eq_of_lt (hfit seg (List.mem_map.mpr ⟨_, hmem, rfl⟩)))

/-- A segment that has written one block and trimmed it in part. -/
theorem ownershipCorrect_small :
    OwnershipCorrect 4096 [.addSegmentEntry ['a'] true 8192, .applyWrite 0 2 ['a'],
      .applyTrim 1 1 ['b'], .reattributeSegment ['b'] ['a']] := by
  refine (ownershipCorrect_iff ?_).mpr ?_
  · simp [Op.Valid, W64]
  · intro seg hseg
    have hsub : ∀ b, owners [.addSegmentEntry ['a'] true 8192, .applyWrite 0 2 ['a'],
        .applyTrim 1 1 ['b'], .reattributeSegment ['b'] ['a']] b = some ⟨seg, false⟩ → b < 2 := by
      intro b hb
      by_contra hge
      simp [owners, Op.owners, show ¬ b < 2 by omega] at hb
    have hcard := Set.ncard_le_ncard (s := written (owners _) seg) (t := Set.Iio 2) hsub
      (Set.finite_Iio 2)
    have htwo : (Set.Iio 2 : Set ℕ).ncard = 2 := by
      rw [← Finset.coe_Iio, Set.ncard_coe_finset, Nat.card_Iio]
    unfold W64
    omega

/-- A write of `2 ^ 64` bytes counts as none. -/
theorem liveWriteBytes_wraps :
    (∀ b, owners [.addSegmentEntry ['a'] true 0, .applyWrite 0 (2 ^ 52) ['a']] b =
        some ⟨['a'], false⟩ ↔ b < 2 ^ 52) ∧
      (run 4096 [.addSegmentEntry ['a'] true 0, .applyWrite 0 (2 ^ 52) ['a']]).computeStats =
        [⟨['a'], 0, 0, 1, 1⟩] := by
  refine ⟨fun b => ?_, by decide⟩
  simp [owners, Op.owners]

/-- The range that the operation inserts ends clear of the extents. -/
def Op.Clear (lm : LiveMap) : Op → Prop
  | .applyWrite s n _ => EndClear W64 (s + n) lm.extents
  | .applyTrim s n _ => EndClear W64 (s + n) lm.extents
  | _ => True

/-- Every operation of a run does. -/
def ClearRun : LiveMap → List Op → Prop
  | _, [] => True
  | lm, op :: ops => op.Clear lm ∧ ClearRun (lm.step op) ops

def Sorted (l : List LiveExtent) : Prop := l.Pairwise fun p q => p.start < q.start

/-- `intersectRange` over the extents of a segment finds the blocks that it owns. -/
def FindsLive (own : ℕ → Option Owner) (lm : LiveMap) : Prop :=
  ∀ seg lo hi b, BlockSet.Mem (intersectRange (lm.segmentLiveExtents seg) lo hi) b ↔
    (lo ≤ b ∧ b < hi) ∧ ∃ isTrim, own b = some ⟨seg, isTrim⟩

/-- After each of the operations the extents are sorted and ranges are found. -/
def OrderCorrect (blockSize : ℕ) (ops : List Op) : Prop :=
  ∀ pre, pre <+: ops →
    Sorted (run blockSize pre).extents ∧ FindsLive (owners pre) (run blockSize pre)

theorem Represents.ordered_iff (h : Represents own l) : Ordered l ↔ Sorted l := by
  constructor
  · intro ho
    refine List.Pairwise.imp_of_mem (fun {p q} hp _ hpq => ?_) ho
    have := (h.fits p hp).1
    omega
  · exact h.apart.ordered h.fits

theorem Represents.findsLive (h : Represents own lm.extents) (ho : Ordered lm.extents) :
    FindsLive own lm := by
  intro seg lo hi b
  have hs := sound_segmentLiveExtents ⟨h.fits, ho⟩ seg
  have hmem : BlockSet.Mem (intersectRange (lm.segmentLiveExtents seg) lo hi) b ↔
      ∃ p ∈ clip W64 lo hi (lm.segmentLiveExtents seg), p.1 ≤ b ∧ b < p.2.1 := by
    simp [BlockSet.Mem, intersectRange]
  have hinside : (∃ p ∈ clip W64 lo hi (lm.segmentLiveExtents seg), p.1 ≤ b ∧ b < p.2.1) →
      lo ≤ b ∧ b < hi := by
    rintro ⟨p, hp, hpb, hbp⟩
    obtain ⟨r, -, rfl, -⟩ := clip_sound hs.fits hp
    dsimp only at hpb hbp
    omega
  rw [hmem]
  constructor
  · intro hex
    obtain ⟨hlo, hhi⟩ := hinside hex
    obtain ⟨p, hp, hpb, hbp⟩ := hex
    have hlive := (mem_clip_iff hs.fits hs.ordered hlo hhi).mp ⟨p, hp, hpb, hbp, rfl⟩
    obtain ⟨hheld, rfl⟩ := holds_segmentLiveExtents.mp hlive
    exact ⟨⟨hlo, hhi⟩, p.2.2.isTrim, (h.holds b _).mp hheld⟩
  · rintro ⟨⟨hlo, hhi⟩, isTrim, hown⟩
    have hheld : Holds (lm.segmentLiveExtents seg) b ⟨seg, isTrim⟩ :=
      holds_segmentLiveExtents.mpr ⟨(h.holds b _).mpr hown, rfl⟩
    obtain ⟨p, hp, hpb, hbp, -⟩ := (mem_clip_iff hs.fits hs.ordered hlo hhi).mpr hheld
    exact ⟨p, hp, hpb, hbp⟩

theorem Represents.endClear_of_ordered (h : Represents own lm.extents) (ho : Ordered lm.extents)
    (hn : 0 < n) (hfit : s + n < W64) (ho' : Ordered (lm.applyOp s n seg isTrim).extents) :
    EndClear W64 (s + n) lm.extents := by
  by_contra hc
  have hnew : Holds (lm.applyOp s n seg isTrim).extents s ⟨seg, isTrim⟩ :=
    (holds_splice hfit h.fits).mpr (by simp [hn])
  obtain ⟨p, hp, -⟩ := (mem_clip_iff (fits_splice hn hfit h.fits) ho' le_rfl
    (show s < s + n by omega)).mpr hnew
  rw [clip_splice_of_not_endClear hn hfit h.fits ho hc] at hp
  cases hp

theorem Represents.ordered_applyOp_iff (h : Represents own lm.extents) (ho : Ordered lm.extents)
    (hn : 0 < n) (hfit : s + n < W64) :
    Ordered (lm.applyOp s n seg isTrim).extents ↔ EndClear W64 (s + n) lm.extents :=
  ⟨h.endClear_of_ordered ho hn hfit, ordered_splice hn hfit h.fits ho⟩

theorem Represents.ordered_step_iff (h : Represents own lm.extents) (ho : Ordered lm.extents)
    (hop : op.Valid) : Ordered (lm.step op).extents ↔ op.Clear lm := by
  cases op with
  | applyWrite s n seg => exact h.ordered_applyOp_iff ho hop.1 hop.2
  | applyTrim s n seg => exact h.ordered_applyOp_iff ho hop.1 hop.2
  | addSegmentEntry seg isWrite writeBytes => exact iff_of_true ho trivial
  | removeSegment seg => exact iff_of_true (ho.filter _) trivial
  | reattributeSegment old new =>
    exact iff_of_true (ordered_mergeAdjacent (h.fits.map _) (ho.map _)) trivial

theorem Represents.sorted_iff (h : Represents own lm.extents) (ho : Ordered lm.extents)
    (hops : ∀ op ∈ ops, op.Valid) :
    (∀ pre, pre <+: ops → Sorted (pre.foldl LiveMap.step lm).extents) ↔ ClearRun lm ops := by
  induction ops generalizing own lm with
  | nil =>
    refine iff_of_true (fun pre hpre => ?_) trivial
    rw [List.prefix_nil.mp hpre]
    exact h.ordered_iff.mp ho
  | cons op ops ih =>
    obtain ⟨hop, hrest⟩ := List.forall_mem_cons.mp hops
    have h' := h.step hop
    constructor
    · intro hall
      have ho' : Ordered (lm.step op).extents :=
        h'.ordered_iff.mpr (hall [op] (List.cons_prefix_cons.mpr ⟨rfl, List.nil_prefix⟩))
      refine ⟨(h.ordered_step_iff ho hop).mp ho', (ih h' ho' hrest).mp fun pre hpre => ?_⟩
      exact hall (op :: pre) (List.cons_prefix_cons.mpr ⟨rfl, hpre⟩)
    · rintro ⟨hclear, hrun⟩ pre hpre
      have ho' := (h.ordered_step_iff ho hop).mpr hclear
      cases pre with
      | nil => exact h.ordered_iff.mp ho
      | cons op' pre =>
        obtain ⟨rfl, htail⟩ := List.cons_prefix_cons.mp hpre
        exact (ih h' ho' hrest).mpr hrun pre htail

/-- The extents stay sorted, and ranges are found, exactly as long as no new range ends inside of
an extent that has another one behind it. -/
theorem orderCorrect_iff (hops : ∀ op ∈ ops, op.Valid) :
    OrderCorrect blockSize ops ↔ ClearRun (new blockSize) ops := by
  have hempty : Represents (owners []) (run blockSize []).extents := represents_run nofun
  change _ ↔ ClearRun (run blockSize []) ops
  rw [← hempty.sorted_iff List.Pairwise.nil hops]
  constructor
  · exact fun h pre hpre => (h pre hpre).1
  · intro hsorted pre hpre
    have h : Represents (owners pre) (run blockSize pre).extents :=
      represents_run fun op hop => hops op (hpre.subset hop)
    exact ⟨hsorted pre hpre, h.findsLive (h.ordered_iff.mpr (hsorted pre hpre))⟩

/-- A range in front of all extents and one over all of them. -/
theorem orderCorrect_small :
    OrderCorrect 4096 [.applyWrite 20 10 ['a'], .applyWrite 0 10 ['b'], .applyTrim 0 40 ['a']] := by
  refine (orderCorrect_iff ?_).mpr ?_
  · simp [Op.Valid, W64]
  · refine ⟨?_, ?_, ?_, trivial⟩
    · exact nofun
    · exact nofun
    · change EndClear W64 40 (run 4096 [.applyWrite 20 10 ['a'], .applyWrite 0 10 ['b']]).extents
      decide

/-- A write into the first of two extents puts what is left of it in the wrong order, and the
written range is not found. -/
theorem cut_extent_unsorted :
    (run 4096 [.applyWrite 0 10 ['a'], .applyWrite 20 10 ['a'], .applyWrite 2 3 ['a']]).extents =
        [⟨0, 2, ⟨['a'], false⟩⟩, ⟨5, 5, ⟨['a'], false⟩⟩, ⟨2, 3, ⟨['a'], false⟩⟩,
          ⟨20, 10, ⟨['a'], false⟩⟩] ∧
      intersectRange ((run 4096 [.applyWrite 0 10 ['a'], .applyWrite 20 10 ['a'],
        .applyWrite 2 3 ['a']]).segmentLiveExtents ['a']) 2 5 = [] := by
  decide

end Lbd.LiveMap
