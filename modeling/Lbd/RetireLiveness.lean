import Lbd.GCLiveness

/-!
# The live ranges of a retired segment, for any extents

`computeRetireLiveness` trusts the extents it is given. This module says what it makes of extents
that hold no block or reach over the end of the address space, which are as sorted and as
disjoint as any others.
-/

namespace Lbd

open RunMap BlockSet

variable {es : List (Entry × ℕ)} {ext : List LiveExtent} {lo hi b i : ℕ}

/-- Extents of `uint64` numbers, by their first block and with no block in two of them. -/
structure InOrder (ext : List LiveExtent) : Prop where
  word : ∀ x ∈ ext, x.start < W64 ∧ x.len < W64
  sorted : ext.Pairwise fun x y => x.start ≤ y.start
  disjoint : ext.Pairwise fun x y => ∀ b, ¬ (x.Covers b ∧ y.Covers b)

/-- No block is in both. -/
def Interval.Apart (r q : Interval) : Prop :=
  ∀ b, r.lo ≤ b → b < r.hi → q.lo ≤ b → b < q.hi → False

/-- Entry `i` is the last of the list on block `b`. -/
def LastOn (es : List (Entry × ℕ)) (i b : ℕ) : Prop :=
  ∃ p, es[i]? = some p ∧ (p.1.block ≤ b ∧ b < p.1.block + p.2) ∧ ¬ Touched (es.drop (i + 1)) b

/-- The ranges are, for each entry, the blocks on which it is the last and that some extent
covers. -/
structure ExactLiveness (es : List (Entry × ℕ)) (ext : List LiveExtent)
    (live : List (List Interval)) : Prop where
  length : live.length = es.length
  mem_iff : ∀ i ranges, live[i]? = some ranges →
    ∀ b, Mem ranges b ↔ LastOn es i b ∧ ∃ x ∈ ext, x.Covers b
  within : ∀ (i : ℕ) (p : Entry × ℕ) (ranges : List Interval), es[i]? = some p →
    live[i]? = some ranges →
      ∀ r ∈ ranges, r.lo < r.hi ∧ p.1.block ≤ r.lo ∧ r.hi ≤ p.1.block + p.2
  apart : live.flatten.Pairwise Interval.Apart

/-- An extent without blocks does not lie inside of what one entry was the last to write, and
one that reaches over the end of the address space lies above all entries. -/
structure Harmless (es : List (Entry × ℕ)) (x : LiveExtent) : Prop where
  empty : x.len = 0 → 0 < x.start → ∀ i, ¬ (LastOn es i (x.start - 1) ∧ LastOn es i x.start)
  wrapped : W64 ≤ x.start + x.len → ∀ p ∈ es, p.1.block + p.2 ≤ x.start

theorem length_withinLive (es : List (Entry × ℕ)) : (withinLive es).1.length = es.length := by
  induction es with
  | nil => rfl
  | cons p es ih =>
    rw [withinLive, List.length_cons, List.length_cons, ih]

theorem withinLive_gaps (h : CountsFit es) {p : Entry × ℕ} (hp : es[i]? = some p) :
    ∃ gaps, (withinLive es).1[i]? = some gaps ∧
      Gaps (Touched (es.drop (i + 1))) p.1.block (p.1.block + p.2) gaps := by
  induction es generalizing i with
  | nil => simp at hp
  | cons q es ih =>
    obtain ⟨e, n⟩ := q
    obtain ⟨⟨hn, hw⟩, hes⟩ := List.forall_mem_cons.mp h
    rw [withinLive_cons e n es hw]
    cases i with
    | zero =>
      obtain ⟨hsep, hmem⟩ := withinLive_covered hes
      have hgaps := gaps_uncovered hsep e.block (e.block + n)
      rw [funext fun b => propext (hmem b)] at hgaps
      cases hp
      exact ⟨_, rfl, hgaps⟩
    | succ i => exact ih hes hp

theorem lastOn_iff {p : Entry × ℕ} (hp : es[i]? = some p) {gaps : List Interval}
    (hg : Gaps (Touched (es.drop (i + 1))) p.1.block (p.1.block + p.2) gaps) :
    LastOn es i b ↔ Mem gaps b := by
  rw [hg.mem_iff]
  unfold LastOn
  rw [hp]
  simp

theorem BlockSet.Gaps.mem_both {P : ℕ → Prop} {gaps : List Interval} (hg : Gaps P lo hi gaps)
    (hb : Mem gaps b) (hb' : Mem gaps (b + 1)) :
    ∃ g ∈ gaps, g.lo ≤ b ∧ b + 1 < g.hi := by
  obtain ⟨g, hmem, hlo, hhi⟩ := hb
  refine ⟨g, hmem, hlo, ?_⟩
  by_contra hlast
  -- the gap could be made longer by the block behind it
  have hfree : ∀ x, g.lo ≤ x → x < g.hi + 1 → ¬ P x := by
    intro x hx hx'
    by_cases hin : x < g.hi
    · exact ((hg.mem_iff x).mp ⟨g, hmem, hx, hin⟩).2
    · obtain rfl : x = b + 1 := by omega
      exact ((hg.mem_iff _).mp hb').2
  have hend := ((hg.mem_iff _).mp hb').1
  have := (hg.maximal g hmem g.lo (g.hi + 1) (hg.within g hmem).1 le_rfl (by omega) (by omega)
    hfree).2
  omega

/-- An extent that `intersectRange` cuts to `[lo, hi)` as it should. -/
def Tame (lo hi : ℕ) (x : LiveExtent) : Prop :=
  x.start < hi → x.start + x.len < W64 ∧ (x.len = 0 → x.start ≤ lo)

theorem mem_clip_of_sorted (hs : ext.Pairwise fun x y => x.start ≤ y.start) {x : LiveExtent}
    (hx : x ∈ ext) (hlo : lo < x.stop W64) (hhi : x.start < hi) :
    (max x.start lo, min (x.stop W64) hi, x.val) ∈ clip W64 lo hi ext := by
  induction ext with
  | nil => cases hx
  | cons y ext ih =>
    obtain ⟨hle, hs⟩ := List.pairwise_cons.mp hs
    rw [clip]
    rcases List.mem_cons.mp hx with rfl | hx
    · rw [if_neg (by omega), if_neg (by omega)]
      exact List.mem_cons_self
    · have hyx := hle x hx
      split_ifs with h1 h2
      · exact ih hs hx
      · omega
      · exact List.mem_cons_of_mem _ (ih hs hx)

theorem mem_intersectRange_of_sorted (hs : ext.Pairwise fun x y => x.start ≤ y.start)
    {x : LiveExtent} (hx : x ∈ ext) (hlo : lo < x.stop W64) (hhi : x.start < hi) :
    ⟨max x.start lo, min (x.stop W64) hi⟩ ∈ intersectRange ext lo hi :=
  List.mem_map.mpr ⟨_, mem_clip_of_sorted hs hx hlo hhi, rfl⟩

theorem exists_of_mem_intersectRange {r : Interval} (hr : r ∈ intersectRange ext lo hi) :
    ∃ x ∈ ext, r = ⟨max x.start lo, min (x.stop W64) hi⟩ ∧ lo < x.stop W64 ∧ x.start < hi := by
  obtain ⟨p, hp, rfl⟩ := List.mem_map.mp hr
  obtain ⟨x, hx, rfl, h1, h2⟩ := mem_clip hp
  exact ⟨x, hx, rfl, h1, h2⟩

theorem tame_range {r : Interval} (ht : ∀ x ∈ ext, Tame lo hi x) (hlt : lo < hi)
    (hr : r ∈ intersectRange ext lo hi) : r.lo < r.hi ∧ lo ≤ r.lo ∧ r.hi ≤ hi := by
  obtain ⟨x, hx, rfl, hstop, hstart⟩ := exists_of_mem_intersectRange hr
  obtain ⟨hfit, hempty⟩ := ht x hx hstart
  rw [Run.stop_eq W64 hfit] at hstop ⊢
  dsimp only
  omega

theorem mem_tame_iff (hs : ext.Pairwise fun x y => x.start ≤ y.start)
    (ht : ∀ x ∈ ext, Tame lo hi x) :
    Mem (intersectRange ext lo hi) b ↔ (lo ≤ b ∧ b < hi) ∧ ∃ x ∈ ext, x.Covers b := by
  constructor
  · rintro ⟨r, hr, hlo, hhi⟩
    obtain ⟨x, hx, rfl, hstop, hstart⟩ := exists_of_mem_intersectRange hr
    have hfit := (ht x hx hstart).1
    rw [Run.stop_eq W64 hfit] at hhi
    dsimp only at hlo hhi
    exact ⟨by omega, x, hx, by omega, by omega⟩
  · rintro ⟨⟨hlo, hhi⟩, x, hx, h1, h2⟩
    have hstart : x.start < hi := by omega
    have hstop := Run.stop_eq W64 (ht x hx hstart).1
    refine ⟨_, mem_intersectRange_of_sorted hs hx (by omega) hstart, ?_⟩
    rw [hstop]
    dsimp only
    omega

/-- What is cut from an extent holds blocks of it, even if the end of the extent wraps. -/
theorem covers_of_cut {x : LiveExtent} (h1 : max x.start lo ≤ b)
    (h2 : b < min (x.stop W64) hi) : x.Covers b ∧ lo ≤ b ∧ b < hi := by
  have := Nat.mod_le (x.start + x.len) W64
  unfold Run.stop at h2
  exact ⟨⟨by omega, by omega⟩, by omega, by omega⟩

theorem clip_apart (hd : ext.Pairwise fun x y => ∀ b, ¬ (x.Covers b ∧ y.Covers b)) :
    (intersectRange ext lo hi).Pairwise Interval.Apart := by
  unfold intersectRange
  rw [List.pairwise_map]
  induction ext with
  | nil => exact List.Pairwise.nil
  | cons x ext ih =>
    obtain ⟨hx, hd⟩ := List.pairwise_cons.mp hd
    rw [clip]
    split_ifs
    · exact ih hd
    · exact List.Pairwise.nil
    · refine List.pairwise_cons.mpr ⟨fun p hp b h1 h2 h3 h4 => ?_, ih hd⟩
      obtain ⟨y, hy, rfl, -⟩ := mem_clip hp
      exact hx y hy b ⟨(covers_of_cut h1 h2).1, (covers_of_cut h3 h4).1⟩

/-- Whatever the extents are, the blocks of a returned range are in a gap of its entry. -/
theorem mem_of_live {gaps : List Interval} {r : Interval}
    (hr : r ∈ gaps.flatMap fun g => intersectRange ext g.lo g.hi) (h1 : r.lo ≤ b) (h2 : b < r.hi) :
    Mem gaps b := by
  obtain ⟨g, hg, hr⟩ := List.mem_flatMap.mp hr
  obtain ⟨x, -, rfl, -⟩ := exists_of_mem_intersectRange hr
  obtain ⟨-, hlo, hhi⟩ := covers_of_cut h1 h2
  exact ⟨g, hg, hlo, hhi⟩

theorem flatMap_apart {P : ℕ → Prop} {gaps : List Interval} (hg : Gaps P lo hi gaps)
    (hd : ext.Pairwise fun x y => ∀ b, ¬ (x.Covers b ∧ y.Covers b)) :
    (gaps.flatMap fun g => intersectRange ext g.lo g.hi).Pairwise Interval.Apart := by
  rw [List.pairwise_flatMap]
  refine ⟨fun g _ => clip_apart hd, hg.sorted.imp fun {g h} hlt r hr q hq b h1 h2 h3 h4 => ?_⟩
  obtain ⟨x, -, rfl, -⟩ := exists_of_mem_intersectRange hr
  obtain ⟨y, -, rfl, -⟩ := exists_of_mem_intersectRange hq
  have hx := (covers_of_cut h1 h2).2
  have hy := (covers_of_cut h3 h4).2
  omega

theorem live_eq {gaps ranges : List Interval} (hw : (withinLive es).1[i]? = some gaps) :
    (computeRetireLiveness es ext)[i]? = some ranges ↔
      ranges = gaps.flatMap fun g => intersectRange ext g.lo g.hi := by
  unfold computeRetireLiveness
  rw [List.getElem?_map, hw, Option.map_some, Option.some.injEq, eq_comm]

theorem mem_drop_of_getElem? {α : Type*} {l : List α} {x : α} {j : ℕ} (h : l[j]? = some x)
    (hij : i ≤ j) : x ∈ l.drop i := by
  apply List.mem_of_getElem? (i := j - i)
  rw [List.getElem?_drop, Nat.add_sub_cancel' hij, h]

theorem LastOn.not_lt {j : ℕ} (h : LastOn es i b) (h' : LastOn es j b) : ¬ i < j := by
  intro hlt
  obtain ⟨-, -, -, hnot⟩ := h
  obtain ⟨q, hq, hcov, -⟩ := h'
  exact hnot ⟨q, mem_drop_of_getElem? hq hlt, hcov⟩

theorem exists_lastOn (h : Touched es b) : ∃ i, LastOn es i b := by
  induction es with
  | nil => simp [Touched] at h
  | cons p es ih =>
    by_cases hlater : Touched es b
    · obtain ⟨i, q, hq, hrest⟩ := ih hlater
      exact ⟨i + 1, q, hq, hrest⟩
    · exact ⟨0, p, rfl, (touched_cons.mp h).resolve_right hlater, hlater⟩

theorem exists_gaps (h : CountsFit es) {ranges : List Interval}
    (hr : (computeRetireLiveness es ext)[i]? = some ranges) :
    ∃ p gaps, es[i]? = some p ∧
      Gaps (Touched (es.drop (i + 1))) p.1.block (p.1.block + p.2) gaps ∧
        ranges = gaps.flatMap fun g => intersectRange ext g.lo g.hi := by
  have hlt : i < es.length := by
    have := (List.getElem?_eq_some_iff.mp hr).1
    rwa [computeRetireLiveness, List.length_map, length_withinLive] at this
  have hp := List.getElem?_eq_getElem hlt
  obtain ⟨gaps, hw, hg⟩ := withinLive_gaps h hp
  exact ⟨_, gaps, hp, hg, (live_eq hw).mp hr⟩

theorem tame_of_harmless {x : LiveExtent} (hx : Harmless es x) {p : Entry × ℕ}
    (hp : es[i]? = some p) {gaps : List Interval}
    (hg : Gaps (Touched (es.drop (i + 1))) p.1.block (p.1.block + p.2) gaps) {g : Interval}
    (hmem : g ∈ gaps) : Tame g.lo g.hi x := by
  intro hstart
  have hhi := (hg.within g hmem).2
  constructor
  · by_contra hwrap
    have := hx.wrapped (not_lt.mp hwrap) p (List.mem_of_getElem? hp)
    omega
  · intro hempty
    by_contra hlo
    refine hx.empty hempty (by omega) i ⟨?_, ?_⟩
    · exact (lastOn_iff hp hg).mpr ⟨g, hmem, by omega, by omega⟩
    · exact (lastOn_iff hp hg).mpr ⟨g, hmem, by omega, by omega⟩

theorem ExactLiveness.of_harmless (h : CountsFit es) (ho : InOrder ext)
    (hx : ∀ x ∈ ext, Harmless es x) :
    ExactLiveness es ext (computeRetireLiveness es ext) := by
  refine ⟨by rw [computeRetireLiveness, List.length_map, length_withinLive], ?_, ?_, ?_⟩
  · intro i ranges hr b
    obtain ⟨p, gaps, hp, hg, rfl⟩ := exists_gaps h hr
    have hgap : ∀ g ∈ gaps, Mem (intersectRange ext g.lo g.hi) b ↔
        (g.lo ≤ b ∧ b < g.hi) ∧ ∃ x ∈ ext, x.Covers b := fun g hmem =>
      mem_tame_iff ho.sorted fun x hxm => tame_of_harmless (hx x hxm) hp hg hmem
    rw [lastOn_iff hp hg]
    constructor
    · rintro ⟨r, hr, hb⟩
      obtain ⟨g, hmem, hr⟩ := List.mem_flatMap.mp hr
      obtain ⟨hin, hcov⟩ := (hgap g hmem).mp ⟨r, hr, hb⟩
      exact ⟨⟨g, hmem, hin⟩, hcov⟩
    · rintro ⟨⟨g, hmem, hin⟩, hcov⟩
      obtain ⟨r, hr, hb⟩ := (hgap g hmem).mpr ⟨hin, hcov⟩
      exact ⟨r, List.mem_flatMap.mpr ⟨g, hmem, hr⟩, hb⟩
  · intro i p ranges hp hr r hmem
    obtain ⟨q, gaps, hq, hg, rfl⟩ := exists_gaps h hr
    obtain rfl : p = q := Option.some.inj (hp.symm.trans hq)
    obtain ⟨g, hgm, hr⟩ := List.mem_flatMap.mp hmem
    have hrange := tame_range (fun x hxm => tame_of_harmless (hx x hxm) hp hg hgm)
      (hg.pos g hgm) hr
    have := hg.within g hgm
    omega
  · rw [List.pairwise_flatten]
    constructor
    · intro ranges hmem
      obtain ⟨i, hr⟩ := List.getElem?_of_mem hmem
      obtain ⟨p, gaps, -, hg, rfl⟩ := exists_gaps h hr
      exact flatMap_apart hg ho.disjoint
    · rw [List.pairwise_iff_getElem]
      intro i j hi hj hlt r hr q hq b h1 h2 h3 h4
      obtain ⟨p, gaps, hp, hg, heq⟩ := exists_gaps h (List.getElem?_eq_getElem hi)
      obtain ⟨p', gaps', hp', hg', heq'⟩ := exists_gaps h (List.getElem?_eq_getElem hj)
      rw [heq] at hr
      rw [heq'] at hq
      have hlast := (lastOn_iff hp hg).mpr (mem_of_live hr h1 h2)
      exact hlast.not_lt ((lastOn_iff hp' hg').mpr (mem_of_live hq h3 h4)) hlt

theorem exists_ranges (h : CountsFit es) (hl : LastOn es i b) (ext : List LiveExtent) :
    ∃ p gaps, es[i]? = some p ∧
      Gaps (Touched (es.drop (i + 1))) p.1.block (p.1.block + p.2) gaps ∧
        (computeRetireLiveness es ext)[i]? =
          some (gaps.flatMap fun g => intersectRange ext g.lo g.hi) := by
  obtain ⟨p, hp, -⟩ := hl
  obtain ⟨gaps, hw, hg⟩ := withinLive_gaps h hp
  exact ⟨p, gaps, hp, hg, (live_eq hw).mpr rfl⟩

theorem ExactLiveness.harmless (h : CountsFit es) (ho : InOrder ext)
    (hex : ExactLiveness es ext (computeRetireLiveness es ext)) {x : LiveExtent} (hx : x ∈ ext) :
    Harmless es x := by
  obtain ⟨hstart, hlen⟩ := ho.word x hx
  constructor
  · rintro hempty hpos i ⟨hbefore, hat⟩
    obtain ⟨p, gaps, hp, hg, hlive⟩ := exists_ranges h hat ext
    have hstop : x.stop W64 = x.start := by
      rw [Run.stop, hempty, Nat.add_zero, Nat.mod_eq_of_lt hstart]
    obtain ⟨b, hb⟩ : ∃ b, x.start = b + 1 := ⟨x.start - 1, by omega⟩
    rw [hb, Nat.add_sub_cancel] at hbefore
    rw [hb] at hat
    obtain ⟨g, hgm, hlo, hhi⟩ := hg.mem_both ((lastOn_iff hp hg).mp hbefore)
      ((lastOn_iff hp hg).mp hat)
    -- the extent is cut to a range without blocks
    have hcut : _ ∈ intersectRange ext g.lo g.hi :=
      mem_intersectRange_of_sorted ho.sorted hx (by omega) (by omega)
    have := (hex.within i p _ hp hlive _ (List.mem_flatMap.mpr ⟨g, hgm, hcut⟩)).1
    dsimp only at this
    omega
  · intro hwrap p hp
    by_contra hlt
    have hfit := (h p hp).2
    have hcov : x.Covers (p.1.block + p.2 - 1) := ⟨by omega, by omega⟩
    obtain ⟨i, hlast⟩ := exists_lastOn ⟨p, hp, show p.1.block ≤ p.1.block + p.2 - 1 by
      have := (h p hp).1; omega, show p.1.block + p.2 - 1 < p.1.block + p.2 by omega⟩
    obtain ⟨q, gaps, -, -, hlive⟩ := exists_ranges h hlast ext
    obtain ⟨r, hr, h1, h2⟩ := (hex.mem_iff i _ hlive _).mpr ⟨hlast, x, hx, hcov⟩
    obtain ⟨g, -, hr⟩ := List.mem_flatMap.mp hr
    obtain ⟨y, hy, rfl, -⟩ := exists_of_mem_intersectRange hr
    -- only `x` covers the block, and its end is below its start
    have hyx : y = x := by
      by_contra hne
      have hsymm : Std.Symm fun x y : LiveExtent => ∀ b, ¬ (x.Covers b ∧ y.Covers b) :=
        ⟨fun _ _ hxy b hb => hxy b hb.symm⟩
      exact ho.disjoint.forall hy hx hne _ ⟨(covers_of_cut h1 h2).1, hcov⟩
    rw [hyx] at h1 h2
    have hstop : x.stop W64 = x.start + x.len - W64 := by
      rw [Run.stop, Nat.mod_eq_sub_mod hwrap, Nat.mod_eq_of_lt (by omega)]
    dsimp only at h1 h2
    omega

/-- The live ranges are exact just when every extent is harmless. -/
theorem exactLiveness_iff (h : CountsFit es) (ho : InOrder ext) :
    ExactLiveness es ext (computeRetireLiveness es ext) ↔ ∀ x ∈ ext, Harmless es x :=
  ⟨fun hex _ hx => hex.harmless h ho hx, ExactLiveness.of_harmless h ho⟩

theorem harmless_of_fits (h : Fits W64 ext) : ∀ x ∈ ext, Harmless es x := by
  intro x hx
  obtain ⟨hpos, hfit⟩ := h x hx
  exact ⟨fun hempty => by omega, fun hwrap => by omega⟩

/-- The first 40960 bytes, as ten blocks. -/
def tenBlocks : List (Entry × ℕ) := [(⟨.write, 0, 0, 0, 40960, 0, []⟩, 10)]

theorem countsFit_tenBlocks : CountsFit tenBlocks := by
  simp [CountsFit, tenBlocks, W64]

/-- Blocks 8 and 9 are written again. -/
def rewrittenBlocks : List (Entry × ℕ) := tenBlocks ++ [(⟨.write, 0, 1, 8, 8192, 0, []⟩, 2)]

/-- Extents that leave the first block and the last two, which belong to the second entry. -/
theorem exactLiveness_tenBlocks :
    ExactLiveness rewrittenBlocks [⟨0, 1, ⟨['a'], false⟩⟩, ⟨8, 2, ⟨['a'], false⟩⟩]
      [[⟨0, 1⟩], [⟨8, 10⟩]] := by
  have hfit : CountsFit rewrittenBlocks := by simp [CountsFit, rewrittenBlocks, tenBlocks, W64]
  have ho : InOrder [⟨0, 1, ⟨['a'], false⟩⟩, ⟨8, 2, ⟨['a'], false⟩⟩] := by
    refine ⟨by simp [W64], by simp, ?_⟩
    simp only [List.pairwise_cons, List.mem_singleton, forall_eq, List.not_mem_nil,
      List.Pairwise.nil, Run.Covers]
    exact ⟨fun b hb => by omega, fun _ h => h.elim, trivial⟩
  have heq : computeRetireLiveness rewrittenBlocks
      [⟨0, 1, ⟨['a'], false⟩⟩, ⟨8, 2, ⟨['a'], false⟩⟩] = [[⟨0, 1⟩], [⟨8, 10⟩]] := by decide
  rw [← heq]
  exact (exactLiveness_iff hfit ho).mpr (harmless_of_fits (by simp [Fits, W64]))

/-- An extent without blocks, inside of an entry, is returned as a range without blocks. -/
theorem emptyExtent_returned :
    CountsFit tenBlocks ∧ InOrder [⟨5, 0, ⟨['a'], false⟩⟩] ∧
      computeRetireLiveness tenBlocks [⟨5, 0, ⟨['a'], false⟩⟩] = [[⟨5, 5⟩]] ∧
        ¬ ExactLiveness tenBlocks [⟨5, 0, ⟨['a'], false⟩⟩] [[⟨5, 5⟩]] := by
  refine ⟨countsFit_tenBlocks, ⟨by simp [W64], by simp, by simp⟩, by decide, fun hex => ?_⟩
  have := (hex.within 0 _ _ rfl rfl ⟨5, 5⟩ (List.mem_singleton.mpr rfl)).1
  exact absurd this (by decide)

end Lbd
