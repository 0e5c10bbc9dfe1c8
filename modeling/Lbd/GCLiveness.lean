import Lbd.GC

/-!
# What a retired segment still contributes

The pieces copied out of a segment are, block for block, the last entries of the
segment on the blocks that the live map gives to it.
-/

namespace Lbd

open RunMap BlockSet

/-- The blocks covered by entries of the list. -/
def Touched (es : List (Entry × ℕ)) (b : ℕ) : Prop :=
  ∃ p ∈ es, p.1.block ≤ b ∧ b < p.1.block + p.2

/-- Positive block counts, and no range wraps. -/
def CountsFit (es : List (Entry × ℕ)) : Prop :=
  ∀ p ∈ es, 0 < p.2 ∧ p.1.block + p.2 < W64

theorem touched_cons {p : Entry × ℕ} {es : List (Entry × ℕ)} {b : ℕ} :
    Touched (p :: es) b ↔ (p.1.block ≤ b ∧ b < p.1.block + p.2) ∨ Touched es b := by
  simp [Touched]

theorem withinLive_cons (e : Entry) (n : ℕ) (rest : List (Entry × ℕ))
    (h : e.block + n < W64) :
    withinLive ((e, n) :: rest) =
      (let u := (withinLive rest).2.uncovered e.block (e.block + n)
       (u :: (withinLive rest).1,
        if u = [] then (withinLive rest).2
          else (withinLive rest).2.add e.block (e.block + n))) := by
  rw [withinLive, Nat.mod_eq_of_lt h]

theorem withinLive_covered {es : List (Entry × ℕ)} (h : CountsFit es) :
    Separated (withinLive es).2.intervals ∧
      ∀ b, Mem (withinLive es).2.intervals b ↔ Touched es b := by
  induction es with
  | nil => exact ⟨separated_nil, fun b => by simp [withinLive, Mem, Touched]⟩
  | cons p es ih =>
    obtain ⟨e, n⟩ := p
    obtain ⟨⟨hn, hw⟩, hes⟩ := List.forall_mem_cons.mp h
    obtain ⟨hsep, hmem⟩ := ih hes
    obtain ⟨-, hunc⟩ := uncovered_spec hsep e.block (e.block + n)
    rw [withinLive_cons e n es hw]
    dsimp only
    split_ifs with hu
    · -- nothing is uncovered: the entry adds no block
      refine ⟨hsep, fun b => ?_⟩
      rw [hmem, touched_cons]
      refine ⟨.inr, fun hb => hb.elim (fun hb => ?_) id⟩
      by_contra hnot
      have := (hunc b).mpr ⟨hb, fun hm => hnot ((hmem b).mp hm)⟩
      rw [hu] at this
      simp [Mem] at this
    · obtain ⟨hsep', hmem'⟩ := add_spec hsep (show e.block < e.block + n by omega)
      refine ⟨hsep', fun b => ?_⟩
      rw [hmem', hmem, touched_cons]

theorem mem_intersectRange {ext : List LiveExtent} (h : Sound ext) {lo hi : ℕ} {r : Interval}
    (hlt : lo < hi) (hr : r ∈ intersectRange ext lo hi) :
    lo ≤ r.lo ∧ r.lo < r.hi ∧ r.hi ≤ hi ∧ ∀ b, r.lo ≤ b → b < r.hi → ∃ o, Holds ext b o := by
  obtain ⟨p, hp, rfl⟩ := List.mem_map.mp hr
  obtain ⟨q, hq, rfl, h1, h2⟩ := clip_sound h.fits hp
  have := (h.fits q hq).1
  dsimp only
  refine ⟨by omega, by omega, by omega, fun b hb1 hb2 => ⟨q.val, q, hq, ?_, rfl⟩⟩
  unfold Run.Covers
  omega

theorem exists_intersectRange {ext : List LiveExtent} (h : Sound ext) {lo hi b : ℕ} {o : Owner}
    (hlo : lo ≤ b) (hhi : b < hi) (ho : Holds ext b o) :
    ∃ r ∈ intersectRange ext lo hi, r.lo ≤ b ∧ b < r.hi := by
  obtain ⟨p, hp, h1, h2, -⟩ := (mem_clip_iff h.fits h.ordered hlo hhi).mpr ho
  exact ⟨_, List.mem_map_of_mem hp, h1, h2⟩

variable {bs : ℕ} {ext : List LiveExtent}

theorem uncoveredPieces_cons (e : Entry) (es : List Entry) :
    uncoveredPieces bs (e :: es) =
      ((withinLive (readSegmentEntries bs es)).2.uncovered e.block
        ((e.block + e.numBlocks bs) % W64)).map (fun r => (e, r)) ++ uncoveredPieces bs es := rfl

theorem livePieces_cons (e : Entry) (es : List Entry) :
    livePieces bs (e :: es) ext =
      (((withinLive (readSegmentEntries bs es)).2.uncovered e.block
          ((e.block + e.numBlocks bs) % W64)).flatMap fun r =>
            intersectRange ext r.lo r.hi).map (fun r => (e, r)) ++ livePieces bs es ext := rfl

theorem livePieces_eq (es : List Entry) :
    livePieces bs es ext = (uncoveredPieces bs es).flatMap fun p =>
      (intersectRange ext p.2.lo p.2.hi).map fun r => (p.1, r) := by
  induction es with
  | nil => rfl
  | cons e es ih =>
    rw [livePieces_cons, uncoveredPieces_cons, ih, List.flatMap_append, List.flatMap_map,
      List.map_flatMap]

theorem countsFit_readSegmentEntries {es : List Entry} (h : ∀ e ∈ es, e.NoWrap bs) :
    CountsFit (readSegmentEntries bs es) := by
  intro p hp
  obtain ⟨e, he, rfl⟩ := List.mem_map.mp hp
  exact ⟨Entry.numBlocks_pos, h e he⟩

theorem touched_readSegmentEntries {es : List Entry} {b : ℕ} :
    Touched (readSegmentEntries bs es) b ↔ ∃ e ∈ es, e.Covers bs b := by
  simp [Touched, readSegmentEntries, Entry.Covers]

/-- `r` is a non-empty block range inside the entry. -/
structure Entry.Part (bs : ℕ) (e : Entry) (r : Interval) : Prop where
  lo : e.block ≤ r.lo
  pos : r.lo < r.hi
  hi : r.hi ≤ e.block + e.numBlocks bs

theorem uncoveredPieces_sound {es : List Entry} (hw : ∀ e ∈ es, e.NoWrap bs)
    {p : Entry × Interval} (hp : p ∈ uncoveredPieces bs es) :
    ∃ pre post, es = pre ++ p.1 :: post ∧ p.1.Part bs p.2 ∧
      ∀ b, p.2.lo ≤ b → b < p.2.hi → ∀ e ∈ post, ¬ e.Covers bs b := by
  induction es with
  | nil => simp [uncoveredPieces] at hp
  | cons e es ih =>
    obtain ⟨hwe, hwes⟩ := List.forall_mem_cons.mp hw
    obtain ⟨hsep, hmem⟩ := withinLive_covered (countsFit_readSegmentEntries hwes)
    rw [uncoveredPieces_cons, List.mem_append] at hp
    rcases hp with hp | hp
    · have hend : e.block + e.numBlocks bs < W64 := hwe
      rw [Nat.mod_eq_of_lt hend] at hp
      obtain ⟨g, hg, rfl⟩ := List.mem_map.mp hp
      obtain ⟨hin, hunc⟩ := uncovered_spec hsep e.block (e.block + e.numBlocks bs)
      obtain ⟨hg1, hg2, hg3⟩ := hin g hg
      refine ⟨[], es, rfl, ⟨hg1, hg2, hg3⟩, fun b hb1 hb2 e' he' hc => ?_⟩
      have hnot := ((hunc b).mp ⟨g, hg, hb1, hb2⟩).2
      rw [hmem, touched_readSegmentEntries] at hnot
      exact hnot ⟨e', he', hc⟩
    · obtain ⟨pre, post, rfl, hrest⟩ := ih hwes hp
      exact ⟨e :: pre, post, rfl, hrest⟩

theorem uncoveredPieces_complete {es : List Entry} (hw : ∀ e ∈ es, e.NoWrap bs)
    {pre post : List Entry} {e : Entry} (hes : es = pre ++ e :: post) {b : ℕ}
    (hb : e.Covers bs b) (hpost : ∀ e' ∈ post, ¬ e'.Covers bs b) :
    ∃ r, (e, r) ∈ uncoveredPieces bs es ∧ r.lo ≤ b ∧ b < r.hi := by
  induction pre generalizing es with
  | nil =>
    subst hes
    obtain ⟨hwe, hwes⟩ := List.forall_mem_cons.mp hw
    obtain ⟨hsep, hmem⟩ := withinLive_covered (countsFit_readSegmentEntries hwes)
    have hend : e.block + e.numBlocks bs < W64 := hwe
    have hnot : ¬ Mem (withinLive (readSegmentEntries bs post)).2.intervals b := by
      rw [hmem, touched_readSegmentEntries]
      rintro ⟨e', he', hc⟩
      exact hpost e' he' hc
    obtain ⟨g, hg, hg1, hg2⟩ :=
      ((uncovered_spec hsep e.block (e.block + e.numBlocks bs)).2 b).mpr ⟨hb, hnot⟩
    refine ⟨g, ?_, hg1, hg2⟩
    rw [List.nil_append, uncoveredPieces_cons, Nat.mod_eq_of_lt hend]
    exact List.mem_append_left _ (List.mem_map_of_mem hg)
  | cons a pre ih =>
    subst hes
    obtain ⟨r, hr, hrest⟩ := ih (fun e he => hw e (List.mem_cons_of_mem _ he)) rfl
    refine ⟨r, ?_, hrest⟩
    rw [List.cons_append, uncoveredPieces_cons]
    exact List.mem_append_right _ hr

/-- A piece is a non-empty part of an entry, on blocks that no later entry covers and
that the extents hold. -/
theorem livePieces_sound {es : List Entry} (hw : ∀ e ∈ es, e.NoWrap bs) (h : Sound ext)
    {p : Entry × Interval} (hp : p ∈ livePieces bs es ext) :
    ∃ pre post, es = pre ++ p.1 :: post ∧ p.1.Part bs p.2 ∧
      ∀ b, p.2.lo ≤ b → b < p.2.hi →
        (∀ e ∈ post, ¬ e.Covers bs b) ∧ ∃ o, Holds ext b o := by
  rw [livePieces_eq] at hp
  obtain ⟨g, hg, hp⟩ := List.mem_flatMap.mp hp
  obtain ⟨r, hr, rfl⟩ := List.mem_map.mp hp
  obtain ⟨pre, post, hes, hpart, hlast⟩ := uncoveredPieces_sound hw hg
  obtain ⟨h1, h2, h3, h4⟩ := mem_intersectRange h hpart.pos hr
  refine ⟨pre, post, hes, ⟨hpart.lo.trans h1, h2, h3.trans hpart.hi⟩, fun b hb1 hb2 => ?_⟩
  exact ⟨hlast b (h1.trans hb1) (hb2.trans_le h3), h4 b hb1 hb2⟩

theorem livePieces_complete {es : List Entry} (hw : ∀ e ∈ es, e.NoWrap bs) (h : Sound ext)
    {pre post : List Entry} {e : Entry} (hes : es = pre ++ e :: post) {b : ℕ} {o : Owner}
    (hb : e.Covers bs b) (hpost : ∀ e' ∈ post, ¬ e'.Covers bs b) (ho : Holds ext b o) :
    ∃ r, (e, r) ∈ livePieces bs es ext ∧ r.lo ≤ b ∧ b < r.hi := by
  obtain ⟨g, hg, hg1, hg2⟩ := uncoveredPieces_complete hw hes hb hpost
  obtain ⟨r, hr, hrest⟩ := exists_intersectRange h hg1 hg2 ho
  refine ⟨r, ?_, hrest⟩
  rw [livePieces_eq]
  exact List.mem_flatMap.mpr ⟨(e, g), hg, List.mem_map_of_mem hr⟩

theorem forall₂_exists_left {α β : Type*} {R : α → β → Prop} {l : List α} {m : List β}
    (h : List.Forall₂ R l m) {b : β} (hb : b ∈ m) : ∃ a ∈ l, R a b := by
  induction h with
  | nil => simp at hb
  | cons hab _ ih =>
    rcases List.mem_cons.mp hb with rfl | hb
    · exact ⟨_, List.mem_cons_self, hab⟩
    · obtain ⟨a, ha, hr⟩ := ih hb
      exact ⟨a, List.mem_cons_of_mem _ ha, hr⟩

theorem forall₂_exists_right {α β : Type*} {R : α → β → Prop} {l : List α} {m : List β}
    (h : List.Forall₂ R l m) {a : α} (ha : a ∈ l) : ∃ b ∈ m, R a b :=
  forall₂_exists_left (R := fun b a => R a b) h.flip ha

/-- What the copy of a part of `e` has to be. -/
structure CopyOf (bs : ℕ) (e : Entry) (r : Interval) (c : Entry) : Prop where
  op : c.op = e.op
  block : c.block = r.lo
  length : c.length = (r.hi - r.lo) * bs
  data : e.op = .write →
    c.data = (e.data.drop ((r.lo - e.block) * bs)).take ((r.hi - r.lo) * bs)

theorem Entry.Part.mul_le {e : Entry} {r : Interval} (hp : e.Part bs r) (hv : e.Valid bs) :
    (r.lo - e.block) * bs + (r.hi - r.lo) * bs ≤ e.length := by
  rw [← Nat.add_mul, ← hv.numBlocks_mul]
  have h1 := hp.lo
  have h2 := hp.pos
  have h3 := hp.hi
  exact Nat.mul_le_mul_right _ (by omega)

theorem splitEntry_eq_some {e : Entry} {r : Interval} (hv : e.Valid bs) (hw : e.NoWrap bs)
    (hp : e.Part bs r) (now : ℕ → ℕ) (seq : ℕ) :
    ∃ c, splitEntry bs now seq e r = some c ∧ CopyOf bs e r c := by
  have hend : e.block + e.numBlocks bs < W64 := hw
  have hlo := hp.lo
  have hpos := hp.pos
  have hhi := hp.hi
  have hlen := hp.mul_le hv
  have hfit := hv.fits
  have hword := pow32_lt_W64
  have hsum : (r.hi - e.block) * bs = (r.lo - e.block) * bs + (r.hi - r.lo) * bs := by
    rw [← Nat.add_mul]
    congr 1
    omega
  unfold splitEntry
  rw [sub64_of_le hlo (by omega), sub64_of_le (by omega) (by omega), sub64_of_le hpos.le (by omega)]
  have h1 : (r.lo - e.block) * bs % W64 = (r.lo - e.block) * bs := Nat.mod_eq_of_lt (by omega)
  have h2 : (r.hi - e.block) * bs % W64 = (r.lo - e.block) * bs + (r.hi - r.lo) * bs := by
    rw [← hsum]
    exact Nat.mod_eq_of_lt (by omega)
  have h3 : (r.hi - r.lo) * bs % W64 % 2 ^ 32 = (r.hi - r.lo) * bs := by
    rw [Nat.mod_eq_of_lt (a := (r.hi - r.lo) * bs) (by omega), Nat.mod_eq_of_lt (by omega)]
  rw [h1, h2, h3]
  by_cases hop : e.op = .write
  · have hd := hv.data hop
    simp only [Entry.isWrite, hop, decide_true, if_true]
    rw [slice, if_pos ⟨by omega, by omega⟩, Option.map_some]
    refine ⟨_, rfl, hop.symm, rfl, ?_, fun _ => ?_⟩
    · dsimp only
      rw [List.length_take, List.length_drop, Nat.mod_eq_of_lt (by omega)]
      omega
    · simp
  · simp only [Entry.isWrite, hop, decide_false, Bool.false_eq_true, if_false]
    exact ⟨_, rfl, rfl, rfl, rfl, fun h => absurd h hop⟩

section Copy

variable {e c : Entry} {r : Interval} (hv : e.Valid bs) (hp : e.Part bs r) (hc : CopyOf bs e r c)

include hv hp hc

theorem CopyOf.numBlocks_eq : c.numBlocks bs = r.hi - r.lo := by
  have hpos := hp.pos
  unfold Entry.numBlocks
  dsimp only
  rw [hc.length, Nat.mul_div_cancel _ hv.blockSize_pos, if_neg (by omega)]

theorem CopyOf.valid : c.Valid bs where
  op := hc.op ▸ hv.op
  pos := by
    rw [hc.length]
    exact Nat.mul_pos (Nat.sub_pos_of_lt hp.pos) hv.blockSize_pos
  dvd := hc.length ▸ Nat.dvd_mul_left _ _
  fits := by
    have h1 := hp.mul_le hv
    have h2 := hv.fits
    rw [hc.length]
    omega
  data := by
    intro hop
    rw [hc.op] at hop
    have h1 := hp.mul_le hv
    have h2 := hv.data hop
    rw [hc.data hop, hc.length, List.length_take, List.length_drop]
    omega

theorem CopyOf.covers_iff (b : ℕ) : c.Covers bs b ↔ r.lo ≤ b ∧ b < r.hi := by
  have hpos := hp.pos
  unfold Entry.Covers
  rw [hc.numBlocks_eq hv hp, hc.block]
  omega

theorem CopyOf.noWrap (hw : e.NoWrap bs) : c.NoWrap bs := by
  have hend : e.block + e.numBlocks bs < W64 := hw
  have hpos := hp.pos
  have hhi := hp.hi
  unfold Entry.NoWrap
  rw [hc.numBlocks_eq hv hp, hc.block]
  omega

theorem CopyOf.byteAt_eq {x : ℕ} (hx : r.lo ≤ x / bs ∧ x / bs < r.hi) :
    c.byteAt bs x = e.byteAt bs x := by
  have hlo := hp.lo
  have hhi := hp.hi
  have hcv := hc.valid hv hp
  have hce : e.Covers bs (x / bs) := ⟨by omega, by omega⟩
  have hcc : c.Covers bs (x / bs) := (hc.covers_iff hv hp _).mpr hx
  rw [hcv.byteAt_eq, hv.byteAt_eq, if_pos hcc, if_pos hce, hc.op]
  by_cases hop : e.op = .write
  · have hrange := (hcv.mem_range_iff x).mpr hcc
    rw [hc.block, hc.length] at hrange
    have hmul : e.block * bs + (r.lo - e.block) * bs = r.lo * bs := by
      rw [← Nat.add_mul]
      congr 1
      omega
    rw [if_pos hop, if_pos hop, hc.data hop, hc.block, List.getElem?_take_of_lt (by omega),
      List.getElem?_drop]
    congr 1
    omega
  · rw [if_neg hop, if_neg hop]

end Copy

theorem splitEntries_eq_some (now : ℕ → ℕ) {ps : List (Entry × Interval)}
    (hv : ∀ p ∈ ps, p.1.Valid bs) (hw : ∀ p ∈ ps, p.1.NoWrap bs) (hp : ∀ p ∈ ps, p.1.Part bs p.2)
    (seq : ℕ) :
    ∃ cs, splitEntries bs now seq ps = some cs ∧
      List.Forall₂ (fun p c => CopyOf bs p.1 p.2 c) ps cs := by
  induction ps generalizing seq with
  | nil => exact ⟨[], rfl, .nil⟩
  | cons p ps ih =>
    obtain ⟨hvp, hvps⟩ := List.forall_mem_cons.mp hv
    obtain ⟨hwp, hwps⟩ := List.forall_mem_cons.mp hw
    obtain ⟨hpp, hpps⟩ := List.forall_mem_cons.mp hp
    obtain ⟨c, hc, hcopy⟩ := splitEntry_eq_some hvp hwp hpp now seq
    obtain ⟨cs, hcs, hall⟩ := ih hvps hwps hpps (seq + 1)
    exact ⟨c :: cs, by simp [splitEntries, hc, hcs], .cons hcopy hall⟩

end Lbd
