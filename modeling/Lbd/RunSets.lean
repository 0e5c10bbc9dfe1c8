import Lbd.RunMap

/-!
# Lists of runs in any order

The operations on lists of runs keep the runs apart even when they lose the order.
The lengths of runs that lie apart add up to the number of addresses they cover.
-/

namespace Lbd.RunMap

variable {α : Type*} {W s e n b : ℕ} {l m : List (Run α)}

/-- One of the runs ends before the other starts. -/
def Run.Apart (p q : Run α) : Prop := p.start + p.len ≤ q.start ∨ q.start + q.len ≤ p.start

/-- Any two runs of the list lie apart. -/
def Apart (l : List (Run α)) : Prop := l.Pairwise Run.Apart

theorem Run.Apart.symm {p q : Run α} (h : p.Apart q) : q.Apart p := Or.symm h

theorem Ordered.apart (h : Ordered l) : Apart l := h.imp fun hab => .inl hab

theorem Apart.of_perm (h : Apart l) (hp : m.Perm l) : Apart m :=
  (hp.pairwise_iff Run.Apart.symm).mpr h

theorem Apart.filter (h : Apart l) (p : Run α → Bool) :
    Apart (l.filter p) := List.Pairwise.filter p h

theorem Apart.map {β : Type*} (h : Apart l) (f : α → β) : Apart (l.map (Run.map f)) :=
  List.pairwise_map.mpr h

theorem Run.Apart.sub {p q p' q' : Run α} (h : p.Apart q)
    (hp : p.start ≤ p'.start ∧ p'.start + p'.len ≤ p.start + p.len)
    (hq : q.start ≤ q'.start ∧ q'.start + q'.len ≤ q.start + q.len) : p'.Apart q' := by
  unfold Run.Apart at *
  omega

theorem apart_carve (hse : s ≤ e) (hf : Fits W l) (h : Apart l) : Apart (carve W s e l) := by
  induction l with
  | nil => exact h
  | cons r l ih =>
    obtain ⟨hr, hl⟩ := List.pairwise_cons.mp h
    obtain ⟨hfr, hfl⟩ := fits_cons.mp hf
    have hrest := ih hfl hl
    have hstop := r.stop_eq W hfr.2
    -- what comes from `r` lies apart from what comes from the other runs
    have hcross : ∀ p : Run α, r.start ≤ p.start ∧ p.start + p.len ≤ r.start + r.len →
        ∀ q ∈ carve W s e l, p.Apart q := by
      intro p hp q hq
      obtain ⟨x, hx, hxq, hqx, -⟩ := mem_carve hfl hq
      exact (hr x hx).sub hp ⟨hxq, hqx⟩
    rw [carve_cons]
    split_ifs with hout
    · exact List.pairwise_cons.mpr ⟨hcross r ⟨le_rfl, le_rfl⟩, hrest⟩
    · refine List.pairwise_append.mpr ⟨(ordered_pieces hse).apart, hrest, fun p hp => ?_⟩
      apply hcross p
      rcases mem_pieces hp with ⟨hlt, rfl⟩ | ⟨hlt, rfl⟩ <;> dsimp only <;> omega

theorem apart_splice {v : α} (hfit : s + n < W) (hf : Fits W l) (h : Apart l) :
    Apart (splice W s n v l) := by
  refine Apart.of_perm ?_ (splice_perm hfit l)
  refine List.pairwise_cons.mpr ⟨fun q hq => ?_, apart_carve (by omega) hf h⟩
  obtain ⟨-, -, -, -, -, hout⟩ := mem_carve hf hq
  exact hout.symm

section Merge

variable [DecidableEq α]

theorem apart_mergeFrom {prev : Run α} (hf : Fits W (prev :: l)) (h : Apart (prev :: l)) :
    Apart (mergeFrom W prev l) ∧
      ∀ q : Run α, 0 < q.len → (∀ p ∈ prev :: l, q.Apart p) →
        ∀ p ∈ mergeFrom W prev l, q.Apart p := by
  induction l generalizing prev with
  | nil => exact ⟨h, fun q _ hq => hq⟩
  | cons cur l ih =>
    obtain ⟨hprev, hl⟩ := List.pairwise_cons.mp h
    obtain ⟨hcur, hl'⟩ := List.pairwise_cons.mp hl
    obtain ⟨hfp, hfl⟩ := fits_cons.mp hf
    obtain ⟨hfc, hfl'⟩ := fits_cons.mp hfl
    rw [mergeFrom_cons]
    split_ifs with hm
    · obtain ⟨hmod, hend⟩ := merge_fits hfp.2 hfc hm.2
      have hs := hm.2
      rw [prev.stop_eq W hfp.2] at hs
      -- a run apart from both halves does not lie between them
      have hboth : ∀ q : Run α, 0 < q.len → q.Apart prev → q.Apart cur →
          q.Apart ⟨prev.start, prev.len + cur.len, prev.val⟩ := by
        intro q hpos hqp hqc
        unfold Run.Apart at *
        dsimp only
        omega
      rw [hmod]
      have hfits : Fits W (⟨prev.start, prev.len + cur.len, prev.val⟩ :: l) :=
        fits_cons.mpr ⟨⟨by dsimp only; omega, by dsimp only; omega⟩, hfl'⟩
      have hapart : Apart (⟨prev.start, prev.len + cur.len, prev.val⟩ :: l) :=
        List.pairwise_cons.mpr ⟨fun q hq => (hboth q (hfl' q hq).1
          (hprev q (List.mem_cons_of_mem _ hq)).symm (hcur q hq).symm).symm, hl'⟩
      obtain ⟨hmerged, hq⟩ := ih hfits hapart
      refine ⟨hmerged, fun q hpos hall => hq q hpos ?_⟩
      obtain ⟨hqp, hall⟩ := List.forall_mem_cons.mp hall
      obtain ⟨hqc, hall⟩ := List.forall_mem_cons.mp hall
      exact List.forall_mem_cons.mpr ⟨hboth q hpos hqp hqc, hall⟩
    · obtain ⟨hmerged, hq⟩ := ih hfl hl
      refine ⟨List.pairwise_cons.mpr ⟨hq prev hfp.1 hprev, hmerged⟩, fun q hpos hall => ?_⟩
      obtain ⟨hqp, hall⟩ := List.forall_mem_cons.mp hall
      exact List.forall_mem_cons.mpr ⟨hqp, hq q hpos hall⟩

theorem apart_mergeAdjacent (hf : Fits W l) (h : Apart l) : Apart (mergeAdjacent W l) := by
  cases l with
  | nil => exact h
  | cons r l => exact (apart_mergeFrom hf h).1

end Merge

theorem Apart.covers_once (h : Apart l) (b : ℕ) :
    (l.filter fun r => r.Covers b).length ≤ 1 := by
  induction l with
  | nil => simp
  | cons r l ih =>
    obtain ⟨hr, hl⟩ := List.pairwise_cons.mp h
    by_cases hb : r.Covers b
    · have hnone : l.filter (fun r => r.Covers b) = [] := by
        rw [List.filter_eq_nil_iff]
        intro q hq hqb
        have hqb : q.Covers b := of_decide_eq_true hqb
        have := hr q hq
        unfold Run.Apart Run.Covers at *
        omega
      simp [hb, hnone]
    · simpa [hb] using ih hl

theorem Apart.ordered (h : Apart l) (hf : Fits W l)
    (hs : l.Pairwise fun p q => p.start < q.start) : Ordered l := by
  refine (List.pairwise_and_iff.mpr ⟨h, hs⟩).imp_of_mem ?_
  rintro p q hp hq ⟨hpq, hlt⟩
  have := (hf q hq).1
  unfold Run.Apart at hpq
  omega

/-- The addresses of a list of runs. -/
def addresses (l : List (Run α)) : Set ℕ := {b | ∃ r ∈ l, r.Covers b}

theorem addresses_cons (r : Run α) (l : List (Run α)) :
    addresses (r :: l) = Set.Ico r.start (r.start + r.len) ∪ addresses l := by
  ext b
  simp [addresses, Run.Covers]

theorem finite_addresses (l : List (Run α)) : (addresses l).Finite := by
  induction l with
  | nil => simp [addresses]
  | cons r l ih =>
    rw [addresses_cons]
    exact (Set.finite_Ico _ _).union ih

theorem Apart.ncard_addresses (h : Apart l) :
    (addresses l).ncard = (l.map fun r => r.len).sum := by
  induction l with
  | nil => simp [addresses]
  | cons r l ih =>
    obtain ⟨hr, hl⟩ := List.pairwise_cons.mp h
    have hdisj : Disjoint (Set.Ico r.start (r.start + r.len)) (addresses l) := by
      rw [Set.disjoint_left]
      rintro b ⟨hlo, hhi⟩ ⟨q, hq, hqb⟩
      have := hr q hq
      unfold Run.Apart Run.Covers at *
      omega
    rw [addresses_cons, Set.ncard_union_eq hdisj (Set.finite_Ico _ _) (finite_addresses l), ih hl,
      List.map_cons, List.sum_cons, ← Finset.coe_Ico, Set.ncard_coe_finset, Nat.card_Ico,
      Nat.add_sub_cancel_left]

end Lbd.RunMap
