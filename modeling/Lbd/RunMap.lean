import Lbd.SortSearch

/-!
# Lists of runs

A map from addresses to values kept as a list of runs `[start, start + len)`.
The operations are the usual single pass over the list: `carve` cuts a range
out, `splice` cuts it out and puts a new run there, `clip` reads a range. Ends
are computed in unsigned machine words modulo `W`.
-/

namespace Lbd.RunMap

/-- `len` consecutive addresses from `start`, all carrying `val`. -/
structure Run (α : Type*) where
  start : ℕ
  len : ℕ
  val : α
deriving DecidableEq, Repr

variable {α : Type*} (W : ℕ)

/-- The exclusive end, as the machine computes it. -/
def Run.stop (r : Run α) : ℕ := (r.start + r.len) % W

/-- What is left of a run that meets `[s, e)`: the part before and the part after. -/
def Run.pieces (r : Run α) (s e : ℕ) : List (Run α) :=
  (if r.start < s then [⟨r.start, s - r.start, r.val⟩] else []) ++
    if e < r.stop W then [⟨e, r.stop W - e, r.val⟩] else []

def carve (s e : ℕ) : List (Run α) → List (Run α)
  | [] => []
  | r :: rs =>
    if r.stop W ≤ s ∨ e ≤ r.start then r :: carve s e rs
    else r.pieces W s e ++ carve s e rs

/-- `carve` with an `inserted` flag: `new` goes in front of the first run that
starts at or after `e`. -/
def spliceLoop (s e : ℕ) (new : Run α) : Bool → List (Run α) → List (Run α) × Bool
  | inserted, [] => ([], inserted)
  | inserted, r :: rs =>
    if r.stop W ≤ s ∨ e ≤ r.start then
      if !inserted && decide (e ≤ r.start) then
        let out := spliceLoop s e new true rs
        (new :: r :: out.1, out.2)
      else
        let out := spliceLoop s e new inserted rs
        (r :: out.1, out.2)
    else
      let out := spliceLoop s e new inserted rs
      (r.pieces W s e ++ out.1, out.2)

/-- The test handed to the binary search for the insertion point. -/
def startsFrom (s : ℕ) (l : List (Run α)) (i : ℕ) : Bool :=
  match l[i]? with
  | some r => decide (s ≤ r.start)
  | none => true

def splice (s n : ℕ) (v : α) (l : List (Run α)) : List (Run α) :=
  let new : Run α := ⟨s, n, v⟩
  let out := spliceLoop W s ((s + n) % W) new false l
  if out.2 then out.1
  else insertAt out.1 (sortSearch out.1.length (startsFrom s out.1)) new

/-- The runs meeting `[lo, hi)`, cut to it, up to the first run that starts at
or after `hi`. -/
def clip (lo hi : ℕ) : List (Run α) → List (ℕ × ℕ × α)
  | [] => []
  | r :: rs =>
    if r.stop W ≤ lo then clip lo hi rs
    else if hi ≤ r.start then []
    else (max r.start lo, min (r.stop W) hi, r.val) :: clip lo hi rs

/-- Merges each run into the one before it when it continues that run with the same value. -/
def mergeFrom [DecidableEq α] : Run α → List (Run α) → List (Run α)
  | prev, [] => [prev]
  | prev, cur :: rest =>
    if prev.val = cur.val ∧ prev.stop W = cur.start then
      mergeFrom ⟨prev.start, (prev.len + cur.len) % W, prev.val⟩ rest
    else prev :: mergeFrom cur rest

def mergeAdjacent [DecidableEq α] : List (Run α) → List (Run α)
  | [] => []
  | r :: rs => mergeFrom W r rs

def Run.Covers (r : Run α) (b : ℕ) : Prop := r.start ≤ b ∧ b < r.start + r.len

instance (r : Run α) (b : ℕ) : Decidable (r.Covers b) := inferInstanceAs (Decidable (_ ∧ _))

/-- Some run of the list maps `b` to `v`. -/
def Holds (l : List (Run α)) (b : ℕ) (v : α) : Prop := ∃ r ∈ l, r.Covers b ∧ r.val = v

/-- Every run is non-empty and ends without wrapping. -/
def Fits (l : List (Run α)) : Prop := ∀ r ∈ l, 0 < r.len ∧ r.start + r.len < W

/-- The runs are disjoint and in address order. -/
def Ordered (l : List (Run α)) : Prop := l.Pairwise fun a b => a.start + a.len ≤ b.start

theorem Run.stop_eq {r : Run α} (h : r.start + r.len < W) : r.stop W = r.start + r.len :=
  Nat.mod_eq_of_lt h

variable {W}

theorem fits_cons {r : Run α} {l : List (Run α)} :
    Fits W (r :: l) ↔ (0 < r.len ∧ r.start + r.len < W) ∧ Fits W l := by
  simp [Fits]

theorem fits_append {l m : List (Run α)} : Fits W (l ++ m) ↔ Fits W l ∧ Fits W m := by
  simp only [Fits, List.forall_mem_append]

theorem Fits.of_perm {l m : List (Run α)} (h : Fits W l) (p : m.Perm l) : Fits W m :=
  fun r hr => h r (p.mem_iff.mp hr)

theorem holds_append {l m : List (Run α)} {b : ℕ} {v : α} :
    Holds (l ++ m) b v ↔ Holds l b v ∨ Holds m b v := by
  simp only [Holds, List.mem_append, or_and_right, exists_or]

theorem holds_cons {r : Run α} {l : List (Run α)} {b : ℕ} {v : α} :
    Holds (r :: l) b v ↔ (r.Covers b ∧ r.val = v) ∨ Holds l b v := by
  simp only [Holds, List.mem_cons, exists_eq_or_imp]

theorem Holds.of_perm {l m : List (Run α)} {b : ℕ} {v : α} (p : l.Perm m) :
    Holds l b v ↔ Holds m b v := by
  simp only [Holds, p.mem_iff]

theorem Ordered.tail {r : Run α} {l : List (Run α)} (h : Ordered (r :: l)) : Ordered l :=
  (List.pairwise_cons.mp h).2

theorem Ordered.head_le {r : Run α} {l : List (Run α)} (h : Ordered (r :: l)) :
    ∀ q ∈ l, r.start + r.len ≤ q.start :=
  (List.pairwise_cons.mp h).1

theorem carve_cons (s e : ℕ) (r : Run α) (l : List (Run α)) :
    carve W s e (r :: l) =
      if r.stop W ≤ s ∨ e ≤ r.start then r :: carve W s e l
      else r.pieces W s e ++ carve W s e l := rfl

theorem mem_pieces {r q : Run α} {s e : ℕ} (h : q ∈ r.pieces W s e) :
    (r.start < s ∧ q = ⟨r.start, s - r.start, r.val⟩) ∨
      (e < r.stop W ∧ q = ⟨e, r.stop W - e, r.val⟩) := by
  unfold Run.pieces at h
  split_ifs at h <;> simp_all

theorem holds_pieces {r : Run α} {s e b : ℕ} {v : α} (hr : r.start + r.len < W)
    (hmeet : ¬(r.stop W ≤ s ∨ e ≤ r.start)) :
    Holds (r.pieces W s e) b v ↔ (r.Covers b ∧ r.val = v) ∧ ¬(s ≤ b ∧ b < e) := by
  rw [r.stop_eq W hr] at hmeet
  unfold Run.pieces
  rw [holds_append, r.stop_eq W hr]
  constructor
  · rintro (h | h) <;> split_ifs at h <;> simp only [Holds, List.mem_singleton, List.not_mem_nil,
      false_and, exists_false, exists_eq_left, Run.Covers] at h ⊢
    · exact ⟨⟨by omega, h.2⟩, by omega⟩
    · exact ⟨⟨by omega, h.2⟩, by omega⟩
  · rintro ⟨⟨hb, hv⟩, hout⟩
    unfold Run.Covers at hb
    by_cases hs : b < s
    · left
      rw [if_pos (by omega)]
      exact ⟨_, List.mem_singleton_self _, ⟨hb.1, by dsimp only; omega⟩, hv⟩
    · right
      rw [if_pos (by omega)]
      exact ⟨_, List.mem_singleton_self _, ⟨by dsimp only; omega, by dsimp only; omega⟩, hv⟩

theorem fits_pieces {r : Run α} {s e : ℕ} (hr : r.start + r.len < W)
    (hmeet : ¬(r.stop W ≤ s ∨ e ≤ r.start)) : Fits W (r.pieces W s e) := by
  intro q hq
  have hs := r.stop_eq W hr
  rcases mem_pieces hq with ⟨h, rfl⟩ | ⟨h, rfl⟩ <;> dsimp only <;> omega

theorem fits_carve {s e : ℕ} {l : List (Run α)} (h : Fits W l) : Fits W (carve W s e l) := by
  induction l with
  | nil => exact h
  | cons r l ih =>
    rw [fits_cons] at h
    unfold carve
    split
    · exact fits_cons.mpr ⟨h.1, ih h.2⟩
    · next hmeet => exact fits_append.mpr ⟨fits_pieces h.1.2 hmeet, ih h.2⟩

theorem holds_carve {s e b : ℕ} {v : α} {l : List (Run α)} (h : Fits W l) :
    Holds (carve W s e l) b v ↔ Holds l b v ∧ ¬(s ≤ b ∧ b < e) := by
  induction l with
  | nil => simp [carve, Holds]
  | cons r l ih =>
    rw [fits_cons] at h
    rw [holds_cons, or_and_right, ← ih h.2, carve_cons]
    split
    · next hout =>
      rw [r.stop_eq W h.1.2] at hout
      have hb : r.Covers b → ¬(s ≤ b ∧ b < e) := by unfold Run.Covers; omega
      rw [holds_cons]
      tauto
    · next hmeet => rw [holds_append, holds_pieces h.1.2 hmeet]

/-- Every run of `carve` comes from a run of the list and lies inside it, outside `[s, e)`. -/
theorem mem_carve {s e : ℕ} {l : List (Run α)} (h : Fits W l) {q : Run α}
    (hq : q ∈ carve W s e l) :
    ∃ r ∈ l, r.start ≤ q.start ∧ q.start + q.len ≤ r.start + r.len ∧ q.val = r.val ∧
      (q.start + q.len ≤ s ∨ e ≤ q.start) := by
  induction l with
  | nil => simp [carve] at hq
  | cons r l ih =>
    rw [fits_cons] at h
    have hs := r.stop_eq W h.1.2
    unfold carve at hq
    split at hq
    · next hout =>
      rcases List.mem_cons.mp hq with rfl | hq
      · exact ⟨q, List.mem_cons_self .., le_rfl, le_rfl, rfl, by omega⟩
      · obtain ⟨x, hx, hrest⟩ := ih h.2 hq
        exact ⟨x, List.mem_cons_of_mem _ hx, hrest⟩
    · next hmeet =>
      rcases List.mem_append.mp hq with hq | hq
      · refine ⟨r, List.mem_cons_self .., ?_⟩
        rcases mem_pieces hq with ⟨hlt, rfl⟩ | ⟨hlt, rfl⟩ <;> dsimp only
        · exact ⟨le_rfl, by omega, rfl, by omega⟩
        · exact ⟨by omega, by omega, rfl, by omega⟩
      · obtain ⟨x, hx, hrest⟩ := ih h.2 hq
        exact ⟨x, List.mem_cons_of_mem _ hx, hrest⟩

theorem ordered_pieces {r : Run α} {s e : ℕ} (hse : s ≤ e) : Ordered (r.pieces W s e) := by
  unfold Run.pieces Ordered
  split_ifs <;> simp
  omega

theorem ordered_carve {s e : ℕ} {l : List (Run α)} (hse : s ≤ e) (h : Fits W l)
    (ho : Ordered l) : Ordered (carve W s e l) := by
  induction l with
  | nil => exact ho
  | cons r l ih =>
    have hle := ho.head_le
    rw [fits_cons] at h
    have hafter : ∀ q ∈ carve W s e l, r.start + r.len ≤ q.start := by
      intro q hq
      obtain ⟨x, hx, hxq, -⟩ := mem_carve h.2 hq
      exact (hle x hx).trans hxq
    unfold carve
    split
    · exact List.pairwise_cons.mpr ⟨hafter, ih h.2 ho.tail⟩
    · next hmeet =>
      refine List.pairwise_append.mpr ⟨ordered_pieces hse, ih h.2 ho.tail, ?_⟩
      intro q hq x hx
      have := hafter x hx
      have hs := r.stop_eq W h.1.2
      rcases mem_pieces hq with ⟨hlt, rfl⟩ | ⟨hlt, rfl⟩ <;> dsimp only <;> omega

theorem spliceLoop_true (s e : ℕ) (new : Run α) (l : List (Run α)) :
    spliceLoop W s e new true l = (carve W s e l, true) := by
  induction l with
  | nil => rfl
  | cons r l ih =>
    unfold spliceLoop carve
    split <;> simp [ih]

/-- The flag stays down when no run starts at or after `e`; the pass is then `carve`. -/
theorem spliceLoop_of_forall_lt {s e : ℕ} (new : Run α) {l : List (Run α)}
    (h : ∀ r ∈ l, r.start < e) : spliceLoop W s e new false l = (carve W s e l, false) := by
  induction l with
  | nil => rfl
  | cons r l ih =>
    have hr : ¬ e ≤ r.start := by simpa using h r (List.mem_cons_self ..)
    have ih := ih fun q hq => h q (List.mem_cons_of_mem _ hq)
    unfold spliceLoop carve
    split <;> simp [ih, hr]

/-- Otherwise `new` stands in front of the first such run, behind all pieces of
the runs before it. -/
theorem spliceLoop_append {s e : ℕ} (new r : Run α) {l m : List (Run α)}
    (h : ∀ q ∈ l, q.start < e) (hr : e ≤ r.start) :
    spliceLoop W s e new false (l ++ r :: m) =
      (carve W s e l ++ new :: r :: carve W s e m, true) := by
  induction l with
  | nil =>
    simp only [List.nil_append, carve]
    unfold spliceLoop
    simp [hr, spliceLoop_true]
  | cons q l ih =>
    have hq : ¬ e ≤ q.start := by simpa using h q (List.mem_cons_self ..)
    have ih := ih fun x hx => h x (List.mem_cons_of_mem _ hx)
    simp only [List.cons_append]
    unfold spliceLoop
    rw [carve_cons]
    split <;> simp [ih, hq]

theorem exists_first_from (e : ℕ) (l : List (Run α)) :
    (∀ r ∈ l, r.start < e) ∨
      ∃ a r m, l = a ++ r :: m ∧ (∀ q ∈ a, q.start < e) ∧ e ≤ r.start := by
  induction l with
  | nil => left; simp
  | cons q l ih =>
    by_cases hq : e ≤ q.start
    · exact Or.inr ⟨[], q, l, rfl, by simp, hq⟩
    · rcases ih with h | ⟨a, r, m, rfl, ha, hr⟩
      · left
        intro r hr
        rcases List.mem_cons.mp hr with rfl | hr
        · omega
        · exact h r hr
      · refine Or.inr ⟨q :: a, r, m, rfl, ?_, hr⟩
        intro x hx
        rcases List.mem_cons.mp hx with rfl | hx
        · omega
        · exact ha x hx

theorem carve_append (s e : ℕ) (l m : List (Run α)) :
    carve W s e (l ++ m) = carve W s e l ++ carve W s e m := by
  induction l with
  | nil => rfl
  | cons r l ih =>
    simp only [List.cons_append, carve_cons]
    split <;> simp [ih]

theorem splice_perm_carve (s n : ℕ) (v : α) (l : List (Run α)) :
    (splice W s n v l).Perm (⟨s, n, v⟩ :: carve W s ((s + n) % W) l) := by
  unfold splice
  dsimp only
  rcases exists_first_from ((s + n) % W) l with h | ⟨a, r, m, rfl, ha, hr⟩
  · rw [spliceLoop_of_forall_lt _ h]
    simp only [Bool.false_eq_true, if_false]
    exact insertAt_perm _ _ _
  · rw [spliceLoop_append _ r ha hr]
    simp only [if_true]
    have hc : carve W s ((s + n) % W) (r :: m) = r :: carve W s ((s + n) % W) m := by
      rw [carve, if_pos (Or.inr hr)]
    rw [carve_append, hc]
    exact List.perm_middle

theorem splice_perm {s n : ℕ} {v : α} (hfit : s + n < W) (l : List (Run α)) :
    (splice W s n v l).Perm (⟨s, n, v⟩ :: carve W s (s + n) l) := by
  have h := splice_perm_carve (W := W) s n v l
  rwa [Nat.mod_eq_of_lt hfit] at h

theorem fits_splice {s n : ℕ} {v : α} (hn : 0 < n) (hfit : s + n < W) {l : List (Run α)}
    (h : Fits W l) : Fits W (splice W s n v l) :=
  Fits.of_perm (fits_cons.mpr ⟨⟨hn, hfit⟩, fits_carve h⟩) (splice_perm hfit l)

theorem holds_splice {s n b : ℕ} {v w : α} (hfit : s + n < W) {l : List (Run α)}
    (h : Fits W l) :
    Holds (splice W s n v l) b w ↔
      if s ≤ b ∧ b < s + n then w = v else Holds l b w := by
  rw [Holds.of_perm (splice_perm hfit l), holds_cons, holds_carve h]
  unfold Run.Covers
  dsimp only
  split_ifs with hb
  · simp [hb, eq_comm]
  · simp [hb]

-- `splice` keeps the list ordered unless its end cuts a run that has another run
-- behind it: the tail of the cut run is then output before the new run.

variable (W) in
def EndClear (e : ℕ) (l : List (Run α)) : Prop := ∀ r ∈ l.dropLast, ¬(r.start < e ∧ e < r.stop W)

instance (e : ℕ) (l : List (Run α)) : Decidable (EndClear W e l) :=
  inferInstanceAs (Decidable (∀ r ∈ l.dropLast, ¬(r.start < e ∧ e < r.stop W)))

theorem mem_dropLast_of_append {a m : List (Run α)} {q r : Run α} (h : q ∈ a) :
    q ∈ (a ++ r :: m).dropLast := by
  rw [List.dropLast_append_of_ne_nil (by simp)]
  exact List.mem_append_left _ h

theorem carve_le_of_endClear {s e : ℕ} {a m : List (Run α)} {r : Run α}
    (h : Fits W (a ++ r :: m)) (ha : ∀ q ∈ a, q.start < e) (hc : EndClear W e (a ++ r :: m)) :
    ∀ q ∈ carve W s e a, q.start + q.len ≤ s := by
  intro q hq
  have hfa := (fits_append.mp h).1
  obtain ⟨x, hx, hxq, hqx, -, hout⟩ := mem_carve hfa hq
  rcases hout with hout | hout
  · exact hout
  · have hpos := (fits_carve hfa q hq).1
    have hstop := x.stop_eq W (hfa x hx).2
    exact absurd ⟨ha x hx, by omega⟩ (hc x (mem_dropLast_of_append hx))

theorem ordered_insert {s n : ℕ} {v : α} {l m : List (Run α)}
    (ho : Ordered (l ++ m)) (hl : ∀ q ∈ l, q.start + q.len ≤ s) (hm : ∀ q ∈ m, s + n ≤ q.start) :
    Ordered (l ++ ⟨s, n, v⟩ :: m) := by
  obtain ⟨hol, hom, hlm⟩ := List.pairwise_append.mp ho
  refine List.pairwise_append.mpr ⟨hol, List.pairwise_cons.mpr ⟨hm, hom⟩, ?_⟩
  intro a ha b hb
  rcases List.mem_cons.mp hb with rfl | hb
  · exact hl a ha
  · exact hlm a ha b hb

theorem startsFrom_getElem {s : ℕ} {l : List (Run α)} {i : ℕ} (h : i < l.length) :
    startsFrom s l i = decide (s ≤ l[i].start) := by
  simp [startsFrom, List.getElem?_eq_getElem h]

theorem startsFrom_mono {s : ℕ} {l : List (Run α)} (ho : Ordered l) (i j : ℕ)
    (hij : i ≤ j) (hj : j < l.length) (hi : startsFrom s l i = true) :
    startsFrom s l j = true := by
  rcases Nat.eq_or_lt_of_le hij with rfl | hlt
  · exact hi
  · have hle := List.pairwise_iff_getElem.mp ho i j (by omega) hj hlt
    rw [startsFrom_getElem (by omega), decide_eq_true_eq] at hi ⊢
    omega

/-- Where the search puts the new run, everything before it ends by `s` and
everything behind it starts from `s + n`. -/
theorem ordered_insertAt {s n : ℕ} {v : α} {l : List (Run α)} (hn : 0 < n) (h : Fits W l)
    (ho : Ordered l) (hout : ∀ q ∈ l, q.start + q.len ≤ s ∨ s + n ≤ q.start) :
    Ordered (insertAt l (sortSearch l.length (startsFrom s l)) ⟨s, n, v⟩) := by
  have hp := sortSearch_spec (startsFrom_mono (s := s) ho)
  apply ordered_insert (by rwa [List.take_append_drop])
  · intro q hq
    obtain ⟨i, hi, rfl⟩ := List.mem_take_iff_getElem.mp hq
    have hil : i < l.length := by omega
    have hlt := hp.below i (by omega)
    have hq := hout _ (List.getElem_mem hil)
    rw [startsFrom_getElem hil, decide_eq_false_iff_not] at hlt
    omega
  · intro q hq
    obtain ⟨i, hi, rfl⟩ := List.mem_drop_iff_getElem.mp hq
    have hil : sortSearch l.length (startsFrom s l) + i < l.length := by omega
    have hge := hp.above _ (Nat.le_add_right _ i) hil
    have hpos := (h _ (List.getElem_mem hil)).1
    have hq := hout _ (List.getElem_mem hil)
    rw [startsFrom_getElem hil, decide_eq_true_eq] at hge
    omega

theorem ordered_splice {s n : ℕ} {v : α} (hn : 0 < n) (hfit : s + n < W) {l : List (Run α)}
    (h : Fits W l) (ho : Ordered l) (hc : EndClear W (s + n) l) : Ordered (splice W s n v l) := by
  unfold splice
  simp only [Nat.mod_eq_of_lt hfit]
  rcases exists_first_from (s + n) l with hlt | ⟨a, r, m, rfl, ha, hr⟩
  · rw [spliceLoop_of_forall_lt _ hlt]
    simp only [Bool.false_eq_true, if_false]
    apply ordered_insertAt hn (fits_carve h) (ordered_carve (by omega) h ho)
    intro q hq
    obtain ⟨-, -, -, -, -, hout⟩ := mem_carve h hq
    exact hout
  · rw [spliceLoop_append _ r ha hr]
    simp only [if_true]
    have hcr : carve W s (s + n) (r :: m) = r :: carve W s (s + n) m := by
      rw [carve_cons, if_pos (Or.inr hr)]
    have hoc := ordered_carve (s := s) (e := s + n) (by omega) h ho
    rw [carve_append, hcr] at hoc
    apply ordered_insert hoc (carve_le_of_endClear h ha hc)
    have hob := (List.pairwise_append.mp ho).2.1
    intro q hq
    rcases List.mem_cons.mp hq with rfl | hq
    · exact hr
    · obtain ⟨x, hx, hxq, -⟩ := mem_carve (fits_cons.mp (fits_append.mp h).2).2 hq
      have := Ordered.head_le hob x hx
      omega

theorem mem_clip {lo hi : ℕ} {l : List (Run α)} {p : ℕ × ℕ × α} (hp : p ∈ clip W lo hi l) :
    ∃ r ∈ l, p = (max r.start lo, min (r.stop W) hi, r.val) ∧ lo < r.stop W ∧ r.start < hi := by
  induction l with
  | nil => simp [clip] at hp
  | cons r l ih =>
    unfold clip at hp
    split_ifs at hp with h1 h2
    · obtain ⟨q, hq, hrest⟩ := ih hp
      exact ⟨q, List.mem_cons_of_mem _ hq, hrest⟩
    · simp at hp
    · rcases List.mem_cons.mp hp with rfl | hp
      · exact ⟨r, List.mem_cons_self .., rfl, by omega, by omega⟩
      · obtain ⟨q, hq, hrest⟩ := ih hp
        exact ⟨q, List.mem_cons_of_mem _ hq, hrest⟩

theorem clip_sound {lo hi : ℕ} {l : List (Run α)} (h : Fits W l) {p : ℕ × ℕ × α}
    (hp : p ∈ clip W lo hi l) :
    ∃ r ∈ l, p = (max r.start lo, min (r.start + r.len) hi, r.val) ∧
      lo < r.start + r.len ∧ r.start < hi := by
  obtain ⟨r, hr, hrest⟩ := mem_clip hp
  rw [r.stop_eq W (h r hr).2] at hrest
  exact ⟨r, hr, hrest⟩

theorem clip_complete {lo hi : ℕ} {l : List (Run α)} (h : Fits W l) (ho : Ordered l)
    {r : Run α} (hr : r ∈ l) (hlo : lo < r.start + r.len) (hhi : r.start < hi) :
    (max r.start lo, min (r.start + r.len) hi, r.val) ∈ clip W lo hi l := by
  induction l with
  | nil => simp at hr
  | cons q l ih =>
    have hle := ho.head_le
    rw [fits_cons] at h
    have hs := q.stop_eq W h.1.2
    unfold clip
    rcases List.mem_cons.mp hr with rfl | hr
    · rw [if_neg (by omega), if_neg (by omega), hs]
      exact List.mem_cons_self ..
    · have := hle r hr
      split
      · exact ih h.2 ho.tail hr
      · rw [if_neg (by omega)]
        exact List.mem_cons_of_mem _ (ih h.2 ho.tail hr)

theorem clip_ordered {lo hi : ℕ} {l : List (Run α)} (h : Fits W l) (ho : Ordered l) :
    (clip W lo hi l).Pairwise fun p q => p.2.1 ≤ q.1 := by
  induction l with
  | nil => simp [clip]
  | cons r l ih =>
    have hle := ho.head_le
    rw [fits_cons] at h
    have hs := r.stop_eq W h.1.2
    unfold clip
    split_ifs
    · exact ih h.2 ho.tail
    · exact List.Pairwise.nil
    · refine List.pairwise_cons.mpr ⟨?_, ih h.2 ho.tail⟩
      intro p hp
      obtain ⟨q, hq, rfl, -⟩ := clip_sound h.2 hp
      have := hle q hq
      dsimp only
      omega

/-- An address of the range is read with `v` exactly when the list holds it with `v`. -/
theorem mem_clip_iff {lo hi b : ℕ} {v : α} {l : List (Run α)} (h : Fits W l) (ho : Ordered l)
    (hlo : lo ≤ b) (hhi : b < hi) :
    (∃ p ∈ clip W lo hi l, p.1 ≤ b ∧ b < p.2.1 ∧ p.2.2 = v) ↔ Holds l b v := by
  constructor
  · rintro ⟨p, hp, hpb, hbp, hv⟩
    obtain ⟨r, hr, rfl, -⟩ := clip_sound h hp
    dsimp only at hpb hbp hv
    exact ⟨r, hr, ⟨by omega, by omega⟩, hv⟩
  · rintro ⟨r, hr, hb, hv⟩
    unfold Run.Covers at hb
    refine ⟨_, clip_complete h ho hr (by omega) (by omega), ?_⟩
    exact ⟨by dsimp only; omega, by dsimp only; omega, hv⟩

theorem clip_append_of_le {lo hi : ℕ} {l m : List (Run α)} (h : ∀ q ∈ l, q.stop W ≤ lo) :
    clip W lo hi (l ++ m) = clip W lo hi m := by
  induction l with
  | nil => rfl
  | cons q l ih =>
    rw [List.cons_append, clip, if_pos (h q (List.mem_cons_self ..))]
    exact ih fun x hx => h x (List.mem_cons_of_mem _ hx)

theorem exists_of_not_endClear {e : ℕ} {l : List (Run α)} (hc : ¬ EndClear W e l) :
    ∃ a x r m, l = a ++ x :: r :: m ∧ x.start < e ∧ e < x.stop W := by
  unfold EndClear at hc
  push Not at hc
  obtain ⟨x, hx, hlt, hgt⟩ := hc
  have hne : l ≠ [] := by rintro rfl; simp at hx
  obtain ⟨a, b, hab⟩ := List.append_of_mem hx
  have hl := List.dropLast_append_getLast hne
  rw [hab, List.append_assoc, List.cons_append] at hl
  cases b with
  | nil => exact ⟨a, x, _, [], hl.symm, hlt, hgt⟩
  | cons r b => exact ⟨a, x, r, b ++ [l.getLast hne], hl.symm, hlt, hgt⟩

/-- When the end of the new range does cut a run with another one behind it,
the range just written cannot be read back. -/
theorem clip_splice_of_not_endClear {s n : ℕ} {v : α} (hn : 0 < n) (hfit : s + n < W)
    {l : List (Run α)} (h : Fits W l) (ho : Ordered l) (hc : ¬ EndClear W (s + n) l) :
    clip W s (s + n) (splice W s n v l) = [] := by
  obtain ⟨a, x, r, m, rfl, hlt, hgt⟩ := exists_of_not_endClear hc
  obtain ⟨hfa, hfx⟩ := fits_append.mp h
  obtain ⟨hx, hfr⟩ := fits_cons.mp hfx
  obtain ⟨-, hor, hax⟩ := List.pairwise_append.mp ho
  have hax : ∀ q ∈ a, q.start + q.len ≤ x.start := fun q hq => hax q hq x (List.mem_cons_self ..)
  have hxs := x.stop_eq W hx.2
  have hr := Ordered.head_le hor r (List.mem_cons_self ..)
  have hsplit : a ++ x :: r :: m = (a ++ [x]) ++ r :: m := by simp
  have hfirst : ∀ q ∈ a ++ [x], q.start < s + n := by
    intro q hq
    rcases List.mem_append.mp hq with hq | hq
    · have := hax q hq
      omega
    · rw [List.mem_singleton.mp hq]
      exact hlt
  unfold splice
  simp only [Nat.mod_eq_of_lt hfit]
  rw [hsplit, spliceLoop_append _ r hfirst (by omega), carve_append]
  simp only [if_true, List.append_assoc]
  rw [clip_append_of_le]
  · have htail : (⟨s + n, x.stop W - (s + n), x.val⟩ : Run α).stop W = x.stop W := by
      rw [Run.stop_eq W (by dsimp only; omega)]
      dsimp only
      omega
    rw [carve_cons, if_neg (by omega)]
    unfold Run.pieces
    rw [if_pos hgt, List.append_assoc, List.append_assoc, clip_append_of_le]
    · rw [List.singleton_append, clip, if_neg (by rw [htail]; omega), if_pos le_rfl]
    · intro q hq
      split at hq
      · rw [List.mem_singleton.mp hq, Run.stop_eq W (by dsimp only; omega)]
        dsimp only
        omega
      · simp at hq
  · intro q hq
    obtain ⟨y, hy, -, hqy, -, hout⟩ := mem_carve hfa hq
    have hpos := fits_carve hfa q hq
    have := hax y hy
    rw [q.stop_eq W hpos.2]
    omega

theorem merge_fits {prev cur : Run α} (hp : prev.start + prev.len < W)
    (hc : 0 < cur.len ∧ cur.start + cur.len < W) (h : prev.stop W = cur.start) :
    (prev.len + cur.len) % W = prev.len + cur.len ∧
      prev.start + (prev.len + cur.len) = cur.start + cur.len := by
  rw [prev.stop_eq W hp] at h
  exact ⟨Nat.mod_eq_of_lt (by omega), by omega⟩

section Merge

variable [DecidableEq α]

theorem mergeFrom_cons (prev cur : Run α) (l : List (Run α)) :
    mergeFrom W prev (cur :: l) =
      if prev.val = cur.val ∧ prev.stop W = cur.start then
        mergeFrom W ⟨prev.start, (prev.len + cur.len) % W, prev.val⟩ l
      else prev :: mergeFrom W cur l := rfl

theorem start_of_mem_mergeFrom {prev q : Run α} {l : List (Run α)} (h : q ∈ mergeFrom W prev l) :
    q.start = prev.start ∨ ∃ r ∈ l, q.start = r.start := by
  induction l generalizing prev with
  | nil => exact .inl (by rw [List.mem_singleton.mp h])
  | cons cur l ih =>
    rw [mergeFrom_cons] at h
    split_ifs at h
    · rcases ih h with he | ⟨r, hr, he⟩
      · exact .inl he
      · exact .inr ⟨r, List.mem_cons_of_mem _ hr, he⟩
    · rcases List.mem_cons.mp h with rfl | h
      · exact .inl rfl
      · rcases ih h with he | ⟨r, hr, he⟩
        · exact .inr ⟨cur, List.mem_cons_self, he⟩
        · exact .inr ⟨r, List.mem_cons_of_mem _ hr, he⟩

theorem fits_mergeFrom {prev : Run α} {l : List (Run α)} (h : Fits W (prev :: l)) :
    Fits W (mergeFrom W prev l) := by
  induction l generalizing prev with
  | nil => exact h
  | cons cur l ih =>
    obtain ⟨hp, hl⟩ := fits_cons.mp h
    obtain ⟨hc, hl⟩ := fits_cons.mp hl
    rw [mergeFrom_cons]
    split_ifs with hm
    · obtain ⟨hmod, hend⟩ := merge_fits hp.2 hc hm.2
      rw [hmod]
      exact ih (fits_cons.mpr ⟨⟨by dsimp only; omega, by dsimp only; omega⟩, hl⟩)
    · exact fits_cons.mpr ⟨hp, ih (fits_cons.mpr ⟨hc, hl⟩)⟩

theorem holds_mergeFrom {prev : Run α} {l : List (Run α)} (h : Fits W (prev :: l)) {b : ℕ} {v : α} :
    Holds (mergeFrom W prev l) b v ↔ Holds (prev :: l) b v := by
  induction l generalizing prev with
  | nil => rfl
  | cons cur l ih =>
    obtain ⟨hp, hl⟩ := fits_cons.mp h
    obtain ⟨hc, hl⟩ := fits_cons.mp hl
    rw [mergeFrom_cons]
    split_ifs with hm
    · obtain ⟨hmod, hend⟩ := merge_fits hp.2 hc hm.2
      have hs := hm.2
      rw [prev.stop_eq W hp.2] at hs
      rw [hmod, ih (fits_cons.mpr ⟨⟨by dsimp only; omega, by dsimp only; omega⟩, hl⟩)]
      simp only [holds_cons, Run.Covers, ← hm.1, ← or_assoc, ← or_and_right]
      refine or_congr_left (and_congr_left fun _ => ?_)
      omega
    · rw [holds_cons, ih (fits_cons.mpr ⟨hc, hl⟩), ← holds_cons]

theorem ordered_mergeFrom {prev : Run α} {l : List (Run α)} (h : Fits W (prev :: l))
    (ho : Ordered (prev :: l)) : Ordered (mergeFrom W prev l) := by
  induction l generalizing prev with
  | nil => exact ho
  | cons cur l ih =>
    obtain ⟨hp, hl⟩ := fits_cons.mp h
    obtain ⟨hc, hl⟩ := fits_cons.mp hl
    rw [mergeFrom_cons]
    split_ifs with hm
    · obtain ⟨hmod, hend⟩ := merge_fits hp.2 hc hm.2
      rw [hmod]
      refine ih (fits_cons.mpr ⟨⟨by dsimp only; omega, by dsimp only; omega⟩, hl⟩)
        (List.pairwise_cons.mpr ⟨fun q hq => ?_, ho.tail.tail⟩)
      have := ho.tail.head_le q hq
      dsimp only
      omega
    · refine List.pairwise_cons.mpr ⟨fun q hq => ?_, ih (fits_cons.mpr ⟨hc, hl⟩) ho.tail⟩
      have hcur := ho.head_le cur List.mem_cons_self
      rcases start_of_mem_mergeFrom hq with he | ⟨r, hr, he⟩
      · omega
      · have := ho.head_le r (List.mem_cons_of_mem _ hr)
        omega

theorem fits_mergeAdjacent {l : List (Run α)} (h : Fits W l) : Fits W (mergeAdjacent W l) := by
  cases l with
  | nil => exact h
  | cons r l => exact fits_mergeFrom h

theorem holds_mergeAdjacent {l : List (Run α)} (h : Fits W l) {b : ℕ} {v : α} :
    Holds (mergeAdjacent W l) b v ↔ Holds l b v := by
  cases l with
  | nil => rfl
  | cons r l => exact holds_mergeFrom h

theorem ordered_mergeAdjacent {l : List (Run α)} (h : Fits W l) (ho : Ordered l) :
    Ordered (mergeAdjacent W l) := by
  cases l with
  | nil => exact ho
  | cons r l => exact ordered_mergeFrom h ho

end Merge

theorem holds_filter {l : List (Run α)} {p : α → Bool} {b : ℕ} {v : α} :
    Holds (l.filter fun r => p r.val) b v ↔ Holds l b v ∧ p v := by
  simp only [Holds, List.mem_filter]
  constructor
  · rintro ⟨r, ⟨hr, hp⟩, hb, rfl⟩
    exact ⟨⟨r, hr, hb, rfl⟩, hp⟩
  · rintro ⟨⟨r, hr, hb, rfl⟩, hp⟩
    exact ⟨r, ⟨hr, hp⟩, hb, rfl⟩

theorem Fits.filter {l : List (Run α)} (h : Fits W l) (p : Run α → Bool) : Fits W (l.filter p) :=
  fun r hr => h r (List.mem_of_mem_filter hr)

theorem Ordered.filter {l : List (Run α)} (h : Ordered l) (p : Run α → Bool) :
    Ordered (l.filter p) :=
  List.Pairwise.filter p h

def Run.map {β : Type*} (f : α → β) (r : Run α) : Run β := ⟨r.start, r.len, f r.val⟩

theorem holds_map {β : Type*} {f : α → β} {l : List (Run α)} {b : ℕ} {w : β} :
    Holds (l.map (Run.map f)) b w ↔ ∃ v, Holds l b v ∧ f v = w := by
  simp only [Holds, List.mem_map]
  constructor
  · rintro ⟨-, ⟨r, hr, rfl⟩, hb, rfl⟩
    exact ⟨r.val, ⟨r, hr, hb, rfl⟩, rfl⟩
  · rintro ⟨v, ⟨r, hr, hb, rfl⟩, rfl⟩
    exact ⟨_, ⟨r, hr, rfl⟩, hb, rfl⟩

theorem Fits.map {β : Type*} {l : List (Run α)} (h : Fits W l) (f : α → β) :
    Fits W (l.map (Run.map f)) := by
  intro q hq
  obtain ⟨r, hr, rfl⟩ := List.mem_map.mp hq
  exact h r hr

theorem Ordered.map {β : Type*} {l : List (Run α)} (h : Ordered l) (f : α → β) :
    Ordered (l.map (Run.map f)) :=
  List.pairwise_map.mpr h

-- Runs that may wrap, all of them shorter than a quarter of the address space.

section Short

variable {c : ℕ}

/-- `q` is a part of `r`. -/
structure Run.Within (q r : Run α) : Prop where
  val : q.val = r.val
  pos : 0 < r.len → 0 < q.len
  le : r.start ≤ q.start
  stop_le : q.start + q.len ≤ r.start + r.len

theorem Run.Within.refl (r : Run α) : r.Within r := ⟨rfl, id, le_rfl, le_rfl⟩

theorem mod_of_lt_two_mul {a : ℕ} (h : a < 2 * W) :
    a < W ∧ a % W = a ∨ W ≤ a ∧ a % W = a - W := by
  rcases Nat.lt_or_ge a W with hlt | hge
  · exact .inl ⟨hlt, Nat.mod_eq_of_lt hlt⟩
  · refine .inr ⟨hge, ?_⟩
    rw [Nat.mod_eq_sub_mod hge, Nat.mod_eq_of_lt (by omega)]

theorem within_of_mem_pieces {r q : Run α} {s n : ℕ} (hW : 4 * c ≤ W) (hr : r.start < W)
    (hlen : r.len ≤ c) (hs : s < W) (hn : n ≤ c)
    (hmeet : ¬(r.stop W ≤ s ∨ (s + n) % W ≤ r.start))
    (hq : q ∈ r.pieces W s ((s + n) % W)) : q.Within r ∧ q.start < W := by
  have hstop : _ ∨ _ := mod_of_lt_two_mul (a := r.start + r.len) (W := W) (by omega)
  have hend : _ ∨ _ := mod_of_lt_two_mul (a := s + n) (W := W) (by omega)
  change (_ ∧ r.stop W = _) ∨ (_ ∧ r.stop W = _) at hstop
  rcases mem_pieces hq with ⟨h, rfl⟩ | ⟨h, rfl⟩
  · refine ⟨⟨rfl, fun _ => ?_, le_rfl, ?_⟩, hr⟩ <;> dsimp only <;> omega
  · refine ⟨⟨rfl, fun _ => ?_, ?_, ?_⟩, ?_⟩ <;> dsimp only <;> omega

theorem exists_within_of_mem_carve {l : List (Run α)} {q : Run α} {s n : ℕ} (hW : 4 * c ≤ W)
    (h : ∀ r ∈ l, r.start < W ∧ r.len ≤ c) (hs : s < W) (hn : n ≤ c)
    (hq : q ∈ carve W s ((s + n) % W) l) : ∃ r ∈ l, q.Within r ∧ q.start < W := by
  induction l with
  | nil => simp [carve] at hq
  | cons r l ih =>
    have hrest : q ∈ carve W s ((s + n) % W) l → ∃ r' ∈ r :: l, q.Within r' ∧ q.start < W := by
      intro hq
      obtain ⟨x, hx, hin⟩ := ih (fun y hy => h y (List.mem_cons_of_mem _ hy)) hq
      exact ⟨x, List.mem_cons_of_mem _ hx, hin⟩
    have hr := h r (List.mem_cons_self ..)
    rw [carve_cons] at hq
    split_ifs at hq with hout
    · rcases List.mem_cons.mp hq with rfl | hq
      · exact ⟨q, List.mem_cons_self .., .refl q, hr.1⟩
      · exact hrest hq
    · rcases List.mem_append.mp hq with hq | hq
      · exact ⟨r, List.mem_cons_self .., within_of_mem_pieces hW hr.1 hr.2 hs hn hout hq⟩
      · exact hrest hq

end Short

end Lbd.RunMap
