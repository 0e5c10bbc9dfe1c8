import Lbd.SortSearch

/-!
# Sets of blocks as interval lists

`BlockSet` of the compactor: which blocks later entries of a segment cover.
-/

namespace Lbd

/-- The half-open block range `[lo, hi)`. -/
structure Interval where
  lo : ℕ
  hi : ℕ
deriving DecidableEq, Repr

structure BlockSet where
  intervals : List Interval
deriving DecidableEq, Repr

namespace BlockSet

/-- Overlaps `[lo, hi)` or is adjacent to it. -/
def touches (lo hi : ℕ) (iv : Interval) : Bool := iv.lo ≤ hi && lo ≤ iv.hi

/-- The index loop of `Add`: the first and last touching interval. -/
def firstLast (lo hi : ℕ) : ℕ → Option (ℕ × ℕ) → List Interval → Option (ℕ × ℕ)
  | _, acc, [] => acc
  | i, acc, iv :: rest =>
    firstLast lo hi (i + 1)
      (if touches lo hi iv then some ((acc.map Prod.fst).getD i, i) else acc) rest

/-- The lower and upper ends `Add` gives the merged interval. -/
def merged (lo hi : ℕ) (first last : Interval) : Interval where
  lo := if first.lo < lo then first.lo else lo
  hi := if hi < last.hi then last.hi else hi

def add (lo hi : ℕ) (bs : BlockSet) : BlockSet :=
  match firstLast lo hi 0 none bs.intervals with
  | none =>
    let pos := sortSearch bs.intervals.length fun i =>
      (bs.intervals[i]?).any fun iv => lo ≤ iv.lo
    ⟨insertAt bs.intervals pos ⟨lo, hi⟩⟩
  | some (first, last) =>
    let m := merged lo hi (bs.intervals.getD first ⟨lo, hi⟩) (bs.intervals.getD last ⟨lo, hi⟩)
    let ivs := bs.intervals.set first m
    ⟨if first < last then ivs.take (first + 1) ++ ivs.drop (last + 1) else ivs⟩

/-- The loop of `Uncovered` with its cursor, and the gap after the last interval. -/
def uncoveredLoop (hi : ℕ) : ℕ → List Interval → List Interval
  | cursor, [] => if cursor < hi then [⟨cursor, hi⟩] else []
  | cursor, iv :: rest =>
    if iv.hi ≤ cursor then uncoveredLoop hi cursor rest
    else if hi ≤ iv.lo then if cursor < hi then [⟨cursor, hi⟩] else []
    else (if cursor < iv.lo then [⟨cursor, iv.lo⟩] else []) ++
      uncoveredLoop hi (if cursor < iv.hi then iv.hi else cursor) rest

def uncovered (lo hi : ℕ) (bs : BlockSet) : List Interval := uncoveredLoop hi lo bs.intervals

/-- Some interval of the list holds block `b`. -/
def Mem (l : List Interval) (b : ℕ) : Prop := ∃ iv ∈ l, iv.lo ≤ b ∧ b < iv.hi

/-- Non-empty intervals in increasing order with a gap between any two. -/
structure Separated (l : List Interval) : Prop where
  pos : ∀ iv ∈ l, iv.lo < iv.hi
  gap : l.Pairwise fun a b => a.hi < b.lo

theorem mem_cons {iv : Interval} {l : List Interval} {b : ℕ} :
    Mem (iv :: l) b ↔ (iv.lo ≤ b ∧ b < iv.hi) ∨ Mem l b := by
  simp [Mem]

theorem mem_append {l m : List Interval} {b : ℕ} : Mem (l ++ m) b ↔ Mem l b ∨ Mem m b := by
  simp only [Mem, List.mem_append, or_and_right, exists_or]

theorem separated_nil : Separated [] := ⟨by simp, List.Pairwise.nil⟩

theorem Separated.tail {iv : Interval} {l : List Interval} (h : Separated (iv :: l)) :
    Separated l :=
  ⟨fun j hj => h.pos j (List.mem_cons_of_mem _ hj), h.gap.of_cons⟩

theorem Separated.head_lt {iv j : Interval} {l : List Interval} (h : Separated (iv :: l))
    (hj : j ∈ l) : iv.hi < j.lo :=
  List.rel_of_pairwise_cons h.gap hj

theorem separated_append {l m : List Interval} :
    Separated (l ++ m) ↔ Separated l ∧ Separated m ∧ ∀ a ∈ l, ∀ b ∈ m, a.hi < b.lo := by
  constructor
  · intro h
    obtain ⟨hl, hm, hlm⟩ := List.pairwise_append.mp h.gap
    exact ⟨⟨fun iv hiv => h.pos iv (List.mem_append_left _ hiv), hl⟩,
      ⟨fun iv hiv => h.pos iv (List.mem_append_right _ hiv), hm⟩, hlm⟩
  · rintro ⟨hl, hm, hlm⟩
    exact ⟨fun iv hiv => (List.mem_append.mp hiv).elim (hl.pos iv) (hm.pos iv),
      List.pairwise_append.mpr ⟨hl.gap, hm.gap, hlm⟩⟩

theorem separated_cons {iv : Interval} {l : List Interval} :
    Separated (iv :: l) ↔ iv.lo < iv.hi ∧ Separated l ∧ ∀ j ∈ l, iv.hi < j.lo := by
  constructor
  · exact fun h => ⟨h.pos iv List.mem_cons_self, h.tail, fun j hj => h.head_lt hj⟩
  · rintro ⟨hiv, hl, hlt⟩
    exact ⟨List.forall_mem_cons.mpr ⟨hiv, hl.pos⟩, List.pairwise_cons.mpr ⟨hlt, hl.gap⟩⟩

variable {lo hi : ℕ}

/-- A separated list falls into the part below `[lo, hi)`, the touching part and the part above. -/
structure Split (lo hi : ℕ) (pre mid post : List Interval) : Prop where
  below : ∀ iv ∈ pre, iv.hi < lo
  touching : ∀ iv ∈ mid, touches lo hi iv = true
  above : ∀ iv ∈ post, hi < iv.lo

theorem exists_split {l : List Interval} (h : Separated l) (lo hi : ℕ) :
    ∃ pre mid post, l = pre ++ (mid ++ post) ∧ Split lo hi pre mid post := by
  induction l with
  | nil => exact ⟨[], [], [], rfl, by simp, by simp, by simp⟩
  | cons iv l ih =>
    have hpos := h.pos iv List.mem_cons_self
    by_cases hb : iv.hi < lo
    · obtain ⟨pre, mid, post, rfl, hs⟩ := ih h.tail
      exact ⟨iv :: pre, mid, post, rfl, List.forall_mem_cons.mpr ⟨hb, hs.below⟩, hs.touching,
        hs.above⟩
    by_cases ha : hi < iv.lo
    · refine ⟨[], [], iv :: l, rfl, by simp, by simp, List.forall_mem_cons.mpr ⟨ha, ?_⟩⟩
      intro j hj
      have := h.head_lt hj
      omega
    · have ht : touches lo hi iv = true := by simp [touches]; omega
      obtain ⟨pre, mid, post, rfl, hs⟩ := ih h.tail
      -- the interval reaches `lo`, so nothing behind it can end below `lo`
      obtain rfl : pre = [] := by
        rw [List.eq_nil_iff_forall_not_mem]
        intro j hj
        have h1 := hs.below j hj
        have h2 := h.head_lt (List.mem_append_left _ hj)
        have h3 := h.pos j (List.mem_cons_of_mem _ (List.mem_append_left _ hj))
        omega
      exact ⟨[], iv :: mid, post, rfl, by simp, List.forall_mem_cons.mpr ⟨ht, hs.touching⟩,
        hs.above⟩

theorem firstLast_append (i : ℕ) (acc : Option (ℕ × ℕ)) (l m : List Interval) :
    firstLast lo hi i acc (l ++ m) =
      firstLast lo hi (i + l.length) (firstLast lo hi i acc l) m := by
  induction l generalizing i acc with
  | nil => rfl
  | cons iv l ih =>
    rw [List.cons_append, firstLast, ih, firstLast, List.length_cons]
    congr 1
    omega

theorem firstLast_of_not_touching {l : List Interval} (h : ∀ iv ∈ l, touches lo hi iv = false)
    (i : ℕ) (acc : Option (ℕ × ℕ)) : firstLast lo hi i acc l = acc := by
  induction l generalizing i with
  | nil => rfl
  | cons iv l ih =>
    rw [firstLast, h iv List.mem_cons_self]
    exact ih (fun j hj => h j (List.mem_cons_of_mem _ hj)) _

theorem firstLast_of_touching {l : List Interval} (h : ∀ iv ∈ l, touches lo hi iv = true)
    (hne : l ≠ []) (i : ℕ) (acc : Option (ℕ × ℕ)) :
    firstLast lo hi i acc l = some ((acc.map Prod.fst).getD i, i + l.length - 1) := by
  induction l generalizing i acc with
  | nil => exact absurd rfl hne
  | cons iv l ih =>
    rw [firstLast, h iv List.mem_cons_self, if_pos rfl]
    rcases eq_or_ne l [] with rfl | hl
    · rfl
    · rw [ih (fun j hj => h j (List.mem_cons_of_mem _ hj)) hl]
      simp only [Option.map_some, Option.getD_some, List.length_cons]
      congr 2
      omega

theorem Split.firstLast_eq {pre mid post : List Interval} (hs : Split lo hi pre mid post) :
    firstLast lo hi 0 none (pre ++ (mid ++ post)) =
      if mid = [] then none else some (pre.length, pre.length + mid.length - 1) := by
  have hpre : ∀ iv ∈ pre, touches lo hi iv = false := by
    intro iv hiv
    have := hs.below iv hiv
    simp [touches]
    omega
  have hpost : ∀ iv ∈ post, touches lo hi iv = false := by
    intro iv hiv
    have := hs.above iv hiv
    simp [touches]
    omega
  rw [firstLast_append, firstLast_append, firstLast_of_not_touching hpre,
    firstLast_of_not_touching hpost]
  split_ifs with hmid
  · rw [hmid, firstLast]
  · rw [firstLast_of_touching hs.touching hmid]
    simp

theorem Split.add_intervals {pre mid post : List Interval} (hs : Split lo hi pre mid post)
    (h : Separated (pre ++ (mid ++ post))) (hlt : lo < hi) :
    (add lo hi ⟨pre ++ (mid ++ post)⟩).intervals =
      pre ++ merged lo hi (mid.headD ⟨lo, hi⟩) (mid.getLastD ⟨lo, hi⟩) :: post := by
  unfold add
  simp only [hs.firstLast_eq]
  rcases mid with _ | ⟨x, xs⟩
  · have hpos : sortSearch (pre ++ post).length
        (fun i => ((pre ++ post)[i]?).any fun iv => decide (lo ≤ iv.lo)) = pre.length := by
      refine sortSearch_append _ (fun iv hiv => ?_) (fun iv hiv => ?_)
      · have h1 := hs.below iv hiv
        have h2 := h.pos iv (List.mem_append_left _ hiv)
        simp only [decide_eq_false_iff_not]
        omega
      · have h1 := hs.above iv hiv
        simp only [decide_eq_true_eq]
        omega
    simp only [List.nil_append, if_true, hpos, insertAt_append]
    simp [merged]
  · have hfirst : (pre ++ (x :: xs ++ post)).getD pre.length ⟨lo, hi⟩ = x := by
      simp
    have hlast : (pre ++ (x :: xs ++ post)).getD (pre.length + (x :: xs).length - 1) ⟨lo, hi⟩ =
        (x :: xs).getLastD ⟨lo, hi⟩ := by
      have hsub : pre.length + (x :: xs).length - 1 - pre.length = xs.length := by simp
      rw [List.getD_append_right _ _ _ _ (by simp), hsub,
        List.getD_append _ _ _ _ (by simp), List.getD_eq_getElem _ _ (by simp),
        List.getLastD_eq_getLast?, List.getLast?_eq_getElem?]
      simp
    simp only [reduceCtorEq, if_false, hfirst, hlast, List.headD_cons]
    have hset : ∀ m, (pre ++ (x :: xs ++ post)).set pre.length m = pre ++ m :: (xs ++ post) := by
      intro m
      simp [List.set_append_right]
    simp only [hset]
    split_ifs with hxs
    · have hd : pre.length + (x :: xs).length - 1 + 1 = pre.length + (xs.length + 1) := by
        simp; omega
      rw [hd, List.take_length_add_append, List.drop_length_add_append, List.drop_succ_cons,
        List.drop_left]
      simp
    · obtain rfl : xs = [] := by simpa using hxs
      rfl

theorem Separated.hi_le_getLast {l : List Interval} (h : Separated l) (hne : l ≠ [])
    {iv : Interval} (hiv : iv ∈ l) : iv.hi ≤ (l.getLast hne).hi := by
  induction l with
  | nil => exact absurd rfl hne
  | cons j l ih =>
    rcases eq_or_ne l [] with rfl | hl
    · rw [List.mem_singleton.mp hiv, List.getLast_singleton]
    · rw [List.getLast_cons hl]
      rcases List.mem_cons.mp hiv with rfl | hmem
      · have h1 := h.head_lt (List.getLast_mem hl)
        have h2 := h.pos _ (List.mem_cons_of_mem _ (List.getLast_mem hl))
        omega
      · exact ih h.tail hl hmem

theorem mem_merged {mid : List Interval} (h : Separated mid)
    (ht : ∀ iv ∈ mid, touches lo hi iv = true) (b : ℕ) :
    ((merged lo hi (mid.headD ⟨lo, hi⟩) (mid.getLastD ⟨lo, hi⟩)).lo ≤ b ∧
        b < (merged lo hi (mid.headD ⟨lo, hi⟩) (mid.getLastD ⟨lo, hi⟩)).hi) ↔
      (lo ≤ b ∧ b < hi) ∨ Mem mid b := by
  rcases mid with _ | ⟨x, xs⟩
  · simp [merged, Mem]
  have hne : x :: xs ≠ [] := List.cons_ne_nil _ _
  have hz : (x :: xs).getLastD ⟨lo, hi⟩ = (x :: xs).getLast hne := by
    rw [List.getLastD_eq_getLast?, List.getLast?_eq_getLast_of_ne_nil hne, Option.getD_some]
  have hzm : (x :: xs).getLast hne ∈ x :: xs := List.getLast_mem hne
  rw [hz, List.headD_cons]
  generalize hzdef : (x :: xs).getLast hne = z at hzm
  have hx := ht x List.mem_cons_self
  have hzt := ht z hzm
  simp only [touches, Bool.and_eq_true, decide_eq_true_eq] at hx hzt
  simp only [merged]
  constructor
  · intro hb
    by_cases h1 : b < lo
    · refine .inr ⟨x, List.mem_cons_self, ?_⟩
      split_ifs at hb <;> omega
    by_cases h2 : hi ≤ b
    · refine .inr ⟨z, hzm, ?_⟩
      split_ifs at hb <;> omega
    · exact .inl (by omega)
  · rintro (hb | ⟨iv, hiv, hb⟩)
    · split_ifs <;> omega
    · have h1 : x.lo ≤ iv.lo := by
        rcases List.mem_cons.mp hiv with rfl | hmem
        · exact le_rfl
        · have := h.head_lt hmem
          have := h.pos x List.mem_cons_self
          omega
      have h2 : iv.hi ≤ z.hi := hzdef ▸ h.hi_le_getLast hne hiv
      split_ifs <;> omega

theorem add_spec {bs : BlockSet} (h : Separated bs.intervals) (hlt : lo < hi) :
    Separated (add lo hi bs).intervals ∧
      ∀ b, Mem (add lo hi bs).intervals b ↔ (lo ≤ b ∧ b < hi) ∨ Mem bs.intervals b := by
  obtain ⟨ivs⟩ := bs
  obtain ⟨pre, mid, post, rfl, hs⟩ := exists_split h lo hi
  obtain ⟨hpre, hrest, hgap⟩ := separated_append.mp h
  obtain ⟨hmid, hpost, hgap'⟩ := separated_append.mp hrest
  rw [hs.add_intervals h hlt]
  constructor
  · have hhead : ∀ a ∈ pre, a.hi < (mid.headD ⟨lo, hi⟩).lo := by
      intro a ha
      cases mid with
      | nil => exact hs.below a ha
      | cons x xs => exact hgap a ha x (by simp)
    have hlast : ∀ b ∈ post, (mid.getLastD ⟨lo, hi⟩).hi < b.lo := by
      intro b hb
      rcases mid.eq_nil_or_concat with rfl | ⟨xs, z, rfl⟩
      · exact hs.above b hb
      · simpa using hgap' z (by simp) b hb
    refine separated_append.mpr ⟨hpre, separated_cons.mpr ⟨?_, hpost, fun b hb => ?_⟩, ?_⟩
    · simp only [merged]
      split_ifs <;> omega
    · have h1 := hs.above b hb
      have h2 := hlast b hb
      simp only [merged]
      split_ifs <;> omega
    · intro a ha b hb
      have h1 := hs.below a ha
      have h2 := hhead a ha
      rcases List.mem_cons.mp hb with rfl | hb
      · simp only [merged]
        split_ifs <;> omega
      · exact hgap a ha b (List.mem_append_right _ hb)
  · intro b
    rw [mem_append, mem_cons, mem_merged hmid hs.touching, mem_append, mem_append]
    tauto

theorem mem_gap (cursor hi b : ℕ) :
    Mem (if cursor < hi then [⟨cursor, hi⟩] else []) b ↔ cursor ≤ b ∧ b < hi := by
  split_ifs with h
  · simp [Mem]
  · simp only [Mem, List.not_mem_nil, false_and, exists_false, false_iff]
    omega

theorem uncoveredLoop_spec {l : List Interval} (h : Separated l) (cursor hi : ℕ) :
    (∀ g ∈ uncoveredLoop hi cursor l, cursor ≤ g.lo ∧ g.lo < g.hi ∧ g.hi ≤ hi) ∧
      ∀ b, Mem (uncoveredLoop hi cursor l) b ↔ (cursor ≤ b ∧ b < hi) ∧ ¬ Mem l b := by
  induction l generalizing cursor with
  | nil =>
    rw [uncoveredLoop]
    refine ⟨fun g hg => ?_, fun b => ?_⟩
    · split_ifs at hg with hc
      · rw [List.mem_singleton.mp hg]
        exact ⟨le_rfl, hc, le_rfl⟩
      · cases hg
    · rw [mem_gap]
      simp [Mem]
  | cons iv l ih =>
    have hpos := h.pos iv List.mem_cons_self
    -- whatever lies in the rest lies above this interval
    have hlater : ∀ b, Mem l b → iv.hi < b := by
      rintro b ⟨j, hj, hb⟩
      exact (h.head_lt hj).trans_le hb.1
    rw [uncoveredLoop]
    by_cases h1 : iv.hi ≤ cursor
    · obtain ⟨hin, hmem⟩ := ih h.tail cursor
      rw [if_pos h1]
      refine ⟨hin, fun b => ?_⟩
      rw [hmem, mem_cons]
      grind
    rw [if_neg h1]
    by_cases h2 : hi ≤ iv.lo
    · rw [if_pos h2]
      refine ⟨fun g hg => ?_, fun b => ?_⟩
      · split_ifs at hg with hc
        · rw [List.mem_singleton.mp hg]
          exact ⟨le_rfl, hc, le_rfl⟩
        · cases hg
      · rw [mem_gap, mem_cons]
        have := hlater b
        grind
    · rw [if_neg h2, if_pos (not_le.mp h1)]
      obtain ⟨hin, hmem⟩ := ih h.tail iv.hi
      refine ⟨fun g hg => ?_, fun b => ?_⟩
      · rcases List.mem_append.mp hg with hg | hg
        · split_ifs at hg with hc
          · rw [List.mem_singleton.mp hg]
            exact ⟨le_rfl, hc, (not_le.mp h2).le⟩
          · cases hg
        · have := hin g hg
          omega
      · rw [mem_append, mem_gap, hmem, mem_cons]
        have := hlater b
        grind

theorem uncoveredLoop_separated {l : List Interval} (h : Separated l) (cursor hi : ℕ) :
    (uncoveredLoop hi cursor l).Pairwise fun a b => a.hi < b.lo := by
  induction l generalizing cursor with
  | nil =>
    rw [uncoveredLoop]
    split_ifs <;> simp
  | cons iv l ih =>
    rw [uncoveredLoop]
    split_ifs with h1 h2 h3 h4 h5 h5
    · exact ih h.tail cursor
    · simp
    · simp
    · -- the gap ends where the interval starts, and the cursor moves to its end
      rw [List.singleton_append]
      refine List.pairwise_cons.mpr ⟨fun g hg => ?_, ih h.tail iv.hi⟩
      have hg1 := ((uncoveredLoop_spec h.tail iv.hi hi).1 g hg).1
      have hpos := h.pos iv List.mem_cons_self
      dsimp only
      omega
    · omega
    · exact ih h.tail iv.hi
    · omega

theorem uncovered_pairwise {bs : BlockSet} (h : Separated bs.intervals) (lo hi : ℕ) :
    (uncovered lo hi bs).Pairwise fun a b => a.hi ≤ b.lo :=
  (uncoveredLoop_separated h lo hi).imp le_of_lt

/-- The gaps are non-empty parts of `[lo, hi)` and hold exactly its uncovered blocks. -/
theorem uncovered_spec {bs : BlockSet} (h : Separated bs.intervals) (lo hi : ℕ) :
    (∀ g ∈ uncovered lo hi bs, lo ≤ g.lo ∧ g.lo < g.hi ∧ g.hi ≤ hi) ∧
      ∀ b, Mem (uncovered lo hi bs) b ↔ (lo ≤ b ∧ b < hi) ∧ ¬ Mem bs.intervals b :=
  uncoveredLoop_spec h lo hi

/-- A gap starts at the cursor or behind a covered block, and ends before one or at `hi`. -/
theorem uncoveredLoop_ends {l : List Interval} (h : Separated l) (cursor hi : ℕ) :
    ∀ g ∈ uncoveredLoop hi cursor l,
      (g.lo = cursor ∨ Mem l (g.lo - 1)) ∧ (g.hi = hi ∨ Mem l g.hi) := by
  have last : ∀ (l : List Interval) (cursor : ℕ) (g : Interval),
      g ∈ (if cursor < hi then [(⟨cursor, hi⟩ : Interval)] else []) →
        (g.lo = cursor ∨ Mem l (g.lo - 1)) ∧ (g.hi = hi ∨ Mem l g.hi) := by
    intro l cursor g hg
    split_ifs at hg with hc
    · rw [List.mem_singleton.mp hg]
      exact ⟨.inl rfl, .inl rfl⟩
    · cases hg
  induction l generalizing cursor with
  | nil => exact last [] cursor
  | cons iv l ih =>
    have hpos := h.pos iv List.mem_cons_self
    intro g hg
    rw [uncoveredLoop] at hg
    by_cases h1 : iv.hi ≤ cursor
    · rw [if_pos h1] at hg
      obtain ⟨hlo, hhi⟩ := ih h.tail cursor g hg
      exact ⟨hlo.imp_right fun hm => mem_cons.mpr (.inr hm),
        hhi.imp_right fun hm => mem_cons.mpr (.inr hm)⟩
    rw [if_neg h1] at hg
    by_cases h2 : hi ≤ iv.lo
    · rw [if_pos h2] at hg
      exact last _ cursor g hg
    rw [if_neg h2, if_pos (not_le.mp h1)] at hg
    rcases List.mem_append.mp hg with hg | hg
    · split_ifs at hg with hc
      · rw [List.mem_singleton.mp hg]
        exact ⟨.inl rfl, .inr (mem_cons.mpr (.inl ⟨le_rfl, hpos⟩))⟩
      · cases hg
    · obtain ⟨hlo, hhi⟩ := ih h.tail iv.hi g hg
      refine ⟨.inr (mem_cons.mpr ?_), hhi.imp_right fun hm => mem_cons.mpr (.inr hm)⟩
      rcases hlo with hlo | hm
      · left
        omega
      · exact .inr hm

/-- The maximal parts of `[lo, hi)` without a block of `P`, in order. -/
structure Gaps (P : ℕ → Prop) (lo hi : ℕ) (gaps : List Interval) : Prop where
  pos : ∀ g ∈ gaps, g.lo < g.hi
  within : ∀ g ∈ gaps, lo ≤ g.lo ∧ g.hi ≤ hi
  mem_iff : ∀ b, Mem gaps b ↔ (lo ≤ b ∧ b < hi) ∧ ¬ P b
  /-- No larger part of `[lo, hi)` is without a block of `P`. -/
  maximal : ∀ g ∈ gaps, ∀ l h, lo ≤ l → l ≤ g.lo → g.hi ≤ h → h ≤ hi →
    (∀ b, l ≤ b → b < h → ¬ P b) → l = g.lo ∧ h = g.hi
  sorted : gaps.Pairwise fun a b => a.hi < b.lo

theorem gaps_uncovered {bs : BlockSet} (h : Separated bs.intervals) (lo hi : ℕ) :
    Gaps (Mem bs.intervals) lo hi (uncovered lo hi bs) := by
  obtain ⟨hin, hmem⟩ := uncovered_spec h lo hi
  refine ⟨fun g hg => (hin g hg).2.1, fun g hg => ⟨(hin g hg).1, (hin g hg).2.2⟩, hmem, ?_,
    uncoveredLoop_separated h lo hi⟩
  intro g hg l r hlo hl hr hhi hfree
  have hpos := (hin g hg).2.1
  obtain ⟨hstart, hstop⟩ := uncoveredLoop_ends h lo hi g hg
  constructor
  · rcases hstart with heq | hm
    · omega
    · by_contra hne
      exact hfree _ (by omega) (by omega) hm
  · rcases hstop with heq | hm
    · omega
    · by_contra hne
      exact hfree _ (by omega) (by omega) hm

def coversAll (lo hi : ℕ) (bs : BlockSet) : Bool :=
  let idx := sortSearch bs.intervals.length fun i =>
    (bs.intervals[i]?).any fun iv => lo < iv.hi
  match bs.intervals[idx]? with
  | none => false
  | some iv => iv.lo ≤ lo && hi ≤ iv.hi

theorem Separated.exists_cut {l : List Interval} (h : Separated l) (lo : ℕ) :
    ∃ pre post, l = pre ++ post ∧ (∀ iv ∈ pre, iv.hi ≤ lo) ∧ ∀ iv ∈ post, lo < iv.hi := by
  induction l with
  | nil => exact ⟨[], [], rfl, nofun, nofun⟩
  | cons iv l ih =>
    by_cases hle : iv.hi ≤ lo
    · obtain ⟨pre, post, rfl, hpre, hpost⟩ := ih h.tail
      exact ⟨iv :: pre, post, rfl, List.forall_mem_cons.mpr ⟨hle, hpre⟩, hpost⟩
    · refine ⟨[], iv :: l, rfl, nofun, List.forall_mem_cons.mpr ⟨not_le.mp hle, fun j hj => ?_⟩⟩
      have h1 := h.head_lt hj
      have h2 := h.pos j (List.mem_cons_of_mem _ hj)
      omega

theorem uncovered_eq_nil {bs : BlockSet} (h : Separated bs.intervals) :
    uncovered lo hi bs = [] ↔ ∀ b, lo ≤ b → b < hi → Mem bs.intervals b := by
  obtain ⟨hin, hmem⟩ := uncovered_spec h lo hi
  constructor
  · intro hnil b hlo hhi
    by_contra hnot
    have hm := (hmem b).mpr ⟨⟨hlo, hhi⟩, hnot⟩
    rw [hnil] at hm
    simp [Mem] at hm
  · intro hall
    rw [List.eq_nil_iff_forall_not_mem]
    intro g hg
    have hpos := hin g hg
    have hm := (hmem g.lo).mp ⟨g, hg, le_rfl, hpos.2.1⟩
    exact hm.2 (hall _ hm.1.1 hm.1.2)

theorem coversAll_iff {bs : BlockSet} (h : Separated bs.intervals) (hlt : lo < hi) :
    coversAll lo hi bs = true ↔ uncovered lo hi bs = [] := by
  rw [uncovered_eq_nil h]
  obtain ⟨ivs⟩ := bs
  obtain ⟨pre, post, rfl, hpre, hpost⟩ := h.exists_cut lo
  have hidx : sortSearch (pre ++ post).length
      (fun i => ((pre ++ post)[i]?).any fun iv => decide (lo < iv.hi)) = pre.length := by
    refine sortSearch_append _ (fun iv hiv => ?_) (fun iv hiv => ?_)
    · have := hpre iv hiv
      simp only [decide_eq_false_iff_not]
      omega
    · simp only [decide_eq_true_eq]
      exact hpost iv hiv
  have hmem : ∀ b, lo ≤ b → (Mem (pre ++ post) b ↔ Mem post b) := by
    intro b hb
    rw [mem_append, or_iff_right]
    rintro ⟨iv, hiv, -, hlt⟩
    have := hpre iv hiv
    omega
  unfold coversAll
  simp only [hidx]
  cases post with
  | nil =>
    have hnone : (pre ++ ([] : List Interval))[pre.length]? = none := by simp
    rw [hnone]
    refine ⟨nofun, fun hall => ?_⟩
    have hm := (hmem lo le_rfl).mp (hall lo le_rfl hlt)
    simp [Mem] at hm
  | cons iv post =>
    have hsome : (pre ++ iv :: post)[pre.length]? = some iv := by simp
    have hsep := (separated_append.mp h).2.1
    rw [hsome]
    simp only [Bool.and_eq_true, decide_eq_true_eq]
    constructor
    · rintro ⟨h1, h2⟩ b hlo hhi
      exact (hmem b hlo).mpr (mem_cons.mpr (.inl ⟨by omega, by omega⟩))
    · intro hall
      have hafter : ∀ b, lo ≤ b → b < hi → b < iv.lo ∨ b = iv.hi → False := by
        intro b hlo hhi hb
        have hpos := hsep.pos iv List.mem_cons_self
        rcases mem_cons.mp ((hmem b hlo).mp (hall b hlo hhi)) with hin | ⟨j, hj, hjb⟩
        · omega
        · have := hsep.head_lt hj
          omega
      have hge := hpost iv List.mem_cons_self
      constructor
      · by_contra hgt
        exact hafter lo le_rfl hlt (.inl (by omega))
      · by_contra hgt
        exact hafter iv.hi (by omega) (by omega) (.inr rfl)

def addAll (ranges : List Interval) : BlockSet :=
  ranges.foldl (fun bs r => bs.add r.lo r.hi) ⟨[]⟩

theorem addAll_spec {ranges : List Interval} (h : ∀ r ∈ ranges, r.lo < r.hi) :
    Separated (addAll ranges).intervals ∧
      ∀ b, Mem (addAll ranges).intervals b ↔ Mem ranges b := by
  induction ranges using List.reverseRecOn with
  | nil => exact ⟨separated_nil, fun b => Iff.rfl⟩
  | append_singleton ranges r ih =>
    obtain ⟨hsep, hmem⟩ := ih fun q hq => h q (List.mem_append_left _ hq)
    have hadd : addAll (ranges ++ [r]) = (addAll ranges).add r.lo r.hi := by
      simp [addAll, List.foldl_append]
    obtain ⟨hsep', hmem'⟩ := add_spec hsep (h r (by simp))
    rw [hadd]
    refine ⟨hsep', fun b => ?_⟩
    rw [hmem', hmem, mem_append, mem_cons, or_comm]
    simp [Mem]

/-- After any sequence of `Add` the set is in its canonical form, it holds the blocks that were
added and no others, and the two queries are answered from exactly these. -/
theorem addAll_exact {ranges : List Interval} (h : ∀ r ∈ ranges, r.lo < r.hi) :
    Separated (addAll ranges).intervals ∧
      (∀ b, Mem (addAll ranges).intervals b ↔ Mem ranges b) ∧
        ∀ lo hi, lo < hi → Gaps (Mem ranges) lo hi (uncovered lo hi (addAll ranges)) ∧
          (coversAll lo hi (addAll ranges) = true ↔ uncovered lo hi (addAll ranges) = []) := by
  obtain ⟨hsep, hmem⟩ := addAll_spec h
  refine ⟨hsep, hmem, fun lo hi hlt => ⟨?_, coversAll_iff hsep hlt⟩⟩
  have hgaps := gaps_uncovered hsep lo hi
  rwa [funext fun b => propext (hmem b)] at hgaps

/-- Two ranges that a third one joins. -/
theorem addAll_joined : addAll [⟨0, 2⟩, ⟨5, 7⟩, ⟨2, 5⟩] = ⟨[⟨0, 7⟩]⟩ ∧
    Gaps (Mem [⟨0, 2⟩, ⟨5, 7⟩, ⟨2, 5⟩]) 6 9 [⟨7, 9⟩] :=
  ⟨by decide, ((addAll_exact (by decide)).2.2 6 9 (by decide)).1⟩

end BlockSet

end Lbd
