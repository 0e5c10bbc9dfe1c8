import Lbd.GCLiveness

/-!
# Repacking a log

`runRepack` of `lbdlog`: all segments of a listing become one, which keeps of every
entry the parts that no later entry covers.
-/

namespace Lbd

open BlockSet

inductive RepackError where
  | noLogFiles
  | sliceOutOfRange
deriving DecidableEq, Repr

/-- The copy of the part `r` of entry `e`; unlike the compactor it keeps the timestamp. -/
def repackEntry (blockSize seq : ℕ) (e : Entry) (r : Interval) : Option Entry :=
  splitEntry blockSize (fun _ => e.timestampNS) seq e r

def repackEntries (blockSize : ℕ) : ℕ → List (Entry × Interval) → Option (List Entry)
  | _, [] => some []
  | seq, p :: ps => do
    let e ← repackEntry blockSize seq p.1 p.2
    let es ← repackEntries blockSize (seq + 1) ps
    return e :: es

/-- The segment `runRepack` writes for a listing. -/
def runRepack (label : Name) (logs : List (Name × Segment)) : Except RepackError Segment :=
  match logs with
  | [] => .error .noLogFiles
  | first :: _ =>
    let outHdr := { first.2.header with segmentLabel := label }
    let allEntries := logs.flatMap fun log => log.2.entries
    match repackEntries outHdr.blockSize 0 (uncoveredPieces outHdr.blockSize allEntries) with
    | none => .error .sliceOutOfRange
    | some entries => .ok ⟨outHdr, entries⟩

variable {bs : ℕ}

theorem repackEntries_eq_none {ps : List (Entry × Interval)} {p : Entry × Interval} (hp : p ∈ ps)
    (h : ∀ seq, repackEntry bs seq p.1 p.2 = none) (seq : ℕ) : repackEntries bs seq ps = none := by
  induction ps generalizing seq with
  | nil => cases hp
  | cons q ps ih =>
    rw [repackEntries]
    rcases List.mem_cons.mp hp with rfl | hp
    · rw [h seq]
      rfl
    · rw [ih hp]
      cases repackEntry bs seq q.1 q.2 <;> rfl

theorem splitEntry_checksum {now : ℕ → ℕ} {seq : ℕ} {e c : Entry} {r : Interval}
    (h : splitEntry bs now seq e r = some c) (hop : c.op = .write) : c.checksum = crc32 c.data := by
  unfold splitEntry at h
  split_ifs at h with hw
  · obtain ⟨data, -, rfl⟩ := Option.map_eq_some_iff.mp h
    rfl
  · rw [← Option.some.inj h] at hop
    simp [Entry.isWrite] at hw
    exact absurd hop hw

/-- The parts of a list of entries that are copied. -/
structure Parts (bs : ℕ) (ps : List (Entry × Interval)) : Prop where
  valid : ∀ p ∈ ps, p.1.Valid bs
  noWrap : ∀ p ∈ ps, p.1.NoWrap bs
  part : ∀ p ∈ ps, p.1.Part bs p.2

/-- The entry `c` is a repacked part. -/
structure Repacked (bs : ℕ) (p : Entry × Interval) (c : Entry) : Prop where
  valid : p.1.Valid bs
  part : p.1.Part bs p.2
  copy : CopyOf bs p.1 p.2 c
  checksum : c.op = .write → c.checksum = crc32 c.data

theorem Repacked.covers_iff {p : Entry × Interval} {c : Entry} (h : Repacked bs p c) (b : ℕ) :
    c.Covers bs b ↔ p.2.lo ≤ b ∧ b < p.2.hi :=
  h.copy.covers_iff h.valid h.part b

theorem repackEntries_eq_some {ps : List (Entry × Interval)} (h : Parts bs ps) (seq : ℕ) :
    ∃ cs, repackEntries bs seq ps = some cs ∧ List.Forall₂ (Repacked bs) ps cs := by
  induction ps generalizing seq with
  | nil => exact ⟨[], rfl, .nil⟩
  | cons p ps ih =>
    obtain ⟨hvp, hvps⟩ := List.forall_mem_cons.mp h.valid
    obtain ⟨hwp, hwps⟩ := List.forall_mem_cons.mp h.noWrap
    obtain ⟨hpp, hpps⟩ := List.forall_mem_cons.mp h.part
    obtain ⟨c, hc, hcopy⟩ := splitEntry_eq_some hvp hwp hpp (fun _ => p.1.timestampNS) seq
    obtain ⟨cs, hcs, hall⟩ := ih ⟨hvps, hwps, hpps⟩ (seq + 1)
    refine ⟨c :: cs, ?_, .cons ⟨hvp, hpp, hcopy, splitEntry_checksum hc⟩ hall⟩
    simp [repackEntries, repackEntry, hc, hcs]

section Uncovered

variable {es : List Entry}

theorem Entry.Part.covers {e : Entry} {r : Interval} (h : e.Part bs r) {b : ℕ} (hlo : r.lo ≤ b)
    (hhi : b < r.hi) : e.Covers bs b :=
  ⟨h.lo.trans hlo, hhi.trans_le h.hi⟩

variable (hw : ∀ e ∈ es, e.NoWrap bs)

include hw

theorem uncoveredPieces_disjoint :
    (uncoveredPieces bs es).Pairwise fun p q =>
      ∀ b, ¬ ((p.2.lo ≤ b ∧ b < p.2.hi) ∧ q.2.lo ≤ b ∧ b < q.2.hi) := by
  induction es with
  | nil => exact List.Pairwise.nil
  | cons e es ih =>
    obtain ⟨hwe, hwes⟩ := List.forall_mem_cons.mp hw
    have hend : e.block + e.numBlocks bs < W64 := hwe
    obtain ⟨hsep, hmem⟩ := withinLive_covered (countsFit_readSegmentEntries hwes)
    rw [uncoveredPieces_cons, Nat.mod_eq_of_lt hend]
    refine List.pairwise_append.mpr ⟨?_, ih hwes, ?_⟩
    · refine List.pairwise_map.mpr ((uncovered_pairwise hsep _ _).imp fun hle b hb => ?_)
      dsimp only at hb
      omega
    · -- a later piece lies on blocks that its entry covers
      intro p hp q hq b hb
      obtain ⟨g, hg, rfl⟩ := List.mem_map.mp hp
      obtain ⟨pre, post, hes, hpart, -⟩ := uncoveredPieces_sound hwes hq
      have hnot := (((uncovered_spec hsep e.block (e.block + e.numBlocks bs)).2 b).mp
        ⟨g, hg, hb.1⟩).2
      rw [hmem, touched_readSegmentEntries] at hnot
      exact hnot ⟨q.1, hes ▸ by simp, hpart.covers hb.2.1 hb.2.2⟩

theorem uncoveredPieces_parts (hv : ∀ e ∈ es, e.Valid bs) :
    Parts bs (uncoveredPieces bs es) := by
  have hmem : ∀ p ∈ uncoveredPieces bs es, p.1 ∈ es ∧ p.1.Part bs p.2 := by
    intro p hp
    obtain ⟨pre, post, hes, hpart, -⟩ := uncoveredPieces_sound hw hp
    exact ⟨hes ▸ by simp, hpart⟩
  exact ⟨fun p hp => hv _ (hmem p hp).1, fun p hp => hw _ (hmem p hp).1, fun p hp => (hmem p hp).2⟩

theorem lastSome_repacked (hv : ∀ e ∈ es, e.Valid bs) {cs : List Entry}
    (hcs : List.Forall₂ (Repacked bs) (uncoveredPieces bs es) cs) (x : ℕ) :
    lastSome (cs.map fun c => c.byteAt bs x) = lastSome (es.map fun e => e.byteAt bs x) := by
  -- a copy that touches the byte comes from the last entry that does
  have hsound : ∀ c ∈ cs, c.byteAt bs x = none ∨
      c.byteAt bs x = lastSome (es.map fun e => e.byteAt bs x) := by
    intro c hc
    obtain ⟨p, hp, hr⟩ := forall₂_exists_left hcs hc
    rw [or_iff_not_imp_left, (hr.copy.valid hr.valid hr.part).byteAt_eq_none, not_not,
      hr.covers_iff]
    intro hb
    obtain ⟨pre, post, hes, -, hlast⟩ := uncoveredPieces_sound hw hp
    rw [hr.copy.byteAt_eq hr.valid hr.part hb, hes,
      lastSome_of_last (f := fun e : Entry => e.byteAt bs x)]
    · rw [Ne, hr.valid.byteAt_eq_none, not_not]
      exact hr.part.covers hb.1 hb.2
    · intro e he
      exact ((hv e (hes ▸ by simp [he])).byteAt_eq_none x).mpr (hlast _ hb.1 hb.2 e he)
  cases hlast : lastSome (es.map fun e => e.byteAt bs x) with
  | none =>
    rw [lastSome_eq_none]
    intro o ho
    obtain ⟨c, hc, rfl⟩ := List.mem_map.mp ho
    rcases hsound c hc with h | h
    · exact h
    · rw [h, hlast]
  | some v =>
    obtain ⟨pre, e, post, hes, he, hpost⟩ := exists_last_of_lastSome hlast
    have hev := hv e (hes ▸ by simp)
    have hcov : e.Covers bs (x / bs) := by
      by_contra hnot
      rw [(hev.byteAt_eq_none x).mpr hnot] at he
      cases he
    obtain ⟨r, hr, hb⟩ := uncoveredPieces_complete hw hes hcov fun e' he' =>
      ((hv e' (hes ▸ by simp [he'])).byteAt_eq_none x).mp (hpost e' he')
    obtain ⟨c, hc, hcopy⟩ := forall₂_exists_right hcs hr
    apply lastSome_eq_of_forall
    · rw [← he, ← hcopy.copy.byteAt_eq hev hcopy.part hb]
      exact List.mem_map_of_mem hc
    · intro o ho
      obtain ⟨c', hc', rfl⟩ := List.mem_map.mp ho
      exact hlast ▸ hsound c' hc'

end Uncovered

theorem pairwise_of_forall₂ {α β : Type*} {R : α → β → Prop} {S : α → α → Prop}
    {T : β → β → Prop} (hT : ∀ {a b c d}, R a c → R b d → S a b → T c d) {l : List α} {m : List β}
    (h : List.Forall₂ R l m) (hl : l.Pairwise S) : m.Pairwise T := by
  induction h with
  | nil => exact List.Pairwise.nil
  | cons hab hrest ih =>
    obtain ⟨hhead, htail⟩ := List.pairwise_cons.mp hl
    refine List.pairwise_cons.mpr ⟨fun d hd => ?_, ih htail⟩
    obtain ⟨b, hb, hbd⟩ := forall₂_exists_left hrest hd
    exact hT hab hbd (hhead b hb)

theorem replay_eq_entries {logs : List (Name × Segment)}
    (h : ∀ log ∈ logs, log.2.header.blockSize = bs) (x : ℕ) :
    replay logs x =
      (lastSome ((logs.flatMap fun log => log.2.entries).map fun e => e.byteAt bs x)).getD 0 := by
  rw [replay_eq, List.map_flatMap, lastSome_flatMap]
  congr 2
  refine List.map_congr_left fun log hlog => ?_
  rw [Segment.byteAt, h log hlog]

/-- The repacked segment replays to the same bytes as the segments it is made of, its entries
cover disjoint blocks, and its writes have the checksum of their data. -/
theorem runRepack_preserves_replay (label : Name) {logs : List (Name × Segment)}
    (hne : logs ≠ []) (hv : ∀ log ∈ logs, log.2.Valid bs) (hw : ∀ log ∈ logs, log.2.NoWrap) :
    ∃ out, runRepack label logs = .ok out ∧
      (∀ x, out.apply (fun _ => 0) x = replay logs x) ∧
      out.entries.Pairwise (fun c d => ∀ b, ¬ (c.Covers bs b ∧ d.Covers bs b)) ∧
      ∀ c ∈ out.entries, c.op = .write → c.checksum = crc32 c.data := by
  obtain ⟨first, rest, rfl⟩ := List.exists_cons_of_ne_nil hne
  have hbs : ∀ log ∈ first :: rest, log.2.header.blockSize = bs := fun log hlog => (hv log hlog).1
  have hfirst := hbs first List.mem_cons_self
  have hentries : ∀ e ∈ (first :: rest).flatMap (fun log => log.2.entries),
      e.Valid bs ∧ e.NoWrap bs := by
    intro e he
    obtain ⟨log, hlog, he⟩ := List.mem_flatMap.mp he
    exact ⟨(hv log hlog).2 e he, hbs log hlog ▸ hw log hlog e he⟩
  have hpieces := uncoveredPieces_parts (fun e he => (hentries e he).2) fun e he =>
    (hentries e he).1
  obtain ⟨cs, hcs, hall⟩ := repackEntries_eq_some hpieces 0
  refine ⟨⟨{ first.2.header with segmentLabel := label }, cs⟩, ?_, fun x => ?_, ?_, ?_⟩
  · simp only [runRepack, hfirst, hcs]
  · rw [Segment.apply_eq, Segment.byteAt, replay_eq_entries hbs]
    dsimp only
    rw [hfirst, lastSome_repacked (fun e he => (hentries e he).2)
      (fun e he => (hentries e he).1) hall]
  · refine pairwise_of_forall₂ (fun hc hd hdisj b hb => ?_) hall
      (uncoveredPieces_disjoint fun e he => (hentries e he).2)
    exact hdisj b ⟨(hc.covers_iff b).mp hb.1, (hd.covers_iff b).mp hb.2⟩
  · intro c hc
    obtain ⟨p, -, hr⟩ := forall₂_exists_left hall hc
    exact hr.checksum

/-- A listing of two segments in which a trim hides half of a write. -/
def overlappingLogs : List (Name × Segment) :=
  [(['a'], ⟨⟨2, 2, ['a'], 8, ""⟩, [⟨.write, 0, 0, 0, 4, crc32 [1, 2, 3, 4], [1, 2, 3, 4]⟩]⟩),
    (['b'], ⟨⟨2, 2, ['b'], 8, ""⟩, [⟨.trim, 0, 0, 1, 2, 0, []⟩]⟩)]

theorem runRepack_overlappingLogs :
    ∃ out, runRepack ['c'] overlappingLogs = .ok out ∧
      (∀ x, out.apply (fun _ => 0) x = replay overlappingLogs x) ∧
      out.entries.Pairwise (fun c d => ∀ b, ¬ (c.Covers 2 b ∧ d.Covers 2 b)) ∧
      ∀ c ∈ out.entries, c.op = .write → c.checksum = crc32 c.data :=
  runRepack_preserves_replay ['c'] (by decide) (by decide) (by decide)

/-- The entry as the repacker sees it: its blocks, each of them whole. -/
def Entry.rounded (bs : ℕ) (e : Entry) : Entry :=
  { e with length := e.numBlocks bs * bs, data := e.data.take (e.numBlocks bs * bs) }

/-- The data reaches to the end of the entry's blocks, which a length in 32 bits can count. -/
structure Entry.Roundable (bs : ℕ) (e : Entry) : Prop where
  op : e.op = .write ∨ e.op = .trim
  fits : e.numBlocks bs * bs < 2 ^ 32
  data : e.op = .write → e.numBlocks bs * bs ≤ e.data.length

section Rounded

variable {e : Entry} (hbs : 0 < bs)

include hbs

theorem Entry.numBlocks_rounded : (e.rounded bs).numBlocks bs = e.numBlocks bs := by
  have hpos : 0 < e.numBlocks bs := Entry.numBlocks_pos
  rw [Entry.numBlocks]
  simp only [Entry.rounded, Nat.mul_div_cancel _ hbs]
  exact if_neg hpos.ne'

theorem Entry.Roundable.valid (h : e.Roundable bs) : (e.rounded bs).Valid bs where
  op := h.op
  pos := Nat.mul_pos Entry.numBlocks_pos hbs
  dvd := Nat.dvd_mul_left _ _
  fits := h.fits
  data := fun hop => by
    rw [rounded, List.length_take, Nat.min_eq_left (h.data hop)]

theorem uncoveredPieces_rounded (es : List Entry) :
    uncoveredPieces bs (es.map (Entry.rounded bs)) =
      (uncoveredPieces bs es).map fun p => (p.1.rounded bs, p.2) := by
  have hlive : ∀ es : List Entry, withinLive (readSegmentEntries bs (es.map (Entry.rounded bs))) =
      withinLive (readSegmentEntries bs es) := by
    intro es
    induction es with
    | nil => rfl
    | cons e es ih =>
      simp only [readSegmentEntries, List.map_cons, withinLive, Entry.numBlocks_rounded hbs] at ih ⊢
      rw [ih]
      rfl
  induction es with
  | nil => rfl
  | cons e es ih =>
    rw [List.map_cons, uncoveredPieces_cons, uncoveredPieces_cons, List.map_append, ih, hlive,
      Entry.numBlocks_rounded hbs, List.map_map]
    rfl

omit hbs in
theorem slice_take {data : List UInt8} {n lo hi : ℕ} (hhi : hi ≤ n) (hn : n ≤ data.length) :
    slice (data.take n) lo hi = slice data lo hi := by
  unfold slice
  rw [List.length_take, Nat.min_eq_left hn, List.drop_take, List.take_take]
  by_cases hle : lo ≤ hi
  · rw [if_pos ⟨hle, hhi⟩, if_pos ⟨hle, hhi.trans hn⟩, Nat.min_eq_left (by omega)]
  · rw [if_neg fun h => hle h.1, if_neg fun h => hle h.1]

omit hbs in
theorem repackEntry_rounded {r : Interval} (h : e.Roundable bs) (hw : e.NoWrap bs)
    (hp : e.Part bs r) (seq : ℕ) :
    repackEntry bs seq (e.rounded bs) r = repackEntry bs seq e r := by
  have hend : e.block + e.numBlocks bs < W64 := hw
  have hlo := hp.lo
  have hpos := hp.pos
  have hhi := hp.hi
  have hfit := h.fits
  have hword := pow32_lt_W64
  have hmul : (r.hi - e.block) * bs ≤ e.numBlocks bs * bs := Nat.mul_le_mul_right _ (by omega)
  by_cases hop : e.op = .write
  · have hmod : (r.hi - e.block) * bs % W64 = (r.hi - e.block) * bs := Nat.mod_eq_of_lt (by omega)
    simp only [repackEntry, splitEntry, Entry.isWrite, Entry.rounded, hop, decide_true, if_true]
    rw [sub64_of_le (a := r.hi) (by omega) (by omega), hmod, slice_take hmul (h.data hop)]
  · simp only [repackEntry, splitEntry, Entry.isWrite, Entry.rounded, hop, decide_false,
      Bool.false_eq_true, if_false]

omit hbs in
theorem repackEntries_rounded {ps : List (Entry × Interval)} (h : ∀ p ∈ ps, p.1.Roundable bs)
    (hw : ∀ p ∈ ps, p.1.NoWrap bs) (hp : ∀ p ∈ ps, p.1.Part bs p.2) (seq : ℕ) :
    repackEntries bs seq (ps.map fun p => (p.1.rounded bs, p.2)) = repackEntries bs seq ps := by
  induction ps generalizing seq with
  | nil => rfl
  | cons p ps ih =>
    obtain ⟨hr, hrs⟩ := List.forall_mem_cons.mp h
    obtain ⟨hwp, hwps⟩ := List.forall_mem_cons.mp hw
    obtain ⟨hpp, hpps⟩ := List.forall_mem_cons.mp hp
    simp only [List.map_cons, repackEntries]
    rw [repackEntry_rounded hr hwp hpp, ih hrs hwps hpps]

end Rounded

/-- The repacked segment replays as the entries do once each is rounded to its blocks. -/
theorem runRepack_rounds (hbs : 0 < bs) (label : Name) {logs : List (Name × Segment)}
    (hne : logs ≠ []) (hheader : ∀ log ∈ logs, log.2.header.blockSize = bs)
    (hr : ∀ log ∈ logs, ∀ e ∈ log.2.entries, e.Roundable bs)
    (hw : ∀ log ∈ logs, ∀ e ∈ log.2.entries, e.NoWrap bs) :
    ∃ out, runRepack label logs = .ok out ∧ ∀ x, out.apply (fun _ => 0) x =
      (lastSome ((logs.flatMap fun log => log.2.entries).map
        fun e => (e.rounded bs).byteAt bs x)).getD 0 := by
  obtain ⟨first, rest, rfl⟩ := List.exists_cons_of_ne_nil hne
  have hfirst := hheader first List.mem_cons_self
  generalize hes : (first :: rest).flatMap (fun log => log.2.entries) = es
  have hentries : ∀ e ∈ es, e.Roundable bs ∧ e.NoWrap bs := by
    intro e he
    rw [← hes] at he
    obtain ⟨log, hlog, he⟩ := List.mem_flatMap.mp he
    exact ⟨hr log hlog e he, hw log hlog e he⟩
  have hwr : ∀ e ∈ es.map (Entry.rounded bs), e.NoWrap bs := by
    intro e' he'
    obtain ⟨e, he, rfl⟩ := List.mem_map.mp he'
    have hend := (hentries e he).2
    rwa [Entry.NoWrap, Entry.numBlocks_rounded hbs]
  have hvr : ∀ e ∈ es.map (Entry.rounded bs), e.Valid bs := by
    intro e' he'
    obtain ⟨e, he, rfl⟩ := List.mem_map.mp he'
    exact (hentries e he).1.valid hbs
  obtain ⟨cs, hcs, hall⟩ := repackEntries_eq_some (uncoveredPieces_parts hwr hvr) 0
  have hsame : repackEntries bs 0 (uncoveredPieces bs es) = some cs := by
    have hsound := fun p hp =>
      uncoveredPieces_sound (fun e he => (hentries e he).2) (p := p) hp
    rw [← hcs, uncoveredPieces_rounded hbs, repackEntries_rounded]
    · intro p hp
      obtain ⟨pre, post, hes, -⟩ := hsound p hp
      exact (hentries p.1 (hes ▸ by simp)).1
    · intro p hp
      obtain ⟨pre, post, hes, -⟩ := hsound p hp
      exact (hentries p.1 (hes ▸ by simp)).2
    · intro p hp
      obtain ⟨pre, post, -, hpart, -⟩ := hsound p hp
      exact hpart
  refine ⟨⟨{ first.2.header with segmentLabel := label }, cs⟩, ?_, fun x => ?_⟩
  · simp only [runRepack, hfirst, hes, hsame]
  · rw [Segment.apply_eq, Segment.byteAt]
    dsimp only
    rw [hfirst, lastSome_repacked hwr hvr hall, List.map_map]
    rfl

end Lbd
