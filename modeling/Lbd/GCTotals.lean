import Lbd.GCRuns

/-!
# Segment totals across runs

The totals of a segment come from two places: the entries of a newly processed
segment, and the record made when a compacted segment is created. They stay exact
as long as no run processes a segment the saved map already lists.
-/

namespace Lbd

open LogName LiveMap

def Entry.isOp (e : Entry) : Bool := e.isWrite || e.isTrim

namespace Segment

/-- The number of `W` and `T` entries. -/
def opCount (seg : Segment) : ℕ := seg.entries.countP Entry.isOp

/-- The sum of the lengths of the writes. -/
def writeBytes (seg : Segment) : ℕ := ((seg.entries.filter Entry.isWrite).map Entry.length).sum

/-- What a record of the segment should hold; the byte count is a machine word. -/
def totals (seg : Segment) : SegInfo := ⟨seg.opCount, seg.writeBytes % W64⟩

end Segment

/-- One entry counted in a record. -/
def SegInfo.count (s : SegInfo) (e : Entry) : SegInfo :=
  if e.isWrite then ⟨s.totalEntries + 1, (s.totalWriteBytes + e.length) % W64⟩
  else if e.isTrim then ⟨s.totalEntries + 1, s.totalWriteBytes⟩
  else s

theorem SegInfo.foldl_count (es : List Entry) {s : SegInfo} (h : s.totalWriteBytes < W64) :
    es.foldl SegInfo.count s = ⟨s.totalEntries + es.countP Entry.isOp,
      (s.totalWriteBytes + ((es.filter Entry.isWrite).map Entry.length).sum) % W64⟩ := by
  induction es generalizing s with
  | nil => simp [Nat.mod_eq_of_lt h]
  | cons e es ih =>
    have hW : 0 < W64 := by decide
    rw [List.foldl_cons, SegInfo.count]
    by_cases hw : e.isWrite = true
    · have hop : e.isOp = true := by simp [Entry.isOp, hw]
      rw [if_pos hw, ih (Nat.mod_lt _ hW), List.countP_cons_of_pos hop,
        List.filter_cons_of_pos hw, List.map_cons, List.sum_cons, Nat.mod_add_mod]
      congr 1
      · dsimp only
        omega
      · rw [Nat.add_assoc]
    · rw [if_neg hw, List.filter_cons_of_neg hw]
      by_cases ht : e.isTrim = true
      · have hop : e.isOp = true := by simp [Entry.isOp, ht]
        rw [if_pos ht, ih (by exact h), List.countP_cons_of_pos hop]
        congr 1
        dsimp only
        omega
      · have hop : ¬ e.isOp = true := by simp [Entry.isOp, hw, ht]
        rw [if_neg ht, ih h, List.countP_cons_of_neg hop]

theorem Segment.foldl_count (seg : Segment) :
    seg.entries.foldl SegInfo.count ⟨0, 0⟩ = seg.totals := by
  rw [SegInfo.foldl_count _ (by decide), Nat.zero_add, Nat.zero_add]
  rfl

theorem copiedBytes_eq (es : List Entry) :
    copiedBytes es = ((es.filter Entry.isWrite).map Entry.length).sum % W64 := by
  have hfold : ∀ (es : List Entry) (s : SegInfo),
      (es.foldl SegInfo.count s).totalWriteBytes =
        es.foldl (fun n e => if e.isWrite then (n + e.length) % W64 else n) s.totalWriteBytes := by
    intro es
    induction es with
    | nil => exact fun s => rfl
    | cons e es ih =>
      intro s
      rw [List.foldl_cons, List.foldl_cons, ih]
      unfold SegInfo.count
      split_ifs <;> rfl
  have h := hfold es ⟨0, 0⟩
  rw [SegInfo.foldl_count _ (by decide)] at h
  simpa only [copiedBytes, Nat.zero_add] using h.symm

namespace LiveMap

variable {bs : ℕ} {lm : LiveMap} {logID k : Name}

/-- The record of a segment, empty for an unlisted one. -/
def infoOf (lm : LiveMap) (k : Name) : SegInfo := (lm.segments.find? k).getD ⟨0, 0⟩

theorem infoOf_eq {info : SegInfo} (h : (k, info) ∈ lm.segments.entries) : lm.infoOf k = info := by
  rw [infoOf, SortedMap.find?_eq_some.mpr h]
  rfl

theorem infoOf_of_notMem (h : k ∉ lm.segments.keys) : lm.infoOf k = ⟨0, 0⟩ := by
  cases hf : lm.segments.find? k with
  | none => rw [infoOf, hf]; rfl
  | some info => exact absurd (SortedMap.mem_keys.mpr ⟨info, SortedMap.find?_eq_some.mp hf⟩) h

theorem infoOf_addSegmentEntry (lm : LiveMap) (seg k : Name) (w : Bool) (c : ℕ) :
    (lm.addSegmentEntry seg w c).infoOf k =
      if k = seg then
        ⟨(lm.infoOf seg).totalEntries + 1,
          if w then ((lm.infoOf seg).totalWriteBytes + c) % W64
          else (lm.infoOf seg).totalWriteBytes⟩
      else lm.infoOf k := by
  rw [infoOf, addSegmentEntry, SortedMap.find?_insert]
  split_ifs <;> rfl

theorem infoOf_applyEntry (lm : LiveMap) (bs : ℕ) (logID k : Name) (e : Entry) :
    (lm.applyEntry bs logID e).infoOf k =
      if k = logID then (lm.infoOf k).count e else lm.infoOf k := by
  unfold applyEntry SegInfo.count
  by_cases hw : e.isWrite = true
  · rw [if_pos hw, if_pos hw, infoOf_addSegmentEntry, if_pos rfl]
    by_cases hk : k = logID
    · rw [if_pos hk, if_pos hk, hk]
      rfl
    · rw [if_neg hk, if_neg hk]
      rfl
  · rw [if_neg hw, if_neg hw]
    by_cases ht : e.isTrim = true
    · rw [if_pos ht, if_pos ht, infoOf_addSegmentEntry, if_neg Bool.false_ne_true]
      by_cases hk : k = logID
      · rw [if_pos hk, if_pos hk, hk]
        rfl
      · rw [if_neg hk, if_neg hk]
        rfl
    · simp [ht]

theorem infoOf_processLog (lm : LiveMap) (log : Name × Segment) (k : Name) :
    (lm.processLog log).infoOf k =
      if k = log.1 then log.2.entries.foldl SegInfo.count (lm.infoOf k) else lm.infoOf k := by
  have hfold : ∀ (es : List Entry) (m : LiveMap),
      (es.foldl (applyEntry log.2.header.blockSize log.1) m).infoOf k =
        if k = log.1 then es.foldl SegInfo.count (m.infoOf k) else m.infoOf k := by
    intro es
    induction es with
    | nil => intro m; simp
    | cons e es ih =>
      intro m
      rw [List.foldl_cons, ih, infoOf_applyEntry, List.foldl_cons]
      split_ifs <;> rfl
  exact hfold _ _

theorem infoOf_foldl_of_notMem {logs : List (Name × Segment)} (h : k ∉ logs.map Prod.fst) :
    (logs.foldl processLog lm).infoOf k = lm.infoOf k := by
  induction logs generalizing lm with
  | nil => rfl
  | cons log logs ih =>
    rw [List.map_cons, List.mem_cons, not_or] at h
    rw [List.foldl_cons, ih h.2, infoOf_processLog, if_neg h.1]

theorem infoOf_foldl_of_mem {logs : List (Name × Segment)} (hn : (logs.map Prod.fst).Nodup)
    {seg : Segment} (h : (k, seg) ∈ logs) :
    (logs.foldl processLog lm).infoOf k = seg.entries.foldl SegInfo.count (lm.infoOf k) := by
  induction logs generalizing lm with
  | nil => simp at h
  | cons log logs ih =>
    rw [List.map_cons, List.nodup_cons] at hn
    rw [List.foldl_cons]
    rcases List.mem_cons.mp h with rfl | h
    · rw [infoOf_foldl_of_notMem hn.1, infoOf_processLog, if_pos rfl]
    · have hne : k ≠ log.1 := by
        rintro rfl
        exact hn.1 (List.mem_map.mpr ⟨_, h, rfl⟩)
      rw [ih hn.2 h, infoOf_processLog, if_neg hne]

end LiveMap

/-- Every record of the map is that of a stored segment. -/
def TotalsExact (store : Store) (lm : LiveMap) : Prop :=
  ∀ k info, (k, info) ∈ lm.segments.entries →
    ∃ seg, (k, seg) ∈ store.segments.entries ∧ info = seg.totals

/-- The saved map lists no segment that the next run would process. -/
def CountedOnce (store : Store) : Prop :=
  ∀ lm ∈ store.liveMap, ∀ k ∈ lm.segments.keys, ¬ lm.lastLabel < labelFromLogPath k

instance (store : Store) : Decidable (CountedOnce store) :=
  inferInstanceAs (Decidable (∀ _ ∈ _, _))

section Run

variable {store : Store} {lm : LiveMap}

theorem mem_foldl_removeSegment {p : Name → Prop} [DecidablePred p] {names : List Name}
    {e : Name × SegInfo}
    (h : e ∈ (names.foldl (fun m s => if p s then m else m.removeSegment s) lm).segments.entries) :
    e ∈ lm.segments.entries ∧ (e.1 ∈ names → p e.1) := by
  induction names generalizing lm with
  | nil => exact ⟨h, by simp⟩
  | cons s names ih =>
    obtain ⟨he, hn⟩ := ih h
    dsimp only at he
    split_ifs at he with hs
    · exact ⟨he, fun hm => (List.mem_cons.mp hm).elim (fun heq => heq ▸ hs) hn⟩
    · obtain ⟨he, hne⟩ := SortedMap.mem_erase.mp he
      exact ⟨he, fun hm => (List.mem_cons.mp hm).elim (fun heq => absurd heq hne) hn⟩

theorem mem_foldl_handOver {finalID : Name} {paths : List Name} {e : Name × SegInfo}
    (h : e ∈ (paths.foldl (handOver finalID) lm).segments.entries) :
    e ∈ lm.segments.entries ∧ e.1 ∉ paths := by
  induction paths generalizing lm with
  | nil => exact ⟨h, by simp⟩
  | cons path paths ih =>
    obtain ⟨he, hn⟩ := ih h
    obtain ⟨he, hne⟩ := SortedMap.mem_erase.mp he
    exact ⟨he, by simp [hne, hn]⟩

theorem totalsExact_analyze (hex : ∀ m ∈ store.liveMap, TotalsExact store m)
    (hone : CountedOnce store) (header : Header) : TotalsExact store (analyze store header) := by
  intro k info hk
  obtain ⟨seg, hseg⟩ := SortedMap.mem_keys.mp (keys_analyze (SortedMap.mem_keys.mpr ⟨info, hk⟩))
  refine ⟨seg, hseg, ?_⟩
  have hnodup : ((logsToProcess store).map Prod.fst).Nodup := by
    have hsub : (logsToProcess store).Sublist store.segments.entries := by
      unfold logsToProcess
      split
      · exact List.filter_sublist
      · exact List.Sublist.refl _
    exact store.segments.nodup_keys.sublist (hsub.map _)
  rw [← infoOf_eq hk]
  by_cases hproc : (k, seg) ∈ logsToProcess store
  · -- processed now, so not listed before
    rw [analyze, infoOf_foldl_of_mem hnodup hproc, infoOf_of_notMem, Segment.foldl_count]
    intro hlisted
    unfold startMap at hlisted
    unfold logsToProcess at hproc
    cases hlm : store.liveMap with
    | none => simp [hlm, new, SortedMap.keys, SortedMap.empty] at hlisted
    | some m =>
      rw [hlm] at hlisted hproc
      obtain ⟨info', hi⟩ := SortedMap.mem_keys.mp hlisted
      have hm := (mem_foldl_removeSegment hi).1
      exact hone m hlm k (SortedMap.mem_keys.mpr ⟨info', hm⟩)
        (by simpa using (List.mem_filter.mp hproc).2)
  · -- listed before, and its record is kept
    have hnot : k ∉ (logsToProcess store).map Prod.fst := by
      intro hmem
      obtain ⟨⟨k', seg'⟩, hlog, rfl⟩ := List.mem_map.mp hmem
      have hstored : (k', seg') ∈ store.segments.entries := by
        unfold logsToProcess at hlog
        split at hlog
        · exact List.mem_of_mem_filter hlog
        · exact hlog
      rw [SortedMap.eq_of_mem hseg hstored] at hproc
      exact hproc hlog
    rw [analyze, infoOf_foldl_of_notMem hnot]
    have hlisted : k ∈ (startMap store header).segments.keys :=
      (keys_foldl_processLog (SortedMap.mem_keys.mpr ⟨info, hk⟩)).resolve_left hnot
    obtain ⟨info', hi⟩ := SortedMap.mem_keys.mp hlisted
    rw [infoOf_eq hi]
    unfold startMap at hi
    cases hlm : store.liveMap with
    | none => simp [hlm, new, SortedMap.empty] at hi
    | some m =>
      rw [hlm] at hi
      obtain ⟨seg', hseg', rfl⟩ := hex m hlm k info' (mem_foldl_removeSegment hi).1
      rw [SortedMap.eq_of_mem hseg hseg']

theorem splitEntry_op {bs seq : ℕ} {now : ℕ → ℕ} {e c : Entry} {r : Interval}
    (h : splitEntry bs now seq e r = some c) : c.op = e.op := by
  unfold splitEntry at h
  split_ifs at h
  · obtain ⟨data, -, rfl⟩ := Option.map_eq_some_iff.mp h
    rfl
  · rw [← Option.some.inj h]

theorem splitEntries_op {bs seq : ℕ} {now : ℕ → ℕ} {ps : List (Entry × Interval)}
    {cs : List Entry} (h : splitEntries bs now seq ps = some cs) {c : Entry} (hc : c ∈ cs) :
    ∃ p ∈ ps, c.op = p.1.op := by
  induction ps generalizing seq cs with
  | nil =>
    obtain rfl : [] = cs := Option.some.inj h
    simp at hc
  | cons p ps ih =>
    simp only [splitEntries, Option.bind_eq_bind, Option.bind_eq_some_iff, Option.pure_def,
      Option.some.injEq] at h
    obtain ⟨d, hd, ds, hds, rfl⟩ := h
    rcases List.mem_cons.mp hc with rfl | hc
    · exact ⟨p, List.mem_cons_self, splitEntry_op hd⟩
    · obtain ⟨q, hq, hop⟩ := ih hds hc
      exact ⟨q, List.mem_cons_of_mem _ hq, hop⟩

/-- Only writes and trims are stored. -/
def PlainOps (store : Store) : Prop :=
  ∀ log ∈ store.segments.entries, ∀ e ∈ log.2.entries, e.isOp = true

instance (store : Store) : Decidable (PlainOps store) := inferInstanceAs (Decidable (∀ _ ∈ _, _))

theorem compacted_ops (hp : PlainOps store) {bs : ℕ} {now : ℕ → ℕ} {paths : List Name}
    {cs : List Entry}
    (hcs : splitEntries bs now 0 (retirePieces bs store lm paths) = some cs) :
    ∀ c ∈ cs, c.isOp = true := by
  intro c hc
  obtain ⟨p, hpm, hop⟩ := splitEntries_op hcs hc
  obtain ⟨k, -, seg, hseg, hlive⟩ := mem_retirePieces hpm
  obtain ⟨⟨e, rs⟩, hzip, hr⟩ := List.mem_flatMap.mp hlive
  obtain ⟨r, -, rfl⟩ := List.mem_map.mp hr
  have h := hp _ hseg _ (List.of_mem_zip hzip).1
  simpa only [Entry.isOp, Entry.isWrite, Entry.isTrim, hop] using h

theorem addCompacted_totals {header : Header} {label : Name} {cs : List Entry}
    (hcs : ∀ c ∈ cs, c.isOp = true) :
    (⟨cs.length, copiedBytes cs⟩ : SegInfo) = (compactedSegment header label cs).totals := by
  rw [Segment.totals, copiedBytes_eq]
  congr 1
  exact (List.countP_eq_length.mpr hcs).symm

theorem deleteRetired_noFaults (update : LiveMap → Name → LiveMap) (paths : List Name)
    (store : Store) (lm : LiveMap) :
    deleteRetired noFaults update paths store lm =
      (none, { store with segments := store.segments.filter fun k => k ∉ paths },
        paths.foldl update lm) := by
  have hnone : (deleteRetired noFaults update paths store lm).1 = none := by
    induction paths generalizing store lm with
    | nil => rfl
    | cons path paths ih => exact ih _ _
  obtain ⟨hstore, hlm⟩ := (deleteRetired_spec noFaults update paths store lm).2 hnone
  rw [← hnone, ← hstore, ← hlm]

theorem runGC_noFaults (cfg : GCConfig) (label : Name) (now : ℕ → ℕ)
    {first : Name × Segment} {rest : List (Name × Segment)}
    (h : store.segments.entries = first :: rest) (store' : Store)
    (hrun : (runGC cfg noFaults label now store).2 = store') :
    store' = store ∨ store' = store.saveLiveMap (analyze store first.2.header) ∨
    (∃ paths : List Name, store' = Store.saveLiveMap
      { store with segments := store.segments.filter fun k => k ∉ paths }
      (paths.foldl LiveMap.removeSegment (analyze store first.2.header))) ∨
    ∃ (paths : List Name) (cs : List Entry), (∀ k ∈ paths, k ∈ store.segments.keys) ∧
      splitEntries first.2.header.blockSize now 0
        (retirePieces first.2.header.blockSize store (analyze store first.2.header) paths) =
          some cs ∧
      store' = Store.saveLiveMap
        { store with
          segments := (store.segments.insert (logPath label)
            (compactedSegment first.2.header label cs)).filter fun k => k ∉ paths }
        (addCompacted (paths.foldl (handOver (logPath label)) (analyze store first.2.header))
          (logPath label) cs) := by
  subst hrun
  unfold runGC
  rw [h]
  dsimp only
  have hsub : ∀ indexes, ∀ k ∈ retirePaths (analyze store first.2.header).computeStats indexes,
      k ∈ store.segments.keys := fun indexes k hk => keys_analyze (retirePaths_subset hk)
  generalize analyze store first.2.header = lm at hsub ⊢
  split_ifs
  · exact .inr (.inl rfl)
  · rw [retireDead, deleteRetired_noFaults]
    exact .inr (.inr (.inl ⟨_, rfl⟩))
  · unfold retireLive
    dsimp only
    have hpaths := hsub (retireIndexes cfg.threshold lm.computeStats)
    generalize retirePaths lm.computeStats (retireIndexes cfg.threshold lm.computeStats) =
      paths at hpaths ⊢
    cases hcs : splitEntries first.2.header.blockSize now 0
        (retirePieces first.2.header.blockSize store lm paths) with
    | none => exact .inl rfl
    | some cs =>
      dsimp only [noFaults]
      rw [show (⟨.none, fun _ => .none, .none⟩ : Faults) = noFaults from rfl,
        deleteRetired_noFaults]
      exact .inr (.inr (.inr ⟨paths, cs, hpaths, hcs, rfl⟩))

end Run

/-- The stores that arise when segments arrive and the compactor runs without failing calls,
each with the last label handed out. No run starts from a map that lists a segment it would
process again. -/
inductive Timeline (n : ℕ) : Store → Name → Prop
  | init {segments : SortedMap Name Segment} {latest : Name}
      (hname : ∀ k ∈ segments.keys, HasLabel n k ∧ labelFromLogPath k ≤ latest)
      (hplain : PlainOps ⟨segments, none⟩) : Timeline n ⟨segments, none⟩ latest
  | arrive {store : Store} {latest label : Name} {seg : Segment} (h : Timeline n store latest)
      (hlen : label.length = n) (hlt : latest < label) (hplain : ∀ e ∈ seg.entries, e.isOp = true) :
      Timeline n (store.put (logPath label) seg) label
  | run {store : Store} {latest label : Name} (h : Timeline n store latest)
      (hlen : label.length = n) (hlt : latest < label) (hone : CountedOnce store)
      (cfg : GCConfig) (now : ℕ → ℕ) :
      Timeline n (runGC cfg noFaults label now store).2 label

/-- What a timeline keeps. -/
structure TimelineInv (store : Store) (latest : Name) : Prop where
  older : ∀ k ∈ store.segments.keys, labelFromLogPath k ≤ latest
  plain : PlainOps store
  exact : ∀ lm ∈ store.liveMap, TotalsExact store lm

namespace TimelineInv

variable {store : Store} {latest label : Name}

theorem new_notMem (h : TimelineInv store latest) (hlt : latest < label) :
    logPath label ∉ store.segments.keys := by
  intro hmem
  have hle := h.older _ hmem
  rw [labelFromLogPath_logPath] at hle
  exact absurd hlt (not_lt.mpr hle)

theorem put (h : TimelineInv store latest) (hlt : latest < label) {seg : Segment}
    (hplain : ∀ e ∈ seg.entries, e.isOp = true) :
    TimelineInv (store.put (logPath label) seg) label := by
  refine ⟨fun k hk => ?_, fun log hlog => ?_, fun lm hlm k info hk => ?_⟩
  · obtain ⟨v, hv⟩ := SortedMap.mem_keys.mp hk
    rcases SortedMap.mem_insert.mp hv with he | ⟨hold, -⟩
    · obtain rfl : k = logPath label := congrArg Prod.fst he
      rw [labelFromLogPath_logPath]
    · exact (h.older k (SortedMap.mem_keys.mpr ⟨v, hold⟩)).trans hlt.le
  · rcases SortedMap.mem_insert.mp hlog with rfl | ⟨hold, -⟩
    · exact hplain
    · exact h.plain log hold
  · obtain ⟨s, hs, hinfo⟩ := h.exact lm hlm k info hk
    refine ⟨s, SortedMap.mem_insert.mpr (.inr ⟨hs, ?_⟩), hinfo⟩
    rintro rfl
    exact h.new_notMem hlt (SortedMap.mem_keys.mpr ⟨s, hs⟩)

theorem drop (h : TimelineInv store latest) {paths : List Name} {lm : LiveMap}
    (hlm : ∀ e ∈ lm.segments.entries, e.1 ∉ paths ∧
      ∃ seg, (e.1, seg) ∈ store.segments.entries ∧ e.2 = seg.totals) :
    TimelineInv (Store.saveLiveMap
      { store with segments := store.segments.filter fun k => k ∉ paths } lm) latest := by
  refine ⟨fun k hk => ?_, fun log hlog => ?_, fun m hm k info hk => ?_⟩
  · obtain ⟨v, hv⟩ := SortedMap.mem_keys.mp hk
    exact h.older k (SortedMap.mem_keys.mpr ⟨v, (SortedMap.mem_filter.mp hv).1⟩)
  · exact h.plain log (SortedMap.mem_filter.mp hlog).1
  · obtain rfl := Option.some.inj hm
    obtain ⟨hnot, seg, hseg, hinfo⟩ := hlm _ hk
    exact ⟨seg, SortedMap.mem_filter.mpr ⟨hseg, by simpa using hnot⟩, hinfo⟩

theorem run (h : TimelineInv store latest) (hlt : latest < label) (hone : CountedOnce store)
    (cfg : GCConfig) (now : ℕ → ℕ) :
    TimelineInv (runGC cfg noFaults label now store).2 label := by
  have hlater : TimelineInv store label :=
    ⟨fun k hk => (h.older k hk).trans hlt.le, h.plain, h.exact⟩
  rcases he : store.segments.entries with _ | ⟨first, rest⟩
  · have hrun : (runGC cfg noFaults label now store).2 = store := by simp [runGC, he]
    rw [hrun]
    exact hlater
  · have hlm := totalsExact_analyze h.exact hone first.2.header
    obtain hrun | hrun | ⟨paths, hrun⟩ | ⟨paths, cs, hpaths, hcs, hrun⟩ :=
      runGC_noFaults cfg label now he _ rfl <;> rw [hrun]
    · exact hlater
    · refine ⟨hlater.older, hlater.plain, fun m hm => ?_⟩
      obtain rfl := Option.some.inj hm
      exact hlm
    · refine hlater.drop fun e hmem => ?_
      have hremove : ∀ m : LiveMap, paths.foldl removeSegment m = paths.foldl
          (fun m s => if (fun _ : Name => False) s then m else m.removeSegment s) m := by simp
      rw [hremove] at hmem
      obtain ⟨hmem, hnot⟩ := mem_foldl_removeSegment hmem
      exact ⟨hnot, hlm _ _ hmem⟩
    · have hops := compacted_ops h.plain hcs
      have hput : TimelineInv (store.put (logPath label)
          (compactedSegment first.2.header label cs)) label := h.put hlt hops
      refine hput.drop fun e hmem => ?_
      rcases SortedMap.mem_insert.mp hmem with rfl | ⟨hmem, hne⟩
      · exact ⟨fun hmem => h.new_notMem hlt (hpaths _ hmem), _,
          SortedMap.mem_insert.mpr (.inl rfl), addCompacted_totals hops⟩
      · obtain ⟨hmem, hnot⟩ := mem_foldl_handOver hmem
        obtain ⟨seg, hseg, hinfo⟩ := hlm _ _ hmem
        exact ⟨hnot, seg, SortedMap.mem_insert.mpr (.inr ⟨hseg, hne⟩), hinfo⟩

end TimelineInv

theorem Timeline.inv {n : ℕ} {store : Store} {latest : Name} (h : Timeline n store latest) :
    TimelineInv store latest := by
  induction h with
  | init hname hplain => exact ⟨fun k hk => (hname k hk).2, hplain, nofun⟩
  | arrive _ _ hlt hplain ih => exact ih.put hlt hplain
  | run _ _ hlt hone cfg now ih => exact ih.run hlt hone cfg now

/-- The live write bytes that a run finds for a segment. -/
def liveWriteBytes (store : Store) (k : Name) : ℕ :=
  match store.segments.entries with
  | [] => 0
  | first :: _ => (analyze store first.2.header).liveBytes k

theorem TimelineInv.not_retiring {store : Store} {latest : Name} (h : TimelineInv store latest)
    (hone : CountedOnce store) {cfg : GCConfig} (ht : cfg.threshold ≤ 100) {k : Name}
    {seg : Segment} (hseg : (k, seg) ∈ store.segments.entries) (hfit : seg.writeBytes < W64)
    (hlive : liveWriteBytes store k = seg.writeBytes) : k ∉ retiring cfg store := by
  intro hk
  unfold retiring at hk
  unfold liveWriteBytes at hlive
  rcases he : store.segments.entries with _ | ⟨first, rest⟩
  · rw [he] at hseg
    simp at hseg
  rw [he] at hk hlive
  dsimp only at hk hlive
  have hlm := totalsExact_analyze h.exact hone first.2.header
  generalize analyze store first.2.header = lm at hk hlive hlm
  split_ifs at hk
  · simp at hk
  obtain ⟨ri, hri, hpath⟩ := List.mem_filterMap.mp hk
  obtain ⟨s, hs, rfl⟩ := Option.map_eq_some_iff.mp hpath
  obtain ⟨⟨k, info⟩, hmem, rfl⟩ := List.mem_map.mp (List.mem_of_getElem? hs)
  have hbelow := (List.mem_filter.mp hri).2
  rw [hs] at hbelow
  simp only [Option.any_some, Bool.and_eq_true, decide_eq_true_eq, hlive] at hbelow
  obtain ⟨-, hbelow, hpos⟩ := hbelow
  obtain ⟨seg', hseg', rfl⟩ := hlm k info hmem
  obtain rfl := SortedMap.eq_of_mem hseg hseg'
  -- the quotient of equal byte counts is one
  have htotal : seg.totals.totalWriteBytes = seg.writeBytes := Nat.mod_eq_of_lt hfit
  rw [htotal] at hbelow hpos
  have hutil := Binary64.div_self (Binary64.ofNat_mant_pos hpos)
  have hpercent : cfg.threshold.toNat ≤ 100 := by omega
  simp [SegmentStats.utilizationBelow, hpos.ne', hutil,
    Binary64.one_not_lt_percent hpercent] at hbelow

/-- In every saved map the totals are those of the stored segments, and a run does not retire
a segment whose data is all live. -/
theorem Timeline.totals_exact {n : ℕ} {store : Store} {latest : Name}
    (h : Timeline n store latest) :
    (∀ lm ∈ store.liveMap, ∀ k info, (k, info) ∈ lm.segments.entries →
      ∃ seg, (k, seg) ∈ store.segments.entries ∧ info.totalEntries = seg.opCount ∧
        (seg.writeBytes < W64 → info.totalWriteBytes = seg.writeBytes)) ∧
    (CountedOnce store → ∀ cfg : GCConfig, cfg.threshold ≤ 100 →
      ∀ k seg, (k, seg) ∈ store.segments.entries → seg.writeBytes < W64 →
        liveWriteBytes store k = seg.writeBytes → k ∉ retiring cfg store) := by
  refine ⟨fun lm hlm k info hk => ?_, fun hone cfg ht k seg => h.inv.not_retiring hone ht⟩
  obtain ⟨seg, hseg, rfl⟩ := h.inv.exact lm hlm k info hk
  exact ⟨seg, hseg, rfl, Nat.mod_eq_of_lt⟩

def labelledStore : Store :=
  ⟨⟨[(logPath (tai64nLabel 0), ⟨⟨2, 1, tai64nLabel 0, 16, ""⟩, tailEntries⟩)],
    List.pairwise_singleton _ _⟩, none⟩

def dryStore : Store :=
  (runGC ⟨90, true⟩ noFaults (tai64nLabel 1) (fun _ => 0) labelledStore).2

def grownStore : Store :=
  dryStore.put (logPath (tai64nLabel 2)) ⟨⟨2, 1, tai64nLabel 2, 16, ""⟩, [sampleWrite 0 [6]]⟩

/-- A dry run, a new segment that overwrites a block, and a run that compacts the first one. -/
def countedStore : Store :=
  (runGC ⟨90, false⟩ noFaults (tai64nLabel 3) (fun _ => 0) grownStore).2

theorem countedStore_timeline : Timeline 24 countedStore (tai64nLabel 3) := by
  have hlt : ∀ t < 3, tai64nLabel t < tai64nLabel (t + 1) := by
    intro t ht
    exact tai64nLabel_lt (by unfold ClockInRange; omega) (Nat.lt_succ_self t)
  have hinit : Timeline 24 labelledStore (tai64nLabel 0) := by
    refine .init (fun k hk => ?_) (by decide +kernel)
    obtain rfl := List.mem_singleton.mp hk
    exact ⟨⟨_, length_tai64nLabel 0, rfl⟩, by simp⟩
  have hdry : Timeline 24 dryStore (tai64nLabel 1) :=
    .run hinit (length_tai64nLabel 1) (hlt 0 (by omega)) (by decide +kernel) _ _
  have hgrown : Timeline 24 grownStore (tai64nLabel 2) :=
    .arrive hdry (length_tai64nLabel 2) (hlt 1 (by omega)) (by decide)
  exact .run hgrown (length_tai64nLabel 3) (hlt 2 (by omega)) (by decide +kernel) _ _

theorem countedStore_totals :
    countedStore.liveMap.map (fun lm => lm.segments.entries) =
        some [(logPath (tai64nLabel 2), ⟨1, 1⟩), (logPath (tai64nLabel 3), ⟨2, 3⟩)] ∧
      ∀ lm ∈ countedStore.liveMap, ∀ k info, (k, info) ∈ lm.segments.entries →
        ∃ seg, (k, seg) ∈ countedStore.segments.entries ∧ info.totalEntries = seg.opCount ∧
          (seg.writeBytes < W64 → info.totalWriteBytes = seg.writeBytes) :=
  ⟨by decide +kernel, (Timeline.totals_exact countedStore_timeline).1⟩

def compactedStore : Store :=
  (runGC ⟨90, false⟩ noFaults (tai64nLabel 1) (fun _ => 0) labelledStore).2

/-- The compacted segment is newer than `LastLabel`, so the next run counts it again; with a
threshold above half it retires and recreates it, although all of its data is live. -/
theorem compacted_counted_twice :
    compactedStore.segments.entries.map (fun l => (l.1, l.2.totals)) =
        [(logPath (tai64nLabel 1), ⟨2, 4⟩)] ∧
      compactedStore.liveMap.map (fun lm => lm.segments.entries) =
        some [(logPath (tai64nLabel 1), ⟨2, 4⟩)] ∧
      (runGC ⟨90, true⟩ noFaults (tai64nLabel 2) (fun _ => 0) compactedStore).2.liveMap.map
        (fun lm => lm.segments.entries) = some [(logPath (tai64nLabel 1), ⟨4, 8⟩)] ∧
      liveWriteBytes compactedStore (logPath (tai64nLabel 1)) = 4 ∧
      (runGC ⟨90, false⟩ noFaults (tai64nLabel 2) (fun _ => 0) compactedStore).2.segments.keys =
        [logPath (tai64nLabel 2)] := by
  decide +kernel

end Lbd
