import Lbd.GCHistory

/-!
# `RunGC` preserves replay

Every store a run can leave behind replays to the same bytes, and its saved live
map still tracks it, so the argument repeats along any history of arriving
segments and runs, failed ones included.
-/

namespace Lbd

open RunMap LogName LiveMap

/-- The map a run computed, with what the run knows about it. -/
structure RunMapOk (bs n : ℕ) (store : Store) (label : Name) (header : Header) (lm : LiveMap)
    (paths : List Name) : Prop where
  good : Good bs n store
  exact : Exact lm store.segments.entries
  paths_mem : ∀ k ∈ paths, k ∈ store.segments.keys
  length : label.length = n
  newest : ∀ k ∈ store.segments.keys, k < logPath label
  afterLast : ∀ m, store.liveMap = some m → m.lastLabel < label
  blockSize : header.blockSize = bs

section Outcome

variable {bs n : ℕ} {store store' : Store} {label : Name} {now : ℕ → ℕ} {header : Header}
  {lm : LiveMap} {paths : List Name}

theorem lastOwner_compacted {seg : Segment} {b : ℕ}
    (hc : Compacts bs store.segments.entries paths (logPath label, seg)) :
    lastOwner (store.segments.entries.filter (fun l => decide (l.1 ∉ paths)) ++
        [(logPath label, seg)]) b =
      (lastOwner store.segments.entries b).map fun v =>
        if v.segment ∈ paths then { v with segment := logPath label } else v := by
  rw [lastOwner_append]
  have hlast : lastOwner [(logPath label, seg)] b = logOwner (logPath label, seg) b := rfl
  rw [hlast]
  cases ho : lastOwner store.segments.entries b with
  | none =>
    rw [hc.untouched b (by simp [ho]), Option.none_or,
      lastOwner_filter (fun k => decide (k ∉ paths)) (by simp [ho]), ho]
    rfl
  | some o =>
    by_cases hmem : o.segment ∈ paths
    · rw [hc.owned b o ho hmem]
      simp [hmem]
    · have hno : ∀ o', lastOwner store.segments.entries b = some o' → o'.segment ∉ paths := by
        intro o' ho'
        rw [ho, Option.some.injEq] at ho'
        exact ho' ▸ hmem
      rw [hc.untouched b hno, Option.none_or,
        lastOwner_filter (fun k => decide (k ∉ paths)) (by simpa using hno), ho]
      simp [hmem]

variable (h : RunMapOk bs n store label header lm paths)

include h

theorem RunMapOk.not_mem_of_dead (hdead : ∀ k ∈ paths, lm.segmentLiveExtents k = [])
    {b : ℕ} {o : Owner} (ho : lastOwner store.segments.entries b = some o) : o.segment ∉ paths := by
  intro hmem
  have hlive : Holds (lm.segmentLiveExtents o.segment) b o :=
    holds_segmentLiveExtents.mpr ⟨(h.exact.owner b o).mpr ho, rfl⟩
  rw [hdead _ hmem] at hlive
  simp [Holds] at hlive

theorem RunMapOk.final_notMem : logPath label ∉ paths :=
  fun hmem => lt_irrefl _ (h.newest _ (h.paths_mem _ hmem))

theorem RunMapOk.compacts {cs : List Entry}
    (hcs : splitEntries header.blockSize now 0
      (retirePieces header.blockSize store lm paths) = some cs) :
    Compacts bs store.segments.entries paths
      (logPath label, compactedSegment header label cs) := by
  obtain ⟨cs', hcs', hc⟩ := compacts_splitEntries h.good.logs h.exact paths now
  rw [h.blockSize, hcs', Option.some.injEq] at hcs
  subst hcs
  exact hc _ _ h.blockSize

theorem RunMapOk.insert_filter (seg : Segment) (keep : Name → Bool)
    (hkeep : keep (logPath label) = true) :
    ((store.segments.insert (logPath label) seg).filter keep).entries =
      store.segments.entries.filter (fun l => keep l.1) ++ [(logPath label, seg)] := by
  simp only [SortedMap.filter, SortedMap.insert_entries_of_forall_lt h.newest, List.filter_append,
    List.filter_cons, hkeep, if_true, List.filter_nil]

theorem GCOutcome.replay_eq (ho : GCOutcome store label now header lm paths store') :
    replay store'.segments.entries = replay store.segments.entries := by
  cases ho with
  | unchanged => rfl
  | saved => rfl
  | dead hdead hkeep =>
    exact replay_filter _ h.good.logs fun b o hown => hkeep _ (h.not_mem_of_dead hdead hown)
  | deadSaved hdead =>
    refine replay_filter (fun k => decide (k ∉ paths)) h.good.logs fun b o hown => ?_
    simpa using h.not_mem_of_dead hdead hown
  | live hcs hkeep =>
    dsimp only
    rw [h.insert_filter _ _ (hkeep _ (h.final_notMem))]
    exact replay_filter_append _ h.good.logs (h.compacts hcs) hkeep
  | @liveSaved cs hcs =>
    dsimp only [Store.saveLiveMap]
    rw [h.insert_filter _ _ (by simpa using h.final_notMem)]
    exact replay_filter_append (fun k => decide (k ∉ paths)) h.good.logs (h.compacts hcs)
      fun k hk => by simpa using hk

theorem RunMapOk.validLogs_compacted (keep : Name → Bool) {seg : Segment}
    (hc : Compacts bs store.segments.entries paths (logPath label, seg)) :
    ValidLogs bs n (store.segments.entries.filter (fun l => keep l.1) ++
      [(logPath label, seg)]) := by
  refine (h.good.logs.filter _).append ⟨?_, ?_, ?_⟩ <;> intro l hl <;>
    rw [List.mem_singleton.mp hl]
  · exact hc.valid
  · exact hc.noWrap
  · exact h.length ▸ hasLabel_logPath

theorem GCOutcome.good (ho : GCOutcome store label now header lm paths store') :
    Good bs n store' := by
  cases ho with
  | unchanged => exact h.good
  | saved =>
    refine ⟨h.good.logs, fun m hm => ?_⟩
    obtain rfl : lm = m := Option.some.inj hm
    exact h.exact.tracks
  | dead hdead hkeep =>
    refine ⟨h.good.logs.filter _, fun m hm => ?_⟩
    have ht := h.good.tracks m hm
    refine ⟨ht.sound, fun b hnone o => ht.owner_filter h.good.logs (fun o ho => ?_) hnone o⟩
    exact hkeep _ (h.not_mem_of_dead hdead ho)
  | deadSaved hdead =>
    refine ⟨h.good.logs.filter _, fun m hm => ?_⟩
    obtain rfl := Option.some.inj hm
    obtain ⟨hs, hholds⟩ := foldl_removeSegment_paths h.exact.sound paths
    refine Exact.tracks ⟨hs, fun b o => (hholds b o).trans ?_⟩
    have hfilter := lastOwner_filter (fun k => decide (k ∉ paths))
      fun o (ho : lastOwner store.segments.entries b = some o) => by
        simpa using h.not_mem_of_dead hdead ho
    rw [h.exact.owner, ← hfilter]
    exact ⟨And.left, fun ho => ⟨ho, h.not_mem_of_dead hdead (hfilter ▸ ho)⟩⟩
  | @live keep cs hcs hkeep =>
    have hc := h.compacts hcs
    have hent := h.insert_filter (compactedSegment header label cs) keep
      (hkeep _ (h.final_notMem))
    refine ⟨?_, fun m hm => ?_⟩
    · dsimp only
      rw [hent]
      exact h.validLogs_compacted _ hc
    · have ht := h.good.tracks m hm
      refine ⟨ht.sound, fun b hnone o => ?_⟩
      dsimp only at hnone ⊢
      rw [hent] at hnone ⊢
      have hlog := hnone (logPath label, compactedSegment header label cs) (by simp)
        (by simpa using h.afterLast m hm)
      -- the compacted segment does not touch `b`, so no retired segment owns it
      have hown : ∀ o, lastOwner store.segments.entries b = some o → o.segment ∉ paths := by
        intro o ho hmem
        rw [hc.owned b o ho hmem] at hlog
        cases hlog
      have hone : lastOwner [(logPath label, compactedSegment header label cs)] b = none := hlog
      rw [lastOwner_append, hone, Option.none_or]
      exact ht.owner_filter h.good.logs (fun o ho => hkeep _ (hown o ho))
        (fun l hl => hnone l (List.mem_append_left _ hl)) o
  | @liveSaved cs hcs =>
    have hc := h.compacts hcs
    have hfinal := h.final_notMem
    have hent := h.insert_filter (compactedSegment header label cs)
      (fun k => decide (k ∉ paths)) (by simpa using hfinal)
    refine ⟨?_, fun m hm => ?_⟩
    · dsimp only [Store.saveLiveMap]
      rw [hent]
      exact h.validLogs_compacted (fun k => decide (k ∉ paths)) hc
    · obtain rfl := Option.some.inj hm
      obtain ⟨hs, hholds⟩ := foldl_handOver_spec h.exact.sound hfinal
      refine Exact.tracks ⟨hs, fun b o => (hholds b o).trans ?_⟩
      dsimp only [Store.saveLiveMap]
      rw [hent, lastOwner_compacted hc]
      simp only [h.exact.owner, Option.map_eq_some_iff]

end Outcome

/-- A run with `label` as the new label: it sorts behind every segment and behind the saved
`LastLabel`, and no entry applied to the live map ends inside an extent that has another
one behind it. -/
structure RunAllowed (n : ℕ) (store : Store) (label : Name) : Prop where
  length : label.length = n
  newest : ∀ k ∈ store.segments.keys, k < logPath label
  afterLast : ∀ m, store.liveMap = some m → m.lastLabel < label
  clear : Clear store

/-- The stores that arise when segments arrive and the compactor runs. -/
inductive GCReachable (bs n : ℕ) : Store → Prop
  | init {segments : SortedMap Name Segment} (h : ValidLogs bs n segments.entries) :
      GCReachable bs n ⟨segments, none⟩
  | arrive {store : Store} {name : Name} {seg : Segment} (h : GCReachable bs n store)
      (hvalid : seg.Valid bs) (hwrap : seg.NoWrap) (hname : HasLabel n name)
      (hfresh : name ∉ store.segments.keys)
      (hnewer : ∀ m, store.liveMap = some m → m.lastLabel < labelFromLogPath name) :
      GCReachable bs n (store.put name seg)
  | run {store : Store} {label : Name} (h : GCReachable bs n store)
      (hallowed : RunAllowed n store label) (cfg : GCConfig) (faults : Faults) (now : ℕ → ℕ) :
      GCReachable bs n (runGC cfg faults label now store).2

theorem runMapOk_analyze {bs n : ℕ} {store : Store} {label : Name} (hg : Good bs n store)
    (ha : RunAllowed n store label) (cfg : GCConfig) {first : Name × Segment}
    {rest : List (Name × Segment)}
    (he : store.segments.entries = first :: rest) :
    RunMapOk bs n store label first.2.header (analyze store first.2.header)
      (retiring cfg store) where
  good := hg
  exact := exact_analyze hg (ha.clear first (by simp [he]))
  paths_mem := fun _ => retiring_subset
  length := ha.length
  newest := ha.newest
  afterLast := ha.afterLast
  blockSize := (hg.logs.valid first (by simp [he])).1

theorem runGC_spec {bs n : ℕ} {store : Store} {label : Name} (hg : Good bs n store)
    (ha : RunAllowed n store label) (cfg : GCConfig) (faults : Faults) (now : ℕ → ℕ) :
    Good bs n (runGC cfg faults label now store).2 ∧
      replay (runGC cfg faults label now store).2.segments.entries =
        replay store.segments.entries := by
  rcases he : store.segments.entries with _ | ⟨first, rest⟩
  · have hrun : (runGC cfg faults label now store).2 = store := by simp [runGC, he]
    rw [hrun, he]
    exact ⟨hg, rfl⟩
  · have ho := runGC_outcome cfg faults label now he
    have hm := runMapOk_analyze hg ha cfg he
    exact ⟨ho.good hm, he ▸ ho.replay_eq hm⟩

/-- A segment that arrives behind the saved `LastLabel` leaves the saved map tracking. -/
theorem Good.arrive {bs n : ℕ} {store : Store} {name : Name} {seg : Segment}
    (hg : Good bs n store) (hvalid : seg.Valid bs) (hwrap : seg.NoWrap) (hname : HasLabel n name)
    (hfresh : name ∉ store.segments.keys)
    (hnewer : ∀ m, store.liveMap = some m → m.lastLabel < labelFromLogPath name) :
    Good bs n (store.put name seg) := by
  have hmem : ∀ l ∈ (store.put name seg).segments.entries,
      l = (name, seg) ∨ l ∈ store.segments.entries :=
    fun l hl => (SortedMap.mem_insert.mp hl).imp id And.left
  refine ⟨⟨?_, ?_, ?_⟩, fun m hm => ?_⟩
  · exact fun l hl => (hmem l hl).elim (fun h => h ▸ hvalid) (hg.logs.valid l)
  · exact fun l hl => (hmem l hl).elim (fun h => h ▸ hwrap) (hg.logs.noWrap l)
  · exact fun l hl => (hmem l hl).elim (fun h => h ▸ hname) (hg.logs.named l)
  · have ht := hg.tracks m hm
    refine ⟨ht.sound, fun b hnone o => ?_⟩
    have hold : ∀ l ∈ store.segments.entries, m.lastLabel < labelFromLogPath l.1 →
        logOwner l b = none := by
      intro l hl
      refine hnone l (SortedMap.mem_insert.mpr (.inr ⟨hl, fun he => hfresh ?_⟩))
      exact SortedMap.mem_keys.mpr ⟨l.2, he ▸ hl⟩
    have hseg : logOwner (name, seg) b = none :=
      hnone (name, seg) (SortedMap.mem_insert.mpr (.inl rfl)) (hnewer m hm)
    -- the new segment does not touch `b`, wherever it lands in the listing
    have hsame : lastOwner (store.put name seg).segments.entries b =
        lastOwner store.segments.entries b := by
      rw [← SortedMap.below_append_above hfresh, Store.put, SortedMap.insert,
        lastOwner_append, lastOwner_cons, hseg, lastOwner_append, Option.or_none]
    rw [hsame]
    exact ht.owner b hold o

theorem GCReachable.good {bs n : ℕ} {store : Store} (h : GCReachable bs n store) :
    Good bs n store := by
  induction h with
  | init h => exact ⟨h, fun m hm => by cases hm⟩
  | arrive _ hvalid hwrap hname hfresh hnewer ih =>
    exact ih.arrive hvalid hwrap hname hfresh hnewer
  | run _ hallowed cfg faults now ih => exact (runGC_spec ih hallowed cfg faults now).1

/-- Whatever the threshold, dry run or not, and wherever the run fails. -/
theorem runGC_preserves_replay {bs n : ℕ} {store : Store} (h : GCReachable bs n store)
    {label : Name} (hallowed : RunAllowed n store label) (cfg : GCConfig) (faults : Faults)
    (now : ℕ → ℕ) :
    replay (runGC cfg faults label now store).2.segments.entries =
      replay store.segments.entries :=
  (runGC_spec h.good hallowed cfg faults now).2

def noFaults : Faults := ⟨.none, fun _ => .none, .none⟩

def sampleWrite (block : ℕ) (data : List UInt8) : Entry :=
  ⟨.write, 0, 0, block, data.length, crc32 data, data⟩

/-- One segment labelled `1` with one-byte blocks. -/
def sampleStore (entries : List Entry) : Store :=
  ⟨⟨[(logPath ['1'], ⟨⟨2, 1, ['1'], 16, ""⟩, entries⟩)], List.pairwise_singleton _ _⟩, none⟩

theorem sampleStore_reachable {entries : List Entry} (hv : ∀ e ∈ entries, e.Valid 1)
    (hw : ∀ e ∈ entries, e.NoWrap 1) : GCReachable 1 1 (sampleStore entries) := by
  refine .init ⟨?_, ?_, ?_⟩ <;> intro l hl <;> rw [List.mem_singleton.mp hl]
  · exact ⟨rfl, hv⟩
  · exact hw
  · exact ⟨['1'], rfl, rfl⟩

/-- Blocks 0 to 2, block 10, then block 1 again: its extent is filed behind block 2's. -/
def cutEntries : List Entry :=
  [sampleWrite 0 [1, 2, 3], sampleWrite 10 [4], sampleWrite 1 [5]]

/-- Four of five blocks are live, the segment is retired, and block 1 is not copied. -/
theorem runGC_loses_block :
    GCReachable 1 1 (sampleStore cutEntries) ∧
      (∀ k ∈ (sampleStore cutEntries).segments.keys, k < logPath ['2']) ∧
      replay (sampleStore cutEntries).segments.entries 1 = 5 ∧
      replay (runGC ⟨90, false⟩ noFaults ['2'] (fun _ => 0)
        (sampleStore cutEntries)).2.segments.entries 1 = 0 :=
  ⟨sampleStore_reachable (by decide) (by decide), by decide, by decide, by decide +kernel⟩

/-- An overlap at the end of the last extent is copied whole. -/
def tailEntries : List Entry := [sampleWrite 0 [1, 2, 3], sampleWrite 2 [4, 5]]

theorem sampleStore_allowed : RunAllowed 1 (sampleStore tailEntries) ['2'] :=
  ⟨rfl, by decide, (fun _ h => nomatch h), by decide⟩

theorem runGC_keeps_tail :
    (runGC ⟨90, false⟩ noFaults ['2'] (fun _ => 0)
        (sampleStore tailEntries)).2.segments.keys = [logPath ['2']] ∧
      replay (runGC ⟨90, false⟩ noFaults ['2'] (fun _ => 0)
        (sampleStore tailEntries)).2.segments.entries =
      replay (sampleStore tailEntries).segments.entries :=
  ⟨by decide +kernel,
    runGC_preserves_replay (sampleStore_reachable (by decide) (by decide)) sampleStore_allowed
      ⟨90, false⟩ noFaults fun _ => 0⟩

end Lbd
