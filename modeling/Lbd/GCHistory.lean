import Lbd.GCReplay

/-!
# Histories of compactor runs

The invariant that carries a saved live map from one run to the next: on the
blocks that no segment newer than `LastLabel` touches, the map is exact.
-/

namespace Lbd

open RunMap LogName LiveMap

structure Tracks (lm : LiveMap) (logs : List (Name × Segment)) : Prop where
  sound : Sound lm.extents
  owner : ∀ b, (∀ log ∈ logs, lm.lastLabel < labelFromLogPath log.1 → logOwner log b = none) →
    ∀ o, Holds lm.extents b o ↔ lastOwner logs b = some o

theorem Exact.tracks {lm : LiveMap} {logs : List (Name × Segment)} (h : Exact lm logs) :
    Tracks lm logs :=
  ⟨h.sound, fun b _ => h.owner b⟩

/-- A store the compactor may be run on. -/
structure Good (bs n : ℕ) (store : Store) : Prop where
  logs : ValidLogs bs n store.segments.entries
  tracks : ∀ lm, store.liveMap = some lm → Tracks lm store.segments.entries

theorem newer_append {bs n : ℕ} {m : SortedMap Name Segment} (hv : ValidLogs bs n m.entries)
    (label : Name) :
    m.entries.filter (fun log => !decide (label < labelFromLogPath log.1)) ++
      m.entries.filter (fun log => label < labelFromLogPath log.1) = m.entries := by
  refine filter_not_append_filter (fun log : Name × Segment => label < labelFromLogPath log.1) ?_
  refine m.sorted.imp_of_mem fun ha hb hlt h => ?_
  simp only [decide_eq_true_eq] at h ⊢
  exact h.trans (((hv.named _ ha).label_lt_iff (hv.named _ hb)).mpr hlt)

theorem mem_keys_of_lastOwner {m : SortedMap Name Segment} {b : ℕ} {o : Owner}
    (h : lastOwner m.entries b = some o) : o.segment ∈ m.keys := by
  obtain ⟨pre, seg, post, hlogs, -⟩ := exists_log_of_lastOwner h
  exact SortedMap.mem_keys.mpr ⟨seg, hlogs ▸ by simp⟩

theorem foldl_removeSegment_spec (p : Name → Bool) (names : List Name) {lm : LiveMap}
    (h : Sound lm.extents) :
    Sound (names.foldl (fun m s => if p s then m else m.removeSegment s) lm).extents ∧
      ∀ b o, Holds (names.foldl (fun m s => if p s then m else m.removeSegment s) lm).extents b o ↔
        Holds lm.extents b o ∧ (o.segment ∈ names → p o.segment = true) := by
  induction names generalizing lm with
  | nil => exact ⟨h, fun b o => by simp⟩
  | cons s names ih =>
    rw [List.foldl_cons]
    by_cases hp : p s = true
    · simp only [hp, if_true]
      refine ⟨(ih h).1, fun b o => ((ih h).2 b o).trans (and_congr_right fun _ => ?_)⟩
      rw [List.mem_cons]
      exact ⟨fun hn hor => hor.elim (fun he => he ▸ hp) hn, fun hn hm => hn (.inr hm)⟩
    · obtain ⟨hs, ho⟩ := ih (sound_removeSegment h s)
      simp only [hp, Bool.false_eq_true, if_false]
      refine ⟨hs, fun b o => ?_⟩
      rw [ho, holds_removeSegment, and_assoc]
      refine and_congr_right fun _ => ?_
      rw [List.mem_cons]
      constructor
      · rintro ⟨hne, hn⟩ (he | hm)
        · exact absurd he hne
        · exact hn hm
      · intro hn
        exact ⟨fun he => hp (he ▸ hn (.inl he)), fun hm => hn (.inr hm)⟩

variable {bs n : ℕ} {store : Store}

/-- What the run needs of the entries it applies: none ends inside an extent that has
another one behind it. -/
def Clear (store : Store) : Prop :=
  ∀ first ∈ store.segments.entries.head?,
    LogsClear (startMap store first.2.header) (logsToProcess store)

instance (store : Store) : Decidable (Clear store) := inferInstanceAs (Decidable (∀ _ ∈ _, _))

theorem exact_analyze (hg : Good bs n store) {header : Header}
    (hc : LogsClear (startMap store header) (logsToProcess store)) :
    Exact (analyze store header) store.segments.entries := by
  have hsub : ∀ log ∈ logsToProcess store, log ∈ store.segments.entries := by
    intro log hlog
    unfold logsToProcess at hlog
    cases hlm : store.liveMap with
    | none => rwa [hlm] at hlog
    | some lm =>
      rw [hlm] at hlog
      exact List.mem_of_mem_filter hlog
  have hspec := fun h : Sound (startMap store header).extents => foldl_processLog_spec
    (fun log hlog => hg.logs.valid log (hsub log hlog))
    (fun log hlog => hg.logs.noWrap log (hsub log hlog)) h hc
  unfold analyze
  cases hlm : store.liveMap with
  | none =>
    have hstart : startMap store header = .new header.blockSize := by simp [startMap, hlm]
    have hlogs : logsToProcess store = store.segments.entries := by simp [logsToProcess, hlm]
    obtain ⟨hs, ho⟩ := hspec (by rw [hstart]; exact ⟨by simp [Fits, new], by simp [Ordered, new]⟩)
    rw [hlogs] at hs ho ⊢
    refine ⟨hs, fun b o => (ho b o).trans ?_⟩
    rw [hstart]
    cases lastOwner store.segments.entries b <;> simp [new, Holds]
  | some lm =>
    have ht := hg.tracks lm hlm
    have hstart : startMap store header = cleanUp store lm := by simp [startMap, hlm]
    have hlogs : logsToProcess store =
        store.segments.entries.filter fun log => lm.lastLabel < labelFromLogPath log.1 := by
      simp [logsToProcess, hlm]
    obtain ⟨hcs, hch⟩ := foldl_removeSegment_spec (fun s => s ∈ store.segments.keys)
      lm.segments.keys ht.sound
    simp only [decide_eq_true_eq] at hcs hch
    obtain ⟨hs, ho⟩ := hspec (hstart ▸ hcs)
    refine ⟨hs, fun b o => (ho b o).trans ?_⟩
    have hsplit := newer_append hg.logs lm.lastLabel
    rw [hlogs]
    cases hnew : lastOwner
        (store.segments.entries.filter fun log => lm.lastLabel < labelFromLogPath log.1) b with
    | some v => rw [← hsplit, lastOwner_append, hnew, overriding_some]; simp
    | none =>
      have hnone : ∀ log ∈ store.segments.entries,
          lm.lastLabel < labelFromLogPath log.1 → logOwner log b = none := by
        intro log hlog hlt
        refine lastSome_eq_none.mp hnew _ (List.mem_map_of_mem ?_)
        simp [hlog, hlt]
      rw [overriding_none, hstart, cleanUp, hch, ht.owner b hnone]
      refine ⟨And.left, fun h => ⟨h, fun _ => mem_keys_of_lastOwner h⟩⟩

theorem keys_addSegmentEntry {lm : LiveMap} {seg k : Name} {w : Bool} {c : ℕ}
    (h : k ∈ (lm.addSegmentEntry seg w c).segments.keys) : k = seg ∨ k ∈ lm.segments.keys := by
  obtain ⟨v, hv⟩ := SortedMap.mem_keys.mp h
  rcases SortedMap.mem_insert.mp hv with he | ⟨hm, -⟩
  · exact .inl (congrArg Prod.fst he)
  · exact .inr (SortedMap.mem_keys.mpr ⟨v, hm⟩)

theorem keys_applyEntry {bs : ℕ} {lm : LiveMap} {logID k : Name} {e : Entry}
    (h : k ∈ (lm.applyEntry bs logID e).segments.keys) : k = logID ∨ k ∈ lm.segments.keys := by
  unfold applyEntry at h
  split_ifs at h
  · exact keys_addSegmentEntry h
  · exact keys_addSegmentEntry h
  · exact .inr h

theorem keys_processLog {lm : LiveMap} {log : Name × Segment} {k : Name}
    (h : k ∈ (lm.processLog log).segments.keys) : k = log.1 ∨ k ∈ lm.segments.keys := by
  have hfold : ∀ (es : List Entry) (m : LiveMap),
      k ∈ (es.foldl (applyEntry log.2.header.blockSize log.1) m).segments.keys →
        k = log.1 ∨ k ∈ m.segments.keys := by
    intro es
    induction es with
    | nil => exact fun m hk => .inr hk
    | cons e es ih =>
      intro m hk
      rcases ih _ hk with he | hk
      · exact .inl he
      · exact keys_applyEntry hk
  exact hfold _ _ h

theorem keys_foldl_processLog {logs : List (Name × Segment)} {lm : LiveMap} {k : Name}
    (h : k ∈ (logs.foldl processLog lm).segments.keys) :
    k ∈ logs.map Prod.fst ∨ k ∈ lm.segments.keys := by
  induction logs generalizing lm with
  | nil => exact .inr h
  | cons log logs ih =>
    rw [List.map_cons, List.mem_cons]
    rcases ih h with hk | hk
    · exact .inl (.inr hk)
    · rcases keys_processLog hk with rfl | hk
      · exact .inl (.inl rfl)
      · exact .inr hk

theorem keys_removeSegment {lm : LiveMap} {seg k : Name} :
    k ∈ (lm.removeSegment seg).segments.keys ↔ k ∈ lm.segments.keys ∧ k ≠ seg := by
  simp only [removeSegment, SortedMap.mem_keys, SortedMap.mem_erase, exists_and_right]

theorem keys_cleanUp {lm : LiveMap} {k : Name} (h : k ∈ (cleanUp store lm).segments.keys) :
    k ∈ store.segments.keys := by
  have hfold : ∀ (names : List Name) (m : LiveMap),
      k ∈ (names.foldl (fun m s => if s ∈ store.segments.keys then m else m.removeSegment s)
        m).segments.keys → k ∈ m.segments.keys ∧ (k ∈ names → k ∈ store.segments.keys) := by
    intro names
    induction names with
    | nil => exact fun m hk => ⟨hk, by simp⟩
    | cons s names ih =>
      intro m hk
      obtain ⟨hk, hn⟩ := ih _ hk
      dsimp only at hk
      split_ifs at hk with hs
      · exact ⟨hk, fun hm => (List.mem_cons.mp hm).elim (fun he => he ▸ hs) hn⟩
      · obtain ⟨hk, hne⟩ := keys_removeSegment.mp hk
        exact ⟨hk, fun hm => (List.mem_cons.mp hm).elim (fun he => absurd he hne) hn⟩
  obtain ⟨hk, hn⟩ := hfold _ _ h
  exact hn hk

theorem keys_analyze {header : Header} {k : Name}
    (h : k ∈ (analyze store header).segments.keys) : k ∈ store.segments.keys := by
  rcases keys_foldl_processLog h with hk | hk
  · unfold logsToProcess at hk
    cases hlm : store.liveMap with
    | none => rwa [hlm] at hk
    | some lm =>
      rw [hlm] at hk
      exact ((List.filter_sublist).map Prod.fst).subset hk
  · unfold startMap at hk
    cases hlm : store.liveMap with
    | none => simp [hlm, new, SortedMap.keys, SortedMap.empty] at hk
    | some lm =>
      rw [hlm] at hk
      exact keys_cleanUp hk

theorem retirePaths_subset {lm : LiveMap} {indexes : List ℕ} {k : Name}
    (h : k ∈ retirePaths lm.computeStats indexes) : k ∈ lm.segments.keys := by
  obtain ⟨ri, -, hri⟩ := List.mem_filterMap.mp h
  obtain ⟨s, hs, rfl⟩ := Option.map_eq_some_iff.mp hri
  obtain ⟨e, he, rfl⟩ := List.mem_map.mp (List.mem_of_getElem? hs)
  exact SortedMap.mem_keys.mpr ⟨e.2, he⟩

theorem deleteRetired_spec (faults : Faults) (update : LiveMap → Name → LiveMap)
    (paths : List Name) (store : Store) (lm : LiveMap) :
    (∃ keep : Name → Bool, (∀ name, name ∉ paths → keep name = true) ∧
      (deleteRetired faults update paths store lm).2.1 =
        { store with segments := store.segments.filter keep }) ∧
    ((deleteRetired faults update paths store lm).1 = none →
      (deleteRetired faults update paths store lm).2.1 =
          { store with segments := store.segments.filter fun k => k ∉ paths } ∧
        (deleteRetired faults update paths store lm).2.2 = paths.foldl update lm) := by
  induction paths generalizing store lm with
  | nil =>
    refine ⟨⟨fun _ => true, fun _ _ => rfl, ?_⟩, fun _ => ⟨?_, rfl⟩⟩ <;>
      simp [deleteRetired, SortedMap.filter_true]
  | cons path paths ih =>
    rw [deleteRetired]
    cases faults.delete path with
    | none =>
      obtain ⟨⟨keep, hkeep, hstore⟩, hdone⟩ := ih (store.delete path) (update lm path)
      refine ⟨⟨fun k => k ≠ path && keep k, fun name hname => ?_, ?_⟩, fun h => ?_⟩
      · rw [List.mem_cons, not_or] at hname
        simp [hname.1, hkeep name hname.2]
      · refine hstore.trans ?_
        rw [Store.delete, SortedMap.filter_erase (q := fun k => k ≠ path && keep k) (by simp)]
      · obtain ⟨hstore, hlm⟩ := hdone h
        refine ⟨hstore.trans ?_, hlm⟩
        rw [Store.delete, SortedMap.filter_erase (q := fun k => k ∉ path :: paths) (by simp)]
    | failsBefore =>
      exact ⟨⟨fun _ => true, fun _ _ => rfl, by simp [SortedMap.filter_true]⟩, fun h => by cases h⟩
    | failsAfter =>
      refine ⟨⟨fun k => k ≠ path, fun name hname => ?_, ?_⟩, fun h => by cases h⟩
      · rw [List.mem_cons, not_or] at hname
        simp [hname.1]
      · dsimp only [Store.delete]
        rw [SortedMap.erase_eq_filter (p := fun k => k ≠ path) (by simp)]

/-- The stores a run can leave behind, `lm` being the map it computed and `paths` the
segments it retires. -/
inductive GCOutcome (store : Store) (label : Name) (now : ℕ → ℕ) (header : Header)
    (lm : LiveMap) (paths : List Name) : Store → Prop
  | unchanged : GCOutcome store label now header lm paths store
  | saved : GCOutcome store label now header lm paths (store.saveLiveMap lm)
  | dead {keep : Name → Bool} (hdead : ∀ k ∈ paths, lm.segmentLiveExtents k = [])
      (hkeep : ∀ k, k ∉ paths → keep k = true) :
      GCOutcome store label now header lm paths
        { store with segments := store.segments.filter keep }
  | deadSaved (hdead : ∀ k ∈ paths, lm.segmentLiveExtents k = []) :
      GCOutcome store label now header lm paths
        (Store.saveLiveMap { store with segments := store.segments.filter fun k => k ∉ paths }
          (paths.foldl LiveMap.removeSegment lm))
  | live {keep : Name → Bool} {cs : List Entry}
      (hcs : splitEntries header.blockSize now 0
        (retirePieces header.blockSize store lm paths) = some cs)
      (hkeep : ∀ k, k ∉ paths → keep k = true) :
      GCOutcome store label now header lm paths
        { store with
          segments := (store.segments.insert (logPath label)
            (compactedSegment header label cs)).filter keep }
  | liveSaved {cs : List Entry}
      (hcs : splitEntries header.blockSize now 0
        (retirePieces header.blockSize store lm paths) = some cs) :
      GCOutcome store label now header lm paths
        (Store.saveLiveMap
          { store with
            segments := (store.segments.insert (logPath label)
              (compactedSegment header label cs)).filter fun k => k ∉ paths }
          (addCompacted (paths.foldl (handOver (logPath label)) lm) (logPath label) cs))

theorem finish_cases {P : Store → Prop} (faults : Faults) {lm : LiveMap} (result : GCResult)
    (hunsaved : P store) (hsaved : P (store.saveLiveMap lm)) :
    P (finish faults store lm result).2 := by
  unfold finish
  cases faults.save
  · exact hsaved
  · exact hunsaved
  · exact hsaved

section Outcome

variable {label : Name} {now : ℕ → ℕ} {header : Header} {lm : LiveMap} {paths : List Name}

theorem retireDead_outcome (faults : Faults) (result : GCResult)
    (hdead : ∀ k ∈ paths, lm.segmentLiveExtents k = []) :
    GCOutcome store label now header lm paths (retireDead faults store lm paths result).2 := by
  obtain ⟨⟨keep, hkeep, hstore⟩, hdone⟩ := deleteRetired_spec faults removeSegment paths store lm
  unfold retireDead
  rcases hd : deleteRetired faults removeSegment paths store lm with ⟨failed, store', lm'⟩
  rw [hd] at hstore hdone
  dsimp only at hstore hdone
  cases failed with
  | some path =>
    dsimp only
    rw [hstore]
    exact .dead hdead hkeep
  | none =>
    obtain ⟨hstore', hlm'⟩ := hdone rfl
    dsimp only
    apply finish_cases
    · rw [hstore]
      exact .dead hdead hkeep
    · rw [hstore', hlm']
      exact .deadSaved hdead

theorem retireLive_outcome (faults : Faults) (result : GCResult) :
    GCOutcome store label now header lm paths
      (retireLive faults label now header store lm paths result).2 := by
  unfold retireLive
  dsimp only
  cases hcs : splitEntries header.blockSize now 0
      (retirePieces header.blockSize store lm paths) with
  | none => exact .unchanged
  | some cs =>
    dsimp only
    obtain ⟨⟨keep, hkeep, hstore⟩, hdone⟩ := deleteRetired_spec faults (handOver (logPath label))
      paths (store.put (logPath label) (compactedSegment header label cs)) lm
    cases faults.put with
    | failsBefore => exact .unchanged
    | failsAfter =>
      have h : GCOutcome store label now header lm paths
          { store with
            segments := (store.segments.insert (logPath label)
              (compactedSegment header label cs)).filter fun _ => true } :=
        .live hcs fun _ _ => rfl
      rwa [SortedMap.filter_true] at h
    | none =>
      dsimp only
      rcases hd : deleteRetired faults (handOver (logPath label)) paths
        (store.put (logPath label) (compactedSegment header label cs)) lm with ⟨failed, store', lm'⟩
      rw [hd] at hstore hdone
      dsimp only at hstore hdone
      cases failed with
      | some path =>
        dsimp only
        rw [hstore]
        exact .live hcs hkeep
      | none =>
        obtain ⟨hstore', hlm'⟩ := hdone rfl
        dsimp only
        apply finish_cases
        · rw [hstore]
          exact .live hcs hkeep
        · rw [hstore', hlm']
          exact .liveSaved hcs

end Outcome

theorem runGC_outcome (cfg : GCConfig) (faults : Faults) (label : Name) (now : ℕ → ℕ)
    {first : Name × Segment} {rest : List (Name × Segment)}
    (h : store.segments.entries = first :: rest) :
    GCOutcome store label now first.2.header (analyze store first.2.header) (retiring cfg store)
      (runGC cfg faults label now store).2 := by
  unfold runGC retiring
  rw [h]
  dsimp only
  generalize analyze store first.2.header = lm
  by_cases hstop : retireIndexes cfg.threshold lm.computeStats = [] ∨ cfg.dryRun = true
  · rw [if_pos hstop]
    exact finish_cases _ _ .unchanged .saved
  · rw [if_neg hstop, if_neg fun hdry => hstop (.inr hdry)]
    split_ifs with hdead
    · refine retireDead_outcome _ _ fun k hk => ?_
      simpa using List.all_eq_true.mp hdead k hk
    · exact retireLive_outcome _ _

theorem retiring_subset {cfg : GCConfig} {k : Name} (h : k ∈ retiring cfg store) :
    k ∈ store.segments.keys := by
  unfold retiring at h
  split at h
  · simp at h
  · dsimp only at h
    split_ifs at h
    · simp at h
    · exact keys_analyze (retirePaths_subset h)

theorem lastOwner_filter {logs : List (Name × Segment)} (keep : Name → Bool) {b : ℕ}
    (hkeep : ∀ o, lastOwner logs b = some o → keep o.segment = true) :
    lastOwner (logs.filter fun l => keep l.1) b = lastOwner logs b := by
  cases ho : lastOwner logs b with
  | none =>
    refine lastSome_eq_none.mpr fun w hw => ?_
    obtain ⟨l, hl, rfl⟩ := List.mem_map.mp hw
    exact lastSome_eq_none.mp ho _ (List.mem_map_of_mem (List.mem_of_mem_filter hl))
  | some o =>
    obtain ⟨pre, seg, post, rfl, hlog, hpost⟩ := exists_log_of_lastOwner ho
    have hk : keep o.segment = true := hkeep o ho
    rw [List.filter_append, List.filter_cons_of_pos (by simpa using hk), ← hlog]
    refine lastSome_of_last (f := fun l => logOwner l b) (by simp [hlog]) fun l hl => ?_
    exact hpost l (List.mem_of_mem_filter hl)

theorem Tracks.owner_filter {m : SortedMap Name Segment} {lm : LiveMap} {keep : Name → Bool}
    (ht : Tracks lm m.entries) (hv : ValidLogs bs n m.entries) {b : ℕ}
    (hkeep : ∀ o, lastOwner m.entries b = some o → keep o.segment = true)
    (hnone : ∀ log ∈ m.entries.filter (fun l => keep l.1),
      lm.lastLabel < labelFromLogPath log.1 → logOwner log b = none) (o : Owner) :
    Holds lm.extents b o ↔ lastOwner (m.entries.filter fun l => keep l.1) b = some o := by
  rw [lastOwner_filter keep hkeep]
  refine ht.owner b (fun log hlog hlt => ?_) o
  by_contra htouch
  -- the owner of `b` is then at least as new as `log`, and it is kept
  obtain ⟨o', ho'⟩ : ∃ o', lastOwner m.entries b = some o' := by
    refine Option.ne_none_iff_exists'.mp fun h => htouch ?_
    exact lastSome_eq_none.mp h _ (List.mem_map_of_mem hlog)
  obtain ⟨pre, seg, post, hm, hlast, hpost⟩ := exists_log_of_lastOwner ho'
  have hmem : (o'.segment, seg) ∈ m.entries := hm ▸ by simp
  have hnewer : lm.lastLabel < labelFromLogPath o'.segment := by
    rw [hm] at hlog
    rcases List.mem_append.mp hlog with hpre | hcons
    · have hsorted := m.sorted
      rw [hm] at hsorted
      have hlt' : log.1 < o'.segment :=
        (List.pairwise_append.mp hsorted).2.2 log hpre (o'.segment, seg) List.mem_cons_self
      have hpre' : log ∈ m.entries := hm ▸ by simp [hpre]
      exact hlt.trans (((hv.named _ hpre').label_lt_iff (hv.named _ hmem)).mpr hlt')
    · rcases List.mem_cons.mp hcons with rfl | hmem'
      · exact hlt
      · exact absurd (hpost log hmem') htouch
  have hk := hnone (o'.segment, seg) (by simp [hmem, hkeep o' ho']) hnewer
  rw [hlast] at hk
  cases hk

theorem foldl_removeSegment_paths {lm : LiveMap} (h : Sound lm.extents) (paths : List Name) :
    Sound (paths.foldl removeSegment lm).extents ∧
      ∀ b o, Holds (paths.foldl removeSegment lm).extents b o ↔
        Holds lm.extents b o ∧ o.segment ∉ paths := by
  have hspec := foldl_removeSegment_spec (fun _ => false) paths h
  simpa using hspec

theorem foldl_handOver_spec {finalID : Name} {paths : List Name} {lm : LiveMap}
    (h : Sound lm.extents) (hfinal : finalID ∉ paths) :
    Sound (paths.foldl (handOver finalID) lm).extents ∧
      ∀ b o, Holds (paths.foldl (handOver finalID) lm).extents b o ↔
        ∃ v, Holds lm.extents b v ∧
          (if v.segment ∈ paths then { v with segment := finalID } else v) = o := by
  induction paths generalizing lm with
  | nil => exact ⟨h, fun b o => by simp⟩
  | cons path paths ih =>
    rw [List.mem_cons, not_or] at hfinal
    have hs : Sound (handOver finalID lm path).extents := sound_reattributeSegment h path finalID
    obtain ⟨hsound, hhold⟩ := ih hs hfinal.2
    refine ⟨hsound, fun b o => (hhold b o).trans ?_⟩
    have hone : ∀ v, Holds (handOver finalID lm path).extents b v ↔ ∃ u, Holds lm.extents b u ∧
        (if u.segment = path then { u with segment := finalID } else u) = v :=
      fun v => holds_reattributeSegment h
    simp only [hone, List.mem_cons]
    constructor
    · rintro ⟨v, ⟨u, hu, rfl⟩, rfl⟩
      refine ⟨u, hu, ?_⟩
      by_cases hpath : u.segment = path
      · simp [hpath, hfinal.2]
      · simp [hpath]
    · rintro ⟨u, hu, rfl⟩
      refine ⟨_, ⟨u, hu, rfl⟩, ?_⟩
      by_cases hpath : u.segment = path
      · simp [hpath, hfinal.2]
      · simp [hpath]

end Lbd
