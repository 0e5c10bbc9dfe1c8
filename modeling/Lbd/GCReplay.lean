import Lbd.GCLiveness

/-!
# Compaction preserves replay

A live map is exact for a list of segments when the owner of each block is the
segment that touches it last. Under an exact map, the compacted segment stores,
on every block owned by a retired segment, what that segment stores there, and
touches nothing else.
-/

namespace Lbd

open RunMap LogName LiveMap

/-- The segments of a store as the compactor expects them. -/
structure ValidLogs (bs n : ℕ) (logs : List (Name × Segment)) : Prop where
  valid : ∀ log ∈ logs, log.2.Valid bs
  noWrap : ∀ log ∈ logs, log.2.NoWrap
  named : ∀ log ∈ logs, HasLabel n log.1

structure Exact (lm : LiveMap) (logs : List (Name × Segment)) : Prop where
  sound : Sound lm.extents
  owner : ∀ b o, Holds lm.extents b o ↔ lastOwner logs b = some o

theorem segment_of_entry_owner {bs b : ℕ} {logID : Name} {e : Entry} {o : Owner}
    (h : e.owner bs logID b = some o) : o.segment = logID := by
  unfold Entry.owner at h
  split_ifs at h <;> simp_all <;> rw [← h]

theorem segment_of_logOwner {log : Name × Segment} {b : ℕ} {o : Owner}
    (h : logOwner log b = some o) : o.segment = log.1 := by
  obtain ⟨-, e, -, -, he, -⟩ := exists_last_of_lastSome h
  exact segment_of_entry_owner he

theorem exists_log_of_lastOwner {logs : List (Name × Segment)} {b : ℕ} {o : Owner}
    (h : lastOwner logs b = some o) :
    ∃ pre seg post, logs = pre ++ (o.segment, seg) :: post ∧
      logOwner (o.segment, seg) b = some o ∧ ∀ log ∈ post, logOwner log b = none := by
  obtain ⟨pre, ⟨name, seg⟩, post, rfl, hlog, hpost⟩ := exists_last_of_lastSome h
  obtain rfl : o.segment = name := segment_of_logOwner hlog
  exact ⟨pre, seg, post, rfl, hlog, hpost⟩

section Valid

variable {bs : ℕ} {log : Name × Segment} (hv : log.2.Valid bs)

include hv

theorem logOwner_eq_none (b : ℕ) : logOwner log b = none ↔ ¬ log.2.Covers b := by
  unfold logOwner Segment.Covers
  rw [lastSome_eq_none]
  simp only [List.mem_map, forall_exists_index, and_imp, forall_apply_eq_imp_iff₂, not_exists,
    not_and]
  refine forall₂_congr fun e he => ?_
  rw [(hv.1 ▸ hv.2 e he : e.Valid log.2.header.blockSize).owner_eq]
  simp

/-- A segment stores something at a byte exactly when it owns, for its part, the byte's block. -/
theorem byteAt_eq_none_iff (x : ℕ) : log.2.byteAt x = none ↔ logOwner log (x / bs) = none := by
  rw [hv.byteAt_eq_none, logOwner_eq_none hv]

end Valid

theorem lastSome_byteAt {bs n : ℕ} {pre post : List (Name × Segment)} {log : Name × Segment}
    (h : ValidLogs bs n (pre ++ log :: post)) {x : ℕ} (hlog : logOwner log (x / bs) ≠ none)
    (hpost : ∀ l ∈ post, logOwner l (x / bs) = none) :
    lastSome ((pre ++ log :: post).map fun l => l.2.byteAt x) = log.2.byteAt x := by
  refine lastSome_of_last (f := fun l : Name × Segment => l.2.byteAt x) ?_ fun l hl => ?_
  · rw [Ne, byteAt_eq_none_iff (h.valid log (by simp))]
    exact hlog
  · exact (byteAt_eq_none_iff (h.valid l (by simp [hl])) x).mpr (hpost l hl)

theorem lastSome_byteAt_of_none {bs n : ℕ} {logs : List (Name × Segment)}
    (h : ValidLogs bs n logs) {x : ℕ} (hnone : lastOwner logs (x / bs) = none) :
    lastSome (logs.map fun l => l.2.byteAt x) = none := by
  rw [lastSome_eq_none]
  intro o ho
  obtain ⟨log, hlog, rfl⟩ := List.mem_map.mp ho
  rw [byteAt_eq_none_iff (h.valid log hlog)]
  exact lastSome_eq_none.mp hnone _ (List.mem_map_of_mem hlog)

section Retire

variable {bs n : ℕ} {store : Store} {lm : LiveMap} {paths : List Name}

theorem mem_retirePieces {p : Entry × Interval} (hp : p ∈ retirePieces bs store lm paths) :
    ∃ path ∈ paths, ∃ seg, (path, seg) ∈ store.segments.entries ∧
      p ∈ livePieces bs seg.entries (lm.segmentLiveExtents path) := by
  obtain ⟨path, hpath, hp⟩ := List.mem_flatMap.mp hp
  refine ⟨path, hpath, ?_⟩
  dsimp only at hp
  split_ifs at hp with hext
  · simp at hp
  · cases hf : store.segments.find? path with
    | none => simp [hf] at hp
    | some seg =>
      rw [hf] at hp
      exact ⟨seg, SortedMap.find?_eq_some.mp hf, hp⟩

variable (hv : ValidLogs bs n store.segments.entries) (hex : Exact lm store.segments.entries)

include hv hex

theorem retirePieces_part {p : Entry × Interval} (hp : p ∈ retirePieces bs store lm paths) :
    p.1.Valid bs ∧ p.1.NoWrap bs ∧ p.1.Part bs p.2 := by
  obtain ⟨path, -, seg, hseg, hp⟩ := mem_retirePieces hp
  have hsv := hv.valid _ hseg
  have hsw : ∀ e ∈ seg.entries, e.NoWrap bs := hsv.1 ▸ hv.noWrap _ hseg
  obtain ⟨pre, post, hes, hpart, -⟩ :=
    livePieces_sound hsw (sound_segmentLiveExtents hex.sound path) hp
  have hmem : p.1 ∈ seg.entries := hes ▸ by simp
  exact ⟨hsv.2 _ hmem, hsw _ hmem, hpart⟩

/-- On the blocks of a piece, the entry it comes from is what the owner stores there. -/
theorem retirePieces_owner {p : Entry × Interval} (hp : p ∈ retirePieces bs store lm paths)
    {b : ℕ} (h1 : p.2.lo ≤ b) (h2 : b < p.2.hi) :
    ∃ o seg, lastOwner store.segments.entries b = some o ∧ o.segment ∈ paths ∧
      (o.segment, seg) ∈ store.segments.entries ∧ o.isTrim = p.1.isTrim ∧
      ∀ x, x / bs = b → seg.byteAt x = p.1.byteAt bs x := by
  have hpart := (retirePieces_part hv hex hp).2.2
  obtain ⟨path, hpath, seg, hseg, hp⟩ := mem_retirePieces hp
  have hsv := hv.valid _ hseg
  have hsw : ∀ e ∈ seg.entries, e.NoWrap bs := hsv.1 ▸ hv.noWrap _ hseg
  obtain ⟨pre, post, hes, -, hb⟩ :=
    livePieces_sound hsw (sound_segmentLiveExtents hex.sound path) hp
  obtain ⟨hpost, o, ho⟩ := hb b h1 h2
  obtain ⟨hlive, rfl⟩ := holds_segmentLiveExtents.mp ho
  have howner := (hex.owner b o).mp hlive
  have hcov : p.1.Covers bs b := by
    have := hpart.lo
    have := hpart.hi
    exact ⟨by omega, by omega⟩
  have hpv : p.1.Valid bs := hsv.2 _ (hes ▸ by simp)
  -- `p.1` is the last entry of its segment on `b`
  have hseg_owner : logOwner (o.segment, seg) b = some ⟨o.segment, p.1.isTrim⟩ := by
    have hpe : p.1.owner bs o.segment b = some ⟨o.segment, p.1.isTrim⟩ := by
      rw [hpv.owner_eq, if_pos hcov]
    unfold logOwner
    dsimp only
    rw [hsv.1, hes, lastSome_of_last (f := fun e : Entry => e.owner bs o.segment b), hpe]
    · simp [hpe]
    · intro e he
      rw [(hsv.2 e (hes ▸ by simp [he])).owner_eq, if_neg (hpost e he)]
  refine ⟨o, seg, howner, hpath, hseg, ?_, fun x hx => ?_⟩
  · obtain ⟨pre', seg', post', hlogs, hlast, -⟩ := exists_log_of_lastOwner howner
    have hsame : seg' = seg := SortedMap.eq_of_mem (hlogs ▸ by simp) hseg
    rw [hsame, hseg_owner, Option.some.injEq] at hlast
    rw [← hlast]
  · subst hx
    unfold Segment.byteAt
    rw [hsv.1, hes]
    refine lastSome_of_last (f := fun e : Entry => e.byteAt bs x) ?_ fun e he => ?_
    · rw [Ne, hpv.byteAt_eq_none, not_not]
      exact hcov
    · exact ((hsv.2 e (hes ▸ by simp [he])).byteAt_eq_none x).mpr (hpost e he)

theorem retirePieces_complete {b : ℕ} {o : Owner}
    (ho : lastOwner store.segments.entries b = some o) (hpath : o.segment ∈ paths) :
    ∃ p ∈ retirePieces bs store lm paths, p.2.lo ≤ b ∧ b < p.2.hi := by
  obtain ⟨pre, seg, post, hlogs, hlog, -⟩ := exists_log_of_lastOwner ho
  have hseg : (o.segment, seg) ∈ store.segments.entries := hlogs ▸ by simp
  have hsv := hv.valid _ hseg
  have hsw : ∀ e ∈ seg.entries, e.NoWrap bs := hsv.1 ▸ hv.noWrap _ hseg
  have hlive : Holds (lm.segmentLiveExtents o.segment) b o :=
    holds_segmentLiveExtents.mpr ⟨(hex.owner b o).mpr ho, rfl⟩
  obtain ⟨epre, e, epost, hes, he, hepost⟩ := exists_last_of_lastSome hlog
  dsimp only at hes he hepost
  rw [hsv.1] at he hepost
  have hev : e.Valid bs := hsv.2 e (hes ▸ by simp)
  have hcov : e.Covers bs b := by
    by_contra hnot
    rw [hev.owner_eq, if_neg hnot] at he
    cases he
  have hnone : ∀ e' ∈ epost, ¬ e'.Covers bs b := by
    intro e' he' hc
    have := hepost e' he'
    rw [(hsv.2 e' (hes ▸ by simp [he'])).owner_eq, if_pos hc] at this
    cases this
  obtain ⟨r, hr, hr1, hr2⟩ := livePieces_complete hsw
    (sound_segmentLiveExtents hex.sound o.segment) hes hcov hnone hlive
  refine ⟨(e, r), List.mem_flatMap.mpr ⟨o.segment, hpath, ?_⟩, hr1, hr2⟩
  have hne : lm.segmentLiveExtents o.segment ≠ [] := by
    intro hnil
    rw [hnil] at hlive
    simp [Holds] at hlive
  simp only [if_neg hne, SortedMap.find?_eq_some.mpr hseg]
  exact hr

end Retire

/-- A segment that takes over, block for block, what the retired paths own. -/
structure Compacts (bs : ℕ) (logs : List (Name × Segment)) (paths : List Name)
    (log : Name × Segment) : Prop where
  valid : log.2.Valid bs
  noWrap : log.2.NoWrap
  owned : ∀ b o, lastOwner logs b = some o → o.segment ∈ paths →
    logOwner log b = some ⟨log.1, o.isTrim⟩
  value : ∀ x o seg, lastOwner logs (x / bs) = some o → o.segment ∈ paths →
    (o.segment, seg) ∈ logs → log.2.byteAt x = seg.byteAt x
  untouched : ∀ b, (∀ o, lastOwner logs b = some o → o.segment ∉ paths) → logOwner log b = none

theorem compacts_splitEntries {bs n : ℕ} {store : Store} {lm : LiveMap}
    (hv : ValidLogs bs n store.segments.entries) (hex : Exact lm store.segments.entries)
    (paths : List Name) (now : ℕ → ℕ) :
    ∃ cs, splitEntries bs now 0 (retirePieces bs store lm paths) = some cs ∧
      ∀ (id : Name) (header : Header), header.blockSize = bs →
        Compacts bs store.segments.entries paths (id, ⟨header, cs⟩) := by
  have hpart : ∀ p ∈ retirePieces bs store lm paths,
      p.1.Valid bs ∧ p.1.NoWrap bs ∧ p.1.Part bs p.2 := fun p hp => retirePieces_part hv hex hp
  obtain ⟨cs, hcs, hall⟩ := splitEntries_eq_some now (fun p hp => (hpart p hp).1)
    (fun p hp => (hpart p hp).2.1) (fun p hp => (hpart p hp).2.2) 0
  refine ⟨cs, hcs, fun id header hbs => ?_⟩
  have hcopy : ∀ c ∈ cs, ∃ p ∈ retirePieces bs store lm paths, CopyOf bs p.1 p.2 c :=
    fun c hc => forall₂_exists_left hall hc
  have hcv : ∀ c ∈ cs, c.Valid bs := by
    intro c hc
    obtain ⟨p, hp, hpc⟩ := hcopy c hc
    exact hpc.valid (hpart p hp).1 (hpart p hp).2.2
  -- a copy on `b` carries the owner's kind and value
  have hsound : ∀ c ∈ cs, ∀ b, c.Covers bs b → ∃ o seg,
      lastOwner store.segments.entries b = some o ∧ o.segment ∈ paths ∧
      (o.segment, seg) ∈ store.segments.entries ∧ c.owner bs id b = some ⟨id, o.isTrim⟩ ∧
      ∀ x, x / bs = b → c.byteAt bs x = seg.byteAt x := by
    intro c hc b hb
    obtain ⟨p, hp, hpc⟩ := hcopy c hc
    obtain ⟨hpv, -, hpp⟩ := hpart p hp
    have hr := (hpc.covers_iff hpv hpp b).mp hb
    obtain ⟨o, seg, ho, hpath, hseg, htrim, hval⟩ := retirePieces_owner hv hex hp hr.1 hr.2
    refine ⟨o, seg, ho, hpath, hseg, ?_, fun x hx => ?_⟩
    · rw [(hcv c hc).owner_eq, if_pos hb, htrim]
      simp only [Entry.isTrim, hpc.op]
    · rw [hval x hx]
      exact hpc.byteAt_eq hpv hpp (hx ▸ hr)
  have hexists : ∀ b o, lastOwner store.segments.entries b = some o → o.segment ∈ paths →
      ∃ c ∈ cs, c.Covers bs b := by
    intro b o ho hpath
    obtain ⟨p, hp, hr⟩ := retirePieces_complete hv hex ho hpath
    obtain ⟨c, hc, hpc⟩ := forall₂_exists_right hall hp
    exact ⟨c, hc, (hpc.covers_iff (hpart p hp).1 (hpart p hp).2.2 b).mpr hr⟩
  refine ⟨⟨hbs, hcv⟩, ?_, ?_, ?_, ?_⟩
  · intro c hc
    obtain ⟨p, hp, hpc⟩ := hcopy c hc
    dsimp only
    rw [hbs]
    exact hpc.noWrap (hpart p hp).1 (hpart p hp).2.2 (hpart p hp).2.1
  · intro b o ho hpath
    obtain ⟨c, hc, hcov⟩ := hexists b o ho hpath
    simp only [logOwner, hbs]
    refine lastSome_eq_of_forall ?_ fun w hw => ?_
    · obtain ⟨o', -, ho', -, -, hown, -⟩ := hsound c hc b hcov
      obtain rfl : o' = o := Option.some.inj (ho'.symm.trans ho)
      exact List.mem_map.mpr ⟨c, hc, hown⟩
    · obtain ⟨c', hc', rfl⟩ := List.mem_map.mp hw
      by_cases hcov' : c'.Covers bs b
      · obtain ⟨o', -, ho', -, -, hown, -⟩ := hsound c' hc' b hcov'
        obtain rfl : o' = o := Option.some.inj (ho'.symm.trans ho)
        exact .inr hown
      · exact .inl (by rw [(hcv c' hc').owner_eq, if_neg hcov'])
  · intro x o seg ho hpath hseg
    obtain ⟨c, hc, hcov⟩ := hexists _ o ho hpath
    have hval : ∀ c ∈ cs, c.Covers bs (x / bs) → c.byteAt bs x = seg.byteAt x := by
      intro c hc hcov
      obtain ⟨o', seg', ho', -, hseg', -, hval⟩ := hsound c hc _ hcov
      obtain rfl : o' = o := Option.some.inj (ho'.symm.trans ho)
      rw [hval x rfl, SortedMap.eq_of_mem hseg hseg']
    have hne : c.byteAt bs x ≠ none := by
      rw [Ne, (hcv c hc).byteAt_eq_none, not_not]
      exact hcov
    obtain ⟨v, hsome⟩ := Option.ne_none_iff_exists'.mp (hval c hc hcov ▸ hne)
    rw [hsome]
    simp only [Segment.byteAt, hbs]
    refine lastSome_eq_of_forall ?_ fun w hw => ?_
    · exact List.mem_map.mpr ⟨c, hc, (hval c hc hcov).trans hsome⟩
    · obtain ⟨c', hc', rfl⟩ := List.mem_map.mp hw
      by_cases hcov' : c'.Covers bs (x / bs)
      · exact .inr ((hval c' hc' hcov').trans hsome)
      · exact .inl (((hcv c' hc').byteAt_eq_none x).mpr hcov')
  · intro b hb
    simp only [logOwner, hbs]
    refine lastSome_eq_none.mpr fun w hw => ?_
    obtain ⟨c, hc, rfl⟩ := List.mem_map.mp hw
    rw [(hcv c hc).owner_eq, if_neg]
    intro hcov
    obtain ⟨o, -, ho, hpath, -⟩ := hsound c hc b hcov
    exact hb o ho hpath

theorem ValidLogs.filter {bs n : ℕ} {logs : List (Name × Segment)} (h : ValidLogs bs n logs)
    (p : Name × Segment → Bool) : ValidLogs bs n (logs.filter p) :=
  ⟨fun l hl => h.valid l (List.mem_of_mem_filter hl),
    fun l hl => h.noWrap l (List.mem_of_mem_filter hl),
    fun l hl => h.named l (List.mem_of_mem_filter hl)⟩

theorem ValidLogs.append {bs n : ℕ} {l m : List (Name × Segment)} (hl : ValidLogs bs n l)
    (hm : ValidLogs bs n m) : ValidLogs bs n (l ++ m) :=
  ⟨List.forall_mem_append.mpr ⟨hl.valid, hm.valid⟩,
    List.forall_mem_append.mpr ⟨hl.noWrap, hm.noWrap⟩,
    List.forall_mem_append.mpr ⟨hl.named, hm.named⟩⟩

section Delete

variable {bs n : ℕ} {logs : List (Name × Segment)}

theorem lastSome_filter (keep : Name → Bool) (hv : ValidLogs bs n logs) {x : ℕ}
    (hkeep : ∀ o, lastOwner logs (x / bs) = some o → keep o.segment = true) :
    lastSome ((logs.filter fun l => keep l.1).map fun l => l.2.byteAt x) =
      lastSome (logs.map fun l => l.2.byteAt x) := by
  cases ho : lastOwner logs (x / bs) with
  | none =>
    have hall := lastSome_byteAt_of_none hv ho
    rw [hall, lastSome_eq_none]
    intro w hw
    obtain ⟨l, hl, rfl⟩ := List.mem_map.mp hw
    exact lastSome_eq_none.mp hall _ (List.mem_map_of_mem (List.mem_of_mem_filter hl))
  | some o =>
    have hk := hkeep o ho
    obtain ⟨pre, seg, post, rfl, hlog, hpost⟩ := exists_log_of_lastOwner ho
    have hne : logOwner (o.segment, seg) (x / bs) ≠ none := by simp [hlog]
    have hfilter : (pre ++ (o.segment, seg) :: post).filter (fun l => keep l.1) =
        pre.filter (fun l => keep l.1) ++ (o.segment, seg) :: post.filter fun l => keep l.1 := by
      simp [List.filter_append, hk]
    have hvf := hv.filter fun l => keep l.1
    rw [hfilter] at hvf ⊢
    rw [lastSome_byteAt hvf hne fun l hl => hpost l (List.mem_of_mem_filter hl),
      lastSome_byteAt hv hne hpost]

theorem replay_filter (keep : Name → Bool) (hv : ValidLogs bs n logs)
    (hkeep : ∀ b o, lastOwner logs b = some o → keep o.segment = true) :
    replay (logs.filter fun l => keep l.1) = replay logs := by
  funext x
  rw [replay_eq, replay_eq, lastSome_filter keep hv (hkeep _)]

/-- With the compacted segment at the end, any of the retired segments may be deleted. -/
theorem replay_filter_append (keep : Name → Bool) {paths : List Name} {log : Name × Segment}
    (hv : ValidLogs bs n logs) (hc : Compacts bs logs paths log)
    (hkeep : ∀ name, name ∉ paths → keep name = true) :
    replay (logs.filter (fun l => keep l.1) ++ [log]) = replay logs := by
  funext x
  rw [replay_eq, replay_eq, List.map_append, lastSome_append]
  simp only [List.map_cons, List.map_nil, lastSome_cons, lastSome_nil, Option.none_or]
  by_cases hpath : ∃ o, lastOwner logs (x / bs) = some o ∧ o.segment ∈ paths
  · -- the compacted segment has the owner's byte
    obtain ⟨o, ho, hmem⟩ := hpath
    obtain ⟨pre, seg, post, rfl, hseg, hpost⟩ := exists_log_of_lastOwner ho
    have hne : logOwner (o.segment, seg) (x / bs) ≠ none := by simp [hseg]
    have hsome : seg.byteAt x ≠ none := fun h =>
      hne ((byteAt_eq_none_iff (hv.valid (o.segment, seg) (by simp)) x).mp h)
    obtain ⟨v, hval⟩ := Option.ne_none_iff_exists'.mp hsome
    rw [hc.value x o seg ho hmem (by simp), lastSome_byteAt hv hne hpost, hval]
    rfl
  · -- it does not touch the byte, and the owner, if any, is kept
    have hout : ∀ o, lastOwner logs (x / bs) = some o → o.segment ∉ paths :=
      fun o ho hmem => hpath ⟨o, ho, hmem⟩
    rw [(byteAt_eq_none_iff hc.valid x).mpr (hc.untouched _ hout), Option.none_or,
      lastSome_filter keep hv fun o ho => hkeep _ (hout o ho)]

end Delete

end Lbd
