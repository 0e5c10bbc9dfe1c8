import Lbd.GCRuns

/-!
# Compaction of a live volume

The kernel appends guest writes and trims to an open segment that got its label
when it was begun; the compactor labels its output when it runs. Replay follows
the labels, the guest's order is the order of the requests.
-/

namespace Lbd

open LogName

/-- A volume: the published segments and the kernel's open segment. -/
structure Volume where
  store : Store
  openLabel : Name
  openEntries : List Entry
  clock : ℕ

/-- One activity; `t` is the clock value at which a label is taken. -/
inductive VolumeStep where
  | guest (e : Entry)
  | rotate (t : ℕ)
  | gc (cfg : GCConfig) (faults : Faults) (now : ℕ → ℕ) (t : ℕ)

namespace Volume

variable (hdr : Header)

def openName (v : Volume) : Name := logPath v.openLabel

def openSegment (v : Volume) : Segment := ⟨{ hdr with segmentLabel := v.openLabel }, v.openEntries⟩

/-- `lbd_begin_segment` on a volume without published segments. -/
def start (t : ℕ) : Volume := ⟨⟨.empty, none⟩, tai64nLabel t, [], t⟩

/-- `lbd_rotate_segment`: nothing happens without entries. -/
def rotate (t : ℕ) (v : Volume) : Volume :=
  if v.openEntries = [] then v
  else ⟨v.store.put v.openName (v.openSegment hdr), tai64nLabel t, [], t⟩

def step (v : Volume) : VolumeStep → Volume
  | .guest e => { v with openEntries := v.openEntries ++ [e] }
  | .rotate t => v.rotate hdr t
  | .gc cfg faults now t =>
    { v with store := (runGC cfg faults (tai64nLabel t) now v.store).2, clock := t }

def run (v : Volume) (steps : List VolumeStep) : Volume := steps.foldl (step hdr) v

/-- Guest requests are whole blocks, the clock strictly increases. -/
def StepOk (v : Volume) : VolumeStep → Prop
  | .guest e => e.Valid hdr.blockSize ∧ e.NoWrap hdr.blockSize
  | .rotate t => v.clock < t ∧ ClockInRange t
  | .gc _ _ _ t => v.clock < t ∧ ClockInRange t

instance (v : Volume) : (s : VolumeStep) → Decidable (StepOk hdr v s)
  | .guest _ => inferInstanceAs (Decidable (_ ∧ _))
  | .rotate _ => inferInstanceAs (Decidable (_ ∧ _))
  | .gc _ _ _ _ => inferInstanceAs (Decidable (_ ∧ _))

/-- The activities do not get into each other's way: a guest request touches no block of a
published segment newer than the open one; the open segment is published behind the saved
`LastLabel`; and the compactor retires no segment that owns a block of the open segment. -/
def Undisturbed (v : Volume) : VolumeStep → Prop
  | .guest e => ∀ log ∈ v.store.segments.entries, v.openName < log.1 →
      ∀ b, e.Covers hdr.blockSize b → ¬ log.2.Covers b
  | .rotate _ => v.openEntries ≠ [] → ∀ m, v.store.liveMap = some m → m.lastLabel < v.openLabel
  | .gc cfg _ _ _ => Clear v.store ∧ ∀ b, (v.openSegment hdr).Covers b →
      ∀ o, lastOwner v.store.segments.entries b = some o → o.segment ∉ retiring cfg v.store

/-- Every step of the run meets `P` in the state it is taken in. -/
def Always (P : Volume → VolumeStep → Prop) : Volume → List VolumeStep → Prop
  | _, [] => True
  | v, s :: steps => P v s ∧ Always P (v.step hdr s) steps

instance decidableAlways {P : Volume → VolumeStep → Prop} [∀ v s, Decidable (P v s)] :
    (v : Volume) → (steps : List VolumeStep) → Decidable (Always hdr P v steps)
  | _, [] => .isTrue trivial
  | v, s :: steps =>
    have : Decidable (Always hdr P (v.step hdr s) steps) := decidableAlways (v.step hdr s) steps
    inferInstanceAs (Decidable (_ ∧ _))

end Volume

/-- The guest's requests of a run, in order. -/
def guestOps (steps : List VolumeStep) : List Entry :=
  steps.filterMap fun
    | .guest e => some e
    | _ => none

/-- What the guest wrote. -/
def contents (bs : ℕ) (ops : List Entry) : ℕ → UInt8 := ops.foldl (Entry.apply bs) fun _ => 0

section Put

variable {store : Store} {name : Name} {seg : Segment}

/-- The bytes with a segment put in the middle: newer segments, the segment, older ones. -/
theorem replay_put (x : ℕ) :
    replay (store.put name seg).segments.entries x =
      ((lastSome ((store.segments.above name).entries.map fun l => l.2.byteAt x)).or
        ((seg.byteAt x).or
          (lastSome ((store.segments.below name).entries.map fun l => l.2.byteAt x)))).getD 0 := by
  rw [replay_eq, Store.put, SortedMap.insert, List.map_append, lastSome_append, List.map_cons,
    lastSome_cons, Option.or_assoc]

theorem replay_split (hfresh : name ∉ store.segments.keys) (x : ℕ) :
    replay store.segments.entries x =
      ((lastSome ((store.segments.above name).entries.map fun l => l.2.byteAt x)).or
        (lastSome ((store.segments.below name).entries.map fun l => l.2.byteAt x))).getD 0 := by
  rw [replay_eq, ← lastSome_append, ← List.map_append, SortedMap.below_append_above hfresh]

theorem replay_put_of_none (hfresh : name ∉ store.segments.keys) {x : ℕ}
    (hx : seg.byteAt x = none) :
    replay (store.put name seg).segments.entries x = replay store.segments.entries x := by
  rw [replay_put, replay_split hfresh, hx, Option.none_or]

end Put

section Outcome

variable {bs n : ℕ} {store store' : Store} {label : Name} {now : ℕ → ℕ} {header : Header}
  {lm : LiveMap} {paths : List Name} (h : RunMapOk bs n store label header lm paths)

include h

/-- Whatever a run does: some retired segments are gone, and the compacted segment, if there is
one, stands at the end. -/
theorem GCOutcome.entries_eq (ho : GCOutcome store label now header lm paths store') :
    ∃ (keep : Name → Bool) (tail : List (Name × Segment)),
      store'.segments.entries = store.segments.entries.filter (fun l => keep l.1) ++ tail ∧
      (∀ k, k ∉ paths → keep k = true) ∧
      ∀ log ∈ tail, log.1 = logPath label ∧ Compacts bs store.segments.entries paths log := by
  have hall : ∀ l : List (Name × Segment), l = l.filter (fun _ => true) ++ [] := by simp
  have hlog : ∀ cs, splitEntries header.blockSize now 0
      (retirePieces header.blockSize store lm paths) = some cs →
      ∀ log ∈ [(logPath label, compactedSegment header label cs)],
        log.1 = logPath label ∧ Compacts bs store.segments.entries paths log := by
    intro cs hcs log hlog
    rw [List.mem_singleton.mp hlog]
    exact ⟨rfl, h.compacts hcs⟩
  cases ho with
  | unchanged => exact ⟨fun _ => true, [], hall _, fun _ _ => rfl, by simp⟩
  | saved => exact ⟨fun _ => true, [], hall _, fun _ _ => rfl, by simp⟩
  | @dead keep hdead hkeep => exact ⟨keep, [], (List.append_nil _).symm, hkeep, by simp⟩
  | deadSaved hdead =>
    refine ⟨fun k => decide (k ∉ paths), [], (List.append_nil _).symm, ?_, by simp⟩
    exact fun k hk => by simpa using hk
  | @live keep cs hcs hkeep =>
    exact ⟨keep, _, h.insert_filter _ keep (hkeep _ h.final_notMem), hkeep, hlog cs hcs⟩
  | @liveSaved cs hcs =>
    refine ⟨fun k => decide (k ∉ paths), _, ?_, fun k hk => by simpa using hk, hlog cs hcs⟩
    exact h.insert_filter _ (fun k => decide (k ∉ paths)) (by simpa using h.final_notMem)

/-- A run does not disturb an older open segment that shares no block with what it retires. -/
theorem GCOutcome.replay_put_eq (ho : GCOutcome store label now header lm paths store')
    {name : Name} {seg : Segment} (hv : seg.Valid bs) (hfresh : name ∉ store.segments.keys)
    (hname : name < logPath label)
    (hshare : ∀ b, seg.Covers b → ∀ o, lastOwner store.segments.entries b = some o →
      o.segment ∉ paths) :
    replay (store'.put name seg).segments.entries =
      replay (store.put name seg).segments.entries := by
  obtain ⟨keep, tail, hent, hkeep, htail⟩ := ho.entries_eq h
  have hfresh' : name ∉ store'.segments.keys := by
    intro hk
    obtain ⟨s, hs⟩ := SortedMap.mem_keys.mp hk
    rw [hent] at hs
    rcases List.mem_append.mp hs with hs | hs
    · exact hfresh (SortedMap.mem_keys.mpr ⟨s, List.mem_of_mem_filter hs⟩)
    · exact hname.ne (htail _ hs).1
  funext x
  cases hx : seg.byteAt x with
  | none =>
    rw [replay_put_of_none hfresh' hx, replay_put_of_none hfresh hx, ho.replay_eq h]
  | some v =>
    have hcov : seg.Covers (x / bs) := by
      by_contra hnot
      rw [(hv.byteAt_eq_none x).mpr hnot] at hx
      cases hx
    have hout := hshare _ hcov
    have habove : (store'.segments.above name).entries =
        (store.segments.above name).entries.filter (fun l => keep l.1) ++ tail := by
      simp only [SortedMap.above, SortedMap.filter, hent, List.filter_append, List.filter_filter]
      congr 1
      · exact List.filter_congr fun l _ => Bool.and_comm _ _
      · refine List.filter_eq_self.mpr fun l hl => ?_
        simpa [(htail l hl).1] using hname
    have htouch : lastSome (tail.map fun l => l.2.byteAt x) = none := by
      rw [lastSome_eq_none]
      intro w hw
      obtain ⟨l, hl, rfl⟩ := List.mem_map.mp hw
      have hc := (htail l hl).2
      exact (byteAt_eq_none_iff hc.valid x).mpr (hc.untouched _ hout)
    have hnewer : lastSome ((store'.segments.above name).entries.map fun l => l.2.byteAt x) =
        lastSome ((store.segments.above name).entries.map fun l => l.2.byteAt x) := by
      rw [habove, List.map_append, lastSome_append, htouch, Option.none_or]
      refine lastSome_filter keep (h.good.logs.filter _) fun o ho => hkeep _ (hout o ?_)
      rw [← SortedMap.below_append_above hfresh, lastOwner_append]
      exact Option.or_eq_some_iff.mpr (.inl ho)
    rw [replay_put, replay_put, hnewer, hx, Option.some_or, Option.some_or]

end Outcome

theorem foldl_lastLabel {α : Type*} (f : LiveMap → α → LiveMap)
    (hf : ∀ m a, (f m a).lastLabel = m.lastLabel) (l : List α) (lm : LiveMap) :
    (l.foldl f lm).lastLabel = lm.lastLabel := by
  induction l generalizing lm with
  | nil => rfl
  | cons a l ih => rw [List.foldl_cons, ih, hf]

theorem analyze_lastLabel {P : Name → Prop} {store : Store} {header : Header} (hempty : P [])
    (hkeys : ∀ k ∈ store.segments.keys, P (labelFromLogPath k))
    (hsaved : ∀ m, store.liveMap = some m → P m.lastLabel) :
    P (analyze store header).lastLabel := by
  have hstart : P (startMap store header).lastLabel := by
    unfold startMap
    cases hm : store.liveMap with
    | none => exact hempty
    | some m =>
      dsimp only
      rw [cleanUp, foldl_lastLabel]
      · exact hsaved m hm
      · intro m a
        split_ifs <;> rfl
  have hlogs : ∀ log ∈ logsToProcess store, P (labelFromLogPath log.1) := by
    intro log hlog
    refine hkeys _ (SortedMap.mem_keys.mpr ⟨log.2, ?_⟩)
    unfold logsToProcess at hlog
    split at hlog
    · exact List.mem_of_mem_filter hlog
    · exact hlog
  unfold analyze
  generalize startMap store header = lm at hstart
  generalize logsToProcess store = logs at hlogs
  induction logs generalizing lm with
  | nil => exact hstart
  | cons log logs ih =>
    obtain ⟨hl, hls⟩ := List.forall_mem_cons.mp hlogs
    exact ih _ hl hls

theorem GCOutcome.lastLabel {P : Name → Prop} {store store' : Store} {label : Name} {now : ℕ → ℕ}
    {header : Header} {lm : LiveMap} {paths : List Name}
    (ho : GCOutcome store label now header lm paths store') (hlm : P lm.lastLabel)
    (hsaved : ∀ m, store.liveMap = some m → P m.lastLabel) :
    ∀ m, store'.liveMap = some m → P m.lastLabel := by
  intro m hm
  cases ho with
  | unchanged => exact hsaved m hm
  | saved => exact Option.some.inj hm ▸ hlm
  | dead => exact hsaved m hm
  | deadSaved =>
    rw [← Option.some.inj hm, foldl_lastLabel LiveMap.removeSegment fun _ _ => rfl]
    exact hlm
  | live => exact hsaved m hm
  | liveSaved =>
    rw [← Option.some.inj hm, addCompacted, foldl_lastLabel (handOver _) fun _ _ => rfl]
    exact hlm

/-- A label taken not later than `t`. -/
def TakenBy (t : ℕ) (label : Name) : Prop := ∃ s ≤ t, label = tai64nLabel s

theorem TakenBy.mono {s t : ℕ} {label : Name} (h : TakenBy s label) (hst : s ≤ t) :
    TakenBy t label := by
  obtain ⟨r, hr, rfl⟩ := h
  exact ⟨r, hr.trans hst, rfl⟩

theorem TakenBy.lt {s t : ℕ} {label : Name} (h : TakenBy s label) (ht : ClockInRange t)
    (hst : s < t) : label < tai64nLabel t := by
  obtain ⟨r, hr, rfl⟩ := h
  exact tai64nLabel_lt ht (by omega)

namespace Volume

structure Inv (hdr : Header) (v : Volume) (ops : List Entry) : Prop where
  good : Good hdr.blockSize 24 v.store
  openValid : (v.openSegment hdr).Valid hdr.blockSize
  openNoWrap : (v.openSegment hdr).NoWrap
  openTaken : TakenBy v.clock v.openLabel
  names : ∀ k ∈ v.store.segments.keys, ∃ label, TakenBy v.clock label ∧ k = logPath label
  lastLabel : ∀ m, v.store.liveMap = some m → m.lastLabel = [] ∨ TakenBy v.clock m.lastLabel
  fresh : v.openName ∉ v.store.segments.keys
  content : replay (v.store.put v.openName (v.openSegment hdr)).segments.entries =
    contents hdr.blockSize ops

variable {hdr : Header} {v : Volume} {ops : List Entry}

@[simp] theorem openSegment_blockSize (v : Volume) :
    (v.openSegment hdr).header.blockSize = hdr.blockSize := rfl

theorem inv_start (t : ℕ) : Inv hdr (start t) [] := by
  have hkeys : (start t).store.segments.keys = [] := rfl
  have hentries : (start t).store.segments.entries = [] := rfl
  have hopen : (start t).openEntries = [] := rfl
  have hmap : (start t).store.liveMap = none := rfl
  have htaken : TakenBy (start t).clock (start t).openLabel := ⟨t, le_refl t, rfl⟩
  refine ⟨⟨⟨?_, ?_, ?_⟩, ?_⟩, ⟨openSegment_blockSize _, ?_⟩, ?_, htaken, ?_, ?_, ?_, ?_⟩
  · simp [hentries]
  · simp [hentries]
  · simp [hentries]
  · simp [hmap]
  · simp [openSegment, hopen]
  · simp [Segment.NoWrap, openSegment, hopen]
  · simp [hkeys]
  · simp [hmap]
  · simp [hkeys]
  · funext x
    rw [replay_put_of_none (by simp [hkeys]) (by simp [Segment.byteAt, openSegment, hopen]),
      hentries]
    rfl

theorem contents_append (bs : ℕ) (ops : List Entry) (e : Entry) (x : ℕ) :
    contents bs (ops ++ [e]) x = (e.byteAt bs x).getD (contents bs ops x) := by
  simp [contents, Entry.apply]

theorem openSegment_guest_byteAt (e : Entry) (x : ℕ) :
    ((v.step hdr (.guest e)).openSegment hdr).byteAt x =
      (e.byteAt hdr.blockSize x).or ((v.openSegment hdr).byteAt x) := by
  simp [Segment.byteAt, step, openSegment, lastSome_append]

theorem Inv.guest (h : Inv hdr v ops) {e : Entry} (hok : StepOk hdr v (.guest e))
    (hun : Undisturbed hdr v (.guest e)) : Inv hdr (v.step hdr (.guest e)) (ops ++ [e]) where
  good := h.good
  openValid := by
    refine ⟨openSegment_blockSize _, fun e' he' => ?_⟩
    rcases List.mem_append.mp he' with he' | he'
    · exact h.openValid.2 e' he'
    · rw [List.mem_singleton.mp he']
      exact hok.1
  openNoWrap := by
    intro e' he'
    rcases List.mem_append.mp he' with he' | he'
    · exact h.openNoWrap e' he'
    · rw [List.mem_singleton.mp he']
      exact hok.2
  openTaken := h.openTaken
  names := h.names
  lastLabel := h.lastLabel
  fresh := h.fresh
  content := by
    funext x
    have hold := congrFun h.content x
    rw [replay_put] at hold
    rw [replay_put, openSegment_guest_byteAt, contents_append]
    cases hx : e.byteAt hdr.blockSize x with
    | none => rw [Option.none_or]; exact hold
    | some w =>
      -- no newer segment touches the block, so the request's byte is the last one
      have hcov : e.Covers hdr.blockSize (x / hdr.blockSize) := by
        by_contra hnot
        rw [(hok.1.byteAt_eq_none x).mpr hnot] at hx
        cases hx
      have hnewer : lastSome ((v.store.segments.above v.openName).entries.map
          fun l => l.2.byteAt x) = none := by
        rw [lastSome_eq_none]
        intro o ho
        obtain ⟨l, hl, rfl⟩ := List.mem_map.mp ho
        obtain ⟨hl, hlt⟩ := SortedMap.mem_above.mp hl
        exact ((h.good.logs.valid l hl).byteAt_eq_none x).mpr (hun l hl hlt _ hcov)
      show (Option.or (lastSome ((v.store.segments.above v.openName).entries.map
          fun l => l.2.byteAt x)) _).getD 0 = _
      rw [hnewer]
      rfl

theorem Inv.logPath_lt (h : Inv hdr v ops) {t : ℕ} (ht : ClockInRange t) (hlt : v.clock < t)
    {k : Name} (hk : k ∈ v.store.segments.keys) : k < logPath (tai64nLabel t) := by
  obtain ⟨label, htaken, rfl⟩ := h.names k hk
  obtain ⟨s, hs, rfl⟩ := htaken
  rw [logPath_lt_logPath (by simp)]
  exact tai64nLabel_lt ht (by omega)

theorem Inv.openName_lt (h : Inv hdr v ops) {t : ℕ} (ht : ClockInRange t) (hlt : v.clock < t) :
    v.openName < logPath (tai64nLabel t) := by
  obtain ⟨s, hs, hlabel⟩ := h.openTaken
  rw [openName, hlabel, logPath_lt_logPath (by simp)]
  exact tai64nLabel_lt ht (by omega)

theorem Inv.hasLabel (h : Inv hdr v ops) : HasLabel 24 v.openName := by
  obtain ⟨s, -, hlabel⟩ := h.openTaken
  exact ⟨v.openLabel, by rw [hlabel, length_tai64nLabel], rfl⟩

theorem Inv.rotate (h : Inv hdr v ops) {t : ℕ} (hok : StepOk hdr v (.rotate t))
    (hun : Undisturbed hdr v (.rotate t)) : Inv hdr (v.rotate hdr t) ops := by
  obtain ⟨hlt, ht⟩ := hok
  unfold Volume.rotate
  split_ifs with hempty
  · exact h
  have hkeys : ∀ k ∈ (v.store.put v.openName (v.openSegment hdr)).segments.keys,
      k = v.openName ∨ k ∈ v.store.segments.keys := by
    intro k hk
    obtain ⟨s, hs⟩ := SortedMap.mem_keys.mp hk
    rcases SortedMap.mem_insert.mp hs with he | ⟨hs, -⟩
    · exact .inl (congrArg Prod.fst he)
    · exact .inr (SortedMap.mem_keys.mpr ⟨s, hs⟩)
  have hfresh : logPath (tai64nLabel t) ∉
      (v.store.put v.openName (v.openSegment hdr)).segments.keys := by
    intro hk
    rcases hkeys _ hk with he | hk
    · exact (h.openName_lt ht hlt).ne he.symm
    · exact lt_irrefl _ (h.logPath_lt ht hlt hk)
  exact
    { good := h.good.arrive h.openValid h.openNoWrap h.hasLabel h.fresh fun m hm => by
        rw [openName, labelFromLogPath_logPath]
        exact hun hempty m hm
      openValid := ⟨openSegment_blockSize _, fun e he => by cases he⟩
      openNoWrap := fun e he => by cases he
      openTaken := ⟨t, le_refl t, rfl⟩
      names := by
        intro k hk
        rcases hkeys k hk with rfl | hk
        · exact ⟨v.openLabel, h.openTaken.mono hlt.le, rfl⟩
        · obtain ⟨label, htaken, rfl⟩ := h.names k hk
          exact ⟨label, htaken.mono hlt.le, rfl⟩
      lastLabel := fun m hm => (h.lastLabel m hm).imp id fun htaken => htaken.mono hlt.le
      fresh := hfresh
      content := by
        funext x
        rw [← h.content]
        exact replay_put_of_none hfresh rfl }

theorem Inv.runAllowed (h : Inv hdr v ops) {t : ℕ} (hlt : v.clock < t) (ht : ClockInRange t)
    (hclear : Clear v.store) : RunAllowed 24 v.store (tai64nLabel t) where
  length := length_tai64nLabel t
  newest := fun _ hk => h.logPath_lt ht hlt hk
  afterLast := by
    intro m hm
    rcases h.lastLabel m hm with hempty | htaken
    · obtain ⟨c, l, hcons⟩ := List.exists_cons_of_length_pos
        (show 0 < (tai64nLabel t).length by simp)
      rw [hempty, hcons]
      exact List.nil_lt_cons c l
    · exact htaken.lt ht hlt
  clear := hclear

theorem Inv.gc (h : Inv hdr v ops) {cfg : GCConfig} {faults : Faults} {now : ℕ → ℕ} {t : ℕ}
    (hok : StepOk hdr v (.gc cfg faults now t)) (hun : Undisturbed hdr v (.gc cfg faults now t)) :
    Inv hdr (v.step hdr (.gc cfg faults now t)) ops := by
  obtain ⟨hlt, ht⟩ := hok
  obtain ⟨hclear, hshare⟩ := hun
  have hallowed := h.runAllowed hlt ht hclear
  have hgood := (runGC_spec h.good hallowed cfg faults now).1
  have hlast := fun m hm => (h.lastLabel m hm).imp id fun htaken => htaken.mono hlt.le
  have hnames : ∀ k ∈ v.store.segments.keys, ∃ label, TakenBy t label ∧ k = logPath label := by
    intro k hk
    obtain ⟨label, htaken, rfl⟩ := h.names k hk
    exact ⟨label, htaken.mono hlt.le, rfl⟩
  rcases he : v.store.segments.entries with _ | ⟨first, rest⟩
  · have hrun : (runGC cfg faults (tai64nLabel t) now v.store).2 = v.store := by simp [runGC, he]
    simp only [step, hrun]
    exact ⟨h.good, h.openValid, h.openNoWrap, h.openTaken.mono hlt.le, hnames, hlast, h.fresh,
      h.content⟩
  have ho := runGC_outcome cfg faults (tai64nLabel t) now he
  have hm := runMapOk_analyze h.good hallowed cfg he
  obtain ⟨keep, tail, hent, -, htail⟩ := ho.entries_eq hm
  have hkeys : ∀ k ∈ (runGC cfg faults (tai64nLabel t) now v.store).2.segments.keys,
      k = logPath (tai64nLabel t) ∨ k ∈ v.store.segments.keys := by
    intro k hk
    obtain ⟨s, hs⟩ := SortedMap.mem_keys.mp hk
    rw [hent] at hs
    rcases List.mem_append.mp hs with hs | hs
    · exact .inr (SortedMap.mem_keys.mpr ⟨s, List.mem_of_mem_filter hs⟩)
    · exact .inl (htail _ hs).1
  exact
    { good := hgood
      openValid := h.openValid
      openNoWrap := h.openNoWrap
      openTaken := h.openTaken.mono hlt.le
      names := by
        intro k hk
        rcases hkeys k hk with rfl | hk
        · exact ⟨tai64nLabel t, ⟨t, le_refl t, rfl⟩, rfl⟩
        · exact hnames k hk
      lastLabel := by
        refine ho.lastLabel (P := fun l => l = [] ∨ TakenBy t l)
          (analyze_lastLabel (P := fun l => l = [] ∨ TakenBy t l) (.inl rfl) (fun k hk => ?_) hlast)
          hlast
        obtain ⟨label, htaken, rfl⟩ := hnames k hk
        rw [labelFromLogPath_logPath]
        exact .inr htaken
      fresh := by
        intro hk
        rcases hkeys _ hk with he | hk
        · exact (h.openName_lt ht hlt).ne he
        · exact h.fresh hk
      content := (ho.replay_put_eq hm h.openValid h.fresh (h.openName_lt ht hlt) hshare).trans
        h.content }

theorem inv_run {steps : List VolumeStep} (h : Inv hdr v ops)
    (hok : Always hdr (StepOk hdr) v steps) (hun : Always hdr (Undisturbed hdr) v steps) :
    Inv hdr (v.run hdr steps) (ops ++ guestOps steps) := by
  induction steps generalizing v ops with
  | nil => rwa [guestOps, List.filterMap_nil, List.append_nil]
  | cons s steps ih =>
    obtain ⟨hok, hoks⟩ := hok
    obtain ⟨hun, huns⟩ := hun
    cases s with
    | guest e =>
      have hstep := ih (h.guest hok hun) hoks huns
      rwa [List.append_assoc] at hstep
    | rotate t => exact ih (h.rotate hok hun) hoks huns
    | gc cfg faults now t => exact ih (h.gc hok hun) hoks huns

theorem Inv.rotate_replay (h : Inv hdr v ops) (t : ℕ) :
    replay (v.rotate hdr t).store.segments.entries = contents hdr.blockSize ops := by
  rw [← h.content]
  unfold Volume.rotate
  split_ifs with hempty
  · funext x
    refine (replay_put_of_none h.fresh ?_).symm
    simp [Segment.byteAt, openSegment, hempty]
  · rfl

/-- In a run whose activities leave each other undisturbed, rotating the open segment makes the
published segments replay to what the guest wrote. -/
theorem rotate_replays_guest {t₀ : ℕ} {steps : List VolumeStep}
    (hok : Always hdr (StepOk hdr) (start t₀) steps)
    (hun : Always hdr (Undisturbed hdr) (start t₀) steps) (t : ℕ) :
    replay (((start t₀).run hdr steps).rotate hdr t).store.segments.entries =
      contents hdr.blockSize (guestOps steps) :=
  (inv_run (inv_start t₀) hok hun).rotate_replay t

def sampleHeader : Header := ⟨2, 1, [], 16, ""⟩

def sampleGC (t : ℕ) : VolumeStep := .gc ⟨90, false⟩ noFaults (fun _ => 0) t

/-- Block 0 and twice block 1, published with the label of clock 0. -/
def sampleRotated : List VolumeStep :=
  [.guest (sampleWrite 0 [1]), .guest (sampleWrite 1 [7]), .guest (sampleWrite 1 [8]), .rotate 1]

/-- Block 0 is written again into the segment begun at clock 1; the compactor, at clock 2,
copies the old block 0 into a segment with a greater label. -/
def staleSteps : List VolumeStep := sampleRotated ++ [.guest (sampleWrite 0 [2]), sampleGC 2]

theorem stale_copy_wins :
    Always sampleHeader (StepOk sampleHeader) (start 0) staleSteps ∧
      contents 1 (guestOps staleSteps) 0 = 2 ∧
      replay (((start 0).run sampleHeader staleSteps).rotate sampleHeader 3).store.segments.entries
        0 = 1 :=
  ⟨by decide +kernel, by decide, by decide +kernel⟩

/-- The same run with the compactor right after the rotation. -/
def quietSteps : List VolumeStep := sampleRotated ++ [sampleGC 2]

theorem quietSteps_undisturbed :
    Always sampleHeader (Undisturbed sampleHeader) (start 0) quietSteps := by
  refine ⟨?_, ?_, ?_, ?_, ⟨?_, ?_⟩, trivial⟩
  · exact fun l hl => by cases hl
  · exact fun l hl => by cases hl
  · exact fun l hl => by cases hl
  · exact fun _ m hm => by cases hm
  · decide +kernel
  · rintro b ⟨e, he, -⟩
    cases he

theorem quiet_rotate_replays :
    replay (((start 0).run sampleHeader quietSteps).rotate sampleHeader 3).store.segments.entries =
      contents 1 (guestOps quietSteps) :=
  rotate_replays_guest (by decide +kernel) quietSteps_undisturbed 3

end Volume

end Lbd
