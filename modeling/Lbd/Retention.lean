import Lbd.DaemonStart
import Lbd.ScanCrash

/-!
# Retention of scan logs

`scanOnce` of `lbdd scan`: a scan publishes a log, the log is uploaded, and the oldest logs
are deleted until the rest is within the limit. An upload may fail, and a log may be neither
uploaded nor kept.
-/

namespace Lbd.Daemon

open LogName Scan

/-- The loop of `enforceLogLimit` over the files that could be examined, oldest first. -/
def removeOldest {V : Type*} (limit : ℕ) (removeFails : Name → Bool) :
    List (Name × ℕ) → ℕ → SortedMap Name V → SortedMap Name V
  | [], _, logs => logs
  | (name, size) :: infos, total, logs =>
    if limit < total then
      if removeFails name then logs
      else removeOldest limit removeFails infos (total - size) (logs.erase name)
    else logs

def totalSize (infos : List (Name × ℕ)) : ℕ := (infos.map Prod.snd).sum

/-- Which system calls of `enforceLogLimit` fail. -/
structure LimitFaults where
  stat : Name → Bool
  remove : Name → Bool

def LimitFaults.none : LimitFaults := ⟨fun _ => false, fun _ => false⟩

/-- The files with their sizes, as far as they can be examined. -/
def logInfos (size : Segment → ℕ) (faults : LimitFaults) (logs : SortedMap Name Segment) :
    List (Name × ℕ) :=
  (discoverLogFiles logs).filterMap fun name =>
    if faults.stat name then .none else (logs.find? name).map fun seg => (name, size seg)

def enforceLogLimit (size : Segment → ℕ) (limit : ℕ) (faults : LimitFaults)
    (logs : SortedMap Name Segment) : SortedMap Name Segment :=
  let infos := logInfos size faults logs
  removeOldest limit faults.remove infos (totalSize infos) logs

/-- The file is examined, it and the older ones can be removed, and together with the newer
ones it exceeds the limit. -/
def Exceeds (limit : ℕ) (removeFails : Name → Bool) (infos : List (Name × ℕ)) (name : Name) :
    Prop :=
  ∃ older size newer, infos = older ++ (name, size) :: newer ∧
    (∀ i ∈ older ++ [(name, size)], removeFails i.1 = false) ∧
    limit < totalSize ((name, size) :: newer)

section Limit

variable {V : Type*} {limit : ℕ} {removeFails : Name → Bool} {infos : List (Name × ℕ)}
  {name k : Name} {size : ℕ}

theorem totalSize_cons : totalSize ((name, size) :: infos) = size + totalSize infos := by
  simp [totalSize]

theorem totalSize_append (older newer : List (Name × ℕ)) :
    totalSize (older ++ newer) = totalSize older + totalSize newer := by
  simp [totalSize]

theorem Exceeds.lt_totalSize (h : Exceeds limit removeFails infos k) :
    limit < totalSize infos := by
  obtain ⟨older, ksize, newer, hinfos, -, hlimit⟩ := h
  rw [hinfos, totalSize_append]
  omega

theorem Exceeds.head (h : Exceeds limit removeFails ((name, size) :: infos) k) :
    removeFails name = false := by
  obtain ⟨older, ksize, newer, hinfos, hfails, -⟩ := h
  cases older with
  | nil =>
    obtain ⟨hhead, -⟩ := List.cons.inj hinfos
    have := hfails (k, ksize) (by simp)
    rwa [← hhead] at this
  | cons o older =>
    obtain ⟨hhead, -⟩ := List.cons.inj hinfos
    have := hfails o (by simp)
    rwa [← hhead] at this

theorem exceeds_cons :
    Exceeds limit removeFails ((name, size) :: infos) k ↔
      (limit < totalSize ((name, size) :: infos) ∧ removeFails name = false) ∧
        (k = name ∨ Exceeds limit removeFails infos k) := by
  constructor
  · intro h
    refine ⟨⟨h.lt_totalSize, h.head⟩, ?_⟩
    obtain ⟨older, ksize, newer, hinfos, hfails, hlimit⟩ := h
    cases older with
    | nil =>
      obtain ⟨hhead, -⟩ := List.cons.inj hinfos
      exact .inl (Prod.mk.inj hhead).1.symm
    | cons o older =>
      obtain ⟨-, htail⟩ := List.cons.inj hinfos
      exact .inr ⟨older, ksize, newer, htail,
        fun i hi => hfails i (List.mem_cons_of_mem _ hi), hlimit⟩
  · rintro ⟨⟨hlimit, hname⟩, rfl | ⟨older, ksize, newer, rfl, hfails, hk⟩⟩
    · exact ⟨[], size, infos, rfl, by simpa using hname, hlimit⟩
    · refine ⟨(name, size) :: older, ksize, newer, rfl, ?_, hk⟩
      rw [List.cons_append, List.forall_mem_cons]
      exact ⟨hname, hfails⟩

theorem mem_removeOldest {logs : SortedMap Name V} {e : Name × V} :
    e ∈ (removeOldest limit removeFails infos (totalSize infos) logs).entries ↔
      e ∈ logs.entries ∧ ¬Exceeds limit removeFails infos e.1 := by
  induction infos generalizing logs with
  | nil =>
    have hnot : ¬Exceeds limit removeFails [] e.1 := by
      rintro ⟨older, size, newer, hinfos, -⟩
      exact absurd hinfos (by simp)
    simp [removeOldest, hnot]
  | cons info infos ih =>
    obtain ⟨name, size⟩ := info
    rw [removeOldest, exceeds_cons]
    split_ifs with hlimit hfails
    · simp [hfails]
    · rw [totalSize_cons, Nat.add_sub_cancel_left, ih, SortedMap.mem_erase]
      rw [totalSize_cons] at hlimit
      simp only [Bool.not_eq_true] at hfails
      simp only [hlimit, hfails, and_self, true_and, not_or]
      tauto
    · simp [hlimit]

end Limit

section Rounds

variable {δ : Type*} [DecidableEq δ] (sha : List UInt8 → δ) (size : Segment → ℕ) (limit : ℕ)

/-- One call of `scanOnce`: the scan and how far it comes, whether the upload succeeds, and
which calls of `enforceLogLimit` fail. -/
structure Round where
  call : Call
  point : Point
  uploads : Bool
  faults : LimitFaults

/-- The local files and table, the objects in S3, and the logs published and committed so far. -/
structure Store (δ : Type*) where
  world : World δ
  s3 : SortedMap Name Segment
  published : List (Name × Segment)

def Round.name (r : Round) : Name := logPath r.call.label

/-- The log of a successful scan, unless it finds no change. -/
def Round.log? (r : Round) (st : Store δ) : Option (Name × Segment) :=
  let s := detect sha r.call.device st.world.db
  if s.logEntries = [] ∨ r.point ≠ .committed then none
  else some (r.name, r.call.segment s.logEntries)

/-- The objects once the log of the round is uploaded. -/
def Round.s3 (r : Round) (st : Store δ) (log : Name × Segment) : SortedMap Name Segment :=
  if r.uploads then st.s3.insert log.1 log.2 else st.s3

def scanOnce (st : Store δ) (r : Round) : Store δ :=
  let world := st.world.scanDevice sha r.call r.point
  match r.log? sha st with
  | none => { st with world := world }
  | some log =>
    { world := { world with
        logs := if 0 < limit then enforceLogLimit size limit r.faults world.logs else world.logs }
      s3 := r.s3 st log
      published := st.published ++ [log] }

/-- Every published log is in the directory or in S3. -/
def Kept (st : Store δ) : Prop :=
  ∀ log ∈ st.published, log ∈ st.world.logs.entries ∨ log ∈ st.s3.entries

/-- The label of the scan is not that of an earlier log. -/
def Fresh (st : Store δ) (r : Round) : Prop := ∀ log ∈ st.published, log.1 ≠ r.name

/-- The limit does not reach a log that is not in S3. -/
def Spares (st : Store δ) (r : Round) : Prop :=
  ∀ new, r.log? sha st = some new → 0 < limit →
    ∀ log ∈ st.published ++ [new], log ∉ (r.s3 st new).entries →
      ¬Exceeds limit r.faults.remove
        (logInfos size r.faults (st.world.scanDevice sha r.call r.point).logs) log.1

variable {sha size limit} {st : Store δ} {r : Round}

theorem mem_scanDevice {log : Name × Segment} (hne : log.1 ≠ r.name)
    (h : log ∈ st.world.logs.entries) :
    log ∈ (st.world.scanDevice sha r.call r.point).logs.entries := by
  unfold World.scanDevice
  dsimp only
  split_ifs
  · exact h
  · cases r.point with
    | unwritten => exact h
    | writing header n => exact h
    | renamed => exact SortedMap.mem_insert.mpr (.inr ⟨h, hne⟩)
    | committed => exact SortedMap.mem_insert.mpr (.inr ⟨h, hne⟩)

theorem log_mem_scanDevice {log : Name × Segment} (h : r.log? sha st = some log) :
    log ∈ (st.world.scanDevice sha r.call r.point).logs.entries := by
  unfold Round.log? at h
  dsimp only at h
  split_ifs at h with hnone
  obtain ⟨hentries, hpoint⟩ := not_or.mp hnone
  rw [← Option.some.inj h, not_ne_iff.mp hpoint, World.scanDevice, if_neg hentries]
  exact SortedMap.mem_insert.mpr (.inl rfl)

omit [DecidableEq δ] in
theorem mem_s3 {log new : Name × Segment} (hne : log.1 ≠ new.1) (h : log ∈ st.s3.entries) :
    log ∈ (r.s3 st new).entries := by
  unfold Round.s3
  split_ifs
  · exact SortedMap.mem_insert.mpr (.inr ⟨h, hne⟩)
  · exact h

theorem name_of_log? {new : Name × Segment} (h : r.log? sha st = some new) : new.1 = r.name := by
  unfold Round.log? at h
  dsimp only at h
  split_ifs at h
  rw [← Option.some.inj h]

theorem mem_scanOnce {log new : Name × Segment} (hnew : r.log? sha st = some new) :
    log ∈ (scanOnce sha size limit st r).world.logs.entries ↔
      log ∈ (st.world.scanDevice sha r.call r.point).logs.entries ∧ (0 < limit →
        ¬Exceeds limit r.faults.remove
          (logInfos size r.faults (st.world.scanDevice sha r.call r.point).logs) log.1) := by
  unfold scanOnce
  rw [hnew]
  dsimp only
  split_ifs with hlimit
  · rw [enforceLogLimit, mem_removeOldest]
    simp [hlimit]
  · simp [hlimit]

theorem kept_scanOnce_iff (h : Kept st) (hfresh : Fresh st r) :
    Kept (scanOnce sha size limit st r) ↔ Spares sha size limit st r := by
  cases hnew : r.log? sha st with
  | none =>
    apply iff_of_true
    · intro log hlog
      rw [scanOnce, hnew] at hlog ⊢
      exact (h log hlog).imp_left (mem_scanDevice (hfresh log hlog))
    · intro new hsome
      rw [hnew] at hsome
      cases hsome
  | some new =>
    have hpublished : (scanOnce sha size limit st r).published = st.published ++ [new] := by
      rw [scanOnce, hnew]
    have hs3 : (scanOnce sha size limit st r).s3 = r.s3 st new := by rw [scanOnce, hnew]
    constructor
    · intro hkept new' hsome hlimit log hlog hnot
      obtain rfl : new = new' := Option.some.inj (hnew.symm.trans hsome)
      have hlocal := (hkept log (by rwa [hpublished])).resolve_right (by rwa [hs3])
      exact ((mem_scanOnce hnew).mp hlocal).2 hlimit
    · intro hspares log hlog
      rw [hpublished] at hlog
      rw [hs3, or_iff_not_imp_right]
      intro hnot
      refine (mem_scanOnce hnew).mpr ⟨?_, fun hlimit => hspares new hnew hlimit log hlog hnot⟩
      obtain hold | hnow := List.mem_append.mp hlog
      · have hne := hfresh log hold
        obtain hlocal | hremote := h log hold
        · exact mem_scanDevice hne hlocal
        · exact absurd (mem_s3 (by rwa [name_of_log? hnew]) hremote) hnot
      · rw [List.mem_singleton.mp hnow]
        exact log_mem_scanDevice hnew

variable {w : World δ} {s3 : SortedMap Name Segment} {rs : List Round}

/-- Every history with fresh labels: all published logs are kept at all times exactly if no
round deletes one that is not in S3. -/
theorem retained_iff (hfresh : EachStep (scanOnce sha size limit) ⟨w, s3, []⟩ Fresh rs) :
    (∀ pre, pre <+: rs → Kept (after (scanOnce sha size limit) ⟨w, s3, []⟩ pre)) ↔
      EachStep (scanOnce sha size limit) ⟨w, s3, []⟩ (Spares sha size limit) rs := by
  constructor
  · intro h pre r hp
    have hpre := (List.prefix_append pre [r]).trans hp
    have hkept := h _ hp
    rw [after_concat] at hkept
    exact (kept_scanOnce_iff (h pre hpre) (hfresh pre r hp)).mp hkept
  · intro h pre hpre
    have hboth : EachStep (scanOnce sha size limit) ⟨w, s3, []⟩
        (fun st r => Fresh st r ∧ Spares sha size limit st r) pre :=
      fun p r hp => ⟨hfresh p r (hp.trans hpre), h p r (hp.trans hpre)⟩
    exact hboth.invariant nofun fun st r hk hc => (kept_scanOnce_iff hk hc.1).mpr hc.2

end Rounds

/-- A scan of a one-byte device, with its upload failing or not. -/
def byteRound (b : UInt8) (t : ℕ) (uploads : Bool) : Round :=
  ⟨scanByte b t, .committed, uploads, .none⟩

/-- Room for one log of 100 bytes. -/
def byteStore (rs : List Round) : Store (List UInt8) :=
  after (scanOnce id (fun _ => 100) 150) ⟨.empty, .empty, []⟩ rs

/-- Both logs are uploaded, and the second takes the room of the first. -/
def bothUploaded : List Round := [byteRound 1 0 true, byteRound 2 1 true]

theorem fresh_bothUploaded : EachStep (scanOnce (id : List UInt8 → List UInt8) (fun _ => 100) 150)
    ⟨.empty, .empty, []⟩ Fresh bothUploaded := by
  refine eachStep_cons nofun (eachStep_cons ?_ eachStep_nil)
  have hnames : ∀ name ∈ (byteStore [byteRound 1 0 true]).published.map Prod.fst,
      name ≠ (byteRound 2 1 true).name := by decide +kernel
  exact fun log hlog => hnames log.1 (List.mem_map_of_mem hlog)

/-- The limit removes the first log, which is in S3. -/
theorem uploaded_logs_retained :
    (byteStore bothUploaded).world.logs.keys = [logPath (tai64nLabel 1)] ∧
      Kept (byteStore bothUploaded) := by
  refine ⟨by decide +kernel, ?_⟩
  refine (retained_iff fresh_bothUploaded).mpr ?_ _ (List.prefix_refl _)
  refine eachStep_cons ?_ (eachStep_cons ?_ eachStep_nil)
  · intro new _ _ log _ _ hexceeds
    have hlt := hexceeds.lt_totalSize
    have htotal : totalSize (logInfos (fun _ => 100) (byteRound 1 0 true).faults
        ((World.empty : World (List UInt8)).scanDevice id (byteRound 1 0 true).call
          (byteRound 1 0 true).point).logs) = 100 := by
      decide +kernel
    exact absurd (hlt.trans_eq htotal) (by decide)
  · -- every published log is in S3 by then
    intro new hnew _ log hlog hnot
    have hall : ((byteRound 2 1 true).log? id (byteStore [byteRound 1 0 true])).all (fun new =>
        ((byteStore [byteRound 1 0 true]).published ++ [new]).all fun log =>
          log ∈ ((byteRound 2 1 true).s3 (byteStore [byteRound 1 0 true]) new).entries) = true := by
      decide +kernel
    rw [show (byteRound 2 1 true).log? id (byteStore [byteRound 1 0 true]) = some new from hnew,
      Option.all_some, List.all_eq_true] at hall
    exact absurd (of_decide_eq_true (hall log hlog)) hnot

/-- The upload of the first log fails, and the second log takes its room. -/
def failedUpload : List Round := [byteRound 1 0 false, byteRound 2 1 true]

/-- The first log is in neither place. -/
theorem failed_upload_lost :
    (byteStore failedUpload).published.map Prod.fst =
        [logPath (tai64nLabel 0), logPath (tai64nLabel 1)] ∧
      (byteStore failedUpload).world.logs.keys = [logPath (tai64nLabel 1)] ∧
      (byteStore failedUpload).s3.keys = [logPath (tai64nLabel 1)] ∧
      ¬Kept (byteStore failedUpload) := by
  have hpublished : (byteStore failedUpload).published.map Prod.fst =
      [logPath (tai64nLabel 0), logPath (tai64nLabel 1)] := by
    decide +kernel
  have hlogs : (byteStore failedUpload).world.logs.keys = [logPath (tai64nLabel 1)] := by
    decide +kernel
  have hs3 : (byteStore failedUpload).s3.keys = [logPath (tai64nLabel 1)] := by decide +kernel
  refine ⟨hpublished, hlogs, hs3, fun hkept => ?_⟩
  have hmem : logPath (tai64nLabel 0) ∈ (byteStore failedUpload).published.map Prod.fst := by
    rw [hpublished]
    exact List.mem_cons_self
  obtain ⟨log, hlog, hname⟩ := List.mem_map.mp hmem
  have hkey : logPath (tai64nLabel 0) ∈ [logPath (tai64nLabel 1)] := by
    rw [← hname]
    obtain hlocal | hremote := hkept log hlog
    · rw [← hlogs]
      exact SortedMap.mem_keys.mpr ⟨log.2, hlocal⟩
    · rw [← hs3]
      exact SortedMap.mem_keys.mpr ⟨log.2, hremote⟩
  revert hkey
  decide +kernel

end Lbd.Daemon
