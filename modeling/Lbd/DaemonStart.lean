import Lbd.ExtentMap
import Lbd.Interleaving
import Lbd.Log
import Lbd.RingBuffer
import Lbd.SortedMap

/-!
# Start of the daemon

`lbdd run` against a device whose log rotates meanwhile: `seedExtentMap` lists the log
directory and scans what it finds, then the watch command is sent, then events are read and
their files scanned. A rotation is a rename followed by a notification of the watchers, and
either may fall anywhere.
-/

namespace Lbd.Daemon

open LogName ExtentMap

/-- The names `discoverLogFiles` keeps. -/
def isLog (name : Name) : Bool := !(log ++ tmp).isSuffixOf name && log.isSuffixOf name

/-- `discoverLogFiles`, in name order. -/
def discoverLogFiles {V : Type*} (dir : SortedMap Name V) : List Name := dir.keys.filter isLog

/-- The calls that `scanLogIntoExtentMap` makes for one entry. -/
def entryOp (logPath : String) (e : Entry) (entryIdx : ℕ) : Option Op :=
  let numBlocks := e.numBlocks 4096
  if e.isWrite then some (.addWrite e.block numBlocks ⟨logPath, entryIdx, e.block, e.length⟩)
  else if e.isTrim then some (.removeTrim e.block numBlocks)
  else none

/-- The calls that `scanLogIntoExtentMap` makes. -/
def scanLog (logPath : String) (seg : Segment) : List Op :=
  seg.entries.zipIdx.filterMap fun p => entryOp logPath p.1 p.2

/-- A segment label, 24 hexadecimal digits. -/
abbrev Label := { label : Name // label.length = 24 }

/-- `filename` in `processLogFile`; the kernel gives the file this name. -/
def fileName (label : Label) : Name := logPath label.1

def Label.zero : Label := ⟨List.replicate 24 '0', by simp⟩

/-- `--log-dir` and `--safe-dir` may be one directory. `safePath` is the path of a file in the
latter. -/
structure Setup where
  sameDir : Bool
  safePath : Name → String

/-- How far `run` has come. -/
inductive Stage where
  | starting
  /-- `seedExtentMap` with the files it has still to scan -/
  | seeding (files : List Name)
  /-- in `ReadEvent` -/
  | reading
  | peeked (label : Label)
  /-- `processLogFile` -/
  | processing (label : Label)

/-- `rotating` is a segment that is renamed but not yet notified, with whether the daemon had
listed the directory when it was renamed. `calls` are the calls on the extent map and `rotated`
the rotations so far. -/
structure State where
  dir : SortedMap Name Segment
  safe : SortedMap Name Segment
  rotating : Option (Label × Bool)
  stage : Stage
  watcher : Option (RingBuffer Label 64)
  calls : List Op
  rotated : List (Label × Segment)

/-- Nothing is rotated; the safe directory has what earlier daemons left. -/
def State.start (safe : SortedMap Name Segment) : State :=
  ⟨.empty, safe, none, .starting, none, [], []⟩

def State.listed (s : State) : Bool :=
  match s.stage with
  | .starting => false
  | _ => true

inductive Event where
  /-- `lbd_rotate_segment` up to the rename -/
  | rename (label : Label) (seg : Segment)
  /-- `lbd_notify_watchers` -/
  | notify
  | list
  | seed
  | watch
  | peek
  | pop
  | process

variable (setup : Setup)

def safeDir (s : State) : SortedMap Name Segment := if setup.sameDir then s.dir else s.safe

/-- Copy a log to the safe directory, if that is another one. -/
def copyLog (name : Name) (s : State) : State :=
  if setup.sameDir then s
  else
    match s.dir.find? name with
    | some seg => { s with safe := s.safe.insert name seg }
    | none => s

/-- `scanLogIntoExtentMap` of the copy. -/
def scanCopy (name : Name) (s : State) : State :=
  match (safeDir setup s).find? name with
  | some seg => { s with calls := s.calls ++ scanLog (setup.safePath name) seg }
  | none => s

/-- The loop body of `seedExtentMap`: an existing copy is kept. -/
def seedLog (name : Name) (s : State) : State :=
  if ((safeDir setup s).find? name).isSome then scanCopy setup name s
  else scanCopy setup name (copyLog setup name s)

def processLogFile (label : Label) (s : State) : State :=
  scanCopy setup (fileName label) (copyLog setup (fileName label) s)

def notifyWatchers (label : Label) (s : State) : State :=
  { s with rotating := none, watcher := s.watcher.map fun w => w.push label }

def step (s : State) : Event → State
  | .rename label seg =>
    if s.rotating.isSome then s
    else
      { s with
        dir := s.dir.insert (fileName label) seg
        rotating := some (label, s.listed)
        rotated := s.rotated ++ [(label, seg)] }
  | .notify =>
    match s.rotating with
    | some (label, _) => notifyWatchers label s
    | none => s
  | .list =>
    match s.stage with
    | .starting => { s with stage := .seeding (discoverLogFiles s.dir) }
    | _ => s
  | .seed =>
    match s.stage with
    | .seeding (name :: files) => seedLog setup name { s with stage := .seeding files }
    | _ => s
  | .watch =>
    match s.stage with
    | .seeding [] => { s with stage := .reading, watcher := some (.empty .zero) }
    | _ => s
  | .peek =>
    match s.stage, s.watcher.bind RingBuffer.peek with
    | .reading, some label => { s with stage := .peeked label }
    | _, _ => s
  | .pop =>
    match s.stage with
    | .peeked label =>
      { s with stage := .processing label, watcher := s.watcher.map RingBuffer.pop }
    | _ => s
  | .process =>
    match s.stage with
    | .processing label => processLogFile setup label { s with stage := .reading }
    | _ => s

/-- All events are processed and no rotation is under way. -/
structure State.Quiet (s : State) : Prop where
  rotating : s.rotating = none
  stage : s.stage = .reading
  watcher : ∀ w, s.watcher = some w → w.count = 0

/-- The calls of scanning the given segments in order. -/
def scanAll (segs : List (Label × Segment)) : List Op :=
  segs.flatMap fun r => scanLog (setup.safePath (fileName r.1)) r.2

/-- The clock of the device goes forward and the safe directory has no other file of the new
name; the ring does not overflow; and the daemon hears of a rotation exactly if it had listed
the directory when the segment was renamed. -/
def InStep (s : State) : Event → Prop
  | .rename label seg =>
    (∀ r ∈ s.rotated, r.1 < label) ∧ ∀ old, s.safe.find? (fileName label) = some old → old = seg
  | .notify =>
    (∀ w, s.watcher = some w → w.count < 64) ∧
      ∀ label listed, s.rotating = some (label, listed) → listed = s.watcher.isSome
  | _ => True

namespace State

variable {s : State}

/-- A segment the listing missed and whose notification is to come. -/
def late (s : State) : List Label :=
  match s.rotating with
  | some (label, true) => [label]
  | _ => []

def queued (s : State) : List Label := (s.watcher.map RingBuffer.contents).getD []

/-- The segments the watcher will deliver. -/
def upcoming (s : State) : List Label := s.queued ++ s.late

/-- The segments the daemon is still to scan. -/
def todo (s : State) : List Name :=
  match s.stage with
  | .starting => s.rotated.map fun r => fileName r.1
  | .seeding files => files ++ s.upcoming.map fileName
  | .reading => s.upcoming.map fileName
  | .peeked _ => s.upcoming.map fileName
  | .processing label => (label :: s.upcoming).map fileName

/-- The watcher is there from the watch command on, and a peeked event is at its front. -/
def StageInv (s : State) : Prop :=
  match s.stage with
  | .starting => s.watcher = none ∧ s.late = []
  | .seeding _ => s.watcher = none
  | .reading => s.watcher.isSome
  | .peeked label => s.queued.head? = some label
  | .processing _ => s.watcher.isSome

/-- The log directory has the rotated segments in order, and the copies are true. -/
structure FilesInv (s : State) : Prop where
  dir : s.dir.entries = s.rotated.map fun r => (fileName r.1, r.2)
  safe : ∀ r ∈ s.rotated, ∀ seg, s.safe.find? (fileName r.1) = some seg → seg = r.2

/-- The segments scanned so far are the first ones, and the others are still to come. -/
structure Inv (s : State) : Prop extends FilesInv s where
  progress : ∃ done rest, s.rotated = done ++ rest ∧ s.calls = scanAll setup done ∧
    s.todo = rest.map fun r => fileName r.1
  stage : s.StageInv

variable {setup}

theorem inv_start (safe : SortedMap Name Segment) : Inv setup (.start safe) where
  dir := rfl
  safe := nofun
  progress := ⟨[], [], rfl, rfl, rfl⟩
  stage := ⟨rfl, rfl⟩

theorem FilesInv.find? (h : FilesInv s) {r : Label × Segment} (hr : r ∈ s.rotated) :
    s.dir.find? (fileName r.1) = some r.2 := by
  rw [SortedMap.find?_eq_some, h.dir]
  exact List.mem_map.mpr ⟨r, hr, rfl⟩

theorem rename_eq (hrot : s.rotating = none) (label : Label) (seg : Segment) :
    step setup s (.rename label seg) =
      { s with
        dir := s.dir.insert (fileName label) seg
        rotating := some (label, s.listed)
        rotated := s.rotated ++ [(label, seg)] } := by
  rw [step, hrot]
  rfl

theorem FilesInv.rename (h : FilesInv s) {label : Label} {seg : Segment}
    (hstep : InStep s (.rename label seg)) (hrot : s.rotating = none) :
    FilesInv (step setup s (.rename label seg)) := by
  obtain ⟨hlt, hsafe⟩ := hstep
  rw [rename_eq hrot]
  constructor
  · have hkeys : ∀ name ∈ s.dir.keys, name < fileName label := by
      intro name hname
      obtain ⟨seg', hmem⟩ := SortedMap.mem_keys.mp hname
      rw [h.dir] at hmem
      obtain ⟨r, hr, hpair⟩ := List.mem_map.mp hmem
      rw [← (Prod.mk.inj hpair).1]
      exact (logPath_lt_logPath (r.1.2.trans label.2.symm)).mpr (hlt r hr)
    dsimp only
    rw [SortedMap.insert_entries_of_forall_lt hkeys, h.dir, List.map_append]
    rfl
  · intro r hr seg' hseg
    obtain hr | hr := List.mem_append.mp hr
    · exact h.safe r hr seg' hseg
    · rw [List.mem_singleton.mp hr] at hseg ⊢
      exact hsafe seg' hseg

theorem copyLog_spec (setup : Setup) (h : FilesInv s) {r : Label × Segment} (hr : r ∈ s.rotated) :
    ∃ safe, copyLog setup (fileName r.1) s = { s with safe := safe } ∧
      FilesInv { s with safe := safe } ∧
      (safeDir setup { s with safe := safe }).find? (fileName r.1) = some r.2 := by
  have hfind := h.find? hr
  unfold copyLog safeDir
  by_cases hsame : setup.sameDir = true
  · rw [if_pos hsame]
    exact ⟨s.safe, rfl, h, by rwa [if_pos hsame]⟩
  · rw [if_neg hsame, hfind]
    refine ⟨s.safe.insert (fileName r.1) r.2, rfl, ⟨h.dir, ?_⟩, ?_⟩
    · intro r' hr' seg hseg
      dsimp only at hr' hseg
      rw [SortedMap.find?_insert] at hseg
      split_ifs at hseg with hname
      · have hfind' := h.find? hr'
        rw [hname, hfind] at hfind'
        exact (Option.some.inj hseg).symm.trans (Option.some.inj hfind')
      · exact h.safe r' hr' seg hseg
    · rw [if_neg hsame, SortedMap.find?_insert, if_pos rfl]

theorem scanCopy_eq {name : Name} {seg : Segment}
    (hfind : (safeDir setup s).find? name = some seg) :
    scanCopy setup name s = { s with calls := s.calls ++ scanLog (setup.safePath name) seg } := by
  rw [scanCopy, hfind]

theorem processLogFile_spec (setup : Setup) (h : FilesInv s) {r : Label × Segment}
    (hr : r ∈ s.rotated) :
    ∃ safe, processLogFile setup r.1 s =
        { s with safe := safe, calls := s.calls ++ scanAll setup [r] } ∧
      FilesInv { s with safe := safe } := by
  obtain ⟨safe, hcopy, hfiles, hfind⟩ := copyLog_spec setup h hr
  refine ⟨safe, ?_, hfiles⟩
  rw [processLogFile, hcopy, scanCopy_eq hfind]
  simp [scanAll]

theorem seedLog_spec (setup : Setup) (h : FilesInv s) {r : Label × Segment} (hr : r ∈ s.rotated) :
    ∃ safe, seedLog setup (fileName r.1) s =
        { s with safe := safe, calls := s.calls ++ scanAll setup [r] } ∧
      FilesInv { s with safe := safe } := by
  unfold seedLog
  cases hold : (safeDir setup s).find? (fileName r.1) with
  | none => exact processLogFile_spec setup h hr
  | some seg =>
    have hseg : seg = r.2 := by
      unfold safeDir at hold
      split_ifs at hold with hsame
      · rw [h.find? hr] at hold
        exact (Option.some.inj hold).symm
      · exact h.safe r hr seg hold
    refine ⟨s.safe, ?_, h⟩
    rw [Option.isSome_some, if_pos rfl, scanCopy_eq hold, hseg]
    simp [scanAll]

theorem todo_congr {t : State} (hstage : t.stage = s.stage) (hrotated : t.rotated = s.rotated)
    (hupcoming : t.upcoming = s.upcoming) : t.todo = s.todo := by
  rw [todo, todo, hstage, hrotated, hupcoming]

theorem upcoming_of_rotating_none (hrot : s.rotating = none) : s.upcoming = s.queued := by
  rw [upcoming, late, hrot, List.append_nil]

theorem todo_rename (hrot : s.rotating = none) (label : Label) (seg : Segment) :
    (step setup s (.rename label seg)).todo = s.todo ++ [fileName label] := by
  have hupcoming := upcoming_of_rotating_none hrot
  rw [rename_eq hrot]
  cases hstage : s.stage with
  | starting => simp only [todo, hstage, List.map_append, List.map_singleton]
  | seeding files =>
    simp only [todo, hstage, hupcoming, List.append_assoc, List.append_cancel_left_eq]
    simp only [upcoming, late, listed, hstage, List.map_append, List.map_singleton]
    rfl
  | reading =>
    simp only [todo, hstage, hupcoming]
    simp only [upcoming, late, listed, hstage, List.map_append, List.map_singleton]
    rfl
  | peeked l =>
    simp only [todo, hstage, hupcoming]
    simp only [upcoming, late, listed, hstage, List.map_append, List.map_singleton]
    rfl
  | processing l =>
    simp only [todo, hstage, hupcoming, List.map_cons, List.cons_append]
    simp only [upcoming, late, listed, hstage, List.map_append, List.map_singleton]
    rfl

theorem stageInv_rename (h : s.StageInv) (hrot : s.rotating = none) (label : Label)
    (seg : Segment) : (step setup s (.rename label seg)).StageInv := by
  unfold StageInv at h ⊢
  rw [rename_eq hrot]
  cases hstage : s.stage with
  | starting =>
    rw [hstage] at h
    exact ⟨h.1, by rw [late, listed, hstage]⟩
  | seeding files => rwa [hstage] at h
  | reading => rwa [hstage] at h
  | peeked l => rwa [hstage] at h
  | processing l => rwa [hstage] at h

theorem Inv.rename (h : Inv setup s) {label : Label} {seg : Segment}
    (hstep : InStep s (.rename label seg)) : Inv setup (step setup s (.rename label seg)) := by
  by_cases hrot : s.rotating = none
  · obtain ⟨done, rest, hrotated, hcalls, htodo⟩ := h.progress
    refine ⟨h.toFilesInv.rename hstep hrot, ⟨done, rest ++ [(label, seg)], ?_, ?_, ?_⟩,
      stageInv_rename h.stage hrot label seg⟩
    · rw [rename_eq hrot, ← List.append_assoc, ← hrotated]
    · rw [rename_eq hrot]
      exact hcalls
    · rw [todo_rename hrot, htodo, List.map_append]
      rfl
  · rw [step, if_pos (Option.isSome_iff_ne_none.mpr hrot)]
    exact h

theorem queued_push {label : Label} {w : RingBuffer Label 64} (hwatch : s.watcher = some w)
    (hroom : w.count < 64) :
    (notifyWatchers label s).queued = s.queued ++ [label] := by
  rw [queued, queued, notifyWatchers, hwatch]
  change (w.push label).contents = w.contents ++ [label]
  rw [RingBuffer.contents_push, if_neg hroom.ne]

theorem stageInv_notify (h : s.StageInv) (hroom : ∀ w, s.watcher = some w → w.count < 64)
    (label : Label) : (notifyWatchers label s).StageInv := by
  have hstage : (notifyWatchers label s).stage = s.stage := rfl
  have hsome : (notifyWatchers label s).watcher.isSome = s.watcher.isSome := Option.isSome_map
  have hnone : s.watcher = none → (notifyWatchers label s).watcher = none := by
    intro hwatch
    rw [notifyWatchers, hwatch]
    rfl
  unfold StageInv at h ⊢
  rw [hstage]
  cases hs : s.stage with
  | starting =>
    rw [hs] at h
    exact ⟨hnone h.1, rfl⟩
  | seeding files =>
    rw [hs] at h
    exact hnone h
  | reading =>
    rw [hs] at h
    exact hsome.trans h
  | peeked l =>
    rw [hs] at h
    cases hwatch : s.watcher with
    | none => rw [queued, hwatch] at h; cases h
    | some w =>
      dsimp only at h ⊢
      rw [queued_push hwatch (hroom w hwatch), List.head?_append, h]
      rfl
  | processing l =>
    rw [hs] at h
    exact hsome.trans h

theorem Inv.notify (h : Inv setup s) (hstep : InStep s .notify) :
    Inv setup (step setup s .notify) := by
  obtain ⟨hroom, hlisted⟩ := hstep
  cases hrot : s.rotating with
  | none =>
    rw [step, hrot]
    exact h
  | some p =>
    obtain ⟨label, listed⟩ := p
    have hnow := hlisted label listed hrot
    have heq : step setup s .notify = notifyWatchers label s := by rw [step, hrot]
    rw [heq]
    have hlate : (notifyWatchers label s).late = [] := rfl
    have hupcoming : (notifyWatchers label s).upcoming = s.upcoming := by
      rw [upcoming, upcoming, hlate, late, hrot, hnow]
      cases hwatch : s.watcher with
      | none => rw [queued, queued, notifyWatchers, hwatch]; rfl
      | some w =>
        rw [queued_push hwatch (hroom w hwatch), List.append_nil]
        rfl
    have htodo : (notifyWatchers label s).todo = s.todo := todo_congr rfl rfl hupcoming
    refine ⟨⟨h.dir, h.safe⟩, ?_, stageInv_notify h.stage hroom label⟩
    rw [htodo]
    exact h.progress

theorem isLog_logPath (label : Name) : isLog (logPath label) = true := by
  have hlog : log.isSuffixOf (logPath label) = true :=
    List.isSuffixOf_iff_suffix.mpr (List.suffix_append _ _)
  have htmp : (log ++ tmp).isSuffixOf (logPath label) = false := by
    rw [Bool.eq_false_iff]
    intro hsuffix
    obtain ⟨t, ht⟩ := List.isSuffixOf_iff_suffix.mp hsuffix
    have hlast := congrArg List.getLast? ht
    simp [logPath, log, tmp] at hlast
  rw [isLog, hlog, htmp]
  rfl

theorem FilesInv.discoverLogFiles (h : FilesInv s) :
    discoverLogFiles s.dir = s.rotated.map fun r => fileName r.1 := by
  have hkeys : s.dir.keys = s.rotated.map fun r => fileName r.1 := by
    rw [SortedMap.keys, h.dir, List.map_map]
    rfl
  rw [Daemon.discoverLogFiles, hkeys]
  apply List.filter_eq_self.mpr
  intro name hname
  obtain ⟨r, -, rfl⟩ := List.mem_map.mp hname
  exact isLog_logPath _

theorem Inv.list (h : Inv setup s) : Inv setup (step setup s .list) := by
  have hstage := h.stage
  unfold StageInv at hstage
  rw [step]
  split
  · rename_i hs
    rw [hs] at hstage
    obtain ⟨hwatch, hlate⟩ := hstage
    refine ⟨⟨h.dir, h.safe⟩, ?_, hwatch⟩
    have hupcoming : s.upcoming = [] := by rw [upcoming, queued, hwatch, hlate]; rfl
    have htodo : { s with stage := .seeding (Daemon.discoverLogFiles s.dir) }.todo = s.todo := by
      rw [todo, todo, hs]
      change Daemon.discoverLogFiles s.dir ++ s.upcoming.map _ = _
      rw [hupcoming, h.toFilesInv.discoverLogFiles, List.map_nil, List.append_nil]
    rw [htodo]
    exact h.progress
  · exact h

/-- The next segment to scan is a rotated one; once it is scanned the others are to come. -/
theorem Inv.next (h : Inv setup s) {name : Name} {names : List Name}
    (htodo : s.todo = name :: names) :
    ∃ r ∈ s.rotated, name = fileName r.1 ∧ ∃ done rest, s.rotated = done ++ rest ∧
      s.calls ++ scanAll setup [r] = scanAll setup done ∧
      names = rest.map fun r => fileName r.1 := by
  obtain ⟨done, rest, hrotated, hcalls, hrest⟩ := h.progress
  rw [htodo] at hrest
  cases rest with
  | nil => cases hrest
  | cons r rest =>
    obtain ⟨hname, hnames⟩ := List.cons.inj hrest
    refine ⟨r, by rw [hrotated]; simp, hname, done ++ [r], rest, ?_, ?_, hnames⟩
    · rw [List.append_assoc]
      exact hrotated
    · rw [hcalls, scanAll, scanAll, scanAll, List.flatMap_append]

theorem Inv.seed (h : Inv setup s) : Inv setup (step setup s .seed) := by
  have hstage := h.stage
  unfold StageInv at hstage
  rw [step]
  split
  · rename_i name files hs
    rw [hs] at hstage
    have htodo : s.todo = name :: (files ++ s.upcoming.map fileName) := by
      rw [todo, hs]
      rfl
    obtain ⟨r, hr, rfl, hprogress⟩ := h.next htodo
    have hfiles : FilesInv { s with stage := .seeding files } := ⟨h.dir, h.safe⟩
    obtain ⟨safe, heq, hsafe⟩ := seedLog_spec setup hfiles hr
    rw [heq]
    exact ⟨⟨hsafe.dir, hsafe.safe⟩, hprogress, hstage⟩
  · exact h

theorem Inv.watch (h : Inv setup s) : Inv setup (step setup s .watch) := by
  have hstage := h.stage
  unfold StageInv at hstage
  rw [step]
  split
  · rename_i hs
    rw [hs] at hstage
    refine ⟨⟨h.dir, h.safe⟩, ?_, rfl⟩
    have htodo : { s with stage := .reading, watcher := some (.empty .zero) }.todo = s.todo := by
      rw [todo, todo, hs]
      change (([] : List Label) ++ s.late).map _ = [] ++ (s.queued ++ s.late).map _
      rw [queued, hstage]
      rfl
    rw [htodo]
    exact h.progress
  · exact h

theorem Inv.peek (h : Inv setup s) : Inv setup (step setup s .peek) := by
  rw [step]
  split
  · rename_i label hs hpeek
    refine ⟨⟨h.dir, h.safe⟩, ?_, ?_⟩
    · have htodo : { s with stage := .peeked label }.todo = s.todo := by
        rw [todo, todo, hs]
        rfl
      rw [htodo]
      exact h.progress
    · change s.queued.head? = some label
      obtain ⟨w, hwatch, hfront⟩ := Option.bind_eq_some_iff.mp hpeek
      rw [queued, hwatch, ← hfront, RingBuffer.peek_eq]
      rfl
  · exact h

theorem Inv.pop (h : Inv setup s) : Inv setup (step setup s .pop) := by
  have hstage := h.stage
  unfold StageInv at hstage
  rw [step]
  split
  · rename_i label hs
    rw [hs] at hstage
    cases hwatch : s.watcher with
    | none => rw [queued, hwatch] at hstage; cases hstage
    | some w =>
      have hqueued : s.queued = w.contents := by rw [queued, hwatch]; rfl
      refine ⟨⟨h.dir, h.safe⟩, ?_, rfl⟩
      have htodo : { s with
          stage := .processing label, watcher := (some w).map RingBuffer.pop }.todo = s.todo := by
        rw [todo, todo, hs]
        change (label :: (w.pop.contents ++ s.late)).map _ = (s.queued ++ s.late).map _
        rw [RingBuffer.contents_pop, ← hqueued, ← List.cons_append,
          List.cons_head?_tail hstage]
      rw [htodo]
      exact h.progress
  · exact h

theorem Inv.process (h : Inv setup s) : Inv setup (step setup s .process) := by
  have hstage := h.stage
  unfold StageInv at hstage
  rw [step]
  split
  · rename_i label hs
    rw [hs] at hstage
    have htodo : s.todo = fileName label :: s.upcoming.map fileName := by
      rw [todo, hs]
      rfl
    obtain ⟨r, hr, hname, hprogress⟩ := h.next htodo
    obtain rfl : label = r.1 := by
      have hlabel := congrArg labelFromLogPath hname
      rw [fileName, fileName, labelFromLogPath_logPath, labelFromLogPath_logPath] at hlabel
      exact Subtype.ext hlabel
    have hfiles : FilesInv { s with stage := .reading } := ⟨h.dir, h.safe⟩
    obtain ⟨safe, heq, hsafe⟩ := processLogFile_spec setup hfiles hr
    rw [heq]
    exact ⟨⟨hsafe.dir, hsafe.safe⟩, hprogress, hstage⟩
  · exact h

theorem Inv.step {e : Event} (h : Inv setup s) (hstep : InStep s e) :
    Inv setup (step setup s e) := by
  cases e with
  | rename label seg => exact h.rename hstep
  | notify => exact h.notify hstep
  | list => exact h.list
  | seed => exact h.seed
  | watch => exact h.watch
  | peek => exact h.peek
  | pop => exact h.pop
  | process => exact h.process

end State

variable {setup}

/-- In every run in which the daemon hears exactly of the segments it did not list, once all
events are processed every segment was scanned once, in rotation order. -/
theorem scanned_once {safe : SortedMap Name Segment} {es : List Event}
    (hstep : EachStep (step setup) (.start safe) InStep es)
    (hquiet : (after (step setup) (.start safe) es).Quiet) :
    (after (step setup) (.start safe) es).calls =
      scanAll setup (after (step setup) (.start safe) es).rotated := by
  have hinv : (after (step setup) (.start safe) es).Inv setup :=
    hstep.invariant (State.inv_start safe) fun _ _ h hs => h.step hs
  obtain ⟨done, rest, hrotated, hcalls, htodo⟩ := hinv.progress
  have hqueued : (after (step setup) (.start safe) es).queued = [] := by
    rw [State.queued]
    cases hwatch : (after (step setup) (.start safe) es).watcher with
    | none => rfl
    | some w =>
      apply List.eq_nil_of_length_eq_zero
      exact w.length_contents.trans (hquiet.watcher w hwatch)
  rw [State.todo, hquiet.stage] at htodo
  dsimp only at htodo
  rw [State.upcoming_of_rotating_none hquiet.rotating, hqueued] at htodo
  rw [hcalls, hrotated, List.map_eq_nil_iff.mp htodo.symm, List.append_nil]

/-- One block written in the segment with the given label. -/
def sampleSegment (label : Label) : Segment where
  header := ⟨2, 4096, label, 8192, ""⟩
  entries := [⟨.write, 0, 0, 0, 4096, 0, []⟩]

def sampleLabel (c : Char) : Label := ⟨List.replicate 24 c, by simp⟩

def sampleSetup : Setup := ⟨true, String.ofList⟩

/-- One rotation before the listing and one behind the watch command. -/
def calmStart : List Event :=
  [.rename (sampleLabel 'a') (sampleSegment (sampleLabel 'a')), .notify, .list, .seed, .watch,
    .rename (sampleLabel 'b') (sampleSegment (sampleLabel 'b')), .notify, .peek, .pop, .process]

theorem calmStart_scanned :
    (after (step sampleSetup) (.start .empty) calmStart).calls =
      scanAll sampleSetup (after (step sampleSetup) (.start .empty) calmStart).rotated := by
  apply scanned_once
  · refine eachStep_cons ⟨nofun, nofun⟩ ?_
    refine eachStep_cons ⟨nofun, fun _ _ h => (Prod.mk.inj (Option.some.inj h)).2.symm⟩ ?_
    refine eachStep_cons trivial (eachStep_cons trivial (eachStep_cons trivial ?_))
    refine eachStep_cons ⟨?_, nofun⟩ ?_
    · intro r hr
      rw [List.mem_singleton.mp hr]
      decide
    refine eachStep_cons ⟨?_, fun _ _ h => (Prod.mk.inj (Option.some.inj h)).2.symm⟩ ?_
    · intro w hw
      rw [← Option.some.inj hw]
      decide
    exact eachStep_cons trivial (eachStep_cons trivial (eachStep_cons trivial eachStep_nil))
  · refine ⟨rfl, rfl, ?_⟩
    intro w hw
    rw [← Option.some.inj hw]
    rfl

/-- A rotation between the listing and the watch command. -/
def unluckyStart : List Event :=
  [.list, .rename (sampleLabel 'a') (sampleSegment (sampleLabel 'a')), .notify, .watch]

/-- Its segment is in neither; the events are all processed and it is not scanned. -/
theorem unluckyStart_missed :
    (after (step sampleSetup) (.start .empty) unluckyStart).Quiet ∧
      (after (step sampleSetup) (.start .empty) unluckyStart).calls = [] ∧
      scanAll sampleSetup (after (step sampleSetup) (.start .empty) unluckyStart).rotated ≠ [] := by
  refine ⟨⟨rfl, rfl, ?_⟩, rfl, by decide⟩
  intro w hw
  rw [← Option.some.inj hw]
  rfl

end Lbd.Daemon
