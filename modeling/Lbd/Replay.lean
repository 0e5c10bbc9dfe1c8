import Lbd.Bytes
import Lbd.Log
import Lbd.SortedMap

/-!
# Incremental replay

`runReplay --db` of `lbdlog` over a local log directory that grows between runs. The
progress of earlier runs is one text, the label derived from the last file replayed.
Finished segments (`disk.<label>.log`) and unfinished ones (`disk.<label>.log.tmp`)
are replayed alike.
-/

namespace Lbd

namespace Replay

open LogName

/-- A flat output file; the bytes beyond its size read as zero. -/
structure Flat where
  size : ℕ
  byte : ℕ → UInt8

namespace Flat

/-- `os.Create` and `Truncate`. -/
def create (size : ℕ) : Flat := ⟨size, fun _ => 0⟩

def writeAt (f : Flat) (off : ℕ) (data : List UInt8) : Flat :=
  if data = [] then f else ⟨max f.size (off + data.length), overlay f.byte off data⟩

/-- `Fallocate` with `PUNCH_HOLE` and `KEEP_SIZE`. -/
def punchHole (f : Flat) (off len : ℕ) : Flat := ⟨f.size, overlay f.byte off (List.replicate len 0)⟩

end Flat

/-- `int64(e.Block) * int64(blockSize)`, as an unsigned number; negative from `2^63` on. -/
def entryOffset (blockSize : ℕ) (e : Entry) : ℕ := e.block * blockSize % W64

/-- One entry; `none` where the system call is refused. -/
def replayEntry (blockSize : ℕ) (f : Flat) (e : Entry) : Option Flat :=
  let offset := entryOffset blockSize e
  if e.isWrite then
    if 2 ^ 63 ≤ offset then none else some (f.writeAt offset e.data)
  else if e.isTrim then
    if 2 ^ 63 ≤ offset ∨ e.length = 0 then none else some (f.punchHole offset e.length)
  else some f

/-- The loops of `replayToFlat`: the file as it is left, and whether all entries were replayed. -/
def replayEntries (blockSize : ℕ) : Flat → List Entry → Flat × Bool
  | f, [] => (f, true)
  | f, e :: es =>
    match replayEntry blockSize f e with
    | none => (f, false)
    | some f => replayEntries blockSize f es

/-- The log directory, the output file and `last_replayed_label`, empty before the first run. -/
structure Site where
  dir : SortedMap Name Segment
  output : Option Flat
  lastLabel : Name

def isLogFile (name : Name) : Bool := log.isSuffixOf name || (log ++ tmp).isSuffixOf name

/-- The files a run replays. -/
def newLogs (s : Site) : List (Name × Segment) :=
  let logs := s.dir.entries.filter fun l => isLogFile l.1
  if s.lastLabel = [] then logs
  else logs.filter fun l => s.lastLabel < labelFromLogPath l.1

/-- The output file a run starts from: a new one of the first header's size, or the old one. -/
def baseFile (s : Site) (first : Segment) : Option Flat :=
  if s.lastLabel = [] then some (.create first.header.deviceSize) else s.output

/-- `runReplay` with `--db`; errors leave the label. -/
def runReplay (s : Site) : Site :=
  match newLogs s with
  | [] => s
  | first :: rest =>
    if s.lastLabel = [] ∧ 2 ^ 63 ≤ first.2.header.deviceSize then
      { s with output := some (.create 0) }
    else
      match baseFile s first.2 with
      | none => s
      | some f =>
        let out := replayEntries first.2.header.blockSize f
          ((first :: rest).flatMap fun l => l.2.entries)
        { s with
          output := some out.1
          lastLabel :=
            if out.2 then labelFromLogPath ((first :: rest).getLast (List.cons_ne_nil _ _)).1
            else s.lastLabel }

/-- The output of a run from scratch over a directory. -/
def fromScratch (dir : SortedMap Name Segment) : Option Flat := (runReplay ⟨dir, none, []⟩).output

inductive Step where
  /-- whole entries are appended to the newest unfinished segment -/
  | append (entries : List Entry)
  | rename (label : Name)
  | start (label : Name) (header : Header) (entries : List Entry)
  | run
deriving DecidableEq, Repr

def newestTmp (dir : SortedMap Name Segment) : Option (Name × Segment) :=
  (dir.entries.filter fun l => (log ++ tmp).isSuffixOf l.1).getLast?

def Site.step (s : Site) : Step → Site
  | .append entries =>
    match newestTmp s.dir with
    | none => s
    | some (name, seg) =>
      { s with dir := s.dir.insert name ⟨seg.header, seg.entries ++ entries⟩ }
  | .rename label =>
    match s.dir.find? (tmpPath label) with
    | none => s
    | some seg => { s with dir := (s.dir.erase (tmpPath label)).insert (logPath label) seg }
  | .start label header entries =>
    { s with dir := s.dir.insert (tmpPath label) ⟨header, entries⟩ }
  | .run => runReplay s

def Site.empty : Site := ⟨.empty, none, []⟩

def Site.after (steps : List Step) : Site := steps.foldl Site.step .empty

/-- The calls for the entry are not refused. -/
def Replayable (blockSize : ℕ) (e : Entry) : Prop :=
  e.block * blockSize < 2 ^ 63 ∧ (e.op = .trim → 0 < e.length)

instance (blockSize : ℕ) (e : Entry) : Decidable (Replayable blockSize e) :=
  inferInstanceAs (Decidable (_ ∧ _))

/-- A step that keeps to one block size `bs` and to labels of `n` characters, starts segments
in the order of their names, and appends nothing to a segment that a run has replayed. -/
def Safe (n bs : ℕ) (s : Site) : Step → Prop
  | .append entries =>
    (∀ e ∈ entries, Replayable bs e) ∧
      (∀ l ∈ newestTmp s.dir, s.lastLabel = [] ∨ s.lastLabel < labelFromLogPath l.1)
  | .rename _ => True
  | .start label header entries =>
    label.length = n ∧ (∀ name ∈ s.dir.keys, name < logPath label) ∧ header.blockSize = bs ∧
      header.deviceSize < 2 ^ 63 ∧ ∀ e ∈ entries, Replayable bs e
  | .run => True

instance (n bs : ℕ) (s : Site) : (step : Step) → Decidable (Safe n bs s step)
  | .append _ => inferInstanceAs (Decidable (_ ∧ _))
  | .rename _ => .isTrue trivial
  | .start _ _ _ => inferInstanceAs (Decidable (_ ∧ _))
  | .run => .isTrue trivial

/-- Every step of the history is safe when it is made. -/
def AllSafe (n bs : ℕ) : Site → List Step → Prop
  | _, [] => True
  | s, step :: steps => Safe n bs s step ∧ AllSafe n bs (s.step step) steps

instance (n bs : ℕ) : (s : Site) → (steps : List Step) → Decidable (AllSafe n bs s steps)
  | _, [] => .isTrue trivial
  | s, step :: steps =>
    have := instDecidableAllSafe n bs (s.step step) steps
    inferInstanceAs (Decidable (_ ∧ _))

/-- A segment of the directory. -/
structure LogFile where
  label : Name
  finished : Bool
  segment : Segment

namespace LogFile

def name (f : LogFile) : Name := if f.finished then logPath f.label else tmpPath f.label

/-- What follows the label in the derived label. -/
def rest (f : LogFile) : Name := if f.finished then [] else log ++ tmp

theorem labelFromLogPath_name (f : LogFile) : labelFromLogPath f.name = f.label ++ f.rest := by
  unfold name rest
  split_ifs
  · rw [labelFromLogPath_logPath, List.append_nil]
  · exact labelFromLogPath_tmpPath f.label

theorem name_eq (f : LogFile) :
    f.name = disk ++ (f.label ++ (log ++ if f.finished then [] else tmp)) := by
  unfold name tmpPath logPath
  split_ifs <;> simp

theorem name_lt {f g : LogFile} (hlen : f.label.length = g.label.length) (h : f.label < g.label) :
    f.name < g.name := by
  rw [name_eq, name_eq, append_lt_append_iff rfl, append_lt_append_iff hlen]
  exact .inr ⟨rfl, .inl h⟩

theorem isLogFile_name (f : LogFile) : isLogFile f.name = true := by
  unfold isLogFile name tmpPath
  split_ifs
  · have h : log <:+ logPath f.label := List.suffix_append _ _
    simp [h]
  · have h : log ++ tmp <:+ logPath f.label ++ tmp := by
      rw [logPath, List.append_assoc]
      exact List.suffix_append _ _
    simp [h]

theorem isTmp_name (f : LogFile) : (log ++ tmp).isSuffixOf f.name = !f.finished := by
  rw [Bool.eq_iff_iff, List.isSuffixOf_iff_suffix]
  unfold name tmpPath logPath
  split_ifs with h
  · have hsuffix : ¬ (log ++ tmp) <:+ disk ++ f.label ++ log := by
      rintro ⟨t, ht⟩
      have hlast := congrArg List.getLast? ht
      simp [log, tmp] at hlast
    simpa [h] using hsuffix
  · have hsuffix : (log ++ tmp) <:+ disk ++ f.label ++ log ++ tmp := by
      rw [List.append_assoc]
      exact List.suffix_append _ _
    simpa [h] using hsuffix

end LogFile

/-- The directory holds these segments, in the order of their labels. -/
structure Listed (n bs : ℕ) (files : List LogFile) (dir : SortedMap Name Segment) : Prop where
  entries : dir.entries = files.map fun f => (f.name, f.segment)
  sorted : files.Pairwise (·.label < ·.label)
  length : ∀ f ∈ files, f.label.length = n
  header : ∀ f ∈ files, f.segment.header.blockSize = bs ∧ f.segment.header.deviceSize < 2 ^ 63
  replayable : ∀ f ∈ files, ∀ e ∈ f.segment.entries, Replayable bs e

section Listing

variable {n bs : ℕ} {files pre post : List LogFile} {f : LogFile} {dir : SortedMap Name Segment}

theorem Listed.name_lt (h : Listed n bs (pre ++ f :: post) dir) {g : LogFile}
    (hg : g.label = f.label) :
    (∀ f' ∈ pre, f'.name < g.name) ∧ ∀ f' ∈ post, g.name < f'.name := by
  obtain ⟨-, hpost, hpre⟩ := List.pairwise_append.mp h.sorted
  have hlen : g.label.length = n := hg ▸ h.length f (by simp)
  constructor
  · intro f' hf'
    exact LogFile.name_lt ((h.length f' (by simp [hf'])).trans hlen.symm)
      (hg ▸ hpre f' hf' f List.mem_cons_self)
  · intro f' hf'
    exact LogFile.name_lt (hlen.trans (h.length f' (by simp [hf'])).symm)
      (hg ▸ List.rel_of_pairwise_cons hpost hf')

theorem Listed.replace (h : Listed n bs (pre ++ f :: post) dir) (g : LogFile)
    (hlabel : g.label = f.label)
    (hheader : g.segment.header.blockSize = bs ∧ g.segment.header.deviceSize < 2 ^ 63)
    (hr : ∀ e ∈ g.segment.entries, Replayable bs e) {dir' : SortedMap Name Segment}
    (hdir : dir'.entries = (pre ++ g :: post).map fun f => (f.name, f.segment)) :
    Listed n bs (pre ++ g :: post) dir' where
  entries := hdir
  sorted := by
    have hs := h.sorted
    simp only [List.pairwise_append, List.pairwise_cons, List.mem_cons, forall_eq_or_imp, hlabel]
      at hs ⊢
    exact hs
  length := by
    have hl := h.length
    simp only [List.mem_append, List.mem_cons, or_imp, forall_and, forall_eq, hlabel] at hl ⊢
    exact hl
  header := by
    intro f' hf'
    simp only [List.mem_append, List.mem_cons] at hf'
    rcases hf' with hf' | rfl | hf'
    · exact h.header f' (by simp [hf'])
    · exact hheader
    · exact h.header f' (by simp [hf'])
  replayable := by
    intro f' hf'
    simp only [List.mem_append, List.mem_cons] at hf'
    rcases hf' with hf' | rfl | hf'
    · exact h.replayable f' (by simp [hf'])
    · exact hr
    · exact h.replayable f' (by simp [hf'])

theorem Listed.start (h : Listed n bs files dir) {label : Name} {header : Header}
    {entries : List Entry} (hlen : label.length = n) (hlt : ∀ name ∈ dir.keys, name < logPath label)
    (hheader : header.blockSize = bs ∧ header.deviceSize < 2 ^ 63)
    (hr : ∀ e ∈ entries, Replayable bs e) :
    Listed n bs (files ++ [⟨label, false, ⟨header, entries⟩⟩])
      (dir.insert (tmpPath label) ⟨header, entries⟩) := by
  have hlabel : ∀ f ∈ files, f.label < label := by
    intro f hf
    have hname := hlt f.name
      (by simp only [SortedMap.keys, h.entries, List.map_map]; exact List.mem_map_of_mem hf)
    rw [LogFile.name_eq, logPath, List.append_assoc, append_lt_append_iff rfl,
      append_lt_append_iff ((h.length f hf).trans hlen.symm)] at hname
    rcases hname with hname | ⟨-, hname | ⟨-, hname⟩⟩
    · exact absurd hname (lt_irrefl _)
    · exact hname
    · -- no name with the same label is smaller
      have hlog := (append_lt_append_iff (a := log) (b := log) rfl
        (if f.finished then [] else tmp) []).mp (by simpa using hname)
      simp at hlog
  have hnames : ∀ f ∈ files, f.name < tmpPath label := fun f hf =>
    LogFile.name_lt (g := ⟨label, false, ⟨header, entries⟩⟩) ((h.length f hf).trans hlen.symm)
      (hlabel f hf)
  refine ⟨?_, ?_, ?_, ?_, ?_⟩
  · rw [SortedMap.insert_entries_of_forall_lt, h.entries, List.map_append]
    · rfl
    · intro k hk
      obtain ⟨v, hv⟩ := SortedMap.mem_keys.mp hk
      rw [h.entries] at hv
      obtain ⟨f, hf, he⟩ := List.mem_map.mp hv
      obtain ⟨rfl, -⟩ := Prod.mk.inj he
      exact hnames f hf
  · refine List.pairwise_append.mpr ⟨h.sorted, List.pairwise_singleton _ _, fun f hf g hg => ?_⟩
    rw [List.mem_singleton.mp hg]
    exact hlabel f hf
  all_goals
    intro f hf
    rcases List.mem_append.mp hf with hf | hf
  · exact h.length f hf
  · rw [List.mem_singleton.mp hf]
    exact hlen
  · exact h.header f hf
  · rw [List.mem_singleton.mp hf]
    exact hheader
  · exact h.replayable f hf
  · rw [List.mem_singleton.mp hf]
    exact hr

theorem Listed.exists_of_mem (h : Listed n bs files dir) {l : Name × Segment}
    (hl : l ∈ dir.entries) : ∃ pre f post, files = pre ++ f :: post ∧ l = (f.name, f.segment) := by
  rw [h.entries] at hl
  obtain ⟨f, hf, rfl⟩ := List.mem_map.mp hl
  obtain ⟨pre, post, rfl⟩ := List.append_of_mem hf
  exact ⟨pre, f, post, rfl, rfl⟩

theorem Listed.append (h : Listed n bs (pre ++ f :: post) dir) {entries : List Entry}
    (hr : ∀ e ∈ entries, Replayable bs e) :
    Listed n bs
      (pre ++ ⟨f.label, f.finished, ⟨f.segment.header, f.segment.entries ++ entries⟩⟩ :: post)
      (dir.insert f.name ⟨f.segment.header, f.segment.entries ++ entries⟩) := by
  obtain ⟨hpre, hpost⟩ := h.name_lt rfl
  apply h.replace ⟨f.label, f.finished, ⟨f.segment.header, f.segment.entries ++ entries⟩⟩ rfl
    (h.header f (by simp))
  · intro e he
    rcases List.mem_append.mp he with he | he
    · exact h.replayable f (by simp) e he
    · exact hr e he
  · rw [List.map_append, List.map_cons]
    refine SortedMap.insert_entries_of_split (c := [(f.name, f.segment)]) ?_ ?_ ?_ ?_
    · rw [h.entries, List.map_append, List.map_cons]
      rfl
    · simpa using hpre
    · simp
    · simpa using hpost

theorem Listed.rename (h : Listed n bs (pre ++ f :: post) dir) (hf : f.finished = false) :
    Listed n bs (pre ++ ⟨f.label, true, f.segment⟩ :: post)
      ((dir.erase (tmpPath f.label)).insert (logPath f.label) f.segment) := by
  have hname : f.name = tmpPath f.label := by simp [LogFile.name, hf]
  obtain ⟨hpre, hpost⟩ := h.name_lt rfl
  obtain ⟨hpre', hpost'⟩ := h.name_lt (g := ⟨f.label, true, f.segment⟩) rfl
  apply h.replace ⟨f.label, true, f.segment⟩ rfl (h.header f (by simp)) (h.replayable f (by simp))
  rw [List.map_append, List.map_cons]
  refine SortedMap.insert_entries_of_split (c := []) ?_ ?_ (by simp) ?_
  · simp only [SortedMap.erase, SortedMap.filter, h.entries, ← hname, List.map_append,
      List.map_cons, List.filter_append, List.nil_append]
    rw [List.filter_eq_self.mpr, List.filter_cons_of_neg (by simp), List.filter_eq_self.mpr]
    · simpa using fun f' hf' => (hpost f' hf').ne'
    · simpa using fun f' hf' => (hpre f' hf').ne
  · simpa [LogFile.name] using hpre'
  · simpa [LogFile.name] using hpost'

end Listing

/-- An entry that is not refused, applied to the output file. -/
def Flat.apply (bs : ℕ) (f : Flat) (e : Entry) : Flat := (replayEntry bs f e).getD f

theorem replayEntries_eq {bs : ℕ} {es : List Entry}
    (h : ∀ e ∈ es, ∀ f : Flat, replayEntry bs f e = some (f.apply bs e)) (f : Flat) :
    replayEntries bs f es = (es.foldl (Flat.apply bs) f, true) := by
  induction es generalizing f with
  | nil => rfl
  | cons e es ih =>
    obtain ⟨he, hes⟩ := List.forall_mem_cons.mp h
    rw [replayEntries, he f]
    exact ih hes _

theorem replayEntries_of_replayable {bs : ℕ} {es : List Entry} (h : ∀ e ∈ es, Replayable bs e)
    (f : Flat) : replayEntries bs f es = (es.foldl (Flat.apply bs) f, true) := by
  apply replayEntries_eq
  intro e he f
  obtain ⟨hoff, hlen⟩ := h e he
  have hmod : entryOffset bs e < 2 ^ 63 := (Nat.mod_le _ _).trans_lt hoff
  unfold Flat.apply replayEntry
  dsimp only
  split_ifs with hw hneg ht hneg
  · omega
  · rfl
  · have hpos := hlen (by simpa [Entry.isTrim] using ht)
    omega
  · rfl
  · rfl

def entriesOf (files : List LogFile) : List Entry := files.flatMap fun f => f.segment.entries

/-- The output of a run over these segments. -/
def replayFiles (bs : ℕ) : List LogFile → Option Flat
  | [] => none
  | f :: fs =>
    some ((entriesOf (f :: fs)).foldl (Flat.apply bs) (.create f.segment.header.deviceSize))

theorem replayFiles_append {bs : ℕ} {pre : List LogFile} (hne : pre ≠ []) (post : List LogFile) :
    replayFiles bs (pre ++ post) =
      (replayFiles bs pre).map fun f => (entriesOf post).foldl (Flat.apply bs) f := by
  obtain ⟨f, fs, rfl⟩ := List.exists_cons_of_ne_nil hne
  simp [replayFiles, entriesOf, List.foldl_append]

/-- The output file holds what the segments up to the last one replayed hold. -/
def Covered (bs : ℕ) (files : List LogFile) (s : Site) : Prop :=
  (s.output = none ∧ s.lastLabel = []) ∨
    ∃ pre f post, files = pre ++ f :: post ∧
      (s.lastLabel = f.label ++ f.rest ∨ s.lastLabel = f.label ++ (log ++ tmp)) ∧
      s.output = replayFiles bs (pre ++ [f])

section Runs

variable {n bs : ℕ} {files pre post : List LogFile} {f : LogFile} {s : Site}

theorem Listed.newLogs_of_nil (h : Listed n bs files s.dir) (hl : s.lastLabel = []) :
    newLogs s = files.map fun f => (f.name, f.segment) := by
  unfold newLogs
  rw [if_pos hl, h.entries, List.filter_eq_self.mpr]
  intro l hl
  obtain ⟨f, -, rfl⟩ := List.mem_map.mp hl
  exact f.isLogFile_name

theorem Listed.newLogs_of_covered (h : Listed n bs (pre ++ f :: post) s.dir) (hn : 0 < n)
    (hl : s.lastLabel = f.label ++ f.rest ∨ s.lastLabel = f.label ++ (log ++ tmp)) :
    s.lastLabel ≠ [] ∧ newLogs s = post.map fun f => (f.name, f.segment) := by
  obtain ⟨t, ht, hrest⟩ : ∃ t, s.lastLabel = f.label ++ t ∧ ¬ t < f.rest := by
    rcases hl with hl | hl
    · exact ⟨f.rest, hl, lt_irrefl _⟩
    · refine ⟨log ++ tmp, hl, ?_⟩
      unfold LogFile.rest
      split_ifs
      · exact List.not_lt_nil _
      · exact lt_irrefl _
  have hlen := h.length
  obtain ⟨-, hpost, hpre⟩ := List.pairwise_append.mp h.sorted
  have hflen := hlen f (by simp)
  have hne : s.lastLabel ≠ [] := by
    intro hnil
    rw [hnil] at ht
    have := congrArg List.length ht
    simp at this
    omega
  have hcmp : ∀ g ∈ pre ++ f :: post,
      (s.lastLabel < labelFromLogPath g.name ↔
        f.label < g.label ∨ f.label = g.label ∧ t < g.rest) := by
    intro g hg
    rw [LogFile.labelFromLogPath_name, ht, append_lt_append_iff (hflen.trans (hlen g hg).symm)]
  refine ⟨hne, ?_⟩
  unfold newLogs
  rw [if_neg hne, h.entries, List.filter_filter]
  simp only [List.map_append, List.map_cons, List.filter_append]
  rw [List.filter_eq_nil_iff.mpr, List.filter_cons_of_neg, List.filter_eq_self.mpr, List.nil_append]
  · intro l hl
    obtain ⟨g, hg, rfl⟩ := List.mem_map.mp hl
    have hlt := List.rel_of_pairwise_cons hpost hg
    simp [(hcmp g (by simp [hg])).mpr (.inl hlt), g.isLogFile_name]
  · have hself : ¬ s.lastLabel < labelFromLogPath f.name := by
      rw [hcmp f (by simp)]
      rintro (hlt | ⟨-, hlt⟩)
      · exact lt_irrefl _ hlt
      · exact hrest hlt
    simp [hself]
  · intro l hl
    obtain ⟨g, hg, rfl⟩ := List.mem_map.mp hl
    have hlt := hpre g hg f List.mem_cons_self
    have hnot : ¬ s.lastLabel < labelFromLogPath g.name := by
      rw [hcmp g (by simp [hg])]
      rintro (hgt | ⟨heq, -⟩)
      · exact lt_asymm hlt hgt
      · exact lt_irrefl _ (heq ▸ hlt)
    simp [hnot]

theorem runReplay_eq {base : Flat} {g : LogFile} {gs : List LogFile}
    (hlogs : newLogs s = (g :: gs).map fun f => (f.name, f.segment))
    (hbase : baseFile s g.segment = some base)
    (hheader : g.segment.header.blockSize = bs ∧ g.segment.header.deviceSize < 2 ^ 63)
    (hr : ∀ f ∈ g :: gs, ∀ e ∈ f.segment.entries, Replayable bs e) :
    runReplay s =
      { s with
        output := some ((entriesOf (g :: gs)).foldl (Flat.apply bs) base)
        lastLabel := ((g :: gs).getLast (List.cons_ne_nil _ _)).label ++
          ((g :: gs).getLast (List.cons_ne_nil _ _)).rest } := by
  have hentries : (((g :: gs).map fun f => (f.name, f.segment)).flatMap fun l => l.2.entries) =
      entriesOf (g :: gs) := by
    simp only [entriesOf, List.flatMap_map]
  have hall : ∀ e ∈ entriesOf (g :: gs), Replayable bs e := by
    intro e he
    obtain ⟨f, hf, he⟩ := List.mem_flatMap.mp he
    exact hr f hf e he
  unfold runReplay
  rw [hlogs]
  simp only [List.map_cons] at hentries ⊢
  rw [if_neg (by omega), hbase]
  simp only [hheader.1, hentries, replayEntries_of_replayable hall, if_true,
    ← LogFile.labelFromLogPath_name]
  congr 2
  have hlast := List.getLast_map (f := fun f : LogFile => (f.name, f.segment)) (l := g :: gs)
    (by simp)
  exact congrArg Prod.fst hlast

theorem covered_of_getLast (hne : files ≠ [])
    (hl : s.lastLabel = (files.getLast hne).label ++ (files.getLast hne).rest)
    (ho : s.output = replayFiles bs files) : Covered bs files s := by
  refine .inr ⟨files.dropLast, files.getLast hne, [], ?_, .inl hl, ?_⟩
  · exact (List.dropLast_append_getLast hne).symm
  · rw [ho, List.dropLast_append_getLast hne]

theorem Listed.runReplay (h : Listed n bs files s.dir) (hn : 0 < n) (hc : Covered bs files s) :
    (runReplay s).output = replayFiles bs files ∧ (runReplay s).dir = s.dir ∧
      Covered bs files (runReplay s) := by
  rcases hc with ⟨hnone, hl⟩ | ⟨pre, f, post, rfl, hl, hout⟩
  · have hlogs := h.newLogs_of_nil hl
    cases files with
    | nil =>
      have hrun : Replay.runReplay s = s := by
        unfold Replay.runReplay
        rw [hlogs]
        rfl
      rw [hrun]
      exact ⟨hnone, rfl, .inl ⟨hnone, hl⟩⟩
    | cons g gs =>
      have hrun := runReplay_eq hlogs (if_pos hl) (h.header g List.mem_cons_self) h.replayable
      rw [hrun]
      exact ⟨rfl, rfl, covered_of_getLast (List.cons_ne_nil _ _) rfl rfl⟩
  · obtain ⟨hne, hlogs⟩ := h.newLogs_of_covered hn hl
    cases post with
    | nil =>
      have hrun : Replay.runReplay s = s := by
        unfold Replay.runReplay
        rw [hlogs]
        rfl
      rw [hrun]
      exact ⟨hout, rfl, .inr ⟨pre, f, [], rfl, hl, hout⟩⟩
    | cons g gs =>
      obtain ⟨base, hbase⟩ : ∃ base, replayFiles bs (pre ++ [f]) = some base := by
        obtain ⟨a, as, ha⟩ := List.exists_cons_of_ne_nil (show pre ++ [f] ≠ [] by simp)
        rw [ha]
        exact ⟨_, rfl⟩
      have hrun := runReplay_eq hlogs ((if_neg hne).trans (hout.trans hbase))
        (h.header g (by simp)) fun f' hf' => h.replayable f'
        (by simp only [List.mem_append, List.mem_cons] at hf' ⊢; tauto)
      have hall : replayFiles bs (pre ++ f :: g :: gs) =
          some ((entriesOf (g :: gs)).foldl (Flat.apply bs) base) := by
        rw [show pre ++ f :: g :: gs = (pre ++ [f]) ++ (g :: gs) by simp,
          replayFiles_append (by simp), hbase]
        rfl
      rw [hrun, hall]
      refine ⟨rfl, rfl, covered_of_getLast (by simp) ?_ hall.symm⟩
      simp

/-- What holds at every point of a safe history. -/
def SiteInv (n bs : ℕ) (s : Site) : Prop := ∃ files, Listed n bs files s.dir ∧ Covered bs files s

theorem SiteInv.append (hn : 0 < n) (h : SiteInv n bs s) {entries : List Entry}
    (hs : Safe n bs s (.append entries)) : SiteInv n bs (s.step (.append entries)) := by
  obtain ⟨files, hlist, hcov⟩ := h
  rw [Site.step]
  cases htmp : newestTmp s.dir with
  | none => exact ⟨files, hlist, hcov⟩
  | some l =>
    obtain ⟨name, seg⟩ := l
    have hmem := (List.mem_filter.mp (List.mem_of_getLast? htmp)).1
    rcases hcov with hnone | ⟨pre, f, post, rfl, hl, hout⟩
    · obtain ⟨pre, f, post, rfl, he⟩ := hlist.exists_of_mem hmem
      obtain ⟨rfl, rfl⟩ := Prod.mk.inj he
      exact ⟨_, hlist.append hs.1, .inl hnone⟩
    · -- the segment is one of those that no run has replayed
      obtain ⟨hne, hlogs⟩ := hlist.newLogs_of_covered hn hl
      have hnew : (name, seg) ∈ newLogs s := by
        have hlt := (hs.2 _ htmp).resolve_left hne
        obtain ⟨_, g, _, -, he⟩ := hlist.exists_of_mem hmem
        obtain ⟨rfl, rfl⟩ := Prod.mk.inj he
        unfold newLogs
        rw [if_neg hne]
        exact List.mem_filter.mpr ⟨List.mem_filter.mpr ⟨hmem, g.isLogFile_name⟩, by simpa using hlt⟩
      rw [hlogs] at hnew
      obtain ⟨g, hg, he⟩ := List.mem_map.mp hnew
      obtain ⟨rfl, rfl⟩ := Prod.mk.inj he
      obtain ⟨a, b, rfl⟩ := List.append_of_mem hg
      have hsplit : pre ++ f :: (a ++ g :: b) = (pre ++ f :: a) ++ g :: b := by simp
      rw [hsplit] at hlist
      refine ⟨_, hlist.append hs.1, .inr ⟨pre, f, a ++ ⟨g.label, g.finished,
        ⟨g.segment.header, g.segment.entries ++ entries⟩⟩ :: b, ?_, hl, hout⟩⟩
      rw [List.append_assoc]
      rfl

/-- The segments once the one with this label is finished. -/
def LogFile.finish (label : Name) (f : LogFile) : LogFile :=
  if f.label = label then { f with finished := true } else f

theorem LogFile.finish_segment (label : Name) (f : LogFile) :
    (f.finish label).segment = f.segment := by
  unfold finish
  split_ifs <;> rfl

theorem Listed.map_finish {dir : SortedMap Name Segment} (h : Listed n bs (pre ++ f :: post) dir) :
    (pre ++ f :: post).map (LogFile.finish f.label) =
      pre ++ ⟨f.label, true, f.segment⟩ :: post := by
  obtain ⟨-, hpost, hpre⟩ := List.pairwise_append.mp h.sorted
  have hid : ∀ l : List LogFile, (∀ g ∈ l, g.label ≠ f.label) →
      l.map (LogFile.finish f.label) = l := by
    intro l hl
    have hcongr : l.map (LogFile.finish f.label) = l.map id :=
      List.map_congr_left fun g hg => if_neg (hl g hg)
    rw [hcongr, List.map_id]
  rw [List.map_append, List.map_cons, hid pre fun g hg => (hpre g hg f List.mem_cons_self).ne,
    hid post fun g hg => (List.rel_of_pairwise_cons hpost hg).ne', LogFile.finish, if_pos rfl]

theorem replayFiles_map_finish (label : Name) (files : List LogFile) :
    replayFiles bs (files.map (LogFile.finish label)) = replayFiles bs files := by
  cases files with
  | nil => rfl
  | cons f fs =>
    simp only [List.map_cons, replayFiles, entriesOf, List.flatMap_cons, List.flatMap_map,
      LogFile.finish_segment]

theorem Covered.finish (h : Covered bs files s) (label : Name) (dir : SortedMap Name Segment) :
    Covered bs (files.map (LogFile.finish label)) { s with dir := dir } := by
  rcases h with hnone | ⟨pre, f, post, rfl, hl, hout⟩
  · exact .inl hnone
  · refine .inr ⟨pre.map (LogFile.finish label), f.finish label, post.map (LogFile.finish label),
      by simp, ?_, ?_⟩
    · unfold LogFile.finish
      split_ifs
      · -- an unfinished segment leaves its longer label behind
        cases hf : f.finished with
        | false => exact .inr (hl.elim (fun h => by rw [h, LogFile.rest, hf]; rfl) id)
        | true =>
          refine hl.imp (fun h => ?_) id
          rw [h, LogFile.rest, LogFile.rest, hf]
      · exact hl
    · have hmap : replayFiles bs ((pre ++ [f]).map (LogFile.finish label)) =
          replayFiles bs (pre ++ [f]) := replayFiles_map_finish label _
      rw [List.map_append, List.map_singleton] at hmap
      exact hout.trans hmap.symm

theorem tmpPath_eq_name {label : Name} (h : f.name = tmpPath label) :
    f.finished = false ∧ f.label = label := by
  have hsuffix : (log ++ tmp).isSuffixOf (tmpPath label) = true := by
    rw [List.isSuffixOf_iff_suffix, tmpPath, logPath, List.append_assoc]
    exact List.suffix_append _ _
  have hf : f.finished = false := by
    rw [← h, f.isTmp_name] at hsuffix
    simpa using hsuffix
  refine ⟨hf, ?_⟩
  simpa [LogFile.name, hf, tmpPath, logPath] using h

theorem SiteInv.rename (h : SiteInv n bs s) (label : Name) :
    SiteInv n bs (s.step (.rename label)) := by
  obtain ⟨files, hlist, hcov⟩ := h
  rw [Site.step]
  cases hfind : s.dir.find? (tmpPath label) with
  | none => exact ⟨files, hlist, hcov⟩
  | some seg =>
    obtain ⟨pre, f, post, rfl, he⟩ := hlist.exists_of_mem (SortedMap.find?_eq_some.mp hfind)
    obtain ⟨hname, rfl⟩ := Prod.mk.inj he
    obtain ⟨hf, rfl⟩ := tmpPath_eq_name hname.symm
    exact ⟨_, hlist.rename hf, hlist.map_finish ▸ hcov.finish f.label _⟩

theorem SiteInv.start (h : SiteInv n bs s) {label : Name} {header : Header}
    {entries : List Entry} (hs : Safe n bs s (.start label header entries)) :
    SiteInv n bs (s.step (.start label header entries)) := by
  obtain ⟨files, hlist, hcov⟩ := h
  obtain ⟨hlen, hlt, hbs, hsize, hr⟩ := hs
  refine ⟨_, hlist.start hlen hlt ⟨hbs, hsize⟩ hr, ?_⟩
  rcases hcov with hnone | ⟨pre, f, post, rfl, hl, hout⟩
  · exact .inl hnone
  · exact .inr ⟨pre, f, post ++ [⟨label, false, ⟨header, entries⟩⟩], by simp, hl, hout⟩

theorem SiteInv.step (hn : 0 < n) (h : SiteInv n bs s) {step : Step} (hs : Safe n bs s step) :
    SiteInv n bs (s.step step) := by
  cases step with
  | append entries => exact h.append hn hs
  | rename label => exact h.rename label
  | start label header entries => exact h.start hs
  | run =>
    obtain ⟨files, hlist, hcov⟩ := h
    obtain ⟨-, hdir, hcov'⟩ := hlist.runReplay hn hcov
    exact ⟨files, hdir ▸ hlist, hcov'⟩

theorem SiteInv.steps (hn : 0 < n) (h : SiteInv n bs s) {steps : List Step}
    (hs : AllSafe n bs s steps) : SiteInv n bs (steps.foldl Site.step s) := by
  induction steps generalizing s with
  | nil => exact h
  | cons step steps ih => exact ih (h.step hn hs.1) hs.2

theorem SiteInv.runReplay_output (hn : 0 < n) (h : SiteInv n bs s) :
    (runReplay s).output = fromScratch s.dir := by
  obtain ⟨files, hlist, hcov⟩ := h
  have hfresh : Listed n bs files (⟨s.dir, none, []⟩ : Site).dir := hlist
  rw [(hlist.runReplay hn hcov).1]
  exact (hfresh.runReplay hn (.inl ⟨rfl, rfl⟩)).1.symm

end Runs

theorem siteInv_empty (n bs : ℕ) : SiteInv n bs .empty := by
  refine ⟨[], ⟨rfl, List.Pairwise.nil, ?_, ?_, ?_⟩, .inl ⟨rfl, rfl⟩⟩ <;> intro f hf <;> cases hf

/-- After a safe history, a run with `--db` leaves what a run from scratch over the same
directory leaves. -/
theorem incremental_eq_fromScratch {n bs : ℕ} (hn : 0 < n) {steps : List Step}
    (h : AllSafe n bs .empty steps) :
    (Site.after (steps ++ [.run])).output = fromScratch (Site.after steps).dir := by
  have hinv : SiteInv n bs (Site.after steps) := (siteInv_empty n bs).steps hn h
  rw [Site.after, List.foldl_append]
  exact hinv.runReplay_output hn

/-- A write of one byte at byte `block`. -/
def byteEntry (block : ℕ) (b : UInt8) : Entry := ⟨.write, 0, 0, block, 1, 0, [b]⟩

def byteHeader (label : Name) : Header := ⟨2, 1, label, 4, ""⟩

/-- Segment `a` is finished after the run that replays it, then `b` is started. -/
def finishedHistory : List Step :=
  [.start ['a'] (byteHeader ['a']) [byteEntry 0 1], .append [byteEntry 1 2], .run, .rename ['a'],
    .start ['b'] (byteHeader ['b']) [byteEntry 1 3]]

theorem finishedHistory_replayed :
    (Site.after (finishedHistory ++ [.run])).output =
      fromScratch (Site.after finishedHistory).dir :=
  incremental_eq_fromScratch (n := 1) (by decide)
    (show AllSafe 1 1 .empty finishedHistory by decide)

/-- Segment `a` grows after a run has replayed it: the next run passes over it. -/
theorem grown_segment_skipped :
    ((Site.after [.start ['a'] (byteHeader ['a']) [byteEntry 0 1], .run, .append [byteEntry 1 2],
      .rename ['a'], .run]).output.map fun f => f.byte 1) = some 0 ∧
    ((fromScratch (Site.after [.start ['a'] (byteHeader ['a']) [byteEntry 0 1], .run,
      .append [byteEntry 1 2], .rename ['a'], .run]).dir).map fun f => f.byte 1) = some 2 := by
  decide

end Replay

end Lbd
