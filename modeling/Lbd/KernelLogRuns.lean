import Lbd.KernelLog

/-!
# Runs of the kernel log

What a flush and an append can do, and from it: when nothing fails, the published
files hold exactly the logged requests.
-/

namespace Lbd.KernelLog

open Cbor LogName

namespace LogState

/-- What has been logged in the current segment, written or buffered. -/
def content (s : LogState) : List UInt8 := s.file.getD [] ++ s.buf

end LogState

/-- What a flush can do. -/
inductive FlushCase (io : FlushIo) (s : LogState) : Bool × LogState → Prop
  | done {file : Option (List UInt8)} (h : file.getD [] = s.content) :
      FlushCase io s (true, { s with file := file, buf := [] })
  | notOpened (hbuf : s.buf ≠ []) (hfile : s.file = none) (hio : io.opens = false) :
      FlushCase io s (false, { s with buf := [] })
  | short {n : ℕ} (hn : n < s.buf.length) (hio : io.wrote = some n)
      (hopen : s.file = none → io.opens = true) :
      FlushCase io s (false, { s with file := some (s.file.getD [] ++ s.buf.take n), buf := [] })

theorem flushCase_writeBuf {io : FlushIo} {s : LogState} {content : List UInt8}
    (hfile : s.file.getD [] = content) (hopen : s.file = none → io.opens = true) :
    FlushCase io s (writeBuf io content s) := by
  subst hfile
  unfold writeBuf
  cases hw : io.wrote with
  | none => exact .done rfl
  | some n =>
    by_cases hn : s.buf.length ≤ n
    · simp only [hn, decide_true, List.take_of_length_le hn]
      exact .done rfl
    · simp only [hn, decide_false]
      exact .short (by omega) hw hopen

theorem flush_cases (io : FlushIo) (s : LogState) : FlushCase io s (flush io s) := by
  unfold flush
  by_cases hbuf : s.buf = []
  · have hs : s = { s with file := s.file, buf := [] } := by rw [← hbuf]
    have hdone : FlushCase io s (true, { s with file := s.file, buf := [] }) :=
      .done (by rw [LogState.content, hbuf, List.append_nil])
    rw [if_pos hbuf]
    rwa [← hs] at hdone
  · rw [if_neg hbuf]
    cases hfile : s.file with
    | some content => exact flushCase_writeBuf (by rw [hfile]; rfl) (by simp [hfile])
    | none =>
      by_cases hio : io.opens = true
      · simp only [if_pos hio]
        exact flushCase_writeBuf (by rw [hfile]; rfl) fun _ => hio
      · simp only [if_neg hio]
        rw [← hfile]
        exact .notOpened hbuf hfile (by simpa using hio)

/-- What an append of data that fits in the buffer can do. -/
inductive AppendCase (io : FlushIo) (data : List UInt8) (s : LogState) :
    Option (Bool × LogState) → Prop
  | done {file : Option (List UInt8)} {buf : List UInt8}
      (h : file.getD [] ++ buf = s.content ++ data) :
      AppendCase io data s (some (true, { s with file := file, buf := buf }))
  | failed {s' : LogState} (hfull : logBufSize < s.buf.length + data.length)
      (h : FlushCase io s (false, s')) : AppendCase io data s (some (false, s'))

theorem append_cases (io : FlushIo) {data : List UInt8} (hlen : data.length ≤ logBufSize)
    (s : LogState) : AppendCase io data s (append io data s) := by
  have hnow : AppendCase io data s (some (true, { s with buf := s.buf ++ data })) := by
    have h : s.file.getD [] ++ (s.buf ++ data) = s.content ++ data := by
      rw [LogState.content, List.append_assoc]
    exact .done h
  unfold append
  split_ifs with hfull
  · have hflush := flush_cases io s
    generalize flush io s = r at hflush
    obtain ⟨ok, s'⟩ := r
    cases ok with
    | false => exact .failed hfull hflush
    | true =>
      cases hflush with
      | @done file h =>
        dsimp only
        rw [if_neg (by simpa using hlen)]
        exact .done (by rw [h]; rfl)
  · exact hnow

theorem flush_frame (io : FlushIo) (s : LogState) :
    (flush io s).2.segment = s.segment ∧ (flush io s).2.published = s.published ∧
      (flush io s).2.seq = s.seq := by
  have hcase := flush_cases io s
  generalize flush io s = r at hcase
  cases hcase <;> exact ⟨rfl, rfl, rfl⟩

theorem rotateSegment_frame (dev : Device) (io : FlushIo) (s : LogState) :
    s.segment ≤ (rotateSegment dev io s).segment ∧ (rotateSegment dev io s).seq = s.seq := by
  obtain ⟨hsegment, -, hseq⟩ := flush_frame io s
  unfold rotateSegment
  split_ifs
  · dsimp only
    split <;> exact ⟨hsegment ▸ Nat.le_succ _, hseq⟩
  · exact ⟨le_rfl, rfl⟩

theorem logged_frame (dev : Device) (io : FlushIo) (s : LogState) :
    s.segment ≤ (logged dev io s).segment ∧ (logged dev io s).seq = s.seq := by
  unfold logged maybeRotateSegment
  split_ifs
  · exact rotateSegment_frame dev io { s with hasEntries := true }
  · exact ⟨le_rfl, rfl⟩

def FlushIo.ok : FlushIo := ⟨true, none⟩

def Io.ok : Io := ⟨.ok, .ok, .ok⟩

section Complete

variable {dev : Device} {s : LogState}

theorem flush_ok (h : s.content ≠ []) :
    flush .ok s = (true, { s with file := some s.content, buf := [] }) := by
  have hcase := flush_cases .ok s
  generalize flush .ok s = r at hcase
  cases hcase with
  | @done file hf =>
    cases file with
    | none => exact absurd hf.symm h
    | some c => rw [← hf]; rfl
  | notOpened _ _ hio => cases hio
  | short _ hio => cases hio

theorem append_ok {data : List UInt8} (hlen : data.length ≤ logBufSize) :
    ∃ file buf, append .ok data s = some (true, { s with file := file, buf := buf }) ∧
      file.getD [] ++ buf = s.content ++ data := by
  have hcase := append_cases .ok hlen s
  generalize append .ok data s = r at hcase
  cases hcase with
  | @done file buf h => exact ⟨file, buf, rfl, h⟩
  | failed _ h =>
    cases h with
    | notOpened _ _ hio => cases hio
    | short _ hio => cases hio

/-- The entries of a sequence of events, numbered from `n`. -/
def loggedEntries (dev : Device) : ℕ → List Event → List Entry
  | _, [] => []
  | n, .write sector data time :: es =>
    if data = [] ∨ dev.compress data = [] then loggedEntries dev n es
    else writeEntry dev (n % W64) sector data time :: loggedEntries dev (n + 1) es
  | n, .discard sector length time :: es =>
    trimEntry (n % W64) sector length time :: loggedEntries dev (n + 1) es
  | n, _ :: es => loggedEntries dev n es

/-- A write compresses to less than the buffer. -/
def Event.Fits (dev : Device) : Event → Prop
  | .write _ data _ => (dev.compress data).length < logBufSize
  | _ => True

instance (dev : Device) : DecidablePred (Event.Fits dev)
  | .write _ _ _ => inferInstanceAs (Decidable (_ < _))
  | .discard _ _ _ => .isTrue trivial
  | .flush _ => .isTrue trivial
  | .timer => .isTrue trivial

/-- The state holds `groups` in published files and `cur` in the current segment. -/
structure Sim (dev : Device) (s : LogState) (groups : List (ℕ × List Entry)) (cur : List Entry) :
    Prop where
  content : s.content = segmentBytes dev (dev.labels s.segment) cur
  hasEntries : s.hasEntries = !cur.isEmpty
  published : s.published.entries =
    groups.map fun g => (logPath (dev.labels g.1), segmentBytes dev (dev.labels g.1) g.2)
  nonempty : ∀ g ∈ groups, g.2 ≠ []
  older : ∀ g ∈ groups, g.1 < s.segment

theorem segmentBytes_ne_nil (label : Name) (es : List Entry) : segmentBytes dev label es ≠ [] :=
  List.append_ne_nil_of_left_ne_nil (encMap_ne_nil _) _

theorem segmentBytes_append (label : Name) (es : List Entry) (e : Entry) :
    segmentBytes dev label (es ++ [e]) = segmentBytes dev label es ++ encMap (entryFields e) := by
  simp [segmentBytes]

theorem content_beginSegment (dev : Device) (i : ℕ) (s : LogState) :
    (beginSegment dev i s).content = segmentBytes dev (dev.labels i) [] := by
  simp only [LogState.content, beginSegment, encode_header (dev.length_labels i), Option.getD_none,
    Option.getD_some, List.nil_append, segmentBytes, List.map_nil, List.flatMap_nil,
      List.append_nil]

theorem sim_start (dev : Device) : Sim dev (start dev) [] [] where
  content := content_beginSegment dev 0 _
  hasEntries := rfl
  published := rfl
  nonempty := by simp
  older := by simp

variable {groups : List (ℕ × List Entry)} {cur : List Entry} {n : ℕ}
  (hlabels : StrictMonoOn dev.labels (Set.Iic n))

include hlabels

theorem Sim.publish (h : Sim dev s groups cur) (hn : s.segment ≤ n) :
    (KernelLog.publish dev s.content s).published.entries =
      (groups ++ [(s.segment, cur)]).map fun g =>
        (logPath (dev.labels g.1), segmentBytes dev (dev.labels g.1) g.2) := by
  have hlt : ∀ k ∈ s.published.keys, k < logPath (dev.labels s.segment) := by
    intro k hk
    rw [SortedMap.keys, h.published, List.map_map] at hk
    obtain ⟨g, hg, rfl⟩ := List.mem_map.mp hk
    have hlt := h.older g hg
    refine (logPath_lt_logPath (by rw [dev.length_labels, dev.length_labels])).mpr ?_
    exact hlabels (Set.mem_Iic.mpr (by omega)) (Set.mem_Iic.mpr hn) hlt
  rw [KernelLog.publish, SortedMap.insert_entries_of_forall_lt hlt, h.published, h.content,
    List.map_append]
  rfl

theorem Sim.rotateSegment (h : Sim dev s groups cur) (hn : s.segment ≤ n) :
    ∃ groups' cur', Sim dev (rotateSegment dev .ok s) groups' cur' ∧
      groups'.flatMap Prod.snd ++ cur' = groups.flatMap Prod.snd ++ cur := by
  unfold KernelLog.rotateSegment
  by_cases hhas : s.hasEntries = true
  · have hne : s.content ≠ [] := h.content ▸ segmentBytes_ne_nil _ _
    rw [if_pos hhas, flush_ok hne]
    refine ⟨groups ++ [(s.segment, cur)], [], ⟨?_, rfl, ?_, ?_, ?_⟩, by simp⟩
    · exact content_beginSegment _ _ _
    · exact h.publish hlabels hn
    · have hcur : cur ≠ [] := by
        rw [h.hasEntries] at hhas
        simpa using hhas
      intro g hg
      rcases List.mem_append.mp hg with hg | hg
      · exact h.nonempty g hg
      · rw [List.mem_singleton.mp hg]
        exact hcur
    · intro g hg
      rcases List.mem_append.mp hg with hg | hg
      · exact (h.older g hg).trans (Nat.lt_succ_self _)
      · rw [List.mem_singleton.mp hg]
        exact Nat.lt_succ_self _
  · rw [if_neg hhas]
    exact ⟨groups, cur, h, rfl⟩

theorem Sim.logged (h : Sim dev s groups cur) (hn : s.segment ≤ n) {e : Entry} {s' : LogState}
    (hcontent : s'.content = s.content ++ encMap (entryFields e))
    (hsegment : s'.segment = s.segment) (hpublished : s'.published = s.published) :
    ∃ groups' cur', Sim dev (logged dev .ok s') groups' cur' ∧
      groups'.flatMap Prod.snd ++ cur' = groups.flatMap Prod.snd ++ cur ++ [e] := by
  have hsim : Sim dev { s' with hasEntries := true } groups (cur ++ [e]) := by
    refine ⟨?_, by simp, hpublished ▸ h.published, h.nonempty, hsegment ▸ h.older⟩
    rw [segmentBytes_append]
    dsimp only
    rw [hsegment, ← h.content]
    exact hcontent
  unfold KernelLog.logged maybeRotateSegment
  split_ifs
  · obtain ⟨groups', cur', hsim', heq⟩ := hsim.rotateSegment hlabels (hsegment ▸ hn)
    exact ⟨groups', cur', hsim', by rw [heq, List.append_assoc]⟩
  · exact ⟨groups, cur ++ [e], hsim, by rw [List.append_assoc]⟩

omit hlabels

theorem logWrite_eq {io : Io} {sector time : ℕ} {data : List UInt8}
    (hne : ¬ (data = [] ∨ dev.compress data = [])) :
    logWrite dev io sector data time s =
      (append io.entry (writeHead (writeEntry dev s.seq sector data time))
        { s with seq := (s.seq + 1) % W64 }).bind fun r =>
          if r.1 then (append io.data (dev.compress data) r.2).bind fun r =>
            some (if r.1 then logged dev io.rotate r.2 else r.2)
          else some r.2 := by
  have hne' : ¬ (data = [] ∨ (writeEntry dev s.seq sector data time).data = []) := hne
  simp only [logWrite, if_neg hne', encode_writeHead]
  refine congrArg (Option.bind _) ?_
  funext ⟨ok, s⟩
  cases ok with
  | false => rfl
  | true =>
    refine congrArg (Option.bind _) ?_
    funext ⟨ok, s⟩
    cases ok <;> rfl

theorem length_writeHead_le (e : Entry) : (writeHead e).length ≤ logBufSize :=
  (length_writeHead e).trans (by decide)

theorem logWrite_ok (dev : Device) (s : LogState) {sector time : ℕ} {data : List UInt8}
    (hne : ¬ (data = [] ∨ dev.compress data = []))
    (hlen : (dev.compress data).length < logBufSize) :
    ∃ s', logWrite dev .ok sector data time s = some (logged dev .ok s') ∧
      s'.content = s.content ++ encMap (entryFields (writeEntry dev s.seq sector data time)) ∧
      s'.seq = (s.seq + 1) % W64 ∧ s'.segment = s.segment ∧ s'.published = s.published := by
  obtain ⟨file, buf, happ, hcontent⟩ := append_ok (s := { s with seq := (s.seq + 1) % W64 })
    (length_writeHead_le (writeEntry dev s.seq sector data time))
  obtain ⟨file', buf', happ', hcontent'⟩ := append_ok
    (s := { s with seq := (s.seq + 1) % W64, file := file, buf := buf }) hlen.le
  refine ⟨{ s with seq := (s.seq + 1) % W64, file := file', buf := buf' }, ?_, ?_, rfl, rfl, rfl⟩
  · rw [logWrite_eq hne]
    simp only [Io.ok, happ, Option.bind_some]
    exact congrArg (Option.bind · _) happ'
  · rw [← writeHead_append rfl, ← List.append_assoc]
    refine hcontent'.trans ?_
    rw [LogState.content, hcontent]
    rfl

theorem logDiscard_eq (io : Io) (sector length time : ℕ) :
    logDiscard dev io sector length time s =
      (append io.entry (encMap (entryFields (trimEntry s.seq sector length time)))
        { s with seq := (s.seq + 1) % W64 }).bind fun r =>
          some (if r.1 then logged dev io.rotate r.2 else r.2) := by
  have htrim := encode_trim (e := trimEntry s.seq sector length time) rfl
  simp only [logDiscard, htrim]
  refine congrArg (Option.bind _) ?_
  funext ⟨ok, s⟩
  cases ok <;> rfl

theorem length_trim_le (seq sector length time : ℕ) :
    (encMap (entryFields (trimEntry seq sector length time))).length ≤ logBufSize :=
  (length_of_encode (encode_trim rfl)).trans (by decide)

theorem logDiscard_ok (dev : Device) (s : LogState) (sector length time : ℕ) :
    ∃ s', logDiscard dev .ok sector length time s = some (logged dev .ok s') ∧
      s'.content = s.content ++ encMap (entryFields (trimEntry s.seq sector length time)) ∧
      s'.seq = (s.seq + 1) % W64 ∧ s'.segment = s.segment ∧ s'.published = s.published := by
  obtain ⟨file, buf, happ, hcontent⟩ := append_ok (s := { s with seq := (s.seq + 1) % W64 })
    (length_trim_le s.seq sector length time)
  refine ⟨{ s with seq := (s.seq + 1) % W64, file := file, buf := buf }, ?_, hcontent, rfl, rfl,
    rfl⟩
  rw [logDiscard_eq]
  exact congrArg (Option.bind · _) happ

theorem handle_ok (dev : Device) (s : LogState) {e : Event} (he : e.Fits dev) :
    ∃ s', handle dev s (e, .ok) = some s' ∧ s.segment ≤ s'.segment := by
  cases e with
  | write sector data time =>
    by_cases hne : data = [] ∨ dev.compress data = []
    · have hsame : logWrite dev .ok sector data time s = some s := if_pos hne
      exact ⟨s, hsame, le_rfl⟩
    · obtain ⟨s', hlog, -, -, hsegment, -⟩ := logWrite_ok dev s hne he
      exact ⟨_, hlog, hsegment ▸ (logged_frame dev _ s').1⟩
  | discard sector length time =>
    obtain ⟨s', hlog, -, -, hsegment, -⟩ := logDiscard_ok dev s sector length time
    exact ⟨_, hlog, hsegment ▸ (logged_frame dev _ s').1⟩
  | flush synced =>
    refine ⟨_, rfl, ?_⟩
    split_ifs
    · exact (rotateSegment_frame dev _ s).1
    · exact le_rfl
  | timer => exact ⟨_, rfl, (rotateSegment_frame dev _ s).1⟩

/-- A run in which nothing fails. -/
def runOk (dev : Device) (s : LogState) (es : List Event) : Option LogState :=
  run dev s (es.map fun e => (e, .ok))

theorem runOk_ok (dev : Device) (s : LogState) {es : List Event} (hes : ∀ e ∈ es, e.Fits dev) :
    ∃ s', runOk dev s es = some s' ∧ s.segment ≤ s'.segment := by
  induction es generalizing s with
  | nil => exact ⟨s, rfl, le_rfl⟩
  | cons e es ih =>
    obtain ⟨he, hes⟩ := List.forall_mem_cons.mp hes
    obtain ⟨s₁, hs₁, hle₁⟩ := handle_ok dev s he
    obtain ⟨s', hs', hle⟩ := ih s₁ hes
    refine ⟨s', ?_, hle₁.trans hle⟩
    simpa [runOk, run, hs₁] using hs'

/-- Published files and current segment together hold `log`. -/
def Holds (dev : Device) (s : LogState) (log : List Entry) : Prop :=
  s.seq = log.length % W64 ∧
    ∃ groups cur, Sim dev s groups cur ∧ groups.flatMap Prod.snd ++ cur = log

include hlabels

theorem Holds.rotateSegment {log : List Entry} (h : Holds dev s log) (hn : s.segment ≤ n) :
    Holds dev (rotateSegment dev .ok s) log := by
  obtain ⟨hseq, groups, cur, hsim, hlog⟩ := h
  obtain ⟨groups', cur', hsim', heq⟩ := hsim.rotateSegment hlabels hn
  refine ⟨?_, groups', cur', hsim', heq.trans hlog⟩
  rw [← hseq]
  exact (rotateSegment_frame dev .ok s).2

theorem Holds.logged {log : List Entry} (h : Holds dev s log) (hn : s.segment ≤ n) {e : Entry}
    {s' : LogState} (hcontent : s'.content = s.content ++ encMap (entryFields e))
    (hseq : s'.seq = (s.seq + 1) % W64) (hsegment : s'.segment = s.segment)
    (hpublished : s'.published = s.published) : Holds dev (logged dev .ok s') (log ++ [e]) := by
  obtain ⟨hseq₀, groups, cur, hsim, hlog⟩ := h
  obtain ⟨groups', cur', hsim', heq⟩ := hsim.logged hlabels hn hcontent hsegment hpublished
  refine ⟨?_, groups', cur', hsim', by rw [heq, hlog]⟩
  rw [(logged_frame dev .ok s').2, hseq, hseq₀, List.length_append, List.length_singleton,
    Nat.mod_add_mod]

theorem Holds.handle {log : List Entry} (h : Holds dev s log) (hn : s.segment ≤ n) {e : Event}
    (he : e.Fits dev) {s' : LogState} (hs' : handle dev s (e, .ok) = some s') :
    Holds dev s' (log ++ loggedEntries dev log.length [e]) := by
  cases e with
  | write sector data time =>
    by_cases hne : data = [] ∨ dev.compress data = []
    · have hsame : logWrite dev .ok sector data time s = some s := if_pos hne
      obtain rfl := Option.some.inj (hsame.symm.trans hs')
      simpa [loggedEntries, hne] using h
    · obtain ⟨s₁, hlog, hcontent, hseq, hsegment, hpublished⟩ := logWrite_ok dev s hne he
      obtain rfl := Option.some.inj (hlog.symm.trans hs')
      rw [h.1] at hcontent
      simpa only [loggedEntries, if_neg hne] using
        h.logged hlabels hn hcontent hseq hsegment hpublished
  | discard sector length time =>
    obtain ⟨s₁, hlog, hcontent, hseq, hsegment, hpublished⟩ :=
      logDiscard_ok dev s sector length time
    obtain rfl := Option.some.inj (hlog.symm.trans hs')
    rw [h.1] at hcontent
    exact h.logged hlabels hn hcontent hseq hsegment hpublished
  | flush synced =>
    obtain rfl := Option.some.inj hs'
    have hnone : loggedEntries dev log.length [.flush synced] = [] := rfl
    rw [hnone, List.append_nil]
    split_ifs
    · exact h.rotateSegment hlabels hn
    · exact h
  | timer =>
    obtain rfl := Option.some.inj hs'
    have hnone : loggedEntries dev log.length [.timer] = [] := rfl
    rw [hnone, List.append_nil]
    exact h.rotateSegment hlabels hn

omit hlabels in
theorem loggedEntries_cons (dev : Device) (k : ℕ) (e : Event) (es : List Event) :
    loggedEntries dev k (e :: es) = loggedEntries dev k [e] ++
      loggedEntries dev (k + (loggedEntries dev k [e]).length) es := by
  cases e with
  | write sector data time =>
    by_cases hne : data = [] ∨ dev.compress data = [] <;> simp [loggedEntries, hne]
  | discard sector length time => rfl
  | flush synced => rfl
  | timer => rfl

theorem Holds.run {log : List Entry} (h : Holds dev s log) {es : List Event}
    (hes : ∀ e ∈ es, e.Fits dev) {s' : LogState} (hs' : runOk dev s es = some s')
    (hn : s'.segment ≤ n) : Holds dev s' (log ++ loggedEntries dev log.length es) := by
  induction es generalizing s log with
  | nil =>
    obtain rfl := Option.some.inj hs'
    simpa [loggedEntries] using h
  | cons e es ih =>
    obtain ⟨he, hes⟩ := List.forall_mem_cons.mp hes
    obtain ⟨s₁, hs₁, hle₁⟩ := handle_ok dev s he
    obtain ⟨s₂, hs₂, hle₂⟩ := runOk_ok dev s₁ hes
    have hrun : runOk dev s (e :: es) = runOk dev s₁ es := by simp [runOk, KernelLog.run, hs₁]
    obtain rfl := Option.some.inj (hs₂.symm.trans (hrun.symm.trans hs'))
    have hstep := h.handle hlabels (hle₁.trans (hle₂.trans hn)) he hs₁
    have htail := ih hstep hes hs₂
    rwa [List.append_assoc, List.length_append, ← loggedEntries_cons] at htail

theorem Holds.finalizeLog {log : List Entry} (h : Holds dev s log) (hn : s.segment ≤ n) :
    ∃ groups : List (ℕ × List Entry), (finalizeLog dev .ok s).published.entries =
        groups.map (fun g => (logPath (dev.labels g.1), segmentBytes dev (dev.labels g.1) g.2)) ∧
      (∀ g ∈ groups, g.2 ≠ []) ∧ groups.flatMap Prod.snd = log := by
  obtain ⟨-, groups, cur, hsim, hlog⟩ := h
  have hne : s.content ≠ [] := hsim.content ▸ segmentBytes_ne_nil _ _
  have hhas := hsim.hasEntries
  unfold KernelLog.finalizeLog
  by_cases hcur : cur = []
  · subst hcur
    rw [List.append_nil] at hlog
    refine ⟨groups, ?_, hsim.nonempty, hlog⟩
    rw [if_neg (by simp [hhas])]
    dsimp only
    split
    · rw [if_neg (by simp [hhas])]
      exact hsim.published
    · exact hsim.published
  · have htrue : s.hasEntries = true := by simpa [hhas] using hcur
    refine ⟨groups ++ [(s.segment, cur)], ?_, ?_, by simpa using hlog⟩
    · rw [if_pos htrue, flush_ok hne]
      dsimp only
      rw [if_pos htrue]
      exact hsim.publish hlabels hn
    · intro g hg
      rcases List.mem_append.mp hg with hg | hg
      · exact hsim.nonempty g hg
      · rw [List.mem_singleton.mp hg]
        exact hcur

-- its numbers must not be evaluated
attribute [local irreducible] blockOf

omit hlabels in
theorem stored_writeEntry {seq : ℕ} (hseq : seq < W64) {data : List UInt8}
    (hdata : (dev.compress data).length < logBufSize) (sector time : ℕ) :
    Stored (writeEntry dev seq sector data time) where
  op := .inl rfl
  time := Nat.mod_lt _ (by decide)
  sequence := hseq
  block := blockOf_lt _
  length := Nat.mod_lt _ (by norm_num)
  data := hdata.le

omit hlabels in
theorem stored_trimEntry {seq : ℕ} (hseq : seq < W64) (sector length time : ℕ) :
    Stored (trimEntry seq sector length time) where
  op := .inr ⟨rfl, rfl, rfl⟩
  time := Nat.mod_lt _ (by decide)
  sequence := hseq
  block := blockOf_lt _
  length := Nat.mod_lt _ (by norm_num)
  data := Nat.zero_le _

omit hlabels in
theorem stored_loggedEntries {es : List Event} (hes : ∀ e ∈ es, e.Fits dev) (k : ℕ) :
    ∀ e ∈ loggedEntries dev k es, Stored e := by
  have hseq : ∀ x, x % W64 < W64 := fun x => Nat.mod_lt x (by decide)
  induction es generalizing k with
  | nil => simp [loggedEntries]
  | cons ev es ih =>
    obtain ⟨hev, hes⟩ := List.forall_mem_cons.mp hes
    rw [loggedEntries_cons]
    intro e he
    rcases List.mem_append.mp he with he | he
    · cases ev with
      | write sector data time =>
        simp only [loggedEntries] at he
        split_ifs at he
        · simp at he
        · obtain rfl := List.mem_singleton.mp he
          exact stored_writeEntry (hseq k) hev sector time
      | discard sector length time =>
        obtain rfl := List.mem_singleton.mp he
        exact stored_trimEntry (hseq k) sector length time
      | flush synced => simp [loggedEntries] at he
      | timer => simp [loggedEntries] at he
    · exact ih hes _ e he

omit hlabels in
/-- The logged entries are numbered one after the other, in 64 bits. -/
theorem sequence_loggedEntries (dev : Device) (k : ℕ) (es : List Event) :
    (loggedEntries dev k es).map Entry.sequence =
      (List.range' k (loggedEntries dev k es).length).map (· % W64) := by
  induction es generalizing k with
  | nil => rfl
  | cons ev es ih =>
    cases ev with
    | write sector data time =>
      rw [loggedEntries]
      split_ifs
      · exact ih k
      · rw [List.map_cons, ih, List.length_cons, List.range'_succ, List.map_cons]
        rfl
    | discard sector length time =>
      rw [loggedEntries, List.map_cons, ih, List.length_cons, List.range'_succ, List.map_cons]
      rfl
    | flush synced => exact ih k
    | timer => exact ih k

omit hlabels in
/-- When nothing fails, the published files in name order are segments of at least one entry,
and together they hold the logged requests in order, numbered from zero. -/
theorem published_complete (dev : Device) {es : List Event} (hes : ∀ e ∈ es, e.Fits dev)
    (hlabels : ∀ s, runOk dev (start dev) es = some s →
      StrictMonoOn dev.labels (Set.Iic s.segment)) :
    ∃ s, runOk dev (start dev) es = some s ∧ ∃ groups : List (Name × List Entry),
      (finalizeLog dev .ok s).published.entries =
        groups.map (fun g => (logPath g.1, segmentBytes dev g.1 g.2)) ∧
      (∀ g ∈ groups, g.2 ≠ [] ∧ readLog (segmentBytes dev g.1 g.2) =
        some (⟨logVersion, blockSize, ascii g.1, dev.size, dev.backingPath⟩, g.2)) ∧
      groups.flatMap Prod.snd = loggedEntries dev 0 es ∧
      (groups.flatMap Prod.snd).map Entry.sequence =
        (List.range (groups.flatMap Prod.snd).length).map (· % W64) := by
  obtain ⟨s, hs, -⟩ := runOk_ok dev (start dev) hes
  have hstart : Holds dev (start dev) [] := ⟨rfl, [], [], sim_start dev, rfl⟩
  have hrun := hstart.run (hlabels s hs) hes hs le_rfl
  obtain ⟨groups, hfiles, hne, hlog⟩ := hrun.finalizeLog (hlabels s hs) le_rfl
  rw [List.nil_append, List.length_nil] at hlog
  have hall : (groups.map fun g => (dev.labels g.1, g.2)).flatMap Prod.snd =
      loggedEntries dev 0 es := by
    rw [List.flatMap_map, ← hlog]
  refine ⟨s, hs, groups.map fun g => (dev.labels g.1, g.2), ?_, ?_, hall, ?_⟩
  · rw [hfiles, List.map_map]
    rfl
  · intro g' hg'
    obtain ⟨g, hg, rfl⟩ := List.mem_map.mp hg'
    refine ⟨hne g hg, readLog_segmentBytes (dev.length_labels g.1) fun e he => ?_⟩
    exact stored_loggedEntries hes 0 e (hlog ▸ List.mem_flatMap.mpr ⟨g, hg, he⟩)
  · rw [hall, sequence_loggedEntries, List.range_eq_range']

end Complete

/-- A device of one megabyte that rotates at 64 MiB and stores its data as it is. -/
def sampleDevice : Device where
  maxSize := 64 * 1024 * 1024
  size := 1024 * 1024
  backingPath := ascii ['/', 'd']
  compress := id
  labels := tai64nLabel
  size_lt := by decide
  path_lt := by decide
  length_labels := length_tai64nLabel

/-- A write and a flush, then a discard and the timer, then a discard. -/
def sampleEvents : List Event :=
  [.write 8 [1, 2, 3] 5, .flush true, .discard 16 4096 6, .timer, .discard 24 8192 7]

theorem sampleEvents_published :
    ((runOk sampleDevice (start sampleDevice) sampleEvents).map fun s =>
      (finalizeLog sampleDevice .ok s).published.keys) =
        some [logPath (tai64nLabel 0), logPath (tai64nLabel 1), logPath (tai64nLabel 2)] ∧
    ∃ s, runOk sampleDevice (start sampleDevice) sampleEvents = some s ∧
      ∃ groups : List (Name × List Entry),
        (finalizeLog sampleDevice .ok s).published.entries =
          groups.map (fun g => (logPath g.1, segmentBytes sampleDevice g.1 g.2)) ∧
        (∀ g ∈ groups, g.2 ≠ [] ∧ readLog (segmentBytes sampleDevice g.1 g.2) =
          some (⟨logVersion, blockSize, ascii g.1, sampleDevice.size, sampleDevice.backingPath⟩,
            g.2)) ∧
        groups.flatMap Prod.snd = loggedEntries sampleDevice 0 sampleEvents ∧
        (groups.flatMap Prod.snd).map Entry.sequence =
          (List.range (groups.flatMap Prod.snd).length).map (· % W64) := by
  have hsegment : (runOk sampleDevice (start sampleDevice) sampleEvents).map LogState.segment =
      some 2 := by decide +kernel
  refine ⟨by decide +kernel,
    published_complete sampleDevice (by decide) fun s hs i hi j hj hlt => ?_⟩
  rw [hs, Option.map_some, Option.some.injEq] at hsegment
  rw [Set.mem_Iic, hsegment] at hj
  exact tai64nLabel_lt (by unfold ClockInRange; omega) hlt

end Lbd.KernelLog
