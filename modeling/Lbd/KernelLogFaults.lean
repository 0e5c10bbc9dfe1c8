import Lbd.KernelLogRuns

/-!
# The kernel log under failures

A failed flush drops the buffer while the segment stays current. The published
files stay readable as long as every failed flush leaves a header and whole
entries in the file, and the file can be opened unless the segment ends anyway.
-/

namespace Lbd.KernelLog

open Cbor LogName

/-- The bytes are the header of segment `i` and whole entries. -/
def IsSegment (dev : Device) (i : ℕ) (bytes : List UInt8) : Prop :=
  ∃ es, (∀ e ∈ es, Stored e) ∧ bytes = segmentBytes dev (dev.labels i) es

/-- One segment header followed by complete entries, up to the end of the file. -/
def WellFormed (bytes : List UInt8) : Prop := (readLog bytes).isSome

instance : DecidablePred WellFormed := fun _ => inferInstanceAs (Decidable (_ = true))

/-- How a flush may fail: the file cannot be opened, but the segment is `ending`, or the write
is short, but the file then has the header and whole entries. -/
structure Harmless (dev : Device) (ending : Bool) (s : LogState) (io : FlushIo) : Prop where
  opened : s.buf ≠ [] → s.file = none → io.opens = false → ending = true
  whole : ∀ n, io.wrote = some n → n < s.buf.length → (s.file = none → io.opens = true) →
    IsSegment dev s.segment (s.file.getD [] ++ s.buf.take n)

/-- The flushes that an event makes are harmless. -/
def EventHarmless (dev : Device) (s : LogState) : Event × Io → Prop
  | (.write sector data time, io) =>
    let e := writeEntry dev s.seq sector data time
    AppendHarmless io.entry (writeHead e) { s with seq := (s.seq + 1) % W64 } ∧
      ∀ s₁, append io.entry (writeHead e) { s with seq := (s.seq + 1) % W64 } = some (true, s₁) →
        AppendHarmless io.data e.data s₁ ∧
          ∀ s₂, append io.data e.data s₁ = some (true, s₂) → Harmless dev true s₂ io.rotate
  | (.discard sector length time, io) =>
    let tmp := encMap (entryFields (trimEntry s.seq sector length time))
    AppendHarmless io.entry tmp { s with seq := (s.seq + 1) % W64 } ∧
      ∀ s₁, append io.entry tmp { s with seq := (s.seq + 1) % W64 } = some (true, s₁) →
        Harmless dev true s₁ io.rotate
  | (.flush _, io) => Harmless dev true s io.rotate
  | (.timer, io) => Harmless dev true s io.rotate
where
  AppendHarmless (io : FlushIo) (data : List UInt8) (s : LogState) : Prop :=
    logBufSize < s.buf.length + data.length → Harmless dev false s io

/-- The flushes of a run are harmless. -/
def RunHarmless (dev : Device) : LogState → List (Event × Io) → Prop
  | _, [] => True
  | s, e :: es => EventHarmless dev s e ∧ ∀ s', handle dev s e = some s' → RunHarmless dev s' es

/-- What a run keeps. -/
structure LogInv (dev : Device) (s : LogState) : Prop where
  seq : s.seq < W64
  content : IsSegment dev s.segment s.content
  published : ∀ f ∈ s.published.entries, WellFormed f.2

section Steps

variable {dev : Device} {s s' : LogState} {io : FlushIo}

theorem IsSegment.wellFormed {i : ℕ} {bytes : List UInt8} (h : IsSegment dev i bytes) :
    WellFormed bytes := by
  obtain ⟨es, hes, rfl⟩ := h
  rw [WellFormed, readLog_segmentBytes (dev.length_labels i) hes]
  rfl

theorem IsSegment.append {i : ℕ} {bytes : List UInt8} (h : IsSegment dev i bytes) {e : Entry}
    (he : Stored e) : IsSegment dev i (bytes ++ encMap (entryFields e)) := by
  obtain ⟨es, hes, rfl⟩ := h
  refine ⟨es ++ [e], ?_, (segmentBytes_append _ _ _).symm⟩
  intro d hd
  rcases List.mem_append.mp hd with hd | hd
  · exact hes d hd
  · rw [List.mem_singleton.mp hd]
    exact he

theorem isSegment_begin (dev : Device) (i : ℕ) (s : LogState) :
    IsSegment dev i (beginSegment dev i s).content :=
  ⟨[], by simp, content_beginSegment dev i s⟩

/-- A harmless flush at the end of a segment leaves no file or one with whole entries. -/
theorem Harmless.file_flush (h : IsSegment dev s.segment s.content) (hio : Harmless dev true s io)
    {content : List UInt8} (hfile : (flush io s).2.file = some content) :
    IsSegment dev s.segment content := by
  have hcase := flush_cases io s
  generalize flush io s = r at hcase hfile
  cases hcase with
  | done hc =>
    dsimp only at hfile
    rw [hfile] at hc
    exact (show content = s.content from hc) ▸ h
  | notOpened _ hnone _ =>
    dsimp only at hfile
    rw [hnone] at hfile
    cases hfile
  | short hn hwrote hopen =>
    obtain rfl := Option.some.inj hfile
    exact hio.whole _ hwrote hn hopen

theorem LogInv.publish (h : LogInv dev s) (hio : Harmless dev true s io) {content : List UInt8}
    (hfile : (flush io s).2.file = some content) :
    ∀ f ∈ (publish dev content (flush io s).2).published.entries, WellFormed f.2 := by
  intro f hf
  rcases SortedMap.mem_insert.mp hf with rfl | ⟨hf, -⟩
  · exact (hio.file_flush h.content hfile).wellFormed
  · rw [(flush_frame io s).2.1] at hf
    exact h.published f hf

theorem LogInv.rotateSegment (h : LogInv dev s) (hio : Harmless dev true s io) :
    LogInv dev (rotateSegment dev io s) := by
  obtain ⟨hsegment, hpublished, hseq⟩ := flush_frame io s
  unfold KernelLog.rotateSegment
  split_ifs
  · dsimp only
    cases hfile : (flush io s).2.file with
    | some content => exact ⟨hseq ▸ h.seq, isSegment_begin dev _ _, h.publish hio hfile⟩
    | none => exact ⟨hseq ▸ h.seq, isSegment_begin dev _ _, hpublished ▸ h.published⟩
  · exact h

theorem LogInv.finalizeLog (h : LogInv dev s) (hio : Harmless dev true s io) :
    ∀ f ∈ (finalizeLog dev io s).published.entries, WellFormed f.2 := by
  unfold KernelLog.finalizeLog
  by_cases hhas : s.hasEntries = true
  · have hpublished := (flush_frame io s).2.1 ▸ h.published
    rw [if_pos hhas]
    dsimp only
    cases hfile : (flush io s).2.file with
    | some content =>
      dsimp only
      split_ifs
      · exact h.publish hio hfile
      · exact hpublished
    | none => exact hpublished
  · rw [if_neg hhas]
    dsimp only
    cases s.file with
    | some content =>
      dsimp only
      rw [if_neg hhas]
      exact h.published
    | none => exact h.published

theorem Harmless.failed (hio : Harmless dev false s io) (hcase : FlushCase io s (false, s')) :
    IsSegment dev s.segment s'.content ∧ s'.segment = s.segment ∧ s'.published = s.published ∧
      s'.seq = s.seq := by
  cases hcase with
  | notOpened hbuf hnone hopens => cases hio.opened hbuf hnone hopens
  | short hn hwrote hopen =>
    refine ⟨?_, rfl, rfl, rfl⟩
    rw [LogState.content, List.append_nil]
    exact hio.whole _ hwrote hn hopen

theorem LogInv.failed (h : LogInv dev s) (hcontent : IsSegment dev s.segment s'.content)
    (hseq : s'.seq = (s.seq + 1) % W64) (hsegment : s'.segment = s.segment)
    (hpublished : s'.published = s.published) : LogInv dev s' where
  seq := hseq ▸ Nat.mod_lt _ (by decide)
  content := hsegment ▸ hcontent
  published := hpublished ▸ h.published

theorem LogInv.logged (h : LogInv dev s) {e : Entry} (he : Stored e)
    (hcontent : s'.content = s.content ++ encMap (entryFields e))
    (hseq : s'.seq = (s.seq + 1) % W64) (hsegment : s'.segment = s.segment)
    (hpublished : s'.published = s.published) (hio : Harmless dev true s' io) :
    LogInv dev (logged dev io s') := by
  have hinv : LogInv dev { s' with hasEntries := true } :=
    h.failed (hcontent ▸ h.content.append he) hseq hsegment hpublished
  unfold KernelLog.logged maybeRotateSegment
  split_ifs
  · exact hinv.rotateSegment ⟨hio.opened, hio.whole⟩
  · exact hinv

theorem LogInv.logDiscard (h : LogInv dev s) {io : Io} (sector length time : ℕ)
    (hio : EventHarmless dev s (.discard sector length time, io)) :
    ∃ s', logDiscard dev io sector length time s = some s' ∧ LogInv dev s' := by
  obtain ⟨hentry, hrotate⟩ := hio
  have hcase := append_cases io.entry (length_trim_le s.seq sector length time)
    { s with seq := (s.seq + 1) % W64 }
  rw [logDiscard_eq]
  generalize append io.entry _ _ = r at hcase hrotate
  cases hcase with
  | done hcontent =>
    have he := stored_trimEntry h.seq sector length time
    exact ⟨_, rfl, h.logged he hcontent rfl rfl rfl (hrotate _ rfl)⟩
  | failed hfull hflush =>
    obtain ⟨hcontent, hsegment, hpublished, hseq⟩ := (hentry hfull).failed hflush
    exact ⟨_, rfl, h.failed hcontent hseq hsegment hpublished⟩

theorem LogInv.logWrite (h : LogInv dev s) {io : Io} (sector time : ℕ) {data : List UInt8}
    (hfit : (dev.compress data).length < logBufSize)
    (hio : EventHarmless dev s (.write sector data time, io)) :
    ∃ s', logWrite dev io sector data time s = some s' ∧ LogInv dev s' := by
  by_cases hne : data = [] ∨ dev.compress data = []
  · have hsame : KernelLog.logWrite dev io sector data time s = some s := if_pos hne
    exact ⟨s, hsame, h⟩
  obtain ⟨hentry, hdata⟩ := hio
  have hcase := append_cases io.entry
    (length_writeHead_le (writeEntry dev s.seq sector data time))
    { s with seq := (s.seq + 1) % W64 }
  rw [logWrite_eq hne]
  generalize append io.entry _ _ = r at hcase hdata
  cases hcase with
  | @done file buf hhead =>
    obtain ⟨hdata, hrotate⟩ := hdata _ rfl
    have hcase := append_cases io.data hfit.le
      { s with seq := (s.seq + 1) % W64, file := file, buf := buf }
    simp only [Option.bind_some, if_true]
    generalize hr : append io.data (dev.compress data) _ = r at hcase
    cases hcase with
    | @done file' buf' hrest =>
      have he := stored_writeEntry h.seq hfit sector time
      have hcontent : file'.getD [] ++ buf' =
          s.content ++ encMap (entryFields (writeEntry dev s.seq sector data time)) := by
        rw [hrest, LogState.content, hhead, ← writeHead_append rfl, ← List.append_assoc]
        rfl
      exact ⟨_, rfl, h.logged he hcontent rfl rfl rfl (hrotate _ hr)⟩
    | failed hfull hflush =>
      obtain ⟨hcontent, hsegment, hpublished, hseq⟩ := (hdata hfull).failed hflush
      exact ⟨_, rfl, h.failed hcontent hseq hsegment hpublished⟩
  | failed hfull hflush =>
    obtain ⟨hcontent, hsegment, hpublished, hseq⟩ := (hentry hfull).failed hflush
    exact ⟨_, rfl, h.failed hcontent hseq hsegment hpublished⟩

theorem LogInv.handle (h : LogInv dev s) {e : Event × Io} (hfit : e.1.Fits dev)
    (hio : EventHarmless dev s e) : ∃ s', handle dev s e = some s' ∧ LogInv dev s' := by
  obtain ⟨e, io⟩ := e
  cases e with
  | write sector data time => exact h.logWrite sector time hfit hio
  | discard sector length time => exact h.logDiscard sector length time hio
  | flush synced =>
    refine ⟨_, rfl, ?_⟩
    split_ifs
    · exact h.rotateSegment hio
    · exact h
  | timer => exact ⟨_, rfl, h.rotateSegment hio⟩

theorem LogInv.run (h : LogInv dev s) {es : List (Event × Io)} (hfit : ∀ e ∈ es, e.1.Fits dev)
    (hrun : RunHarmless dev s es) : ∃ s', run dev s es = some s' ∧ LogInv dev s' := by
  induction es generalizing s with
  | nil => exact ⟨s, rfl, h⟩
  | cons e es ih =>
    obtain ⟨he, hes⟩ := List.forall_mem_cons.mp hfit
    obtain ⟨s₁, hs₁, hinv⟩ := h.handle he hrun.1
    obtain ⟨s', hs', hinv'⟩ := ih hinv hes (hrun.2 s₁ hs₁)
    refine ⟨s', ?_, hinv'⟩
    simpa [KernelLog.run, hs₁] using hs'

end Steps

theorem logInv_start (dev : Device) : LogInv dev (start dev) where
  seq := (by decide : 0 < W64)
  content := isSegment_begin dev 0 _
  published := by simp [start, beginSegment, SortedMap.empty]

/-- In every run whose flushes are harmless, each published file is a header followed by
complete entries, and so is the one that the removal of the device publishes. -/
theorem published_wellFormed (dev : Device) {es : List (Event × Io)}
    (hfit : ∀ e ∈ es, e.1.Fits dev) (hrun : RunHarmless dev (start dev) es) :
    ∃ s, run dev (start dev) es = some s ∧ (∀ f ∈ s.published.entries, WellFormed f.2) ∧
      ∀ io, Harmless dev true s io →
        ∀ f ∈ (finalizeLog dev io s).published.entries, WellFormed f.2 := by
  obtain ⟨s, hs, hinv⟩ := (logInv_start dev).run hfit hrun
  exact ⟨s, hs, hinv.published, fun io hio => hinv.finalizeLog hio⟩

theorem harmless_ok (dev : Device) (ending : Bool) (s : LogState) : Harmless dev ending s .ok :=
  ⟨nofun, nofun⟩

theorem harmless_notOpened (dev : Device) (s : LogState) : Harmless dev true s ⟨false, none⟩ :=
  ⟨fun _ _ _ => rfl, nofun⟩

/-- The first segment cannot be opened when it is rotated; the second one can. -/
def lostSegment : List (Event × Io) :=
  [(.discard 0 4096 1, .ok), (.flush true, ⟨.ok, .ok, ⟨false, none⟩⟩), (.discard 8 4096 2, .ok),
    (.timer, .ok)]

theorem lostSegment_wellFormed :
    (run sampleDevice (start sampleDevice) lostSegment).map (fun s => s.published.keys) =
        some [logPath (tai64nLabel 1)] ∧
      ∃ s, run sampleDevice (start sampleDevice) lostSegment = some s ∧
        ∀ f ∈ s.published.entries, WellFormed f.2 := by
  refine ⟨by decide +kernel, ?_⟩
  have hrun : RunHarmless sampleDevice (start sampleDevice) lostSegment := by
    refine ⟨⟨fun _ => harmless_ok _ _ _, fun _ _ => harmless_ok _ _ _⟩, fun s₁ _ => ?_⟩
    refine ⟨harmless_notOpened _ _, fun s₂ _ => ?_⟩
    refine ⟨⟨fun _ => harmless_ok _ _ _, fun _ _ => harmless_ok _ _ _⟩, fun s₃ _ => ?_⟩
    exact ⟨harmless_ok _ _ _, fun _ _ => trivial⟩
  obtain ⟨s, hs, hfiles, -⟩ := published_wellFormed sampleDevice (by decide) hrun
  exact ⟨s, hs, hfiles⟩

/-- One discard; the write that the flush request causes stores one byte. The file is published
all the same. -/
theorem short_write_published :
    (run sampleDevice (start sampleDevice)
      [(.discard 0 4096 1, .ok), (.flush true, ⟨.ok, .ok, ⟨true, some 1⟩⟩)]).map
        (fun s => s.published.entries) = some [(logPath (tai64nLabel 0), [0xa5])] ∧
      ¬ WellFormed [0xa5] := by
  decide +kernel

end Lbd.KernelLog
