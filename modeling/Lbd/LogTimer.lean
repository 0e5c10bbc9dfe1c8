import Lbd.Interleaving
import Lbd.KernelLogRuns

/-!
# The age timer and the removal of a device

`log_rotate_dwork` rotates a segment that has grown old. `lbd_rotate_segment` arms it, whether
the timer, a flush request or the size of the segment asked for the rotation, and
`lbd_destroy_device` cancels it first and waits for the queued requests afterwards.
-/

namespace Lbd.LogTimer

open KernelLog (Device LogState FlushIo Io)

/-- A request that reaches the log. -/
structure Request where
  event : KernelLog.Event
  io : Io
deriving DecidableEq

/-- How far `lbd_destroy_device` has come. -/
inductive Stage where
  | bound
  | removing
  -- inside `cancel_delayed_work_sync`
  | canceling
  | canceled
  | unlisted
  | flushed
  | finalized
  | freed
deriving DecidableEq, Repr

/-- `cancel_delayed_work_sync` has returned. -/
def Stage.Canceled : Stage → Prop
  | .bound | .removing | .canceling => False
  | .canceled | .unlisted | .flushed | .finalized | .freed => True

/-- `requests` is `cmd_list` together with what the worker has taken from it; `none` is a
request that is not logged: a read, or one that failed. -/
structure State where
  log : LogState
  requests : List (Option Request)
  pending : Bool
  running : Bool
  stage : Stage

/-- The steps of all parties: the block layer, the worker, the timer, the removal. -/
inductive Event where
  | submit (r : Option Request)
  | work
  | expire
  | rotate (io : Io)
  | remove
  | cancel
  | cancelReturns
  | delGendisk
  | flushWorkqueue
  | finalize (io : FlushIo)
  | free

section Steps

variable (dev : Device)

/-- `mod_delayed_work`. While the work is being canceled it cannot be queued. -/
def arm (s : State) : State :=
  if s.stage = .canceling then s else { s with pending := true }

/-- Log an event. `lbd_rotate_segment` begins a new segment and arms the timer, or does
neither. -/
def logEvent (e : KernelLog.Event × Io) (s : State) : State :=
  match KernelLog.handle dev s.log e with
  | none => s
  | some log =>
    if log.segment = s.log.segment then { s with log := log } else arm { s with log := log }

def step (s : State) : Event → State
  | .submit r =>
    -- `lbd_queue_rq` refuses requests once the state is not `LBD_STATE_BOUND`
    if s.stage = .bound then { s with requests := s.requests ++ [r] } else s
  | .work =>
    match s.requests with
    | [] => s
    | none :: rest => { s with requests := rest }
    | some r :: rest => logEvent dev (r.event, r.io) { s with requests := rest }
  | .expire =>
    -- a work item does not run twice at a time
    if s.pending ∧ ¬ s.running then { s with pending := false, running := true } else s
  | .rotate io =>
    if s.running then { logEvent dev (.timer, io) s with running := false } else s
  | .remove => if s.stage = .bound then { s with stage := .removing } else s
  | .cancel =>
    if s.stage = .removing then { s with stage := .canceling, pending := false } else s
  | .cancelReturns =>
    if s.stage = .canceling ∧ ¬ s.running then { s with stage := .canceled } else s
  | .delGendisk => if s.stage = .canceled then { s with stage := .unlisted } else s
  | .flushWorkqueue =>
    if s.stage = .unlisted ∧ s.requests = [] then { s with stage := .flushed } else s
  | .finalize io =>
    if s.stage = .flushed then
      { s with log := KernelLog.finalizeLog dev io s.log, stage := .finalized }
    else s
  | .free => if s.stage = .finalized then { s with stage := .freed } else s

/-- A device as `lbd_add_device` leaves it: the timer is armed. -/
def start : State := ⟨KernelLog.start dev, [], true, false, .bound⟩

/-- The log rotates when it handles the event. -/
def Rotates (log : LogState) (e : KernelLog.Event × Io) : Prop :=
  ∃ log', KernelLog.handle dev log e = some log' ∧ log'.segment ≠ log.segment

/-- Once the timer is canceled, the worker handles no request that rotates the log. -/
def NoLateRotation (s : State) (e : Event) : Prop :=
  e = .work → s.stage.Canceled → ∀ r rest, s.requests = some r :: rest →
    ¬ Rotates dev s.log (r.event, r.io)

end Steps

/-- The timer does not outlive the device. -/
def TimerGone (s : State) : Prop := s.stage = .freed → s.pending = false ∧ s.running = false

section Invariant

variable {dev : Device} {s : State}

theorem segment_rotateSegment (io : FlushIo) {log : LogState} (h : log.hasEntries = true) :
    (KernelLog.rotateSegment dev io log).segment = log.segment + 1 := by
  obtain ⟨hsegment, -⟩ := KernelLog.flush_frame io log
  rw [KernelLog.rotateSegment, if_pos h]
  dsimp only
  split <;> exact congrArg (· + 1) hsegment

theorem rotates_flush {log : LogState} {synced : Bool} {io : Io} :
    Rotates dev log (.flush synced, io) ↔ synced = true ∧ log.hasEntries = true := by
  simp only [Rotates, KernelLog.handle, Option.some.injEq, exists_eq_left']
  cases synced with
  | false => simp
  | true =>
    cases hentries : log.hasEntries with
    | false => simp [KernelLog.rotateSegment, hentries]
    | true => simp [segment_rotateSegment io.rotate hentries]

theorem logEvent_stage (e : KernelLog.Event × Io) : (logEvent dev e s).stage = s.stage := by
  unfold logEvent arm
  repeat' split
  all_goals rfl

theorem logEvent_running (e : KernelLog.Event × Io) :
    (logEvent dev e s).running = s.running := by
  unfold logEvent arm
  repeat' split
  all_goals rfl

theorem logEvent_pending {e : KernelLog.Event × Io} (h : ¬ Rotates dev s.log e) :
    (logEvent dev e s).pending = s.pending := by
  unfold logEvent
  split
  · rfl
  · next log hlog =>
    rw [if_pos (by_contra fun hne => h ⟨log, hlog, hne⟩)]

/-- From the moment the cancellation returns the timer is idle, and while it goes on the timer
is not pending. -/
structure Inv (s : State) : Prop where
  idle : s.stage.Canceled → s.pending = false ∧ s.running = false
  canceling : s.stage = .canceling → s.pending = false

theorem logEvent_canceling {e : KernelLog.Event × Io} (h : s.stage = .canceling) :
    (logEvent dev e s).pending = s.pending := by
  unfold logEvent arm
  split
  · rfl
  · rw [if_pos h]
    split <;> rfl

theorem Inv.work {rest : List (Option Request)} {r : Request} (h : Inv s)
    (hlate : s.stage.Canceled → ¬ Rotates dev s.log (r.event, r.io)) :
    Inv (logEvent dev (r.event, r.io) { s with requests := rest }) where
  idle hc := by
    rw [logEvent_stage] at hc
    rw [logEvent_running, logEvent_pending]
    · exact h.idle hc
    · exact hlate hc
  canceling hc := by
    rw [logEvent_stage] at hc
    rw [logEvent_canceling hc]
    exact h.canceling hc

theorem Inv.rotate {io : Io} (h : Inv s) (hrunning : s.running = true) :
    Inv { logEvent dev (.timer, io) s with running := false } where
  idle hc := by
    -- the cancellation has waited for the running work
    change (logEvent dev (.timer, io) s).stage.Canceled at hc
    rw [logEvent_stage] at hc
    exact absurd ((h.idle hc).2.symm.trans hrunning) Bool.false_ne_true
  canceling hc := by
    change (logEvent dev (.timer, io) s).stage = .canceling at hc
    rw [logEvent_stage] at hc
    exact (logEvent_canceling hc).trans (h.canceling hc)

theorem Inv.step (h : Inv s) {e : Event} (hlate : NoLateRotation dev s e) :
    Inv (step dev s e) := by
  cases e with
  | submit r =>
    rw [LogTimer.step]
    split
    · exact ⟨h.idle, h.canceling⟩
    · exact h
  | work =>
    rw [LogTimer.step]
    split
    · exact h
    · exact ⟨h.idle, h.canceling⟩
    · next r rest hr => exact h.work fun hc => hlate rfl hc r rest hr
  | expire =>
    rw [LogTimer.step]
    split
    · next hp =>
      refine ⟨fun hc => ?_, fun _ => rfl⟩
      exact absurd ((h.idle hc).1.symm.trans hp.1) Bool.false_ne_true
    · exact h
  | rotate io =>
    rw [LogTimer.step]
    split
    · next hr => exact h.rotate hr
    · exact h
  | remove =>
    rw [LogTimer.step]
    split
    · exact ⟨nofun, nofun⟩
    · exact h
  | cancel =>
    rw [LogTimer.step]
    split
    · exact ⟨nofun, fun _ => rfl⟩
    · exact h
  | cancelReturns =>
    rw [LogTimer.step]
    split
    · next hc => exact ⟨fun _ => ⟨h.canceling hc.1, by simpa using hc.2⟩, nofun⟩
    · exact h
  | delGendisk =>
    rw [LogTimer.step]
    split
    · next hc => exact ⟨fun _ => h.idle (hc ▸ trivial), nofun⟩
    · exact h
  | flushWorkqueue =>
    rw [LogTimer.step]
    split
    · next hc => exact ⟨fun _ => h.idle (hc.1 ▸ trivial), nofun⟩
    · exact h
  | finalize io =>
    rw [LogTimer.step]
    split
    · next hc => exact ⟨fun _ => h.idle (hc ▸ trivial), nofun⟩
    · exact h
  | free =>
    rw [LogTimer.step]
    split
    · next hc => exact ⟨fun _ => h.idle (hc ▸ trivial), nofun⟩
    · exact h

/-- Whatever the log holds, whichever requests are queued and whether or not the timer is armed
or runs when the removal begins: without a late rotation the timer is gone when the device is
freed. -/
theorem timer_gone_at_free {es : List Event} (hbound : s.stage = .bound)
    (hlate : EachStep (step dev) s (NoLateRotation dev) es) :
    ∀ pre, pre <+: es → TimerGone (after (step dev) s pre) := by
  intro pre hpre hfreed
  have hinv : Inv (after (step dev) s pre) := by
    apply (hlate.of_prefix hpre).invariant
    · constructor
      · intro hc
        rw [hbound] at hc
        exact hc.elim
      · intro hc
        cases hbound.symm.trans hc
    · intro s e h he
      exact h.step he
  exact hinv.idle (hfreed ▸ trivial)

end Invariant

section Removal

open KernelLog (sampleDevice)

/-- The worker handles a flush request between the cancellation and the end of the removal. -/
def removal (first : Option Request) : List Event :=
  [.submit first, .submit (some ⟨.flush true, .ok⟩), .work, .remove, .cancel,
    .cancelReturns, .work, .delGendisk, .flushWorkqueue, .finalize .ok, .free]

theorem removal_read_gone :
    (after (step sampleDevice) (start sampleDevice) (removal none)).stage = .freed ∧
      ∀ pre, pre <+: removal none →
        TimerGone (after (step sampleDevice) (start sampleDevice) pre) := by
  refine ⟨by decide +kernel, timer_gone_at_free rfl ?_⟩
  have hlate : NoLateRotation sampleDevice
      (after (step sampleDevice) (start sampleDevice) ((removal none).take 6)) .work := by
    intro _ _ r rest hr
    have hflush : (after (step sampleDevice) (start sampleDevice)
        ((removal none).take 6)).requests = [some ⟨.flush true, .ok⟩] := by
      decide +kernel
    have hentries : (after (step sampleDevice) (start sampleDevice)
        ((removal none).take 6)).log.hasEntries = false := by
      decide +kernel
    cases hflush.symm.trans hr
    rw [rotates_flush, hentries]
    nofun
  refine eachStep_cons nofun (eachStep_cons nofun (eachStep_cons nofun ?_))
  refine eachStep_cons nofun (eachStep_cons nofun (eachStep_cons nofun ?_))
  refine eachStep_cons hlate (eachStep_cons nofun (eachStep_cons nofun ?_))
  exact eachStep_cons nofun (eachStep_cons nofun eachStep_nil)

/-- The discard gives the segment an entry, so the flush rotates it and arms the timer again. -/
theorem removal_discard_rearms :
    (after (step sampleDevice) (start sampleDevice)
        (removal (some ⟨.discard 0 4096 1, .ok⟩))).stage = .freed ∧
      (after (step sampleDevice) (start sampleDevice)
        (removal (some ⟨.discard 0 4096 1, .ok⟩))).pending = true := by
  decide +kernel

end Removal

end Lbd.LogTimer
