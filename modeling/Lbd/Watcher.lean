import Lbd.Cbor
import Lbd.Interleaving
import Lbd.RingBuffer

/-!
# Watchers of log rotations

`lbd_main.c`: rotations enqueue events into the ring of a watcher, and `lbd_ctl_read` peeks
at the front, encodes the event, copies it to the user and pops. Peek and pop take the lock
separately, so that events may be enqueued in between. One reader, any number of enqueues.
-/

namespace Lbd.Watcher

open Cbor

abbrev queueSize : ℕ := 64

/-- `struct lbd_watcher_event`. The texts stand in arrays of 25 and 256 bytes with a
terminator. -/
structure WatcherEvent where
  devIndex : ℕ
  logSeq : ℕ
  deviceSize : ℕ
  segmentLabel : List UInt8
  logDir : List UInt8
  label_lt : segmentLabel.length < 25
  dir_lt : logDir.length < 256
deriving DecidableEq

/-- A slot of a fresh watcher. -/
def WatcherEvent.zero : WatcherEvent := ⟨0, 0, 0, [], [], by decide, by decide⟩

/-- The text `log_rotated`. -/
def logRotated : List UInt8 := [108, 111, 103, 95, 114, 111, 116, 97, 116, 101, 100]

/-- The map that `lbd_ctl_read` encodes. -/
def eventFields (ev : WatcherEvent) : List Field :=
  [(1, .text logRotated), (2, .uint ev.devIndex), (3, .text ev.segmentLabel),
    (4, .text ev.logDir), (5, .uint ev.logSeq), (6, .uint ev.deviceSize)]

/-- Where the reader stands in `lbd_ctl_read`. -/
inductive Reader where
  /-- outside, or waiting for an event -/
  | idle
  /-- `lbd_ctl_has_event` was true -/
  | ready
  /-- the front is copied to `ev` -/
  | peeked (ev : WatcherEvent)
  /-- `copy_to_user` is done -/
  | copied
deriving DecidableEq

/-- The ring and the reader, and what happened so far: the events enqueued, the position among
them and the bytes of each event the reader got, the position it peeked at last, and whether an
enqueue found the ring full since then. -/
structure State where
  ring : RingBuffer WatcherEvent queueSize
  reader : Reader
  enqueued : List WatcherEvent
  received : List (ℕ × List UInt8)
  taken : ℕ
  overrun : Bool

/-- `lbd_watcher_alloc` -/
def State.start : State := ⟨.empty .zero, .idle, [], [], 0, false⟩

namespace State

/-- The position of the front of the ring. -/
def first (s : State) : ℕ := s.enqueued.length - s.ring.count

/-- The event enqueued at position `p` is in the ring. -/
def Queued (s : State) (p : ℕ) : Prop := s.first ≤ p ∧ p < s.enqueued.length

def Received (s : State) (p : ℕ) : Prop := ∃ r ∈ s.received, r.1 = p

end State

inductive Event where
  | enqueue (ev : WatcherEvent)
  | hasEvent
  | peek
  /-- encode, compare with the size of the user's buffer, copy -/
  | copy (count : ℕ) (faults : Bool)
  | pop

/-- Whether the encoded event is copied to the user. -/
def copies (ev : WatcherEvent) (count : ℕ) (faults : Bool) : Bool :=
  (encMap (eventFields ev)).length ≤ 512 && (encMap (eventFields ev)).length ≤ count && !faults

def step (s : State) : Event → State
  | .enqueue ev =>
    { s with
      ring := s.ring.push ev
      enqueued := s.enqueued ++ [ev]
      overrun := s.overrun || s.ring.count == queueSize }
  | .hasEvent =>
    match s.reader with
    | .idle => if s.ring.peek.isSome then { s with reader := .ready } else s
    | _ => s
  | .peek =>
    match s.reader, s.ring.peek with
    | .ready, some ev => { s with reader := .peeked ev, taken := s.first, overrun := false }
    | _, _ => s
  | .copy count faults =>
    match s.reader with
    | .peeked ev =>
      if copies ev count faults then
        { s with
          reader := .copied
          received := s.received ++ [(s.taken, encMap (eventFields ev))] }
      else { s with reader := .idle }
    | _ => s
  | .pop =>
    match s.reader with
    | .copied => { s with reader := .idle, ring := s.ring.pop }
    | _ => s

/-- The state after a run of a fresh watcher. -/
abbrev run (es : List Event) : State := after step .start es

/-- An event leaves the ring without having been delivered only when an enqueue finds
`queueSize` events in it, none of them delivered. -/
def DropsOldest (s : State) (e : Event) : Prop :=
  ∀ p, s.Queued p → ¬(step s e).Queued p → ¬(step s e).Received p →
    (∃ ev, e = .enqueue ev) ∧ s.ring.count = queueSize ∧ ∀ q, s.Queued q → ¬s.Received q

/-- What a watcher is for. `queue` says what the positions mean. -/
structure Delivers (es : List Event) : Prop where
  queue : (run es).ring.contents = (run es).enqueued.drop (run es).first
  ordered : (run es).received.Pairwise fun r r' => r.1 < r'.1
  intact : ∀ r ∈ (run es).received,
    ∃ ev, (run es).enqueued[r.1]? = some ev ∧ r.2 = encMap (eventFields ev)
  drops : EachStep step .start DropsOldest es

/-- No enqueue found the ring full between the peek of this read and its pop. -/
def NotOverrun (s : State) (e : Event) : Prop :=
  e = .pop → s.reader = .copied → s.overrun = false

variable {s : State}

/-- The event peeked at left the ring exactly if the ring was full at an enqueue since; then
it is full still. -/
structure Peeked (s : State) : Prop where
  count_pos : 0 < s.ring.count
  taken_le : s.taken ≤ s.first
  overrun_iff : s.overrun = true ↔ s.taken < s.first
  full : s.overrun = true → s.ring.count = queueSize

/-- What the reader's place says about the positions. -/
def ReaderInv (s : State) : Prop :=
  match s.reader with
  | .idle => ∀ r ∈ s.received, r.1 < s.first
  | .ready => 0 < s.ring.count ∧ ∀ r ∈ s.received, r.1 < s.first
  | .peeked ev =>
    Peeked s ∧ s.enqueued[s.taken]? = some ev ∧ ∀ r ∈ s.received, r.1 < s.taken
  | .copied => Peeked s ∧ s.Received s.taken ∧ ∀ r ∈ s.received, r.1 ≤ s.taken

structure Inv (s : State) : Prop where
  contents : s.ring.contents = s.enqueued.drop s.first
  ordered : s.received.Pairwise fun r r' => r.1 < r'.1
  intact : ∀ r ∈ s.received, ∃ ev, s.enqueued[r.1]? = some ev ∧ r.2 = encMap (eventFields ev)
  reader : ReaderInv s

theorem inv_start : Inv .start where
  contents := rfl
  ordered := .nil
  intact := nofun
  reader := nofun

theorem Inv.count_le (h : Inv s) : s.ring.count ≤ s.enqueued.length := by
  have hlen := congrArg List.length h.contents
  rw [RingBuffer.length_contents, List.length_drop] at hlen
  omega

theorem first_enqueue (h : Inv s) (ev : WatcherEvent) :
    (step s (.enqueue ev)).first =
      if s.ring.count = queueSize then s.first + 1 else s.first := by
  have hle := h.count_le
  simp only [State.first, step, RingBuffer.count_push, List.length_append, List.length_singleton]
  split_ifs with hfull
  · omega
  · omega

theorem contents_enqueue (h : Inv s) (ev : WatcherEvent) :
    (step s (.enqueue ev)).ring.contents =
      (step s (.enqueue ev)).enqueued.drop (step s (.enqueue ev)).first := by
  have hle := h.count_le
  rw [first_enqueue h]
  change (s.ring.push ev).contents = (s.enqueued ++ [ev]).drop _
  rw [RingBuffer.contents_push, h.contents, List.tail_drop]
  have hfirst : s.first = s.enqueued.length - s.ring.count := rfl
  split_ifs with hfull
  · have hcount : s.ring.count = 64 := hfull
    rw [List.drop_append_of_le_length (by omega)]
  · rw [List.drop_append_of_le_length (by omega)]

theorem Peeked.enqueue (h : Inv s) (hp : Peeked s) (ev : WatcherEvent) :
    Peeked (step s (.enqueue ev)) := by
  have hfirst := first_enqueue h ev
  have hover : (step s (.enqueue ev)).overrun = (s.overrun || s.ring.count == queueSize) := rfl
  have htaken : (step s (.enqueue ev)).taken = s.taken := rfl
  have hcount : (step s (.enqueue ev)).ring.count =
      if s.ring.count = queueSize then queueSize else s.ring.count + 1 :=
    RingBuffer.count_push _ _
  have hle := hp.taken_le
  have hiff := hp.overrun_iff
  by_cases hfull : s.ring.count = queueSize
  · rw [if_pos hfull] at hfirst hcount
    have hpos : (step s (.enqueue ev)).ring.count = 64 := hcount
    have htrue : (step s (.enqueue ev)).overrun = true := by rw [hover, hfull]; simp
    refine ⟨by omega, by omega, ?_, fun _ => hcount⟩
    rw [htrue, hfirst, htaken]
    exact ⟨fun _ => by omega, fun _ => rfl⟩
  · rw [if_neg hfull] at hfirst hcount
    have hsame : (step s (.enqueue ev)).overrun = s.overrun := by
      rw [hover, beq_false_of_ne hfull, Bool.or_false]
    refine ⟨by omega, by omega, ?_, ?_⟩
    · rw [hsame, hfirst, htaken, hiff]
    · rw [hsame]
      intro htrue
      exact absurd (hp.full htrue) hfull

theorem Inv.enqueue (h : Inv s) (ev : WatcherEvent) : Inv (step s (.enqueue ev)) where
  contents := contents_enqueue h ev
  ordered := h.ordered
  intact := by
    intro r hr
    obtain ⟨ev', hev, hbytes⟩ := h.intact r hr
    exact ⟨ev', List.getElem?_append_left (List.getElem?_eq_some_iff.mp hev).1 ▸ hev, hbytes⟩
  reader := by
    have hfirst : s.first ≤ (step s (.enqueue ev)).first := by
      rw [first_enqueue h]
      split_ifs <;> omega
    have hreader := h.reader
    have hsame : (step s (.enqueue ev)).reader = s.reader := rfl
    unfold ReaderInv at hreader ⊢
    rw [hsame]
    cases hr : s.reader with
    | idle =>
      rw [hr] at hreader
      exact fun r hm => (hreader r hm).trans_le hfirst
    | ready =>
      rw [hr] at hreader
      refine ⟨?_, fun r hm => (hreader.2 r hm).trans_le hfirst⟩
      change 0 < (s.ring.push ev).count
      rw [RingBuffer.count_push]
      split_ifs <;> simp
    | peeked ev' =>
      rw [hr] at hreader
      obtain ⟨hp, hev, hlt⟩ := hreader
      refine ⟨hp.enqueue h ev, ?_, hlt⟩
      exact List.getElem?_append_left (List.getElem?_eq_some_iff.mp hev).1 ▸ hev
    | copied =>
      rw [hr] at hreader
      exact ⟨hreader.1.enqueue h ev, hreader.2⟩

theorem getElem?_first (h : Inv s) {ev : WatcherEvent} (hev : s.ring.peek = some ev) :
    s.enqueued[s.first]? = some ev := by
  rw [RingBuffer.peek_eq, h.contents, List.head?_drop] at hev
  exact hev

theorem count_pos_of_peek {ev : WatcherEvent} (hev : s.ring.peek = some ev) :
    0 < s.ring.count := by
  unfold RingBuffer.peek at hev
  split_ifs at hev with hpos
  exact hpos

theorem Inv.hasEvent (h : Inv s) : Inv (step s .hasEvent) := by
  have hreader := h.reader
  unfold step
  cases hr : s.reader with
  | idle =>
    dsimp only
    split_ifs with hsome
    · obtain ⟨ev, hev⟩ := Option.isSome_iff_exists.mp hsome
      unfold ReaderInv at hreader
      rw [hr] at hreader
      exact ⟨h.contents, h.ordered, h.intact, count_pos_of_peek hev, hreader⟩
    · exact h
  | ready => exact h
  | peeked ev => exact h
  | copied => exact h

theorem Inv.peek (h : Inv s) : Inv (step s .peek) := by
  have hreader := h.reader
  unfold ReaderInv at hreader
  unfold step
  cases hr : s.reader with
  | ready =>
    rw [hr] at hreader
    cases hev : s.ring.peek with
    | none => exact h
    | some ev =>
      refine ⟨h.contents, h.ordered, h.intact, ?_, getElem?_first h hev, hreader.2⟩
      exact ⟨hreader.1, le_refl _, by simp [State.first], nofun⟩
  | idle => exact h
  | peeked ev => exact h
  | copied => exact h

theorem Inv.copy (h : Inv s) (count : ℕ) (faults : Bool) : Inv (step s (.copy count faults)) := by
  have hreader := h.reader
  unfold ReaderInv at hreader
  unfold step
  cases hr : s.reader with
  | peeked ev =>
    rw [hr] at hreader
    obtain ⟨hp, hev, hlt⟩ := hreader
    dsimp only
    split_ifs with hcopies
    · refine ⟨h.contents, ?_, ?_, ⟨hp.count_pos, hp.taken_le, hp.overrun_iff, hp.full⟩, ?_, ?_⟩
      · exact List.pairwise_append.mpr ⟨h.ordered, List.pairwise_singleton _ _, by simpa using hlt⟩
      · intro r hm
        obtain hm | hm := List.mem_append.mp hm
        · exact h.intact r hm
        · rw [List.mem_singleton.mp hm]
          exact ⟨ev, hev, rfl⟩
      · exact ⟨_, List.mem_append_right _ (List.mem_singleton_self _), rfl⟩
      · intro r hm
        obtain hm | hm := List.mem_append.mp hm
        · exact (hlt r hm).le
        · rw [List.mem_singleton.mp hm]
    · exact ⟨h.contents, h.ordered, h.intact, fun r hm => (hlt r hm).trans_le hp.taken_le⟩
  | idle => exact h
  | ready => exact h
  | copied => exact h

theorem first_pop (h : Inv s) (hpos : 0 < s.ring.count) (hr : s.reader = .copied) :
    (step s .pop).first = s.first + 1 := by
  have hle := h.count_le
  simp only [State.first, step, hr, RingBuffer.count_pop]
  omega

theorem Inv.pop (h : Inv s) : Inv (step s .pop) := by
  have hreader := h.reader
  unfold ReaderInv at hreader
  cases hr : s.reader with
  | copied =>
    rw [hr] at hreader
    obtain ⟨hp, -, hle⟩ := hreader
    have hfirst := first_pop h hp.count_pos hr
    have hstep : step s .pop = { s with reader := .idle, ring := s.ring.pop } := by
      rw [step, hr]
    rw [hstep] at hfirst ⊢
    refine ⟨?_, h.ordered, h.intact, ?_⟩
    · rw [hfirst, RingBuffer.contents_pop, h.contents, List.tail_drop]
    · intro r hm
      have := hle r hm
      have := hp.taken_le
      rw [hfirst]
      omega
  | idle => rwa [step, hr]
  | ready => rwa [step, hr]
  | peeked ev => rwa [step, hr]

theorem Inv.step (h : Inv s) (e : Event) : Inv (step s e) := by
  cases e with
  | enqueue ev => exact h.enqueue ev
  | hasEvent => exact h.hasEvent
  | peek => exact h.peek
  | copy count faults => exact h.copy count faults
  | pop => exact h.pop

theorem inv_run (es : List Event) : Inv (run es) :=
  after_invariant inv_start fun _ e h => h.step e

/-- Delivered events lie at or before the front, and at the front only behind a copy. -/
theorem Inv.received_le (h : Inv s) {p : ℕ} (hp : s.Received p) : p ≤ s.first := by
  obtain ⟨r, hm, rfl⟩ := hp
  have hreader := h.reader
  unfold ReaderInv at hreader
  split at hreader
  · exact (hreader r hm).le
  · exact (hreader.2 r hm).le
  · exact (hreader.2.2 r hm).le.trans hreader.1.taken_le
  · exact (hreader.2.2 r hm).trans hreader.1.taken_le

theorem queued_first (h : Inv s) (hpos : 0 < s.ring.count) : s.Queued s.first := by
  have hle := h.count_le
  refine ⟨le_refl _, ?_⟩
  unfold State.first
  omega

theorem dropsOldest_enqueue (h : Inv s) (ev : WatcherEvent) : DropsOldest s (.enqueue ev) := by
  intro p hq hnq hnr
  have hfirst := first_enqueue h ev
  have hlen : (step s (.enqueue ev)).enqueued.length = s.enqueued.length + 1 := by
    simp [step]
  have hgone : (step s (.enqueue ev)).first ≠ s.first ∧ p = s.first := by
    have hlow := hq.1
    have hhigh := hq.2
    have : ¬((step s (.enqueue ev)).first ≤ p) := fun hle => hnq ⟨hle, by omega⟩
    split_ifs at hfirst <;> omega
  have hfull : s.ring.count = queueSize := by
    by_contra hne
    rw [if_neg hne] at hfirst
    exact hgone.1 hfirst
  refine ⟨⟨ev, rfl⟩, hfull, ?_⟩
  intro q hqueued hrec
  have heq : q = p := le_antisymm ((h.received_le hrec).trans_eq hgone.2.symm)
    (hgone.2 ▸ hqueued.1)
  exact hnr (heq ▸ hrec)

theorem pop_of_not_copied (hr : s.reader ≠ .copied) : step s .pop = s := by
  rw [step]
  split
  · contradiction
  · rfl

theorem dropsOldest_pop_iff (h : Inv s) : DropsOldest s .pop ↔ NotOverrun s .pop := by
  by_cases hr : s.reader = .copied
  · have hreader := h.reader
    unfold ReaderInv at hreader
    rw [hr] at hreader
    obtain ⟨hp, htaken, hle⟩ := hreader
    have hfirst := first_pop h hp.count_pos hr
    have hreceived : ∀ p, (step s .pop).Received p ↔ s.Received p := by
      rw [step, hr]
      exact fun _ => Iff.rfl
    have hlen : (step s .pop).enqueued = s.enqueued := by rw [step, hr]
    constructor
    · -- overrun: the front is not the event that was copied
      intro hdrops _ _
      by_contra hover
      have hlt := hp.overrun_iff.mp (Bool.eq_true_of_not_eq_false hover)
      have hgone : ¬(step s .pop).Queued s.first := fun hq => by
        have := hq.1
        omega
      have hnr : ¬(step s .pop).Received s.first := by
        rw [hreceived]
        rintro ⟨r, hm, hr'⟩
        have := hle r hm
        omega
      obtain ⟨⟨ev, hev⟩, -⟩ := hdrops s.first (queued_first h hp.count_pos) hgone hnr
      cases hev
    · intro hnot p hq hnq hnr
      have hfront : s.taken = s.first := by
        apply le_antisymm hp.taken_le
        apply Nat.le_of_not_lt
        intro hlt
        have hfalse := hnot rfl hr
        rw [hp.overrun_iff.mpr hlt] at hfalse
        cases hfalse
      have hpos : p = s.first := by
        have hlow := hq.1
        have hhigh : p < (step s .pop).enqueued.length := hlen ▸ hq.2
        have : ¬(step s .pop).first ≤ p := fun hle => hnq ⟨hle, hhigh⟩
        omega
      exact absurd ((hreceived p).mpr (hpos ▸ hfront ▸ htaken)) hnr
  · apply iff_of_true
    · intro p hq hnq
      rw [pop_of_not_copied hr] at hnq
      exact absurd hq hnq
    · exact fun _ hr' => absurd hr' hr

theorem step_frame {e : Event} (hne : e ≠ .pop) (hnq : ∀ ev, e ≠ .enqueue ev) :
    (step s e).ring = s.ring ∧ (step s e).enqueued = s.enqueued := by
  cases e with
  | enqueue ev => exact absurd rfl (hnq ev)
  | pop => exact absurd rfl hne
  | hasEvent =>
    rw [step]
    split
    · split_ifs <;> exact ⟨rfl, rfl⟩
    · exact ⟨rfl, rfl⟩
  | peek =>
    rw [step]
    split <;> exact ⟨rfl, rfl⟩
  | copy count faults =>
    rw [step]
    split
    · split_ifs <;> exact ⟨rfl, rfl⟩
    · exact ⟨rfl, rfl⟩

theorem dropsOldest_iff (h : Inv s) (e : Event) : DropsOldest s e ↔ NotOverrun s e := by
  by_cases hpop : e = .pop
  · rw [hpop]
    exact dropsOldest_pop_iff h
  · apply iff_of_true
    · by_cases henq : ∃ ev, e = .enqueue ev
      · obtain ⟨ev, rfl⟩ := henq
        exact dropsOldest_enqueue h ev
      · obtain ⟨hring, hlist⟩ := step_frame hpop (s := s) (not_exists.mp henq)
        intro p hq hnq
        refine absurd ?_ hnq
        rwa [State.Queued, State.first, hring, hlist]
    · exact fun heq => absurd heq hpop

/-- Every interleaving: the watcher delivers exactly if no read pops after an enqueue found
the ring full behind its peek. -/
theorem delivers_iff (es : List Event) :
    Delivers es ↔ EachStep step .start NotOverrun es := by
  have hinv : ∀ pre, Inv (run pre) := inv_run
  constructor
  · intro h pre e hp
    exact (dropsOldest_iff (hinv pre) e).mp (h.drops pre e hp)
  · intro h
    refine ⟨(hinv es).contents, (hinv es).ordered, (hinv es).intact, ?_⟩
    exact fun pre e hp => (dropsOldest_iff (hinv pre) e).mpr (h pre e hp)

/-- Event `k` of a device without a log directory. -/
def numbered (k : ℕ) : WatcherEvent := ⟨0, k, 0, [], [], by decide, by decide⟩

/-- Sixty-four rotations, and one more between the peek of the first read and its copy. -/
def overrunEvents : List Event :=
  (List.range 64).map (fun k => Event.enqueue (numbered k)) ++
    [.hasEvent, .peek, .enqueue (numbered 64), .copy 512 false]

/-- The pop behind it takes the event at position 1, which the reader did not get. -/
theorem overrun_skips :
    (run (overrunEvents ++ [.pop])).received.map Prod.fst = [0] ∧
      (run (overrunEvents ++ [.pop])).first = 2 ∧ ¬Delivers (overrunEvents ++ [.pop]) := by
  refine ⟨by decide +kernel, by decide +kernel, fun h => ?_⟩
  have hdrops : DropsOldest (run overrunEvents) .pop := h.drops _ _ (List.prefix_refl _)
  have hnot := (dropsOldest_pop_iff (inv_run overrunEvents)).mp hdrops
  have hcopied : (run overrunEvents).reader = .copied := by decide +kernel
  have hover : (run overrunEvents).overrun = true := by decide +kernel
  rw [hnot rfl hcopied] at hover
  cases hover

end Lbd.Watcher
