import Mathlib.Data.List.Nodup
import Lbd.Interleaving

/-!
# Block misses

With `CONFIG_LBD_MISS_HANDLER` a cluster that is not there is reported to the owner of a
control file, and the I/O worker waits for the answer. One worker (`lbd_qcow2_handle_miss`),
one owner (the loop of `runMissHandler`, with `lbd_ctl_read` and `lbd_ctl_write`), and the
release of the file. A step is a section under a lock or a statement outside.
-/

namespace Lbd.MissHandler

inductive MissAction where
  | missContinue
  | missRetry
deriving DecidableEq, Repr

/-- Where the worker stands in `lbd_qcow2_handle_miss`. Misses are numbered as they are
posted. -/
inductive Worker where
  | idle
  | entering (cluster : ℕ)
  /-- both locks are released, the reader is not yet woken -/
  | posted (id : ℕ)
  /-- in `wait_for_completion` -/
  | waiting (id : ℕ)
deriving DecidableEq, Repr

/-- Where the owner of the control file stands. -/
inductive Owner where
  /-- in `ReadEvent`, waiting -/
  | reading
  /-- `lbd_ctl_read` saw `has_event` -/
  | sawEvent
  /-- in `handleMiss` for the cluster of the event -/
  | handling (cluster : ℕ)
  /-- `handleMiss` returned an error, `continue` is to be sent -/
  | recovering (cluster : ℕ)
  /-- `runMissHandler` returned -/
  | stopped
  /-- in `lbd_ctl_release`, the device has no handler any more -/
  | unregistered
  /-- in `lbd_ctl_release`, no miss is pending -/
  | drained
  /-- the handler is freed -/
  | freed
deriving DecidableEq, Repr

/-- `registered` says that `dev->miss_handler` is this handler; `pending`, `hasEvent` and
`missCluster` are its fields. Then what happened so far: the clusters of the misses posted, the
completions, the results of `lbd_qcow2_handle_miss`, and the cluster the owner read last. -/
structure State where
  worker : Worker
  owner : Owner
  registered : Bool
  pending : Option ℕ
  hasEvent : Bool
  missCluster : ℕ
  misses : List ℕ
  completed : List (ℕ × MissAction)
  results : List MissAction
  lastRead : Option ℕ
deriving DecidableEq, Repr

/-- `manage_misses` has succeeded. -/
def State.start : State := ⟨.idle, .reading, true, none, false, 0, [], [], [], none⟩

/-- `complete` of the pending miss. -/
def complete (id : ℕ) (action : MissAction) (s : State) : State :=
  { s with pending := none, completed := s.completed ++ [(id, action)] }

/-- `continue` and `retry` in `lbd_ctl_write`; refused when nothing is pending. -/
def ctlAnswer (action : MissAction) (s : State) : Option State :=
  match s.pending with
  | none => none
  | some id => some { complete id action s with hasEvent := false }

inductive Event where
  /-- the worker finds that a cluster is missing -/
  | miss (cluster : ℕ)
  /-- look up the handler and post the miss -/
  | post
  /-- `wake_up_interruptible(&mh->wq)` -/
  | wake
  /-- `wait_for_completion` returns -/
  | resume
  /-- `lbd_ctl_read`: `has_event` -/
  | readHas
  /-- `lbd_ctl_read`: `miss_cluster`, and the event goes to the owner -/
  | readCluster
  /-- `ReadEvent` fails -/
  | readFails
  /-- `handleMiss` fails before it answers -/
  | handleFails
  /-- `handleMiss` answers -/
  | answer (action : MissAction)
  /-- `continue` after an error -/
  | recover
  /-- `lbd_ctl_release`: clear `dev->miss_handler` -/
  | unregister
  /-- `lbd_ctl_release`: complete what is pending -/
  | drain
  /-- `lbd_ctl_release`: `kfree(mh)` -/
  | free
deriving DecidableEq, Repr

/-- The file can be released when the owner is in no system call on it. -/
def Owner.canClose : Owner → Bool
  | .reading | .handling _ | .recovering _ | .stopped => true
  | _ => false

def step (s : State) : Event → State
  | .miss cluster =>
    match s.worker with
    | .idle => { s with worker := .entering cluster }
    | _ => s
  | .post =>
    match s.worker with
    | .entering cluster =>
      if s.registered then
        { s with
          worker := .posted s.misses.length
          pending := some s.misses.length
          missCluster := cluster
          hasEvent := true
          misses := s.misses ++ [cluster] }
      else { s with worker := .idle, results := s.results ++ [.missContinue] }
    | _ => s
  | .wake =>
    match s.worker with
    | .posted id => { s with worker := .waiting id }
    | _ => s
  | .resume =>
    match s.worker with
    | .waiting id =>
      match s.completed.lookup id with
      | some action => { s with worker := .idle, results := s.results ++ [action] }
      | none => s
    | _ => s
  | .readHas =>
    match s.owner with
    | .reading => if s.hasEvent then { s with owner := .sawEvent } else s
    | _ => s
  | .readCluster =>
    match s.owner with
    | .sawEvent => { s with owner := .handling s.missCluster, lastRead := some s.missCluster }
    | _ => s
  | .readFails =>
    match s.owner with
    | .reading => { s with owner := .stopped }
    | _ => s
  | .handleFails =>
    match s.owner with
    | .handling cluster => { s with owner := .recovering cluster }
    | _ => s
  | .answer action =>
    match s.owner with
    | .handling cluster =>
      match ctlAnswer action s with
      | some s => { s with owner := .reading }
      | none => { s with owner := .recovering cluster }
    | _ => s
  | .recover =>
    match s.owner with
    | .recovering _ =>
      match ctlAnswer .missContinue s with
      | some s => { s with owner := .reading }
      | none => { s with owner := .stopped }
    | _ => s
  | .unregister =>
    if s.owner.canClose then { s with owner := .unregistered, registered := false } else s
  | .drain =>
    match s.owner with
    | .unregistered =>
      match s.pending with
      | some id => { complete id .missContinue s with owner := .drained }
      | none => { s with owner := .drained }
    | _ => s
  | .free =>
    match s.owner with
    | .drained => { s with owner := .freed }
    | _ => s

abbrev run (es : List Event) : State := after step .start es

/-- The owner sends this answer. -/
def Sends (s : State) : Event → MissAction → Prop
  | .answer action, a => a = action ∧ ∃ c, s.owner = .handling c
  | .recover, a => a = .missContinue ∧ ∃ c, s.owner = .recovering c
  | _, _ => False

/-- An answer that is accepted completes one miss, which was not completed before and is of
the cluster the owner read last. -/
def AnswersOne (s : State) (e : Event) : Prop :=
  ∀ a s', Sends s e a → ctlAnswer a s = some s' →
    ∃ id, s.pending = some id ∧ s'.completed = s.completed ++ [(id, a)] ∧
      id ∉ s.completed.map Prod.fst ∧ s.lastRead.isSome ∧ s.misses[id]? = s.lastRead

structure OneToOne (es : List Event) : Prop where
  answers : EachStep step .start AnswersOne es
  once : ((run es).completed.map Prod.fst).Nodup
  closed : (run es).owner = .drained ∨ (run es).owner = .freed →
    ∀ id < (run es).misses.length, id ∈ (run es).completed.map Prod.fst

variable {s : State}

/-- A pending miss is the last one, its worker is blocked, and its event can be read. -/
structure PendingInv (s : State) (id : ℕ) : Prop where
  last : id + 1 = s.misses.length
  worker : s.worker = .posted id ∨ s.worker = .waiting id
  fresh : id ∉ s.completed.map Prod.fst
  event : s.hasEvent = true
  cluster : s.misses[id]? = some s.missCluster

def OwnerInv (s : State) : Prop :=
  match s.owner with
  | .reading => s.registered = true
  | .sawEvent => s.registered = true ∧ s.pending.isSome
  | .handling c => s.registered = true ∧ s.pending.isSome ∧ s.missCluster = c ∧ s.lastRead = some c
  | .recovering c =>
    s.registered = true ∧ s.pending.isSome ∧ s.missCluster = c ∧ s.lastRead = some c
  | .stopped => s.registered = true
  | .unregistered => s.registered = false
  | .drained => s.registered = false ∧ s.pending = none
  | .freed => s.registered = false ∧ s.pending = none

structure Inv (s : State) : Prop where
  once : (s.completed.map Prod.fst).Nodup
  below : ∀ id ∈ s.completed.map Prod.fst, id < s.misses.length
  covered : ∀ id < s.misses.length, s.pending = some id ∨ id ∈ s.completed.map Prod.fst
  pending : ∀ id, s.pending = some id → PendingInv s id
  event : s.hasEvent = true → s.pending.isSome ∨ s.registered = false
  owner : OwnerInv s

theorem inv_start : Inv .start where
  once := List.nodup_nil
  below := nofun
  covered := nofun
  pending := nofun
  event := nofun
  owner := rfl

theorem Inv.setOwner (h : Inv s) {o : Owner} {l : Option ℕ}
    (ho : OwnerInv { s with owner := o, lastRead := l }) :
    Inv { s with owner := o, lastRead := l } where
  once := h.once
  below := h.below
  covered := h.covered
  pending := fun id hid =>
    have hp := h.pending id hid
    ⟨hp.last, hp.worker, hp.fresh, hp.event, hp.cluster⟩
  event := h.event
  owner := ho

theorem Inv.complete (h : Inv s) {id : ℕ} (hid : s.pending = some id) {a : MissAction} {ev : Bool}
    {o : Owner} (hev : ev = true → s.registered = false)
    (ho : OwnerInv { complete id a s with hasEvent := ev, owner := o }) :
    Inv { complete id a s with hasEvent := ev, owner := o } where
  once := by
    rw [MissHandler.complete, List.map_append]
    refine h.once.append (List.nodup_singleton id) ?_
    rw [List.map_singleton, List.disjoint_singleton]
    exact (h.pending id hid).fresh
  below := by
    intro k hk
    rw [MissHandler.complete, List.map_append, List.mem_append] at hk
    obtain hk | hk := hk
    · exact h.below k hk
    · have hlast := (h.pending id hid).last
      rw [List.mem_singleton.mp hk]
      change id < s.misses.length
      omega
  covered := by
    intro k hk
    right
    rw [MissHandler.complete, List.map_append, List.mem_append]
    obtain hp | hp := h.covered k hk
    · right
      rw [hid] at hp
      rw [Option.some.inj hp]
      exact List.mem_singleton_self k
    · exact .inl hp
  pending := nofun
  event := fun he => .inr (hev he)
  owner := ho

theorem Inv.readHas (h : Inv s) : Inv (step s .readHas) := by
  have ho := h.owner
  unfold OwnerInv at ho
  rw [step]
  split
  · rename_i hs
    rw [hs] at ho
    split_ifs with hev
    · apply h.setOwner
      exact ⟨ho, (h.event hev).resolve_right (by simp [ho])⟩
    · exact h
  · exact h

theorem Inv.readCluster (h : Inv s) : Inv (step s .readCluster) := by
  have ho := h.owner
  unfold OwnerInv at ho
  rw [step]
  split
  · rename_i hs
    rw [hs] at ho
    exact h.setOwner ⟨ho.1, ho.2, rfl, rfl⟩
  · exact h

theorem Inv.readFails (h : Inv s) : Inv (step s .readFails) := by
  have ho := h.owner
  unfold OwnerInv at ho
  rw [step]
  split
  · rename_i hs
    rw [hs] at ho
    exact h.setOwner ho
  · exact h

theorem Inv.handleFails (h : Inv s) : Inv (step s .handleFails) := by
  have ho := h.owner
  unfold OwnerInv at ho
  rw [step]
  split
  · rename_i hs
    rw [hs] at ho
    exact h.setOwner ho
  · exact h

theorem Inv.answered (h : Inv s) (hreg : s.registered = true) (hp : s.pending.isSome = true)
    (a : MissAction) : ∃ s', ctlAnswer a s = some s' ∧ Inv { s' with owner := .reading } := by
  obtain ⟨id, hid⟩ := Option.isSome_iff_exists.mp hp
  refine ⟨{ MissHandler.complete id a s with hasEvent := false }, by rw [ctlAnswer, hid], ?_⟩
  exact h.complete hid nofun hreg

theorem Inv.answer (h : Inv s) (a : MissAction) : Inv (step s (.answer a)) := by
  have ho := h.owner
  unfold OwnerInv at ho
  rw [step]
  split
  · rename_i c hs
    rw [hs] at ho
    obtain ⟨s', hs', hinv⟩ := h.answered ho.1 ho.2.1 a
    rw [hs']
    exact hinv
  · exact h

theorem Inv.recover (h : Inv s) : Inv (step s .recover) := by
  have ho := h.owner
  unfold OwnerInv at ho
  rw [step]
  split
  · rename_i c hs
    rw [hs] at ho
    obtain ⟨s', hs', hinv⟩ := h.answered ho.1 ho.2.1 .missContinue
    rw [hs']
    exact hinv
  · exact h

theorem Inv.unregister (h : Inv s) : Inv (step s .unregister) := by
  rw [step]
  split_ifs
  · refine ⟨h.once, h.below, h.covered, ?_, fun _ => .inr rfl, rfl⟩
    intro id hid
    have hp := h.pending id hid
    exact ⟨hp.last, hp.worker, hp.fresh, hp.event, hp.cluster⟩
  · exact h

theorem Inv.drain (h : Inv s) : Inv (step s .drain) := by
  have ho := h.owner
  unfold OwnerInv at ho
  rw [step]
  split
  · rename_i hs
    rw [hs] at ho
    split
    · rename_i id hid
      exact h.complete hid (fun _ => ho) ⟨ho, rfl⟩
    · rename_i hnone
      exact h.setOwner ⟨ho, hnone⟩
  · exact h

theorem Inv.free (h : Inv s) : Inv (step s .free) := by
  have ho := h.owner
  unfold OwnerInv at ho
  rw [step]
  split
  · rename_i hs
    rw [hs] at ho
    exact h.setOwner ho
  · exact h

theorem Inv.setWorker (h : Inv s) (hp : s.pending = none) {w : Worker} {rs : List MissAction} :
    Inv { s with worker := w, results := rs } where
  once := h.once
  below := h.below
  covered := h.covered
  pending := by
    intro id hid
    rw [show s.pending = some id from hid] at hp
    cases hp
  event := h.event
  owner := h.owner

theorem Inv.pending_none (h : Inv s) (hposted : ∀ id, s.worker ≠ .posted id)
    (hwaiting : ∀ id, s.worker ≠ .waiting id) : s.pending = none := by
  cases hp : s.pending with
  | none => rfl
  | some id =>
    obtain hw | hw := (h.pending id hp).worker
    · exact absurd hw (hposted id)
    · exact absurd hw (hwaiting id)

theorem Inv.miss (h : Inv s) (c : ℕ) : Inv (step s (.miss c)) := by
  rw [step]
  split
  · rename_i hw
    exact h.setWorker (h.pending_none (by simp [hw]) (by simp [hw]))
  · exact h

theorem Inv.post (h : Inv s) : Inv (step s .post) := by
  rw [step]
  split
  · rename_i c hw
    have hnone := h.pending_none (by simp [hw]) (by simp [hw])
    split_ifs with hreg
    · refine ⟨h.once, ?_, ?_, ?_, fun _ => .inl rfl, ?_⟩
      · intro id hid
        have := h.below id hid
        simp only [List.length_append, List.length_singleton]
        omega
      · intro id hid
        simp only [List.length_append, List.length_singleton] at hid
        by_cases hlast : id = s.misses.length
        · exact .inl (congrArg some hlast.symm)
        · have hcov := h.covered id (by omega)
          rw [hnone] at hcov
          exact .inr (hcov.resolve_left nofun)
      · intro id hid
        obtain rfl : s.misses.length = id := Option.some.inj hid
        refine ⟨by simp, .inl rfl, ?_, rfl, by simp⟩
        intro hmem
        exact absurd (h.below _ hmem) (lt_irrefl _)
      · have ho := h.owner
        unfold OwnerInv at ho ⊢
        dsimp only
        cases hs : s.owner with
        | reading => exact hreg
        | sawEvent => exact ⟨hreg, rfl⟩
        | handling c' => rw [hs, hnone] at ho; cases ho.2.1
        | recovering c' => rw [hs, hnone] at ho; cases ho.2.1
        | stopped => exact hreg
        | unregistered => rw [hs, hreg] at ho; cases ho
        | drained => rw [hs, hreg] at ho; cases ho.1
        | freed => rw [hs, hreg] at ho; cases ho.1
    · exact h.setWorker hnone
  · exact h

theorem Inv.wake (h : Inv s) : Inv (step s .wake) := by
  rw [step]
  split
  · rename_i id hw
    refine ⟨h.once, h.below, h.covered, ?_, h.event, h.owner⟩
    intro k hk
    have hp := h.pending k hk
    refine ⟨hp.last, .inr ?_, hp.fresh, hp.event, hp.cluster⟩
    obtain hw' | hw' := hp.worker
    · rw [hw] at hw'
      exact congrArg Worker.waiting (Worker.posted.inj hw')
    · rw [hw] at hw'
      cases hw'
  · exact h

theorem Inv.resume (h : Inv s) : Inv (step s .resume) := by
  rw [step]
  split
  · rename_i id hw
    split
    · rename_i a ha
      apply h.setWorker
      cases hp : s.pending with
      | none => rfl
      | some k =>
        -- the worker waits for the pending miss, which is not completed
        have hpend := h.pending k hp
        have hk : k = id := by
          obtain hw' | hw' := hpend.worker
          · rw [hw] at hw'
            cases hw'
          · rw [hw] at hw'
            exact (Worker.waiting.inj hw').symm
        have hmem : id ∈ s.completed.map Prod.fst := by
          obtain ⟨l₁, l₂, hl, -⟩ := List.lookup_eq_some_iff.mp ha
          rw [hl]
          simp
        exact absurd (hk ▸ hmem) hpend.fresh
    · exact h
  · exact h

theorem Inv.step (h : Inv s) (e : Event) : Inv (step s e) := by
  cases e with
  | miss c => exact h.miss c
  | post => exact h.post
  | wake => exact h.wake
  | resume => exact h.resume
  | readHas => exact h.readHas
  | readCluster => exact h.readCluster
  | readFails => exact h.readFails
  | handleFails => exact h.handleFails
  | answer a => exact h.answer a
  | recover => exact h.recover
  | unregister => exact h.unregister
  | drain => exact h.drain
  | free => exact h.free

theorem inv_run (es : List Event) : Inv (run es) :=
  after_invariant inv_start fun _ e h => h.step e

theorem Inv.answersOne (h : Inv s) (e : Event) : AnswersOne s e := by
  intro a s' hsends haccept
  have hread : ∃ c, s.missCluster = c ∧ s.lastRead = some c := by
    have ho := h.owner
    unfold OwnerInv at ho
    cases e with
    | answer action =>
      obtain ⟨-, c, hs⟩ := hsends
      rw [hs] at ho
      exact ⟨c, ho.2.2⟩
    | recover =>
      obtain ⟨-, c, hs⟩ := hsends
      rw [hs] at ho
      exact ⟨c, ho.2.2⟩
    | _ => exact hsends.elim
  obtain ⟨c, hcluster, hlast⟩ := hread
  unfold ctlAnswer at haccept
  cases hp : s.pending with
  | none => rw [hp] at haccept; cases haccept
  | some id =>
    rw [hp] at haccept
    have hpend := h.pending id hp
    refine ⟨id, rfl, ?_, hpend.fresh, by rw [hlast]; rfl, ?_⟩
    · rw [← Option.some.inj haccept]
      rfl
    · rw [hpend.cluster, hlast, hcluster]

/-- Every interleaving of the worker, the owner and the release of the file. -/
theorem misses_answered (es : List Event) : OneToOne es where
  answers := eachStep_of_invariant inv_start (fun _ e h => h.step e) fun _ e h => h.answersOne e
  once := (inv_run es).once
  closed := by
    intro hclosed id hid
    have h := inv_run es
    have ho := h.owner
    unfold OwnerInv at ho
    have hnone : (run es).pending = none := by
      obtain hs | hs := hclosed <;> rw [hs] at ho <;> exact ho.2
    have hcov := h.covered id hid
    rw [hnone] at hcov
    exact hcov.resolve_left nofun

-- an answer to a miss that the owner has read is accepted
example : (ctlAnswer .missRetry (run [.miss 7, .post, .wake, .readHas, .readCluster])).isSome := by
  decide

/-- The step reads or writes the `lbd_miss_handler` object. -/
def Accesses (s : State) : Event → Prop
  | .post => (∃ c, s.worker = .entering c) ∧ s.registered = true
  | .wake => ∃ id, s.worker = .posted id
  | .readHas => s.owner = .reading
  | .readCluster => s.owner = .sawEvent
  | .answer _ => ∃ c, s.owner = .handling c
  | .recover => ∃ c, s.owner = .recovering c
  | .unregister => s.owner.canClose = true
  | .drain => s.owner = .unregistered
  | .free => s.owner = .drained
  | _ => False

/-- No step accesses the handler once it is freed. -/
def NoUseAfterFree (s : State) (e : Event) : Prop := s.owner = .freed → ¬Accesses s e

/-- The worker has woken the reader before the handler is freed. -/
def FreesAwake (s : State) (e : Event) : Prop :=
  e = .free → s.owner = .drained → ∀ id, s.worker ≠ .posted id

/-- A worker that is behind its critical section keeps the handler alive. -/
def Alive (s : State) : Prop :=
  s.owner = .freed → s.registered = false ∧ ∀ id, s.worker ≠ .posted id

theorem alive_step_of_freed (h : Alive s) (hs : s.owner = .freed) (e : Event) :
    Alive (step s e) := by
  obtain ⟨hreg, hw⟩ := h hs
  have hkeep : Alive s := fun _ => ⟨hreg, hw⟩
  cases e with
  | miss c =>
    rw [step]
    split
    · exact fun _ => ⟨hreg, nofun⟩
    · exact hkeep
  | post =>
    rw [step]
    split
    · rw [if_neg (by simp [hreg])]
      exact fun _ => ⟨hreg, nofun⟩
    · exact hkeep
  | wake =>
    rw [step]
    split
    · exact fun _ => ⟨hreg, nofun⟩
    · exact hkeep
  | resume =>
    rw [step]
    split
    · split
      · exact fun _ => ⟨hreg, nofun⟩
      · exact hkeep
    · exact hkeep
  | readHas => rwa [step, hs]
  | readCluster => rwa [step, hs]
  | readFails => rwa [step, hs]
  | handleFails => rwa [step, hs]
  | answer a => rwa [step, hs]
  | recover => rwa [step, hs]
  | unregister => rwa [step, hs]
  | drain => rwa [step, hs]
  | free => rwa [step, hs]

theorem free_of_owner_freed (hs : s.owner ≠ .freed) {e : Event} (h : (step s e).owner = .freed) :
    e = .free ∧ s.owner = .drained := by
  cases e with
  | free =>
    rw [step] at h
    split at h
    · rename_i ho
      exact ⟨rfl, ho⟩
    · exact absurd h hs
  | _ =>
    rw [step] at h
    repeat' split at h
    all_goals first | exact absurd h hs | cases h

theorem Alive.step (h : Alive s) (hreg : s.owner = .drained → s.registered = false) {e : Event}
    (hfree : FreesAwake s e) : Alive (step s e) := by
  by_cases hs : s.owner = .freed
  · exact alive_step_of_freed h hs e
  · intro hfreed
    obtain ⟨rfl, hdrained⟩ := free_of_owner_freed hs hfreed
    rw [MissHandler.step, hdrained]
    exact ⟨hreg hdrained, hfree rfl hdrained⟩

theorem Alive.noUseAfterFree (h : Alive s) (e : Event) : NoUseAfterFree s e := by
  intro hs haccess
  obtain ⟨hreg, hw⟩ := h hs
  cases e with
  | post =>
    have hregistered := haccess.2
    rw [hreg] at hregistered
    cases hregistered
  | wake =>
    obtain ⟨id, hid⟩ := haccess
    exact hw id hid
  | answer a =>
    obtain ⟨c, hc⟩ := haccess
    rw [hs] at hc
    cases hc
  | recover =>
    obtain ⟨c, hc⟩ := haccess
    rw [hs] at hc
    cases hc
  | miss c => exact haccess
  | resume => exact haccess
  | readFails => exact haccess
  | handleFails => exact haccess
  | unregister =>
    unfold Accesses at haccess
    rw [hs] at haccess
    cases haccess
  | readHas => exact absurd (hs.symm.trans haccess) nofun
  | readCluster => exact absurd (hs.symm.trans haccess) nofun
  | drain => exact absurd (hs.symm.trans haccess) nofun
  | free => exact absurd (hs.symm.trans haccess) nofun

/-- In every run that frees the handler only while the worker is not about to wake the reader,
no step accesses it afterwards. -/
theorem handler_outlives_uses {es : List Event} (h : EachStep step .start FreesAwake es) :
    EachStep step .start NoUseAfterFree es := by
  intro pre e hp
  have hpre : EachStep step .start FreesAwake pre :=
    h.of_prefix ((List.prefix_append pre [e]).trans hp)
  have hboth : Inv (run pre) ∧ Alive (run pre) := by
    refine hpre.invariant (P := fun s => Inv s ∧ Alive s) ⟨inv_start, nofun⟩ ?_
    intro s e hs hfree
    refine ⟨hs.1.step e, hs.2.step ?_ hfree⟩
    intro hdrained
    have ho := hs.1.owner
    rw [OwnerInv, hdrained] at ho
    exact ho.1
  exact hboth.2.noUseAfterFree e

/-- A miss that is answered, and the file closed after it. -/
def calmClose : List Event :=
  [.miss 7, .post, .wake, .readHas, .readCluster, .answer .missRetry, .resume, .unregister, .drain,
    .free]

theorem calmClose_safe : EachStep step .start NoUseAfterFree calmClose := by
  apply handler_outlives_uses
  have hidle : (run (calmClose.take 9)).worker = .idle := by decide
  have hfree : FreesAwake (run (calmClose.take 9)) .free := by
    intro _ _ id
    rw [hidle]
    nofun
  refine eachStep_cons nofun (eachStep_cons nofun (eachStep_cons nofun ?_))
  refine eachStep_cons nofun (eachStep_cons nofun (eachStep_cons nofun ?_))
  refine eachStep_cons nofun (eachStep_cons nofun (eachStep_cons nofun ?_))
  exact eachStep_cons hfree eachStep_nil

/-- The file is closed between the critical section of the worker and its wake-up. -/
def closeBeforeWake : List Event := [.miss 7, .post, .unregister, .drain, .free]

/-- The wake-up then uses the freed handler. -/
theorem wake_after_free :
    (run closeBeforeWake).owner = .freed ∧ Accesses (run closeBeforeWake) .wake ∧
      ¬EachStep step .start NoUseAfterFree (closeBeforeWake ++ [.wake]) := by
  have haccess : Accesses (run closeBeforeWake) .wake := ⟨0, by decide⟩
  refine ⟨by decide, haccess, fun h => ?_⟩
  exact h closeBeforeWake .wake (List.prefix_refl _) (by decide) haccess

end Lbd.MissHandler
