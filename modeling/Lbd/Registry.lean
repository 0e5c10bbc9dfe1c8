import Mathlib.Logic.Function.Basic
import Mathlib.Data.List.Basic
import Lbd.Interleaving

/-!
# Devices and control files

Devices come and go under small indexes that are used again, lowest first. A control file that
manages the misses of a device remembers the index only, and `swap` looks it up again; the
base is swapped after `lbd_devices_mutex` is released. Devices are numbered in the order in
which they are added, so that two devices under one index can be told apart.
-/

namespace Lbd.Registry

/-- `idr` is `lbd_devices`, `qcow2` and `handler` are fields of the devices, and `miss` is the
`dev_index` of the handler of a file. `swapping` is the device that a running `swap` on a file
has found, and `managed` the one for which `manage_misses` on it succeeded. -/
structure State where
  added : ℕ
  idr : ℕ → Option ℕ
  qcow2 : ℕ → Bool
  handler : ℕ → Option ℕ
  miss : ℕ → Option ℕ
  swapping : ℕ → Option ℕ
  managed : ℕ → Option ℕ

def State.start : State :=
  ⟨0, fun _ => none, fun _ => false, fun _ => none, fun _ => none, fun _ => none, fun _ => none⟩

/-- `idr_alloc(&lbd_devices, dev, 0, 256)` -/
def freeIndex (s : State) : Option ℕ := (List.range 256).find? fun i => (s.idr i).isNone

inductive Event where
  | add (qcow2 : Bool)
  /-- `busy` says that the device is open -/
  | remove (index : ℕ) (busy : Bool)
  | manageMisses (fd index : ℕ)
  /-- `swap` up to `mutex_unlock(&lbd_devices_mutex)` -/
  | swapFind (fd : ℕ) (path : String)
  /-- `lbd_qcow2_swap_base` -/
  | swapBase (fd : ℕ)
  | close (fd : ℕ)
deriving DecidableEq, Repr

def addDevice (qcow2 : Bool) (s : State) : State :=
  match freeIndex s with
  | none => s
  | some i =>
    { s with
      added := s.added + 1
      idr := Function.update s.idr i (some s.added)
      qcow2 := Function.update s.qcow2 s.added qcow2
      handler := Function.update s.handler s.added none }

def removeDevice (index : ℕ) (busy : Bool) (s : State) : State :=
  match s.idr index with
  | none => s
  | some _ => if busy then s else { s with idr := Function.update s.idr index none }

/-- `manage_misses` in `lbd_ctl_write` -/
def manageMisses (fd index : ℕ) (s : State) : State :=
  if (s.miss fd).isSome then s
  else
    match s.idr index with
    | none => s
    | some d =>
      if s.qcow2 d then
        if (s.handler d).isSome then s
        else
          { s with
            handler := Function.update s.handler d (some fd)
            miss := Function.update s.miss fd (some index)
            managed := Function.update s.managed fd (some d) }
      else s

/-- `swap` in `lbd_ctl_write`, as far as the device is looked up. -/
def swapFind (fd : ℕ) (path : String) (s : State) : State :=
  match s.swapping fd, s.miss fd with
  | none, some index =>
    if path = "" then s
    else
      match s.idr index with
      | none => s
      | some d => { s with swapping := Function.update s.swapping fd (some d) }
  | _, _ => s

/-- `lbd_ctl_release` clears the handler of the device under its index, if it is its own. -/
def clearHandler (fd index : ℕ) (s : State) : ℕ → Option ℕ :=
  match s.idr index with
  | none => s.handler
  | some d => if s.handler d = some fd then Function.update s.handler d none else s.handler

/-- `lbd_ctl_release`, which waits for a system call on the file. -/
def closeFile (fd : ℕ) (s : State) : State :=
  match s.swapping fd, s.miss fd with
  | none, some index =>
    { s with
      handler := clearHandler fd index s
      miss := Function.update s.miss fd none
      managed := Function.update s.managed fd none }
  | _, _ => s

def step (s : State) : Event → State
  | .add qcow2 => addDevice qcow2 s
  | .remove index busy => removeDevice index busy s
  | .manageMisses fd index => manageMisses fd index s
  | .swapFind fd path => swapFind fd path s
  | .swapBase fd => { s with swapping := Function.update s.swapping fd none }
  | .close fd => closeFile fd s

abbrev run (es : List Event) : State := after step .start es

/-- The device is registered under some index. -/
def State.Present (s : State) (d : ℕ) : Prop := ∃ i, s.idr i = some d

/-- A base is swapped only on the device that the file manages, while that device is there and
has the file as its handler. -/
def SwapsOwn (s : State) (e : Event) : Prop :=
  ∀ fd d, e = .swapBase fd → s.swapping fd = some d →
    s.managed fd = some d ∧ s.Present d ∧ s.handler d = some fd

/-- The device that the file manages is still there when a base is swapped. -/
def StillThere (s : State) (e : Event) : Prop :=
  ∀ fd, e = .swapBase fd → (s.swapping fd).isSome → ∀ d, s.managed fd = some d → s.Present d

/-- While the device that a file manages is there, it has the index that the file remembers and
the file as its handler. -/
structure Managed (s : State) (fd d : ℕ) : Prop where
  added : d < s.added
  present : s.Present d → ∃ i, s.miss fd = some i ∧ s.idr i = some d ∧ s.handler d = some fd

structure Inv (s : State) : Prop where
  added : ∀ i d, s.idr i = some d → d < s.added
  unique : ∀ i j d, s.idr i = some d → s.idr j = some d → i = j
  managed : ∀ fd d, s.managed fd = some d → Managed s fd d
  miss : ∀ fd, s.miss fd = none ↔ s.managed fd = none
  swapping : ∀ fd d, s.swapping fd = some d →
    ∃ d₀, s.managed fd = some d₀ ∧ (s.Present d₀ → d = d₀)

variable {s : State}

theorem inv_start : Inv .start := ⟨nofun, nofun, nofun, fun _ => Iff.rfl, nofun⟩

theorem Inv.addDevice (h : Inv s) (qcow2 : Bool) : Inv (addDevice qcow2 s) := by
  unfold Registry.addDevice
  split
  · exact h
  · rename_i i hfree
    have hi : s.idr i = none := by
      unfold freeIndex at hfree
      simpa using List.find?_some hfree
    -- the new device has a number of its own, so the old ones are where they were
    have hidr : ∀ j d, d < s.added →
        (Function.update s.idr i (some s.added) j = some d ↔ s.idr j = some d) := by
      intro j d hd
      by_cases hj : j = i
      · subst hj
        rw [Function.update_self, hi]
        simp only [Option.some.injEq, reduceCtorEq, iff_false]
        omega
      · rw [Function.update_of_ne hj]
    have hpresent : ∀ d, d < s.added →
        (∃ j, Function.update s.idr i (some s.added) j = some d) → s.Present d :=
      fun d hd ⟨j, hj⟩ => ⟨j, (hidr j d hd).mp hj⟩
    have hnew : ∀ j d, Function.update s.idr i (some s.added) j = some d →
        d < s.added ∨ d = s.added ∧ j = i := by
      intro j d hj
      by_cases hji : j = i
      · subst hji
        rw [Function.update_self] at hj
        exact .inr ⟨(Option.some.inj hj).symm, rfl⟩
      · rw [Function.update_of_ne hji] at hj
        exact .inl (h.added j d hj)
    refine ⟨?_, ?_, ?_, h.miss, ?_⟩
    · intro j d hj
      obtain hd | ⟨rfl, -⟩ := hnew j d hj
      · exact Nat.lt_succ_of_lt hd
      · exact Nat.lt_succ_self _
    · intro j k d hj hk
      obtain hd | ⟨rfl, hji⟩ := hnew j d hj
      · exact h.unique j k d ((hidr j d hd).mp hj) ((hidr k d hd).mp hk)
      · obtain hd | ⟨-, hki⟩ := hnew k s.added hk
        · exact absurd hd (lt_irrefl _)
        · rw [hji, hki]
    · intro fd d hm
      have hmanaged := h.managed fd d hm
      refine ⟨Nat.lt_succ_of_lt hmanaged.added, fun hp => ?_⟩
      obtain ⟨j, hmiss, hj, hhandler⟩ := hmanaged.present (hpresent d hmanaged.added hp)
      refine ⟨j, hmiss, (hidr j d hmanaged.added).mpr hj, ?_⟩
      rw [← hhandler]
      exact Function.update_of_ne hmanaged.added.ne _ _
    · intro fd d hs
      obtain ⟨d₀, hm, hd₀⟩ := h.swapping fd d hs
      exact ⟨d₀, hm, fun hp => hd₀ (hpresent d₀ (h.managed fd d₀ hm).added hp)⟩

theorem Inv.removeDevice (h : Inv s) (index : ℕ) (busy : Bool) :
    Inv (removeDevice index busy s) := by
  unfold Registry.removeDevice
  split
  · exact h
  · split_ifs
    · exact h
    · have hidr : ∀ j d, Function.update s.idr index none j = some d ↔
          j ≠ index ∧ s.idr j = some d := by
        intro j d
        by_cases hj : j = index
        · subst hj
          simp
        · rw [Function.update_of_ne hj]
          exact (and_iff_right hj).symm
      refine ⟨?_, ?_, ?_, h.miss, ?_⟩
      · intro j d hj
        exact h.added j d ((hidr j d).mp hj).2
      · intro j k d hj hk
        exact h.unique j k d ((hidr j d).mp hj).2 ((hidr k d).mp hk).2
      · intro fd d hm
        have hmanaged := h.managed fd d hm
        refine ⟨hmanaged.added, fun ⟨j, hj⟩ => ?_⟩
        obtain ⟨hne, hj⟩ := (hidr j d).mp hj
        obtain ⟨k, hmiss, hk, hhandler⟩ := hmanaged.present ⟨j, hj⟩
        obtain rfl := h.unique j k d hj hk
        exact ⟨j, hmiss, (hidr j d).mpr ⟨hne, hj⟩, hhandler⟩
      · intro fd d hs
        obtain ⟨d₀, hm, hd₀⟩ := h.swapping fd d hs
        exact ⟨d₀, hm, fun ⟨j, hj⟩ => hd₀ ⟨j, ((hidr j d₀).mp hj).2⟩⟩

theorem Inv.manageMisses (h : Inv s) (fd index : ℕ) : Inv (manageMisses fd index s) := by
  unfold Registry.manageMisses
  split_ifs with hmiss
  · exact h
  have hnone : s.miss fd = none := by simpa using hmiss
  split
  · exact h
  · rename_i d hd
    split_ifs with hqcow2 hhandler
    · exact h
    · have hfree : s.handler d = none := by simpa using hhandler
      refine ⟨h.added, h.unique, ?_, ?_, ?_⟩
      · intro fd' d' hm
        by_cases hfd : fd' = fd
        · subst hfd
          dsimp only at hm
          rw [Function.update_self] at hm
          obtain rfl := Option.some.inj hm
          exact ⟨h.added index d hd, fun _ => ⟨index, Function.update_self .., hd,
            Function.update_self ..⟩⟩
        · dsimp only at hm
          rw [Function.update_of_ne hfd] at hm
          have hmanaged := h.managed fd' d' hm
          refine ⟨hmanaged.added, fun hp => ?_⟩
          obtain ⟨j, hmiss', hj, hhandler'⟩ := hmanaged.present hp
          -- the device had no handler, so it is another one
          have hne : d' ≠ d := by
            rintro rfl
            rw [hfree] at hhandler'
            cases hhandler'
          refine ⟨j, ?_, hj, ?_⟩
          · exact (Function.update_of_ne hfd _ _).trans hmiss'
          · exact (Function.update_of_ne hne _ _).trans hhandler'
      · intro fd'
        by_cases hfd : fd' = fd
        · subst hfd
          simp
        · simp only [Function.update_of_ne hfd]
          exact h.miss fd'
      · intro fd' x hs
        have hne : fd' ≠ fd := by
          rintro rfl
          obtain ⟨d₀, hm, -⟩ := h.swapping fd' x hs
          rw [(h.miss fd').mp hnone] at hm
          cases hm
        obtain ⟨d₀, hm, hd₀⟩ := h.swapping fd' x hs
        exact ⟨d₀, (Function.update_of_ne hne _ _).trans hm, hd₀⟩
    · exact h

theorem Inv.swapFind (h : Inv s) (fd : ℕ) (path : String) : Inv (swapFind fd path s) := by
  unfold Registry.swapFind
  split
  · rename_i index hswap hmiss
    split_ifs
    · exact h
    · split
      · exact h
      · rename_i d hd
        refine ⟨h.added, h.unique, fun fd d hm => ⟨(h.managed fd d hm).1, (h.managed fd d hm).2⟩,
          h.miss, ?_⟩
        intro fd' x hs
        by_cases hfd : fd' = fd
        · subst hfd
          dsimp only at hs
          rw [Function.update_self] at hs
          obtain rfl := Option.some.inj hs
          have hsome : s.managed fd' ≠ none := by
            rw [ne_eq, ← h.miss fd', hmiss]
            nofun
          obtain ⟨d₀, hm⟩ := Option.ne_none_iff_exists'.mp hsome
          refine ⟨d₀, hm, fun hp => ?_⟩
          obtain ⟨j, hmiss', hj, -⟩ := (h.managed fd' d₀ hm).present hp
          rw [hmiss] at hmiss'
          rw [← Option.some.inj hmiss', hd] at hj
          exact Option.some.inj hj
        · dsimp only at hs
          rw [Function.update_of_ne hfd] at hs
          exact h.swapping fd' x hs
  · exact h

theorem Inv.swapBase (h : Inv s) (fd : ℕ) : Inv (step s (.swapBase fd)) := by
  refine ⟨h.added, h.unique, fun fd d hm => ⟨(h.managed fd d hm).1, (h.managed fd d hm).2⟩,
    h.miss, ?_⟩
  intro fd' x hs
  change Function.update s.swapping fd none fd' = some x at hs
  by_cases hfd : fd' = fd
  · subst hfd
    rw [Function.update_self] at hs
    cases hs
  · rw [Function.update_of_ne hfd] at hs
    exact h.swapping fd' x hs

theorem clearHandler_of_ne {fd fd' d : ℕ} (index : ℕ) (hne : fd' ≠ fd)
    (h : s.handler d = some fd') : clearHandler fd index s d = some fd' := by
  unfold clearHandler
  cases s.idr index with
  | none => exact h
  | some d' =>
    dsimp only
    split_ifs with hown
    · have hd : d ≠ d' := by
        rintro rfl
        rw [h] at hown
        exact hne (Option.some.inj hown)
      rwa [Function.update_of_ne hd]
    · exact h

theorem Inv.closeFile (h : Inv s) (fd : ℕ) : Inv (closeFile fd s) := by
  unfold Registry.closeFile
  split
  · rename_i index hswap hmiss
    refine ⟨h.added, h.unique, ?_, ?_, ?_⟩
    · intro fd' d hm
      have hfd : fd' ≠ fd := by
        rintro rfl
        dsimp only at hm
        rw [Function.update_self] at hm
        cases hm
      dsimp only at hm
      rw [Function.update_of_ne hfd] at hm
      have hmanaged := h.managed fd' d hm
      refine ⟨hmanaged.added, fun hp => ?_⟩
      obtain ⟨j, hmiss', hj, hhandler⟩ := hmanaged.present hp
      exact ⟨j, (Function.update_of_ne hfd _ _).trans hmiss', hj,
        clearHandler_of_ne index hfd hhandler⟩
    · intro fd'
      by_cases hfd : fd' = fd
      · subst hfd
        simp
      · simp only [Function.update_of_ne hfd]
        exact h.miss fd'
    · intro fd' x hs
      have hne : fd' ≠ fd := by
        rintro rfl
        rw [show s.swapping fd' = some x from hs] at hswap
        cases hswap
      obtain ⟨d₀, hm, hd₀⟩ := h.swapping fd' x hs
      exact ⟨d₀, (Function.update_of_ne hne _ _).trans hm, hd₀⟩
  · exact h

theorem Inv.step (h : Inv s) (e : Event) : Inv (step s e) := by
  cases e with
  | add qcow2 => exact h.addDevice qcow2
  | remove index busy => exact h.removeDevice index busy
  | manageMisses fd index => exact h.manageMisses fd index
  | swapFind fd path => exact h.swapFind fd path
  | swapBase fd => exact h.swapBase fd
  | close fd => exact h.closeFile fd

theorem swapsOwn_iff (h : Inv s) (e : Event) : SwapsOwn s e ↔ StillThere s e := by
  constructor
  · intro hown fd he hsome d hm
    obtain ⟨x, hx⟩ := Option.isSome_iff_exists.mp hsome
    obtain ⟨hm', hp, -⟩ := hown fd x he hx
    rw [hm] at hm'
    rwa [Option.some.inj hm']
  · intro hthere fd x he hx
    obtain ⟨d₀, hm, hd₀⟩ := h.swapping fd x hx
    have hp := hthere fd he (by rw [hx]; rfl) d₀ hm
    obtain ⟨-, -, -, hhandler⟩ := (h.managed fd d₀ hm).present hp
    rw [hd₀ hp]
    exact ⟨hm, hp, hhandler⟩

/-- Every history: bases are swapped only on devices that the files manage exactly if none of
these devices was removed before. -/
theorem swaps_reach_own_device (es : List Event) :
    EachStep step .start SwapsOwn es ↔ EachStep step .start StillThere es := by
  have hinv : ∀ pre, Inv (run pre) := fun pre => after_invariant inv_start fun _ e h => h.step e
  constructor
  · exact fun h pre e hp => (swapsOwn_iff (hinv pre) e).mp (h pre e hp)
  · exact fun h pre e hp => (swapsOwn_iff (hinv pre) e).mpr (h pre e hp)

/-- A file manages a device; the device is removed and another one gets its index. -/
def reusedIndex : List Event :=
  [.add true, .manageMisses 5 0, .remove 0 false, .add true, .swapFind 5 "base"]

/-- The swap then acts on the other device, which has no handler. -/
theorem reused_index_swapped :
    (run reusedIndex).swapping 5 = some 1 ∧ (run reusedIndex).managed 5 = some 0 ∧
      (run reusedIndex).handler 1 = none ∧
      ¬EachStep step .start SwapsOwn (reusedIndex ++ [.swapBase 5]) := by
  have hswap : (run reusedIndex).swapping 5 = some 1 := by decide
  have hmanaged : (run reusedIndex).managed 5 = some 0 := by decide
  refine ⟨hswap, hmanaged, by decide, fun h => ?_⟩
  have hown : SwapsOwn (run reusedIndex) (.swapBase 5) :=
    h reusedIndex _ (List.prefix_refl _)
  rw [(hown 5 1 rfl hswap).1] at hmanaged
  cases hmanaged

end Lbd.Registry
