import Mathlib

/-!
# Computations with a state and errors

A failing function of the source leaves the fields it has already assigned as
they are, so an error keeps the state. `Meets` is the weakest precondition of
such a computation, with one postcondition for each way out.
-/

namespace Lbd

def Act (σ ε α : Type) : Type := σ → Except ε α × σ

namespace Act

variable {σ ε α β : Type}

instance : Monad (Act σ ε) where
  pure a := fun s => (.ok a, s)
  bind m k := fun s =>
    match m s with
    | (.ok a, s') => k a s'
    | (.error e, s') => (.error e, s')

def get : Act σ ε σ := fun s => (.ok s, s)

def modify (g : σ → σ) : Act σ ε Unit := fun s => (.ok (), g s)

def throw (e : ε) : Act σ ε α := fun s => (.error e, s)

/-- Run `m` and hand its error to the caller as a value. -/
def attempt (m : Act σ ε α) : Act σ ε (Except ε α) := fun s => (.ok (m s).1, (m s).2)

def when (c : Prop) [Decidable c] (m : Act σ ε Unit) : Act σ ε Unit :=
  if c then m else pure ()

/-- From `s`, `m` returns as `Q` says or fails as `E` says. -/
def Meets (m : Act σ ε α) (s : σ) (Q : α → σ → Prop) (E : ε → σ → Prop) : Prop :=
  match m s with
  | (.ok a, s') => Q a s'
  | (.error e, s') => E e s'

variable {s s' : σ} {Q R : α → σ → Prop} {E F : ε → σ → Prop} {m : Act σ ε α}

@[simp] theorem meets_pure {a : α} : Meets (pure a : Act σ ε α) s Q E ↔ Q a s := Iff.rfl

@[simp] theorem meets_get {Q : σ → σ → Prop} : Meets (get : Act σ ε σ) s Q E ↔ Q s s := Iff.rfl

@[simp] theorem meets_modify {g : σ → σ} {Q : Unit → σ → Prop} :
    Meets (modify g : Act σ ε Unit) s Q E ↔ Q () (g s) := Iff.rfl

@[simp] theorem meets_throw {e : ε} : Meets (throw e : Act σ ε α) s Q E ↔ E e s := Iff.rfl

@[simp] theorem meets_bind {k : α → Act σ ε β} {Q : β → σ → Prop} :
    Meets (m >>= k) s Q E ↔ Meets m s (fun a s' => Meets (k a) s' Q E) E := by
  show (match (match m s with
    | (.ok a, s') => k a s'
    | (.error e, s') => (.error e, s')) with
    | (.ok a, s') => Q a s'
    | (.error e, s') => E e s') ↔ _
  unfold Meets
  generalize m s = r
  rcases r with ⟨_ | _, _⟩ <;> rfl

@[simp] theorem meets_attempt {Q : Except ε α → σ → Prop} :
    Meets (attempt m) s Q E ↔
      Meets m s (fun a s' => Q (.ok a) s') (fun e s' => Q (.error e) s') := by
  unfold Meets attempt
  generalize m s = r
  rcases r with ⟨_ | _, _⟩ <;> rfl

theorem Meets.imp (h : Meets m s Q E) (hQ : ∀ a s', Q a s' → R a s')
    (hE : ∀ e s', E e s' → F e s') : Meets m s R F := by
  unfold Meets at h ⊢
  generalize m s = r at h ⊢
  rcases r with ⟨_ | _, _⟩
  · exact hE _ _ h
  · exact hQ _ _ h

theorem Meets.post (h : Meets m s Q E) (hQ : ∀ a s', Q a s' → R a s') : Meets m s R E :=
  h.imp hQ fun _ _ he => he

theorem meets_of_forall (hQ : ∀ a s', Q a s') (hE : ∀ e s', E e s') : Meets m s Q E := by
  unfold Meets
  split
  · exact hQ _ _
  · exact hE _ _

theorem meets_always {P : σ → Prop} (h : P (m s).2) : Meets m s (fun _ => P) fun _ => P := by
  unfold Meets
  generalize m s = r at h
  rcases r with ⟨_ | _, _⟩ <;> exact h

theorem meets_ite {c : Prop} [Decidable c] {m k : Act σ ε α} (hc : c → Meets m s Q E)
    (hn : ¬ c → Meets k s Q E) : Meets (if c then m else k) s Q E := by
  split_ifs with h
  · exact hc h
  · exact hn h

theorem meets_when {c : Prop} [Decidable c] {m : Act σ ε Unit} {Q : Unit → σ → Prop}
    (hc : c → Meets m s Q E) (hn : ¬ c → Q () s) : Meets (when c m) s Q E :=
  meets_ite hc fun h => meets_pure.mpr (hn h)

theorem Meets.of_eq_ok {a : α} (h : Meets m s Q E) (he : m s = (.ok a, s')) : Q a s' := by
  unfold Meets at h
  rwa [he] at h

theorem Meets.of_eq_error {e : ε} (h : Meets m s Q E) (he : m s = (.error e, s')) : E e s' := by
  unfold Meets at h
  rwa [he] at h

theorem Meets.and (h : Meets m s Q E) (h' : Meets m s R F) :
    Meets m s (fun a s' => Q a s' ∧ R a s') fun e s' => E e s' ∧ F e s' := by
  unfold Meets at h h' ⊢
  generalize m s = r at h h' ⊢
  rcases r with ⟨_ | _, _⟩ <;> exact ⟨h, h'⟩

theorem Meets.and_eq (h : Meets m s Q E) :
    Meets m s (fun a s' => Q a s' ∧ m s = (.ok a, s'))
      fun e s' => E e s' ∧ m s = (.error e, s') := by
  unfold Meets at h ⊢
  generalize m s = r at h ⊢
  rcases r with ⟨_ | _, _⟩ <;> exact ⟨h, rfl⟩

theorem Meets.exists_ok (h : Meets m s Q fun _ _ => False) :
    ∃ a s', m s = (.ok a, s') ∧ Q a s' := by
  unfold Meets at h
  generalize m s = r at h ⊢
  rcases r with ⟨_ | a, s'⟩
  · exact h.elim
  · exact ⟨a, s', rfl, h⟩

theorem Meets.exists_error (h : Meets m s (fun _ _ => False) E) :
    ∃ e s', m s = (.error e, s') ∧ E e s' := by
  unfold Meets at h
  generalize m s = r at h ⊢
  rcases r with ⟨e | _, s'⟩
  · exact ⟨e, s', rfl, h⟩
  · exact h.elim

theorem Meets.congr {k : Act σ ε α} {t : σ} (h : Meets k t Q E) (hk : m s = k t) :
    Meets m s Q E := by
  unfold Meets at h ⊢
  rwa [hk]

theorem meets_of_ok {a : α} (h : m s = (.ok a, s')) (hQ : Q a s') : Meets m s Q E := by
  unfold Meets
  rw [h]
  exact hQ

theorem get_bind_apply (k : σ → Act σ ε α) (s : σ) : (get >>= k) s = k s s := rfl

theorem bind_of_ok {k : α → Act σ ε β} {a : α} (h : m s = (.ok a, s')) :
    (m >>= k) s = k a s' := by
  change (match m s with
    | (.ok a, s') => k a s'
    | (.error e, s') => (.error e, s')) = k a s'
  rw [h]

theorem bind_of_error {k : α → Act σ ε β} {e : ε} (h : m s = (.error e, s')) :
    (m >>= k) s = (.error e, s') := by
  change (match m s with
    | (.ok a, s') => k a s'
    | (.error e, s') => (.error e, s')) = (.error e, s')
  rw [h]

theorem Meets.eq_ok {a : α} (h : Meets m s (fun b t => b = a ∧ t = s') fun _ _ => False) :
    m s = (.ok a, s') := by
  unfold Meets at h
  generalize m s = r at h
  rcases r with ⟨_ | _, _⟩
  · exact h.elim
  · rw [h.1, h.2]

theorem Meets.eq_error {e : ε} (h : Meets m s (fun _ _ => False) fun e' t => e' = e ∧ t = s') :
    m s = (.error e, s') := by
  unfold Meets at h
  generalize m s = r at h
  rcases r with ⟨_ | _, _⟩
  · rw [h.1, h.2]
  · exact h.elim

/-- A loop over a list keeps what each turn carries from the part already done to one element
more. -/
theorem meets_forM {f : β → Act σ ε Unit} {l : List β} (I : List β → σ → Prop) (h0 : I [] s)
    (hstep : ∀ pre b post s, l = pre ++ b :: post → I pre s →
      Meets (f b) s (fun _ s' => I (pre ++ [b]) s') E) :
    Meets (l.forM f) s (fun _ s' => I l s') E := by
  suffices h : ∀ pre post s, l = pre ++ post → I pre s →
      Meets (post.forM f) s (fun _ s' => I l s') E from h [] l s rfl h0
  intro pre post
  induction post generalizing pre with
  | nil =>
    intro s hl hI
    rw [List.append_nil] at hl
    exact hl ▸ hI
  | cons b post ih =>
    intro s hl hI
    show Meets (f b >>= fun _ => post.forM f) s _ E
    rw [meets_bind]
    apply (hstep pre b post s hl hI).post
    intro _ s' hI'
    exact ih (pre ++ [b]) s' (by rw [hl, List.append_assoc]; rfl) hI'

/-- `P` holds of each element of a loop and the state in which the loop comes to it. -/
def AtEach (f : β → Act σ ε Unit) (P : β → σ → Prop) : List β → σ → Prop
  | [], _ => True
  | b :: l, s => P b s ∧ ∀ s', f b s = (.ok (), s') → AtEach f P l s'

theorem atEach_true {f : β → Act σ ε Unit} {l : List β} : AtEach f (fun _ _ => True) l s := by
  induction l generalizing s with
  | nil => trivial
  | cons b l ih => exact ⟨trivial, fun _ _ => ih⟩

/-- A result that was computed without the state. -/
def ofExcept (r : Except ε α) : Act σ ε α := fun s => (r, s)

@[simp] theorem meets_ofExcept_ok {a : α} : Meets (ofExcept (.ok a)) s Q E ↔ Q a s := Iff.rfl

@[simp] theorem meets_ofExcept_error {e : ε} : Meets (ofExcept (.error e)) s Q E ↔ E e s := Iff.rfl

theorem meets_ofExcept {r : Except ε α} (hQ : ∀ a, r = .ok a → Q a s)
    (hE : ∀ e, r = .error e → E e s) : Meets (ofExcept r) s Q E := by
  cases r with
  | error e => exact hE e rfl
  | ok a => exact hQ a rfl

theorem meets_forM_range {f : ℕ → Act σ ε Unit} {n : ℕ} (I : ℕ → σ → Prop) (h0 : I 0 s)
    (hstep : ∀ k < n, ∀ s, I k s → Meets (f k) s (fun _ => I (k + 1)) E) :
    Meets ((List.range n).forM f) s (fun _ => I n) E := by
  have h := meets_forM (E := E) (f := f) (l := List.range n) (s := s)
    (fun pre => I pre.length) h0 ?_
  · rwa [List.length_range] at h
  · intro pre k post s hl hI
    have hk : k = pre.length ∧ pre.length < n := by
      have hlen := congrArg List.length hl
      have hget := congrArg (fun l => l[pre.length]?) hl
      simp only [List.length_range, List.length_append, List.length_cons] at hlen
      rw [List.getElem?_range (by omega), List.getElem?_append_right le_rfl, Nat.sub_self] at hget
      exact ⟨(Option.some.inj hget).symm, by omega⟩
    rw [hk.1, List.length_append]
    exact hstep _ hk.2 s hI

end Act

end Lbd
