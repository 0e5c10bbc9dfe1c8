import Lbd.Chunks

/-!
# Two computations side by side

`Lockstep m m' s t Q E`: from `s` and from `t` the two computations return the same
value, in states that `Q` relates, or fail with the same error, in states that `E`
relates.
-/

namespace Lbd.Act

variable {σ ε α β : Type}

def Lockstep (m m' : Act σ ε α) (s t : σ) (Q : α → σ → σ → Prop) (E : σ → σ → Prop) : Prop :=
  match m s, m' t with
  | (.ok a, s'), (.ok b, t') => a = b ∧ Q a s' t'
  | (.error e, s'), (.error e', t') => e = e' ∧ E s' t'
  | _, _ => False

variable {s t : σ} {Q R : α → σ → σ → Prop} {E : σ → σ → Prop} {m m' : Act σ ε α}

theorem lockstep_of_ok {a : α} {s' t' : σ} (hm : m s = (.ok a, s')) (hm' : m' t = (.ok a, t'))
    (h : Q a s' t') : Lockstep m m' s t Q E := by
  unfold Lockstep
  rw [hm, hm']
  exact ⟨rfl, h⟩

theorem lockstep_pure {a : α} (h : Q a s t) :
    Lockstep (pure a : Act σ ε α) (pure a) s t Q E := ⟨rfl, h⟩

theorem lockstep_throw {e : ε} (h : E s t) :
    Lockstep (throw e : Act σ ε α) (throw e) s t Q E := ⟨rfl, h⟩

theorem Lockstep.bind {k k' : α → Act σ ε β} {R : β → σ → σ → Prop}
    (h : Lockstep m m' s t Q E)
    (hk : ∀ a s' t', Q a s' t' → Lockstep (k a) (k' a) s' t' R E) :
    Lockstep (m >>= k) (m' >>= k') s t R E := by
  unfold Lockstep at h ⊢
  rcases hm : m s with ⟨e | a, s'⟩ <;> rcases hm' : m' t with ⟨e' | b, t'⟩ <;> rw [hm, hm'] at h
  · rw [bind_of_error hm, bind_of_error hm']
    exact h
  · exact h.elim
  · exact h.elim
  · obtain ⟨rfl, hq⟩ := h
    rw [bind_of_ok hm, bind_of_ok hm']
    exact hk a s' t' hq

theorem lockstep_get {k k' : σ → Act σ ε α} (h : Lockstep (k s) (k' t) s t Q E) :
    Lockstep (get >>= k) (get >>= k') s t Q E := h

theorem Lockstep.fst_eq (h : Lockstep m m' s t Q E) : (m s).1 = (m' t).1 := by
  unfold Lockstep at h
  generalize m s = r at h
  generalize m' t = r' at h
  match r, r', h with
  | (.ok a, s'), (.ok _, t'), ⟨rfl, _⟩ => rfl
  | (.error e, s'), (.error _, t'), ⟨rfl, _⟩ => rfl

theorem Lockstep.snd {R : σ → σ → Prop} (h : Lockstep m m' s t (fun _ => R) R) :
    R (m s).2 (m' t).2 := by
  unfold Lockstep at h
  generalize m s = r at h
  generalize m' t = r' at h
  match r, r', h with
  | (.ok a, s'), (.ok _, t'), ⟨rfl, hr⟩ => exact hr
  | (.error e, s'), (.error _, t'), ⟨rfl, hr⟩ => exact hr

theorem lockstep_collect {R : σ → σ → Prop} {f : β → Act σ ε (List UInt8)} {l : List β}
    (hstep : ∀ b ∈ l, ∀ s t, R s t → Lockstep (f b) (f b) s t (fun _ => R) R) (h : R s t) :
    Lockstep (collect f l) (collect f l) s t (fun _ => R) R := by
  induction l generalizing s t with
  | nil => exact lockstep_pure h
  | cons b l ih =>
    apply (hstep b List.mem_cons_self s t h).bind
    intro bs s' t' h'
    apply (ih (fun b hb => hstep b (List.mem_cons_of_mem _ hb)) h').bind
    intro rest s'' t'' h''
    exact lockstep_pure h''

end Lbd.Act
