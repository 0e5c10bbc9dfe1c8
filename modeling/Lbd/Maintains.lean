import Lbd.Chunks

/-!
# What a computation maintains

A property of the state that every step keeps is kept by the whole computation,
whether it returns or fails.
-/

namespace Lbd

namespace Act

variable {σ ε α β : Type} {P : σ → Prop}

/-- `P` holds of the state after `m` if it held before, also if `m` fails. -/
def Maintains (P : σ → Prop) (m : Act σ ε α) : Prop := ∀ s, P s → P (m s).2

theorem maintains_of_meets {m : Act σ ε α}
    (h : ∀ s, P s → Meets m s (fun _ => P) fun _ => P) : Maintains P m := by
  intro s hs
  have hm := h s hs
  unfold Meets at hm
  generalize m s = r at hm ⊢
  rcases r with ⟨_ | _, _⟩ <;> exact hm

theorem Maintains.meets {m : Act σ ε α} {s : σ} (h : Maintains P m) (hs : P s) :
    Meets m s (fun _ => P) fun _ => P :=
  meets_always (h s hs)

theorem maintains_pure (a : α) : Maintains P (pure a : Act σ ε α) := fun _ h => h

theorem maintains_get : Maintains P (get : Act σ ε σ) := fun _ h => h

theorem maintains_throw (e : ε) : Maintains P (throw e : Act σ ε α) := fun _ h => h

theorem Maintains.bind {m : Act σ ε α} {k : α → Act σ ε β} (h : Maintains P m)
    (hk : ∀ a, Maintains P (k a)) : Maintains P (m >>= k) := by
  apply maintains_of_meets
  intro s hs
  rw [meets_bind]
  exact (h.meets hs).post fun a s' hs' => (hk a).meets hs'

theorem maintains_ite {c : Prop} [Decidable c] {m k : Act σ ε α} (hm : Maintains P m)
    (hk : Maintains P k) : Maintains P (if c then m else k) := by
  split_ifs
  · exact hm
  · exact hk

theorem maintains_when {c : Prop} [Decidable c] {m : Act σ ε Unit} (hm : Maintains P m) :
    Maintains P (when c m) :=
  maintains_ite hm (maintains_pure ())

theorem Maintains.attempt {m : Act σ ε α} (h : Maintains P m) : Maintains P (attempt m) := h

theorem maintains_forM {f : β → Act σ ε Unit} (hf : ∀ b, Maintains P (f b)) (l : List β) :
    Maintains P (l.forM f) := by
  induction l with
  | nil => exact maintains_pure ()
  | cons b l ih => exact (hf b).bind fun _ => ih

end Act

end Lbd
