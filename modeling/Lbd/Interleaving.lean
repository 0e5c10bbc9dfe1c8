import Mathlib.Data.List.Basic
import Mathlib.Data.List.Infix
import Mathlib.Data.List.Induction

/-!
# Runs of a system

A system is a total step function on states and events; an event whose turn it is not
leaves the state as it is, so that every list of events is an interleaving. `after step s es`
is the state a run ends in. A condition on the steps of a run is a condition on each event
and the state it meets.
-/

namespace Lbd

variable {σ ε : Type*}

/-- The state after the events of a run. -/
def after (step : σ → ε → σ) (s : σ) (es : List ε) : σ := es.foldl step s

variable {step : σ → ε → σ} {s : σ} {es : List ε}

@[simp] theorem after_nil : after step s [] = s := rfl

@[simp] theorem after_cons (e : ε) : after step s (e :: es) = after step (step s e) es := rfl

theorem after_append (es es' : List ε) :
    after step s (es ++ es') = after step (after step s es) es' :=
  List.foldl_append

@[simp] theorem after_concat (es : List ε) (e : ε) :
    after step s (es ++ [e]) = step (after step s es) e := by
  rw [after_append]
  rfl

/-- Every step of the run meets `C`. -/
def EachStep (step : σ → ε → σ) (s : σ) (C : σ → ε → Prop) (es : List ε) : Prop :=
  ∀ pre e, pre ++ [e] <+: es → C (after step s pre) e

theorem EachStep.of_prefix {C : σ → ε → Prop} {pre : List ε} (h : EachStep step s C es)
    (hpre : pre <+: es) : EachStep step s C pre :=
  fun p e hp => h p e (hp.trans hpre)

theorem eachStep_concat {C : σ → ε → Prop} {e : ε} :
    EachStep step s C (es ++ [e]) ↔ EachStep step s C es ∧ C (after step s es) e := by
  constructor
  · intro h
    exact ⟨h.of_prefix (List.prefix_append es [e]), h es e (List.prefix_refl _)⟩
  · intro h pre e' hp
    obtain heq | hlt := List.prefix_concat_iff.mp hp
    · obtain ⟨rfl, hlast⟩ := List.append_inj' heq rfl
      rw [List.cons.inj hlast |>.1]
      exact h.2
    · exact h.1 pre e' hlt

theorem eachStep_nil {C : σ → ε → Prop} : EachStep step s C [] := by
  intro pre e hp
  simp at hp

theorem eachStep_cons {C : σ → ε → Prop} {e : ε} (he : C s e)
    (hes : EachStep step (step s e) C es) : EachStep step s C (e :: es) := by
  intro pre e' hp
  cases pre with
  | nil =>
    obtain ⟨rfl, -⟩ := List.cons_prefix_cons.mp hp
    exact he
  | cons e₁ pre =>
    obtain ⟨rfl, htail⟩ := List.cons_prefix_cons.mp hp
    exact hes pre e' htail

theorem after_invariant {P : σ → Prop} (h0 : P s) (hstep : ∀ s e, P s → P (step s e)) :
    P (after step s es) := by
  induction es generalizing s with
  | nil => exact h0
  | cons e es ih => exact ih (hstep s e h0)

theorem EachStep.invariant {P : σ → Prop} {C : σ → ε → Prop} (hC : EachStep step s C es)
    (h0 : P s) (hstep : ∀ s e, P s → C s e → P (step s e)) : P (after step s es) := by
  induction es using List.reverseRecOn with
  | nil => exact h0
  | append_singleton es e ih =>
    rw [eachStep_concat] at hC
    rw [after_concat]
    exact hstep _ e (ih hC.1) hC.2

theorem eachStep_of_invariant {P : σ → Prop} {C : σ → ε → Prop} (h0 : P s)
    (hstep : ∀ s e, P s → P (step s e)) (hC : ∀ s e, P s → C s e) : EachStep step s C es :=
  fun _ e _ => hC _ e (after_invariant h0 hstep)

end Lbd
