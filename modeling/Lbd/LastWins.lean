import Mathlib

/-!
# The last operation wins

Replaying a list of partial updates leaves each place with the value of the
last update that touches it. `lastSome` is that value for one place.
-/

namespace Lbd

variable {α β : Type*}

/-- The last `some` of a list. -/
def lastSome : List (Option α) → Option α
  | [] => none
  | o :: l => (lastSome l).or o

@[simp] theorem lastSome_nil : lastSome ([] : List (Option α)) = none := rfl

@[simp] theorem lastSome_cons (o : Option α) (l : List (Option α)) :
    lastSome (o :: l) = (lastSome l).or o := rfl

theorem lastSome_append (l m : List (Option α)) :
    lastSome (l ++ m) = (lastSome m).or (lastSome l) := by
  induction l with
  | nil => simp
  | cons o l ih => simp [ih, Option.or_assoc]

theorem lastSome_eq_none {l : List (Option α)} : lastSome l = none ↔ ∀ o ∈ l, o = none := by
  induction l with
  | nil => simp
  | cons o l ih => simp [ih, and_comm]

theorem lastSome_flatMap (f : β → List (Option α)) (l : List β) :
    lastSome (l.flatMap f) = lastSome (l.map fun b => lastSome (f b)) := by
  induction l with
  | nil => rfl
  | cons b l ih => simp [lastSome_append, ih]

theorem lastSome_eq_of_forall {l : List (Option α)} {v : α} (hv : some v ∈ l)
    (h : ∀ o ∈ l, o = none ∨ o = some v) : lastSome l = some v := by
  induction l with
  | nil => simp at hv
  | cons o l ih =>
    rw [lastSome_cons]
    by_cases hl : some v ∈ l
    · rw [ih hl fun o ho => h o (List.mem_cons_of_mem _ ho)]
      rfl
    · have hn : lastSome l = none := lastSome_eq_none.mpr fun o ho =>
        (h o (List.mem_cons_of_mem _ ho)).resolve_right fun he => hl (he ▸ ho)
      rcases List.mem_cons.mp hv with rfl | hv
      · simp [hn]
      · exact absurd hv hl

theorem exists_last_of_lastSome {l : List β} {f : β → Option α} {a : α}
    (h : lastSome (l.map f) = some a) :
    ∃ pre b post, l = pre ++ b :: post ∧ f b = some a ∧ ∀ c ∈ post, f c = none := by
  induction l with
  | nil => simp at h
  | cons b l ih =>
    rw [List.map_cons, lastSome_cons, Option.or_eq_some_iff] at h
    rcases h with h | ⟨hl, hb⟩
    · obtain ⟨pre, c, post, rfl, hc, hpost⟩ := ih h
      exact ⟨b :: pre, c, post, rfl, hc, hpost⟩
    · refine ⟨[], b, l, rfl, hb, fun c hc => ?_⟩
      exact lastSome_eq_none.mp hl _ (List.mem_map_of_mem hc)

theorem lastSome_of_last {pre post : List β} {b : β} {f : β → Option α} (hb : f b ≠ none)
    (hpost : ∀ c ∈ post, f c = none) : lastSome ((pre ++ b :: post).map f) = f b := by
  have hnone : lastSome (post.map f) = none := lastSome_eq_none.mpr fun o ho => by
    obtain ⟨c, hc, rfl⟩ := List.mem_map.mp ho
    exact hpost c hc
  obtain ⟨v, hv⟩ := Option.ne_none_iff_exists'.mp hb
  rw [List.map_append, lastSome_append, List.map_cons, lastSome_cons, hnone, hv]
  rfl

/-- The values of a place after a partial update: the new value if there is one, else as before. -/
def overriding (x : Option α) (P : α → Prop) (o : α) : Prop :=
  match x with
  | some v => v = o
  | none => P o

@[simp] theorem overriding_some (v : α) (P : α → Prop) (o : α) :
    overriding (some v) P o ↔ v = o := Iff.rfl

@[simp] theorem overriding_none (P : α → Prop) (o : α) : overriding none P o ↔ P o := Iff.rfl

theorem overriding_congr {P Q : α → Prop} (h : ∀ o, P o ↔ Q o) (x : Option α) (o : α) :
    overriding x P o ↔ overriding x Q o := by
  cases x with
  | none => exact h o
  | some v => rfl

theorem overriding_or (x y : Option α) (P : α → Prop) (o : α) :
    overriding (x.or y) P o ↔ overriding x (overriding y P) o := by
  cases x <;> rfl

end Lbd
