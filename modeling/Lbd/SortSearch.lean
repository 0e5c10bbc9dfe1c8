import Mathlib

namespace Lbd

/-- The loop of Go's `sort.Search`: halve `[i, j)` until it is empty. -/
def searchLoop (f : ℕ → Bool) : ℕ → ℕ → ℕ → ℕ
  | 0, i, _ => i
  | fuel + 1, i, j =>
    if i < j then
      let h := (i + j) / 2
      if f h then searchLoop f fuel i h else searchLoop f fuel (h + 1) j
    else i

/-- `sort.Search(n, f)`. Each turn shortens `[i, j)`, so `n` turns are enough. -/
def sortSearch (n : ℕ) (f : ℕ → Bool) : ℕ := searchLoop f n 0 n

/-- What `sort.Search` returns on a predicate that is false, then true. -/
structure SearchResult (n : ℕ) (f : ℕ → Bool) (p : ℕ) : Prop where
  le : p ≤ n
  below : ∀ i < p, f i = false
  above : ∀ i, p ≤ i → i < n → f i = true

theorem searchLoop_spec {n : ℕ} {f : ℕ → Bool}
    (mono : ∀ i j, i ≤ j → j < n → f i = true → f j = true) (fuel i j : ℕ)
    (hfuel : j - i ≤ fuel) (hij : i ≤ j) (hj : j ≤ n)
    (hbelow : ∀ x < i, f x = false) (habove : ∀ x, j ≤ x → x < n → f x = true) :
    SearchResult n f (searchLoop f fuel i j) := by
  induction fuel generalizing i j with
  | zero =>
    have he : i = j := by omega
    subst he
    exact ⟨hj, hbelow, habove⟩
  | succ fuel ih =>
    unfold searchLoop
    by_cases h : i < j
    · simp only [if_pos h]
      split
      · next hf =>
        apply ih i ((i + j) / 2) (by omega) (by omega) (by omega) hbelow
        intro x hx hn
        exact mono _ x hx hn hf
      · next hf =>
        apply ih ((i + j) / 2 + 1) j (by omega) (by omega) hj _ habove
        intro x hx
        cases hfx : f x with
        | false => rfl
        | true => exact absurd (mono x ((i + j) / 2) (by omega) (by omega) hfx) hf
    · simp only [if_neg h]
      have he : i = j := by omega
      subst he
      exact ⟨hj, hbelow, habove⟩

theorem sortSearch_spec {n : ℕ} {f : ℕ → Bool}
    (mono : ∀ i j, i ≤ j → j < n → f i = true → f j = true) :
    SearchResult n f (sortSearch n f) :=
  searchLoop_spec mono n 0 n (by omega) (by omega) le_rfl (by omega) (by omega)

theorem sortSearch_append {α : Type*} (p : α → Bool) {l m : List α}
    (hl : ∀ x ∈ l, p x = false) (hm : ∀ x ∈ m, p x = true) :
    sortSearch (l ++ m).length (fun i => ((l ++ m)[i]?).any p) = l.length := by
  have hf : ∀ i, i < (l ++ m).length → (((l ++ m)[i]?).any p = true ↔ l.length ≤ i) := by
    intro i hi
    rw [List.getElem?_eq_getElem hi, Option.any_some]
    by_cases h : i < l.length
    · simp [List.getElem_append_left h, hl _ (List.getElem_mem h), h]
    · simp only [List.getElem_append_right (not_lt.mp h), not_lt.mp h, iff_true]
      exact hm _ (List.getElem_mem _)
  have hs : SearchResult (l ++ m).length (fun i => ((l ++ m)[i]?).any p) (sortSearch _ _) :=
    sortSearch_spec fun i j hij hj hi =>
      (hf j hj).mpr (((hf i (by omega)).mp hi).trans hij)
  have hle := hs.le
  have hlen : l.length ≤ (l ++ m).length := by simp
  apply le_antisymm
  · by_contra hgt
    push Not at hgt
    have h := hs.below l.length hgt
    rw [(hf l.length (by omega)).mpr le_rfl] at h
    cases h
  · by_contra hlt
    push Not at hlt
    have h := hs.above _ le_rfl (hlt.trans_le hlen)
    exact absurd ((hf _ (by omega)).mp h) (not_le.mpr hlt)

/-- Grow by one, `copy(l[pos+1:], l[pos:])`, `l[pos] = x`. -/
def insertAt {α : Type*} (l : List α) (pos : ℕ) (x : α) : List α := l.take pos ++ x :: l.drop pos

theorem insertAt_perm {α : Type*} (l : List α) (pos : ℕ) (x : α) :
    (insertAt l pos x).Perm (x :: l) := by
  have h : (insertAt l pos x).Perm (x :: (l.take pos ++ l.drop pos)) := List.perm_middle
  rwa [List.take_append_drop] at h

theorem insertAt_append {α : Type*} (l m : List α) (x : α) :
    insertAt (l ++ m) l.length x = l ++ x :: m := by
  simp [insertAt]

end Lbd
