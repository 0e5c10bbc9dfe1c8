import Mathlib

/-!
# Caches with least recently used replacement

A cache is an array of slots that is searched from its first slot on. What it
holds is correct as long as every valid slot says the truth about its key and no
two valid slots have the same key; which slot is replaced does not matter.
-/

namespace Lbd

variable {α : Type} {n : ℕ}

structure Slot (α : Type) where
  key : ℕ
  valid : Bool
  dirty : Bool
  lru : ℕ
  val : α

abbrev Cache (n : ℕ) (α : Type) := Fin n → Slot α

namespace Cache

/-- The first valid slot with this key. -/
def find (s : Cache n α) (key : ℕ) : Option (Fin n) :=
  (List.finRange n).find? fun i => (s i).valid && (s i).key == key

/-- The rest of the search for a slot to replace, `best` being the oldest slot so far. -/
def oldest (s : Cache n α) : List (Fin n) → Fin n → Fin n
  | [], best => best
  | i :: rest, best =>
    if (s i).valid = false then i
    else oldest s rest (if (s i).lru < (s best).lru then i else best)

/-- The first slot that is not valid, else the least recently used one. -/
def victim (s : Cache (n + 1) α) : Fin (n + 1) := oldest s (List.finRange (n + 1)) 0

def touch (s : Cache n α) (i : Fin n) (tick : ℕ) : Cache n α :=
  Function.update s i { s i with lru := tick }

def setVal (s : Cache n α) (i : Fin n) (val : α) : Cache n α :=
  Function.update s i { s i with val := val }

def setDirty (s : Cache n α) (i : Fin n) (dirty : Bool) : Cache n α :=
  Function.update s i { s i with dirty := dirty }

def invalidate (s : Cache n α) (i : Fin n) : Cache n α :=
  Function.update s i { s i with valid := false }

/-- Give slot `i` to `key`. -/
def assign (s : Cache n α) (i : Fin n) (key tick : ℕ) : Cache n α :=
  Function.update s i { s i with key := key, dirty := false, lru := tick }

/-- Slot `i` now holds `val`. -/
def fill (s : Cache n α) (i : Fin n) (val : α) : Cache n α :=
  Function.update s i { s i with valid := true, val := val }

/-- No slot for `key` is valid any more. -/
def purge (s : Cache n α) (key : ℕ) : Cache n α := fun i =>
  if (s i).valid && (s i).key == key then { s i with valid := false } else s i

def purgeAll (s : Cache n α) : Cache n α := fun i => { s i with valid := false }

variable {s : Cache n α} {i : Fin n} {key : ℕ}

theorem find_some (h : s.find key = some i) : (s i).valid = true ∧ (s i).key = key := by
  have := List.find?_some h
  simpa using this

theorem find_none (h : s.find key = none) (i : Fin n) (hi : (s i).valid = true) :
    (s i).key ≠ key := by
  have := List.find?_eq_none.mp h i (List.mem_finRange i)
  simpa [hi] using this

/-- Every valid slot satisfies `P`, and no two valid slots have the same key. -/
structure Coherent (P : Slot α → Prop) (s : Cache n α) : Prop where
  holds : ∀ i, (s i).valid = true → P (s i)
  unique : ∀ i j, (s i).valid = true → (s j).valid = true → (s i).key = (s j).key → i = j

variable {P Q : Slot α → Prop}

theorem Coherent.mono (h : s.Coherent P)
    (hQ : ∀ i, (s i).valid = true → P (s i) → Q (s i)) : s.Coherent Q :=
  ⟨fun i hi => hQ i hi (h.holds i hi), h.unique⟩

/-- A slot may be replaced by one whose key no other slot has. What slots have to satisfy may
change with it. -/
theorem Coherent.update (h : s.Coherent P) {slot : Slot α} (hslot : Q slot)
    (hkey : ∀ j, j ≠ i → (s j).valid = true → (s j).key ≠ slot.key)
    (hQ : ∀ j, j ≠ i → (s j).valid = true → P (s j) → Q (s j)) :
    Coherent Q (Function.update s i slot) := by
  constructor
  · intro j hj
    by_cases hji : j = i
    · subst hji
      rwa [Function.update_self]
    · rw [Function.update_of_ne hji] at hj ⊢
      exact hQ j hji hj (h.holds j hj)
  · intro j k hj hk hjk
    by_cases hji : j = i <;> by_cases hki : k = i
    · exact hji.trans hki.symm
    · subst hji
      rw [Function.update_self, Function.update_of_ne hki] at hjk
      rw [Function.update_of_ne hki] at hk
      exact absurd hjk.symm (hkey k hki hk)
    · subst hki
      rw [Function.update_self, Function.update_of_ne hji] at hjk
      rw [Function.update_of_ne hji] at hj
      exact absurd hjk (hkey j hji hj)
    · rw [Function.update_of_ne hji] at hj hjk
      rw [Function.update_of_ne hki] at hk hjk
      exact h.unique j k hj hk hjk

theorem Coherent.replace (h : s.Coherent P) (hi : (s i).valid = true) {slot : Slot α}
    (hkey : slot.key = (s i).key) (hslot : Q slot)
    (hQ : ∀ j, (s j).valid = true → (s j).key ≠ (s i).key → P (s j) → Q (s j)) :
    Coherent Q (Function.update s i slot) := by
  have hne : ∀ j, j ≠ i → (s j).valid = true → (s j).key ≠ (s i).key :=
    fun j hji hj hij => hji (h.unique j i hj hi hij)
  exact h.update hslot (fun j hji hj => hkey ▸ hne j hji hj)
    fun j hji hj => hQ j hj (hne j hji hj)

theorem Coherent.of_valid_imp (h : s.Coherent P) {t : Cache n α}
    (ht : ∀ i, (t i).valid = true → t i = s i) : t.Coherent P := by
  constructor
  · intro i hi
    have ei := ht i hi
    rw [ei] at hi ⊢
    exact h.holds i hi
  · intro i j hi hj hij
    have ei := ht i hi
    have ej := ht j hj
    rw [ei] at hi hij
    rw [ej] at hj hij
    exact h.unique i j hi hj hij

theorem Coherent.update_invalid (h : s.Coherent P) {slot : Slot α} (hslot : slot.valid = false) :
    Coherent P (Function.update s i slot) := by
  apply h.of_valid_imp
  intro j hj
  by_cases hji : j = i
  · subst hji
    rw [Function.update_self, hslot] at hj
    cases hj
  · exact Function.update_of_ne hji ..

theorem Coherent.touch (h : s.Coherent P) (i : Fin n) {tick : ℕ}
    (hP : ∀ slot, P slot → P { slot with lru := tick }) : (s.touch i tick).Coherent P := by
  cases hi : (s i).valid with
  | false => exact h.update_invalid hi
  | true => exact h.replace hi rfl (hP _ (h.holds i hi)) fun _ _ _ => id

theorem coherent_of_invalid (h : ∀ i, (s i).valid = false) : s.Coherent P :=
  ⟨fun i hi => absurd hi (by simp [h i]), fun i _ hi => absurd hi (by simp [h i])⟩

/-- Every valid slot satisfies `P`. -/
def Holds (P : Slot α → Prop) (s : Cache n α) : Prop := ∀ i, (s i).valid = true → P (s i)

theorem Holds.update (h : s.Holds P) {slot : Slot α} (hslot : slot.valid = true → P slot) :
    Holds P (Function.update s i slot) := by
  intro j hj
  by_cases hji : j = i
  · subst hji
    rw [Function.update_self] at hj ⊢
    exact hslot hj
  · rw [Function.update_of_ne hji] at hj ⊢
    exact h j hj

theorem Holds.touch (h : s.Holds P) (i : Fin n) {tick : ℕ}
    (hP : P (s i) → P { s i with lru := tick }) : (s.touch i tick).Holds P :=
  h.update fun hi => hP (h i hi)

theorem assign_fill (s : Cache n α) (i : Fin n) (key tick : ℕ) (val : α) :
    (s.assign i key tick).fill i val = Function.update s i ⟨key, true, false, tick, val⟩ := by
  simp [Cache.assign, Cache.fill]

theorem Coherent.load (h : s.Coherent P) (hfind : s.find key = none) (i : Fin n) {tick : ℕ}
    {val : α} (hP : P ⟨key, true, false, tick, val⟩) :
    ((s.assign i key tick).fill i val).Coherent P := by
  rw [assign_fill]
  exact h.update hP (fun j _ hj => find_none hfind j hj) fun _ _ _ => id

theorem Coherent.reload (h : s.Coherent P) (hfind : s.find key = none) (i : Fin n) {tick : ℕ}
    {val : α} (hP : P ⟨key, true, false, tick, val⟩) :
    (((s.invalidate i).assign i key tick).fill i val).Coherent P := by
  have hslot : ((s.invalidate i).assign i key tick).fill i val =
      Function.update s i ⟨key, true, false, tick, val⟩ := by
    simp [Cache.assign, Cache.fill, Cache.invalidate]
  rw [hslot]
  exact h.update hP (fun j _ hj => find_none hfind j hj) fun _ _ _ => id

theorem Coherent.reuse (h : s.Coherent P) (i : Fin n) (key tick : ℕ) :
    ((s.invalidate i).assign i key tick).Coherent P := by
  have hslot : (s.invalidate i).assign i key tick =
      Function.update s i ⟨key, false, false, tick, (s i).val⟩ := by
    simp [Cache.assign, Cache.invalidate]
  rw [hslot]
  exact h.update_invalid rfl

theorem assign_invalidate (s : Cache n α) (i : Fin n) (key tick : ℕ) :
    (s.assign i key tick).invalidate i =
      Function.update s i ⟨key, false, false, tick, (s i).val⟩ := by
  simp [Cache.assign, Cache.invalidate]

theorem Holds.load (h : s.Holds P) (i : Fin n) {key tick : ℕ} {val : α}
    (hP : P ⟨key, true, false, tick, val⟩) : ((s.assign i key tick).fill i val).Holds P := by
  rw [assign_fill]
  exact h.update fun _ => hP

theorem Holds.unload (h : s.Holds P) (i : Fin n) {key tick : ℕ} :
    ((s.assign i key tick).invalidate i).Holds P := by
  rw [assign_invalidate]
  exact h.update nofun

theorem Holds.reuse (h : s.Holds P) (i : Fin n) {key tick : ℕ} :
    ((s.invalidate i).assign i key tick).Holds P := by
  have hslot : (s.invalidate i).assign i key tick =
      Function.update s i ⟨key, false, false, tick, (s i).val⟩ := by
    simp [Cache.assign, Cache.invalidate]
  rw [hslot]
  exact h.update nofun

theorem Holds.fill (h : s.Holds P) (i : Fin n) {val : α}
    (hP : P { s i with valid := true, val := val }) : (s.fill i val).Holds P :=
  h.update fun _ => hP

theorem load_slot (s : Cache n α) (i : Fin n) {key tick : ℕ} {val : α}
    (hP : P ⟨key, true, false, tick, val⟩) : P ((s.assign i key tick).fill i val i) := by
  rw [assign_fill, Function.update_self]
  exact hP

theorem assign_key (s : Cache n α) (i : Fin n) (key tick : ℕ) :
    (s.assign i key tick i).key = key := by
  simp [Cache.assign]

theorem fill_valid (s : Cache n α) (i : Fin n) (val : α) : (s.fill i val i).valid = true := by
  simp [Cache.fill]

theorem fill_key (s : Cache n α) (i : Fin n) (val : α) : (s.fill i val i).key = (s i).key := by
  simp [Cache.fill]

theorem fill_val (s : Cache n α) (i : Fin n) (val : α) : (s.fill i val i).val = val := by
  simp [Cache.fill]

/-- The caches have the same slots, but for the values of the valid ones, which `R` relates. -/
structure Alike (R : ℕ → α → α → Prop) (s t : Cache n α) : Prop where
  key : ∀ i, (t i).key = (s i).key
  valid : ∀ i, (t i).valid = (s i).valid
  lru : ∀ i, (t i).lru = (s i).lru
  val : ∀ i, (s i).valid = true → R (s i).key (s i).val (t i).val

section Alike

variable {R : ℕ → α → α → Prop} {t : Cache n α}

theorem Alike.find (h : s.Alike R t) (key : ℕ) : t.find key = s.find key := by
  unfold Cache.find
  simp only [h.valid, h.key]

theorem Alike.oldest (h : s.Alike R t) (l : List (Fin n)) (best : Fin n) :
    t.oldest l best = s.oldest l best := by
  induction l generalizing best with
  | nil => rfl
  | cons i l ih =>
    unfold Cache.oldest
    simp only [h.valid, h.lru, ih]

theorem Alike.victim {s t : Cache (n + 1) α} (h : s.Alike R t) : t.victim = s.victim :=
  h.oldest _ _

theorem Alike.update (h : s.Alike R t) {a b : Slot α} (hkey : b.key = a.key)
    (hvalid : b.valid = a.valid) (hlru : b.lru = a.lru)
    (hval : a.valid = true → R a.key a.val b.val) :
    Alike R (Function.update s i a) (Function.update t i b) := by
  have hslot : ∀ j, j = i ∨ j ≠ i := fun j => eq_or_ne j i
  constructor
  · intro j
    obtain rfl | hj := hslot j
    · simpa using hkey
    · simpa [hj] using h.key j
  · intro j
    obtain rfl | hj := hslot j
    · simpa using hvalid
    · simpa [hj] using h.valid j
  · intro j
    obtain rfl | hj := hslot j
    · simpa using hlru
    · simpa [hj] using h.lru j
  · intro j
    obtain rfl | hj := hslot j
    · simpa using hval
    · simpa [hj] using h.val j

theorem Alike.touch (h : s.Alike R t) (i : Fin n) (tick : ℕ) :
    (s.touch i tick).Alike R (t.touch i tick) :=
  h.update (h.key i) (h.valid i) rfl (h.val i)

theorem Alike.reuse (h : s.Alike R t) (i : Fin n) (key tick : ℕ) :
    ((s.invalidate i).assign i key tick).Alike R ((t.invalidate i).assign i key tick) := by
  have hinv : (s.invalidate i).Alike R (t.invalidate i) := h.update (h.key i) rfl (h.lru i) nofun
  refine hinv.update rfl (hinv.valid i) rfl fun hv => ?_
  simp [Cache.invalidate] at hv

theorem Alike.fill (h : s.Alike R t) (i : Fin n) {x y : α} (hxy : R (s i).key x y) :
    (s.fill i x).Alike R (t.fill i y) :=
  h.update (h.key i) rfl (h.lru i) fun _ => hxy

end Alike

end Cache

end Lbd
