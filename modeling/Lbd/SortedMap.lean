import Mathlib

/-!
# Key-sorted association lists

A finite map as the list of its entries in strictly increasing key order. The
order is a field, so two maps with the same entries are the same map and a
listing never needs to be sorted again.
-/

namespace Lbd

theorem filter_not_append_filter {α : Type*} (p : α → Bool) {l : List α}
    (h : l.Pairwise fun a b => p a = true → p b = true) :
    l.filter (fun a => !p a) ++ l.filter p = l := by
  induction l with
  | nil => rfl
  | cons a l ih =>
    obtain ⟨ha, hl⟩ := List.pairwise_cons.mp h
    cases hp : p a with
    | false => simp [hp, ih hl]
    | true =>
      have hall : l.filter p = l := List.filter_eq_self.mpr fun b hb => ha b hb hp
      have hnone : l.filter (fun a => !p a) = [] :=
        List.filter_eq_nil_iff.mpr fun b hb => by simp [ha b hb hp]
      simp [hp, hall, hnone]

structure SortedMap (K V : Type*) [LinearOrder K] where
  entries : List (K × V)
  sorted : entries.Pairwise fun a b => a.1 < b.1
deriving DecidableEq

namespace SortedMap

variable {K V : Type*} [LinearOrder K]

def empty : SortedMap K V := ⟨[], List.Pairwise.nil⟩

def keys (m : SortedMap K V) : List K := m.entries.map Prod.fst

def find? (m : SortedMap K V) (k : K) : Option V :=
  (m.entries.find? fun e => e.1 = k).map Prod.snd

def filter (m : SortedMap K V) (p : K → Bool) : SortedMap K V :=
  ⟨m.entries.filter fun e => p e.1, m.sorted.filter _⟩

def erase (m : SortedMap K V) (k : K) : SortedMap K V := m.filter fun j => j ≠ k

/-- The entries with smaller keys. -/
def below (m : SortedMap K V) (k : K) : SortedMap K V := m.filter (· < k)

/-- The entries with greater keys. -/
def above (m : SortedMap K V) (k : K) : SortedMap K V := m.filter (k < ·)

/-- Stores `v` under `k`, replacing what was there. -/
def insert (m : SortedMap K V) (k : K) (v : V) : SortedMap K V where
  entries := (m.below k).entries ++ (k, v) :: (m.above k).entries
  sorted := by
    rw [List.pairwise_append, List.pairwise_cons]
    simp only [below, above, filter, List.mem_filter, decide_eq_true_eq, List.mem_cons, and_imp]
    refine ⟨m.sorted.filter _, ⟨fun e _ h => h, m.sorted.filter _⟩, ?_⟩
    rintro a - ha b (rfl | ⟨-, hb⟩)
    · exact ha
    · exact ha.trans hb

variable {m : SortedMap K V}

theorem ext_entries {m n : SortedMap K V} (h : m.entries = n.entries) : m = n := by
  cases m; cases n; simp_all

theorem nodup_keys (m : SortedMap K V) : m.keys.Nodup := by
  have h : m.keys.Pairwise (· < ·) := List.pairwise_map.mpr m.sorted
  exact h.imp ne_of_lt

theorem mem_keys {k : K} : k ∈ m.keys ↔ ∃ v, (k, v) ∈ m.entries := by
  simp [keys]

theorem eq_of_mem {k : K} {v w : V} (hv : (k, v) ∈ m.entries) (hw : (k, w) ∈ m.entries) :
    v = w := by
  have h := List.inj_on_of_nodup_map m.nodup_keys hv hw rfl
  exact congrArg Prod.snd h

theorem find?_eq_some {k : K} {v : V} : m.find? k = some v ↔ (k, v) ∈ m.entries := by
  unfold find?
  constructor
  · intro h
    obtain ⟨⟨j, w⟩, hf, rfl⟩ := Option.map_eq_some_iff.mp h
    have hk : j = k := by simpa using List.find?_some hf
    exact hk ▸ List.mem_of_find?_eq_some hf
  · intro h
    cases hf : m.entries.find? fun e => e.1 = k with
    | none => simpa using List.find?_eq_none.mp hf _ h
    | some e =>
      have hk : e.1 = k := by simpa using List.find?_some hf
      have he : (k, e.2) ∈ m.entries := hk ▸ List.mem_of_find?_eq_some hf
      rw [Option.map_some, eq_of_mem he h]

@[simp] theorem mem_filter {p : K → Bool} {e : K × V} :
    e ∈ (m.filter p).entries ↔ e ∈ m.entries ∧ p e.1 := by
  simp [filter]

theorem filter_filter (m : SortedMap K V) (p q : K → Bool) :
    (m.filter p).filter q = m.filter fun k => p k && q k := by
  apply ext_entries
  simp only [filter, List.filter_filter, Bool.and_comm]

theorem filter_true (m : SortedMap K V) : (m.filter fun _ => true) = m :=
  ext_entries (List.filter_eq_self.mpr fun _ _ => rfl)

theorem filter_congr {p q : K → Bool} (h : ∀ k, p k = true ↔ q k = true) :
    m.filter p = m.filter q := by
  have : p = q := funext fun k => Bool.eq_iff_iff.mpr (h k)
  rw [this]

theorem erase_eq_filter {k : K} {p : K → Bool} (h : ∀ j, p j = true ↔ j ≠ k) :
    m.erase k = m.filter p :=
  filter_congr fun j => by simp [h]

theorem filter_erase {k : K} {p q : K → Bool} (h : ∀ j, q j = true ↔ j ≠ k ∧ p j = true) :
    (m.erase k).filter p = m.filter q := by
  rw [erase, filter_filter]
  exact filter_congr fun j => by simp [h]

theorem mem_erase {k : K} {e : K × V} : e ∈ (m.erase k).entries ↔ e ∈ m.entries ∧ e.1 ≠ k := by
  simp [erase]

@[simp] theorem mem_below {k : K} {e : K × V} :
    e ∈ (m.below k).entries ↔ e ∈ m.entries ∧ e.1 < k := by
  simp [below]

@[simp] theorem mem_above {k : K} {e : K × V} :
    e ∈ (m.above k).entries ↔ e ∈ m.entries ∧ k < e.1 := by
  simp [above]

theorem mem_insert {k : K} {v : V} {e : K × V} :
    e ∈ (m.insert k v).entries ↔ e = (k, v) ∨ e ∈ m.entries ∧ e.1 ≠ k := by
  simp only [insert, List.mem_append, List.mem_cons, mem_below, mem_above, ne_iff_lt_or_gt]
  tauto

theorem find?_insert (k j : K) (v : V) :
    (m.insert k v).find? j = if j = k then some v else m.find? j := by
  split_ifs with h
  · exact find?_eq_some.mpr (mem_insert.mpr (.inl (by rw [h])))
  · refine Option.ext fun w => ?_
    rw [find?_eq_some, find?_eq_some, mem_insert]
    simp [h]

theorem insert_entries_of_forall_lt {k : K} {v : V} (h : ∀ j ∈ m.keys, j < k) :
    (m.insert k v).entries = m.entries ++ [(k, v)] := by
  have hlt : ∀ e ∈ m.entries, e.1 < k := fun e he => h _ (mem_keys.mpr ⟨e.2, he⟩)
  have h1 : (m.below k).entries = m.entries :=
    List.filter_eq_self.mpr fun e he => by simpa using hlt e he
  have h2 : (m.above k).entries = [] :=
    List.filter_eq_nil_iff.mpr fun e he => by simpa using (hlt e he).le
  simp only [insert, h1, h2]

/-- A key goes between the smaller and the greater ones, in the place of what it had. -/
theorem insert_entries_of_split {k : K} {v : V} {l c r : List (K × V)}
    (h : m.entries = l ++ (c ++ r)) (hl : ∀ e ∈ l, e.1 < k) (hmid : ∀ e ∈ c, e.1 = k)
    (hr : ∀ e ∈ r, k < e.1) : (m.insert k v).entries = l ++ (k, v) :: r := by
  have h1 : (m.below k).entries = l := by
    simp only [below, filter, h, List.filter_append]
    rw [List.filter_eq_self.mpr fun e he => by simpa using hl e he,
      List.filter_eq_nil_iff.mpr fun e he => by simp [hmid e he],
      List.filter_eq_nil_iff.mpr fun e he => by simpa using (hr e he).le]
    simp
  have h2 : (m.above k).entries = r := by
    simp only [above, filter, h, List.filter_append]
    rw [List.filter_eq_nil_iff.mpr fun e he => by simpa using (hl e he).le,
      List.filter_eq_nil_iff.mpr fun e he => by simp [hmid e he],
      List.filter_eq_self.mpr fun e he => by simpa using hr e he]
    simp
  simp only [insert, h1, h2]

theorem below_append_above {k : K} (h : k ∉ m.keys) :
    (m.below k).entries ++ (m.above k).entries = m.entries := by
  have hlt : (m.below k).entries = m.entries.filter fun e => !decide (k < e.1) := by
    refine List.filter_congr fun e he => ?_
    have hne : e.1 ≠ k := fun hk => h (hk ▸ mem_keys.mpr ⟨e.2, he⟩)
    simp only [← decide_not, not_lt, hne.le_iff_lt]
  rw [hlt]
  refine filter_not_append_filter (fun e : K × V => decide (k < e.1)) ?_
  refine m.sorted.imp fun hab ha => ?_
  simp only [decide_eq_true_eq] at ha ⊢
  exact ha.trans hab

end SortedMap

end Lbd
