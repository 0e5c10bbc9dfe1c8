import Lbd.QCow2.Format

/-!
# The free list in the file

Freed extents are linked through the tombstones at their start. Both allocators
look for the first of at most eight extents that is large enough.
-/

namespace Lbd.QCow2

/-- Where a scan of the free list stopped. -/
structure Fit where
  prevPhys : ℕ
  isFirst : Bool
  cur : ℕ
  extentSize : ℕ
  nextFree : ℕ

/-- The loop of `allocSpace` and `lbd_qcow2_alloc_space`: `limit` is what is left of the scan
limit. A list that cannot be read any further ends the scan. -/
def scanFree (f : File) (needed : ℕ) : (limit prevPhys : ℕ) → Bool → (cur : ℕ) → Option Fit
  | 0, _, _, _ => none
  | limit + 1, prevPhys, isFirst, cur =>
    if cur = 0 then none
    else match f.readAt cur 16 with
      | none => none
      | some buf =>
        if get32 buf 0 ≠ freeTombstone then none
        else if needed ≤ get32 buf 4 then
          some ⟨prevPhys, isFirst, cur, get32 buf 4, get64 buf 8⟩
        else scanFree f needed limit cur false (get64 buf 8)

/-- The free list from `head` on holds these extents, given by position and size. -/
def Chain (f : File) : ℕ → List (ℕ × ℕ) → Prop
  | head, [] => head = 0
  | head, (p, n) :: rest => head = p ∧ ∃ next < 2 ^ 64, f.Reads p (tombstone n next) ∧
      Chain f next rest

variable {f f' : File} {head p q n m next : ℕ} {pre post fl : List (ℕ × ℕ)}

theorem Chain.congr (h : Chain f head fl) (hsize : f.size ≤ f'.size)
    (hbyte : ∀ x ∈ fl, ∀ a, x.1 ≤ a → a < x.1 + 16 → f'.byte a = f.byte a) :
    Chain f' head fl := by
  induction fl generalizing head with
  | nil => exact h
  | cons x fl ih =>
    obtain ⟨rfl, next, hlt, hr, hc⟩ := h
    refine ⟨rfl, next, hlt, ?_, ?_⟩
    · exact hr.congr hsize (by simpa using hbyte x (List.mem_cons_self ..))
    · exact ih hc fun y hy => hbyte y (List.mem_cons_of_mem _ hy)

theorem Chain.tail (h : Chain f head (pre ++ (p, n) :: post)) :
    ∃ next < 2 ^ 64, f.Reads p (tombstone n next) ∧ Chain f next post := by
  induction pre generalizing head with
  | nil => exact h.2
  | cons x pre ih =>
    obtain ⟨-, next, -, -, hc⟩ := h
    exact ih hc

theorem scanFree_spec {needed limit prevPhys : ℕ} {isFirst : Bool} {fit : Fit}
    (hc : Chain f head fl) (hfl : ∀ x ∈ fl, x.2 < 2 ^ 32)
    (h : scanFree f needed limit prevPhys isFirst head = some fit) :
    ∃ pre post, fl = pre ++ (fit.cur, fit.extentSize) :: post ∧ needed ≤ fit.extentSize ∧
      fit.nextFree < 2 ^ 64 ∧ Chain f fit.nextFree post ∧
      (pre = [] ∧ fit.isFirst = isFirst ∧ fit.prevPhys = prevPhys ∨
        ∃ init m, pre = init ++ [(fit.prevPhys, m)] ∧ fit.isFirst = false) := by
  induction limit generalizing prevPhys isFirst head fl with
  | zero => cases h
  | succ limit ih =>
    rw [scanFree] at h
    split_ifs at h with h0
    cases fl with
    | nil => exact absurd hc h0
    | cons x fl =>
      obtain ⟨rfl, next, hlt, hr, hc⟩ := hc
      have hx := hfl x (List.mem_cons_self ..)
      simp only [hr.readAt (length_tombstone ..), get32_tombstone, get32_tombstone_size next hx,
        get64_tombstone_next x.2 hlt, ne_eq, not_true_eq_false, if_false] at h
      split_ifs at h with hfit
      · obtain rfl := Option.some.inj h
        exact ⟨[], fl, rfl, hfit, hlt, hc, .inl ⟨rfl, rfl, rfl⟩⟩
      · obtain ⟨pre, post, rfl, hn, hlt', hc', hprev⟩ :=
          ih hc (fun y hy => hfl y (List.mem_cons_of_mem _ hy)) h
        refine ⟨x :: pre, post, rfl, hn, hlt', hc', .inr ?_⟩
        rcases hprev with ⟨rfl, hfirst, hprev⟩ | ⟨init, m, rfl, hfirst⟩
        · exact ⟨[], x.2, by rw [hprev]; rfl, hfirst⟩
        · exact ⟨x :: init, m, rfl, hfirst⟩

theorem reads_tombstone_link (h : f.Reads q (tombstone m p)) :
    (f.put (q + 8) (beBytes 8 next)).Reads q (tombstone m next) := by
  refine ⟨h.1.trans File.size_le_put, ?_⟩
  have hold := at_append.mp ((List.append_assoc _ _ _).symm ▸ h.2 :
    At f.byte q ((beBytes 4 freeTombstone ++ beBytes 4 m) ++ beBytes 8 p))
  have hnew : At (f.put (q + 8) (beBytes 8 next)).byte q
      ((beBytes 4 freeTombstone ++ beBytes 4 m) ++ beBytes 8 next) :=
    at_append.mpr ⟨hold.1.overlay_of_disjoint (by simp), at_overlay⟩
  rwa [List.append_assoc] at hnew

theorem Chain.unlink {x : ℕ × ℕ} (h : Chain f head (pre ++ (q, m) :: x :: post))
    (hnext : Chain f next post) (hlt : next < 2 ^ 64) (hsize : f.size ≤ f'.size)
    (hpre : ∀ y ∈ pre, ∀ a, y.1 ≤ a → a < y.1 + 16 → f'.byte a = f.byte a)
    (hpost : ∀ y ∈ post, ∀ a, y.1 ≤ a → a < y.1 + 16 → f'.byte a = f.byte a)
    (hq : f'.Reads q (tombstone m next)) : Chain f' head (pre ++ (q, m) :: post) := by
  induction pre generalizing head with
  | nil => exact ⟨h.1, next, hlt, hq, hnext.congr hsize hpost⟩
  | cons y pre ih =>
    obtain ⟨rfl, k, hk, hr, hc⟩ := h
    refine ⟨rfl, k, hk, ?_, ih hc fun z hz => hpre z (List.mem_cons_of_mem _ hz)⟩
    exact hr.congr hsize (by simpa using hpre y (List.mem_cons_self ..))

end Lbd.QCow2
