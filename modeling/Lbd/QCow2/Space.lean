import Lbd.QCow2.Layout

/-!
# What the space of an image is used for

The parts of an image are its L2 tables, the extents of its stored clusters and
the extents on the free list. The size of a stored cluster's extent is not kept
anywhere: it follows from the entry and from what stands in the file. Parts do
not overlap. Bytes in no part are lost, unless they are about to be used.
-/

namespace Lbd.QCow2

/-- The bytes that a non-zero entry occupies. -/
def entrySize (clusterSize : ℕ) (f : File) (l2Entry : ℕ) : ℕ :=
  if isCompressed l2Entry then alignUp compAlign (4 + get32 (f.slice (physOffset l2Entry) 4) 0)
  else clusterSize

/-- The space that a cluster with data other than zeros takes. -/
def storedSize (z : Codec) (clusterSize : ℕ) (data : List UInt8) : ℕ :=
  match compressed z clusterSize data with
  | some comp => alignUp compAlign (4 + comp.length)
  | none => clusterSize

/-- The data takes no less space than the extent of the entry that it replaces, or none at
all. -/
def Fills (z : Codec) (clusterSize : ℕ) (f : File) (l2Entry : ℕ) (data : List UInt8) : Prop :=
  l2Entry ≠ 0 → data.all (· == 0) = false →
    entrySize clusterSize f l2Entry ≤ storedSize z clusterSize data

/-- `[p, p + n)` is what `r` stands for. -/
def Part (g : Geometry) (f : File) (v : View) : Region → ℕ → ℕ → Prop
  | .table i, p, n => i < v.l1Size ∧ v.l1 i ≠ 0 ∧ p = v.l1 i ∧ n = g.clusterSize
  | .data c, p, n => v.val c ≠ none ∧ p = physOffset (v.entry g c) ∧
      n = entrySize g.clusterSize f (v.entry g c)
  | .free q, p, n => p = q ∧ (q, n) ∈ v.free

def Used (g : Geometry) (f : File) (v : View) (a : ℕ) : Prop :=
  ∃ r p n, Part g f v r p n ∧ p ≤ a ∧ a < p + n

/-- Every allocated byte outside of `X` is in some part. -/
def Accounted (g : Geometry) (f : File) (v : View) (X : Set ℕ) : Prop :=
  ∀ a, v.metaEnd ≤ a → a < v.alloc → a ∈ X ∨ Used g f v a

variable {z : Codec} {g : Geometry} {f f' : File} {v v' : View} {r r' : Region}
  {c e p n q m off : ℕ} {d bs : List UInt8} {X Y : Set ℕ}

theorem entrySize_congr {cs : ℕ}
    (h : ∀ a, physOffset e ≤ a → a < physOffset e + 4 → f'.byte a = f.byte a) :
    entrySize cs f' e = entrySize cs f e := by
  unfold entrySize
  rw [show f'.slice (physOffset e) 4 = f.slice (physOffset e) 4 from
    window_congr fun a ha ha' => h a ha ha']

theorem entrySize_lz {cs : ℕ} {comp : List UInt8} (hp : p < 2 ^ 62) (hlt : comp.length < 2 ^ 32)
    (hat : At f.byte p (beBytes 4 comp.length ++ comp)) :
    entrySize cs f (l2Compressed ||| p) = alignUp compAlign (4 + comp.length) := by
  have hsize : f.slice p 4 = beBytes 4 comp.length := by
    have := (at_append.mp hat).1
    rwa [At, length_beBytes] at this
  unfold entrySize
  rw [if_pos (isCompressed_lz p), physOffset_lz hp, hsize, get32, getBE_beBytes,
    Nat.mod_eq_of_lt (by norm_num; omega)]

theorem StoredAt.entrySize_eq (h : StoredAt z g f e p n d) : entrySize g.clusterSize f e = n := by
  have hcs := g.clusterSize_le
  cases h with
  | raw hp => exact if_neg (not_isCompressed_raw hp)
  | lz hp _ hc hr => exact entrySize_lz hp (by omega) hr.2

theorem Part.start_eq (h : Part g f v r p n) (h' : Part g f v r q m) : p = q := by
  cases r with
  | table => exact h.2.2.1.trans h'.2.2.1.symm
  | data => exact h.2.1.trans h'.2.1.symm
  | free => exact h.1.trans h'.1.symm

namespace Layout

theorem extent_of_part (h : Layout z g f v) (hp : Part g f v r p n) :
    v.Extent r p n ∧ 4096 ∣ n ∧ 0 < n := by
  cases r with
  | table i =>
    obtain ⟨hi, h0, rfl, rfl⟩ := hp
    have := g.le_clusterSize
    exact ⟨h.table i hi h0, g.dvd_clusterSize, by omega⟩
  | data c =>
    obtain ⟨hv, rfl, rfl⟩ := hp
    obtain ⟨d, hd⟩ := Option.ne_none_iff_exists'.mp hv
    obtain ⟨p, n, hst, hx⟩ := h.stored c d hd
    rw [hst.physOffset_eq, hst.entrySize_eq]
    exact ⟨hx, hst.size.1, hst.size.2.1⟩
  | free q =>
    obtain ⟨rfl, hx⟩ := hp
    obtain ⟨hx, hdvd, hpos, -⟩ := h.free _ hx
    exact ⟨hx, hdvd, hpos⟩

theorem disjoint_of_extent {lo hi lo' hi' : ℕ} {own : ℕ → Option Region}
    (h : ExtentIn lo hi own r p n) (h' : ExtentIn lo' hi' own r' q m) (hne : r ≠ r')
    (hn : 0 < n) (hm : 0 < m) : p + n ≤ q ∨ q + m ≤ p := by
  by_contra hmeet
  have h1 := h.owns (max p q) (by omega) (by omega)
  have h2 := h'.owns (max p q) (by omega) (by omega)
  exact hne (Option.some.inj (h1.symm.trans h2))

theorem disjoint_of_part (h : Layout z g f v) (hp : Part g f v r p n) (hq : Part g f v r' q m)
    (hne : r ≠ r') : p + n ≤ q ∨ q + m ≤ p := by
  obtain ⟨hx, -, hn⟩ := h.extent_of_part hp
  obtain ⟨hx', -, hm⟩ := h.extent_of_part hq
  exact disjoint_of_extent hx hx' hne hn hm

theorem part_aligned (h : Layout z g f v) (hmeta : 4096 ∣ v.metaEnd)
    (hall : Accounted g f v ∅) (hp : Part g f v r p n) : 4096 ∣ p := by
  induction p using Nat.strong_induction_on generalizing r n with
  | _ p ih =>
    obtain ⟨hx, -, hn⟩ := h.extent_of_part hp
    have habove := hx.above
    have hbelow := hx.below
    by_cases hstart : p = v.metaEnd
    · exact hstart ▸ hmeta
    · -- the part that ends where this one begins
      obtain ⟨r', q, m, hq, hlo, hhi⟩ := (hall (p - 1) (by omega) (by omega)).resolve_left id
      have hne : r' ≠ r := by
        rintro rfl
        have := hq.start_eq hp
        omega
      have hend : q + m = p := by
        have := h.disjoint_of_part hq hp hne
        omega
      have hm := (h.extent_of_part hq).2.1
      exact hend ▸ (ih q (by omega) hq).add hm

theorem part_congr (h : Layout z g f v)
    (hb : ∀ a c, v.own a = some (.data c) → v.val c ≠ none → a < v.alloc → f'.byte a = f.byte a)
    (hp : Part g f v r p n) : Part g f' v r p n := by
  cases r with
  | table => exact hp
  | data c =>
    obtain ⟨hx, hdvd, hpos⟩ := h.extent_of_part hp
    obtain ⟨hv, rfl, hn⟩ := hp
    refine ⟨hv, rfl, hn.trans (entrySize_congr fun a ha ha' => ?_).symm⟩
    have hge := Nat.le_of_dvd hpos hdvd
    have hbelow := hx.below
    exact hb a c (hx.owns a ha (by omega)) hv (by omega)
  | free => exact hp

theorem part_put (h : Layout z g f v) (hx : v.Extent r' q m)
    (hr : ∀ c, r' = .data c → v.val c = none) (hoff : q ≤ off) (hend : off + bs.length ≤ q + m)
    (hp : Part g f v r p n) : Part g (f.put off bs) v r p n := by
  refine h.part_congr (fun a c hown hv _ => overlay_of_not ?_) hp
  by_contra hin
  have hown' := hx.owns a (by omega) (by omega)
  exact hv (hr c (Option.some.inj (hown'.symm.trans hown)))

theorem part_put_above (h : Layout z g f v) (hoff : v.alloc ≤ off) (hp : Part g f v r p n) :
    Part g (f.put off bs) v r p n :=
  h.part_congr (fun a _ _ _ ha => overlay_of_not (by omega)) hp

end Layout

namespace Accounted

theorem of_part (h : Accounted g f v X) (hmeta : v'.metaEnd = v.metaEnd)
    (halloc : v'.alloc = v.alloc)
    (hpart : ∀ r p n, Part g f v r p n → (∀ a, p ≤ a → a < p + n → a ∈ Y) ∨ Part g f' v' r p n)
    (hX : ∀ a ∈ X, a ∈ Y ∨ Used g f' v' a) : Accounted g f' v' Y := by
  intro a ha ha'
  rcases h a (hmeta ▸ ha) (halloc ▸ ha') with hx | ⟨r, p, n, hp, hlo, hhi⟩
  · exact hX a hx
  · rcases hpart r p n hp with hY | hp'
    · exact .inl (hY a hlo hhi)
    · exact .inr ⟨r, p, n, hp', hlo, hhi⟩

theorem univ : Accounted g f v Set.univ := fun _ _ _ => .inl trivial

theorem congr (h : Accounted g f v X) (hp : ∀ r p n, Part g f v r p n → Part g f' v r p n) :
    Accounted g f' v X :=
  h.of_part rfl rfl (fun r p n hr => .inr (hp r p n hr)) fun _ ha => .inl ha

theorem forget (h : Accounted g f v X) (hp : Part g f v (.data c) p n) :
    Accounted g f (v.forget c) (X ∪ Set.Ico p (p + n)) := by
  refine h.of_part rfl rfl (fun r q m hq => ?_) fun _ ha => .inl (.inl ha)
  cases r with
  | data k =>
    by_cases hk : k = c
    · subst hk
      obtain ⟨-, rfl, rfl⟩ := hp
      obtain ⟨-, rfl, rfl⟩ := hq
      exact .inl fun a ha ha' => .inr ⟨ha, ha'⟩
    · exact .inr ⟨(Function.update_of_ne hk ..).trans_ne hq.1, hq.2⟩
  | table => exact .inr hq
  | free => exact .inr hq

theorem forget_none (h : Accounted g f v X) (hc : v.val c = none) :
    Accounted g f (v.forget c) X := by
  have hsame : v.forget c = v := by
    unfold View.forget
    rw [← hc, Function.update_eq_self]
  rwa [hsame]

theorem push (h : Accounted g f v X) (hX : ∀ a ∈ X, a ∈ Y ∨ p ≤ a ∧ a < p + n) :
    Accounted g f (v.push p n) Y := by
  refine h.of_part rfl rfl (fun r q m hq => .inr ?_) fun a ha => ?_
  · cases r with
    | table => exact hq
    | data => exact hq
    | free => exact ⟨hq.1, List.mem_cons_of_mem _ hq.2⟩
  · rcases hX a ha with hY | hin
    · exact .inl hY
    · exact .inr ⟨.free p, p, n, ⟨rfl, List.mem_cons_self ..⟩, hin⟩

theorem pop {pre post : List (ℕ × ℕ)} {head : ℕ} (h : Accounted g f v X)
    (hfl : v.free = pre ++ (p, n) :: post) :
    Accounted g f { v with free := pre ++ post, head := head } (X ∪ Set.Ico p (p + n)) := by
  refine h.of_part rfl rfl (fun r q m hq => ?_) fun _ ha => .inl (.inl ha)
  cases r with
  | table => exact .inr hq
  | data => exact .inr hq
  | free k =>
    obtain ⟨rfl, hq⟩ := hq
    rw [hfl, List.mem_append, List.mem_cons] at hq
    rcases hq with hq | hq | hq
    · exact .inr ⟨rfl, List.mem_append_left _ hq⟩
    · obtain ⟨rfl, rfl⟩ := Prod.mk.inj hq
      exact .inl fun a ha ha' => .inr ⟨ha, ha'⟩
    · exact .inr ⟨rfl, List.mem_append_right _ hq⟩

theorem grow (h : Accounted g f v X) :
    Accounted g f { v with alloc := v.alloc + n } (X ∪ Set.Ico v.alloc (v.alloc + n)) := by
  intro a ha ha'
  by_cases hlt : a < v.alloc
  · exact (h a ha hlt).imp_left .inl
  · exact .inl (.inr ⟨Nat.not_lt.mp hlt, ha'⟩)

theorem own_congr {own : ℕ → Option Region} (h : Accounted g f v X) :
    Accounted g f { v with own := own } X :=
  h.of_part rfl rfl (fun r _ _ hp => .inr (by cases r <;> exact hp)) fun _ ha => .inl ha

theorem addTable {i : ℕ} {synced : ℕ → Prop} (h : Accounted g f v X) (hi : i < v.l1Size)
    (h0 : v.l1 i = 0) (halloc : v.alloc ≠ 0) :
    Accounted g f
      { v with
        l1 := Function.update v.l1 i v.alloc
        alloc := v.alloc + g.clusterSize
        synced := synced } X := by
  intro a ha ha'
  by_cases hlt : a < v.alloc
  · refine (h a ha hlt).imp_right fun ⟨r, p, n, hp, hin⟩ => ⟨r, p, n, ?_, hin⟩
    cases r with
    | table k =>
      obtain ⟨hk, hk0, rfl, rfl⟩ := hp
      have hki : k ≠ i := fun hki => hk0 (hki ▸ h0)
      have hsame := Function.update_of_ne hki v.alloc v.l1
      exact ⟨hk, hsame.trans_ne hk0, hsame.symm, rfl⟩
    | data => exact hp
    | free => exact hp
  · have hself := Function.update_self i v.alloc v.l1
    exact .inr ⟨.table i, v.alloc, g.clusterSize, ⟨hi, hself.trans_ne halloc, hself.symm, rfl⟩,
      Nat.not_lt.mp hlt, ha'⟩

theorem part_setEntry {o : Option (List UInt8)} (hc : v.val c = none) (hp : Part g f v r p n) :
    Part g f (v.setEntry g c e o) r p n := by
  cases r with
  | table => exact hp
  | data k =>
    have hk : k ≠ c := fun hk => hp.1 (hk ▸ hc)
    refine ⟨(Function.update_of_ne hk ..).trans_ne hp.1, ?_⟩
    rw [View.entry_setEntry, if_neg hk]
    exact hp.2
  | free => exact hp

theorem setEntry_none (h : Accounted g f v X) (hc : v.val c = none) :
    Accounted g f (v.setEntry g c e none) X :=
  h.of_part rfl rfl (fun _ _ _ hp => .inr (part_setEntry hc hp)) fun _ ha => .inl ha

theorem setEntry_some (h : Accounted g f v (X ∪ Set.Ico p (p + n))) (hc : v.val c = none)
    (hst : StoredAt z g f e p n d) : Accounted g f (v.setEntry g c e (some d)) X := by
  refine h.of_part rfl rfl (fun _ _ _ hp => .inr (part_setEntry hc hp)) fun a ha => ?_
  rcases ha with ha | ha
  · exact .inl ha
  · refine .inr ⟨.data c, p, n, ⟨?_, ?_⟩, ha.1, ha.2⟩
    · rw [show (v.setEntry g c e (some d)).val c = some d from Function.update_self ..]
      exact Option.some_ne_none d
    · rw [View.entry_setEntry, if_pos rfl]
      exact ⟨hst.physOffset_eq.symm, hst.entrySize_eq.symm⟩

end Accounted

end Lbd.QCow2
