import Lbd.QCow2.FreeList

/-!
# What the file of an image holds

Both programs keep the L1 table, the allocation offset and the head of the free
list in memory and everything else in the file. A `View` names what stands
where: an owner for each byte above the metadata, the entries of the L2 tables,
and the data of each stored cluster. `Layout` says that the file holds it. Each
step of an allocator changes the view in one of the ways below.
-/

namespace Lbd.QCow2

inductive Region
  | table (i : ℕ)
  | data (c : ℕ)
  | free (p : ℕ)

/-- All bytes of `[p, p + n)` belong to `r`. -/
def Owns (own : ℕ → Option Region) (r : Region) (p n : ℕ) : Prop :=
  ∀ a, p ≤ a → a < p + n → own a = some r

def reown (own : ℕ → Option Region) (p n : ℕ) (r : Region) : ℕ → Option Region := fun a =>
  if p ≤ a ∧ a < p + n then some r else own a

theorem owns_reown (own : ℕ → Option Region) (p n : ℕ) (r : Region) :
    Owns (reown own p n r) r p n := fun _ h h' => if_pos ⟨h, h'⟩

theorem Owns.sub {own : ℕ → Option Region} {r : Region} {p n q m : ℕ} (h : Owns own r p n)
    (hp : p ≤ q) (hq : q + m ≤ p + n) : Owns own r q m :=
  fun a ha ha' => h a (by omega) (by omega)

theorem Owns.reown {own : ℕ → Option Region} {r r' : Region} {p n q m : ℕ} (h : Owns own r q m)
    (hne : ∀ a, p ≤ a → a < p + n → q ≤ a → a < q + m → own a ≠ some r) :
    Owns (reown own p n r') r q m := by
  intro a ha ha'
  have hn : ¬ (p ≤ a ∧ a < p + n) := fun hp => hne a hp.1 hp.2 ha ha' (h a ha ha')
  exact (if_neg hn).trans (h a ha ha')

/-- `[p, p + n)` lies between `lo` and `hi` and belongs to `r`. -/
structure ExtentIn (lo hi : ℕ) (own : ℕ → Option Region) (r : Region) (p n : ℕ) : Prop where
  above : lo ≤ p
  below : p + n ≤ hi
  owns : Owns own r p n

structure View where
  l1 : ℕ → ℕ
  l1Size : ℕ
  alloc : ℕ
  head : ℕ
  /-- The end of the header and the L1 table. -/
  metaEnd : ℕ
  metaByte : ℕ → UInt8
  /-- The entries of each L2 table. -/
  tab : ℕ → ℕ → ℕ
  /-- The tables whose copy in the file is current. -/
  synced : ℕ → Prop
  own : ℕ → Option Region
  free : List (ℕ × ℕ)
  /-- The data of the stored clusters. -/
  val : ℕ → Option (List UInt8)

namespace View

variable (v : View)

def entry (g : Geometry) (c : ℕ) : ℕ := v.tab (c / g.l2Entries) (c % g.l2Entries)

/-- `[p, p + n)` lies in the allocated part of the file and belongs to `r`. -/
abbrev Extent (r : Region) (p n : ℕ) : Prop := ExtentIn v.metaEnd v.alloc v.own r p n

/-- A region that nothing of the image uses any more. -/
def Dead : Region → Prop
  | .table _ => False
  | .data c => v.val c = none
  | .free p => ∀ x ∈ v.free, x.1 ≠ p

/-- A region whose bytes in the file do not matter. -/
def Loose : Region → Prop
  | .table i => ¬ v.synced i
  | r => v.Dead r

def forget (c : ℕ) : View := { v with val := Function.update v.val c none }

/-- `[p, p + n)` becomes the first extent of the free list. -/
def push (p n : ℕ) : View :=
  { v with own := reown v.own p n (.free p), free := (p, n) :: v.free, head := p }

/-- Cluster `c` gets the entry `e` and the data `o`; its table is no longer current in the
file. -/
def setEntry (g : Geometry) (c e : ℕ) (o : Option (List UInt8)) : View :=
  { v with
    tab := fun i j => if i = c / g.l2Entries ∧ j = c % g.l2Entries then e else v.tab i j
    synced := fun i => i ≠ c / g.l2Entries ∧ v.synced i
    val := Function.update v.val c o }

/-- The L1 table and the allocation state in memory are those of the file. -/
structure Persisted (l1Offset : ℕ) : Prop where
  l1 : At v.metaByte l1Offset (tableBytes v.l1Size v.l1)
  alloc : At v.metaByte 36 (beBytes 8 v.alloc)
  head : At v.metaByte 48 (beBytes 8 v.head)

/-- Clusters without data have no entry. -/
def Settled (g : Geometry) : Prop := ∀ c, v.val c = none → v.entry g c = 0

variable {v}

theorem entry_setEntry (g : Geometry) (c e k : ℕ) (o : Option (List UInt8)) :
    (v.setEntry g c e o).entry g k = if k = c then e else v.entry g k := by
  show (if k / g.l2Entries = c / g.l2Entries ∧ k % g.l2Entries = c % g.l2Entries then e
    else v.entry g k) = _
  congr 1
  refine propext ⟨fun h => ?_, fun h => by simp [h]⟩
  rw [← Nat.div_add_mod k g.l2Entries, h.1, h.2, Nat.div_add_mod]

/-- The data of a cluster; without any it reads as zeros. -/
def content (v : View) (g : Geometry) (c : ℕ) : List UInt8 :=
  (v.val c).getD (List.replicate g.clusterSize 0)

theorem settled_setEntry {g : Geometry} {c e : ℕ} {o : Option (List UInt8)}
    (h : ∀ k, k ≠ c → v.val k = none → v.entry g k = 0) (ho : o = none → e = 0) :
    (v.setEntry g c e o).Settled g := by
  intro k (hk : Function.update v.val c o k = none)
  rw [entry_setEntry]
  by_cases hkc : k = c
  · subst hkc
    rw [Function.update_self] at hk
    rw [if_pos rfl, ho hk]
  · rw [Function.update_of_ne hkc] at hk
    rw [if_neg hkc, h k hkc hk]

/-- The two views differ at most in the allocation state. -/
structure Same (v v' : View) : Prop where
  l1 : v'.l1 = v.l1
  l1Size : v'.l1Size = v.l1Size
  metaEnd : v'.metaEnd = v.metaEnd
  metaByte : v'.metaByte = v.metaByte
  tab : v'.tab = v.tab
  synced : v'.synced = v.synced
  val : v'.val = v.val

theorem Same.refl (v : View) : v.Same v := ⟨rfl, rfl, rfl, rfl, rfl, rfl, rfl⟩

theorem same_alloc (v : View) (own : ℕ → Option Region) (free : List (ℕ × ℕ)) (alloc head : ℕ) :
    v.Same { v with own := own, free := free, alloc := alloc, head := head } :=
  ⟨rfl, rfl, rfl, rfl, rfl, rfl, rfl⟩

theorem Same.trans {v₁ v₂ v₃ : View} (h : v₁.Same v₂) (h' : v₂.Same v₃) : v₁.Same v₃ where
  l1 := h'.l1.trans h.l1
  l1Size := h'.l1Size.trans h.l1Size
  metaEnd := h'.metaEnd.trans h.metaEnd
  metaByte := h'.metaByte.trans h.metaByte
  tab := h'.tab.trans h.tab
  synced := h'.synced.trans h.synced
  val := h'.val.trans h.val

/-- Tables stay where they are. -/
structure Grows (v v' : View) : Prop where
  l1Size : v'.l1Size = v.l1Size
  metaEnd : v'.metaEnd = v.metaEnd
  l1 : ∀ i < v.l1Size, v.l1 i ≠ 0 → v'.l1 i = v.l1 i

theorem Grows.refl (v : View) : v.Grows v := ⟨rfl, rfl, fun _ _ _ => rfl⟩

theorem Grows.trans {v₁ v₂ v₃ : View} (h : v₁.Grows v₂) (h' : v₂.Grows v₃) : v₁.Grows v₃ where
  l1Size := h'.l1Size.trans h.l1Size
  metaEnd := h'.metaEnd.trans h.metaEnd
  l1 i hi h0 := by
    have hv := h.l1 i hi h0
    rw [h'.l1 i (h.l1Size ▸ hi) (hv ▸ h0), hv]

theorem Same.grows {v v' : View} (h : v.Same v') : v.Grows v' :=
  ⟨h.l1Size, h.metaEnd, fun i _ _ => congrFun h.l1 i⟩

theorem Dead.loose {r : Region} (h : v.Dead r) : v.Loose r := by
  cases r with
  | table => exact h.elim
  | data => exact h
  | free => exact h

end View

variable {z : Codec} {g : Geometry} {f f' : File} {v : View}

/-- The L2 entry `e` stores the cluster data `d` in `[p, p + n)`. -/
inductive StoredAt (z : Codec) (g : Geometry) (f : File) : (e p n : ℕ) → List UInt8 → Prop
  | raw {p : ℕ} {d : List UInt8} (hp : p < 2 ^ 62) (hd : d.length = g.clusterSize)
      (hr : f.Reads p d) : StoredAt z g f p p g.clusterSize d
  | lz {p : ℕ} {d comp : List UInt8} (hp : p < 2 ^ 62) (hd : d.length = g.clusterSize)
      (hc : comp.length + 4 < g.clusterSize) (hr : f.Reads p (beBytes 4 comp.length ++ comp))
      (hz : z.decompress comp g.clusterSize = some d) :
      StoredAt z g f (l2Compressed ||| p) p (alignUp compAlign (4 + comp.length)) d

theorem StoredAt.congr {e p n : ℕ} {d : List UInt8} (h : StoredAt z g f e p n d)
    (hsize : f.size ≤ f'.size) (hbyte : ∀ a, p ≤ a → a < p + n → f'.byte a = f.byte a) :
    StoredAt z g f' e p n d := by
  cases h with
  | raw hp hd hr => exact .raw hp hd (hr.congr hsize fun a ha ha' => hbyte a ha (by omega))
  | @lz _ _ comp hp hd hc hr hz =>
    refine .lz hp hd hc (hr.congr hsize fun a ha ha' => hbyte a ha ?_) hz
    have := le_alignUp (4 + comp.length)
    simp only [List.length_append, length_beBytes] at ha'
    omega

section StoredAt

variable {e p n : ℕ} {d : List UInt8}

theorem StoredAt.physOffset_eq (h : StoredAt z g f e p n d) : physOffset e = p := by
  cases h with
  | raw hp => exact physOffset_raw hp
  | lz hp => exact physOffset_lz hp

theorem StoredAt.lt (h : StoredAt z g f e p n d) : e < 2 ^ 64 := by
  cases h with
  | raw hp => omega
  | lz hp =>
    rw [lzEntry_eq hp]
    omega

theorem StoredAt.ne_zero (h : StoredAt z g f e p n d) (hp : 0 < p) : e ≠ 0 := by
  cases h with
  | raw => omega
  | lz hp =>
    rw [lzEntry_eq hp]
    omega

theorem StoredAt.length_eq (h : StoredAt z g f e p n d) : d.length = g.clusterSize := by
  cases h <;> assumption

theorem alignUp_le (g : Geometry) {m : ℕ} (h : m ≤ g.clusterSize) :
    alignUp compAlign m ≤ g.clusterSize := by
  obtain ⟨k, hk⟩ := g.dvd_clusterSize
  unfold alignUp compAlign
  omega

theorem StoredAt.size (h : StoredAt z g f e p n d) : 4096 ∣ n ∧ 0 < n ∧ n ≤ g.clusterSize := by
  cases h with
  | raw => exact ⟨g.dvd_clusterSize, by have := g.le_clusterSize; omega, le_rfl⟩
  | @lz _ _ comp _ _ hc =>
    have := le_alignUp (4 + comp.length)
    exact ⟨dvd_alignUp _, by omega, alignUp_le g (by omega)⟩

end StoredAt

structure Layout (z : Codec) (g : Geometry) (f : File) (v : View) : Prop where
  header_le : headerSize ≤ v.metaEnd
  meta_le_alloc : v.metaEnd ≤ v.alloc
  meta_le_size : v.metaEnd ≤ f.size
  alloc_le : v.alloc ≤ 2 ^ 62 + 2 ^ 24
  metaByte : ∀ a < v.metaEnd, f.byte a = v.metaByte a
  tab_lt : ∀ i j, v.tab i j < 2 ^ 64
  tab_none : ∀ i, v.l1Size ≤ i ∨ v.l1 i = 0 → ∀ j, v.tab i j = 0
  table : ∀ i < v.l1Size, v.l1 i ≠ 0 → v.Extent (.table i) (v.l1 i) g.clusterSize
  synced : ∀ i < v.l1Size, v.l1 i ≠ 0 → v.synced i →
    f.Reads (v.l1 i) (l2Bytes g.l2Entries (v.tab i))
  stored : ∀ c d, v.val c = some d →
    ∃ p n, StoredAt z g f (v.entry g c) p n d ∧ v.Extent (.data c) p n
  chain : Chain f v.head v.free
  free_nodup : (v.free.map Prod.fst).Nodup
  free : ∀ x ∈ v.free, v.Extent (.free x.1) x.1 x.2 ∧ 4096 ∣ x.2 ∧ 0 < x.2 ∧ x.2 < 2 ^ 32

namespace Layout

variable {r : Region} {p n c i : ℕ} {d bs : List UInt8}

theorem pos_of_above (h : Layout z g f v) (hp : v.metaEnd ≤ p) : 0 < p := by
  have := h.header_le
  unfold headerSize at this
  omega

theorem entry_ne_zero (h : Layout z g f v) (hc : v.val c = some d) : v.entry g c ≠ 0 := by
  obtain ⟨p, n, hst, hx⟩ := h.stored c d hc
  exact hst.ne_zero (h.pos_of_above hx.above)

theorem length_content (h : Layout z g f v) (c : ℕ) : (v.content g c).length = g.clusterSize := by
  unfold View.content
  cases hc : v.val c with
  | none => simp
  | some d =>
    obtain ⟨p, n, hst, -⟩ := h.stored c d hc
    exact hst.length_eq

theorem free_ge {x : ℕ × ℕ} (h : Layout z g f v) (hx : x ∈ v.free) : 4096 ≤ x.2 :=
  Nat.le_of_dvd (h.free x hx).2.2.1 (h.free x hx).2.1

theorem frame (h : Layout z g f v) (hsize : f.size ≤ f'.size)
    (hmeta : ∀ a < v.metaEnd, f'.byte a = f.byte a)
    (hbyte : ∀ a r, v.own a = some r → ¬ v.Loose r → a < v.alloc → f'.byte a = f.byte a) :
    Layout z g f' v where
  header_le := h.header_le
  meta_le_alloc := h.meta_le_alloc
  meta_le_size := h.meta_le_size.trans hsize
  alloc_le := h.alloc_le
  metaByte a ha := (hmeta a ha).trans (h.metaByte a ha)
  tab_lt := h.tab_lt
  tab_none := h.tab_none
  table := h.table
  synced i hi h0 hs := by
    have hx := h.table i hi h0
    apply (h.synced i hi h0 hs).congr hsize
    rw [length_l2Bytes]
    intro a ha ha'
    have hb := hx.below
    exact hbyte a _ (hx.owns a ha ha') (not_not.mpr hs) (by omega)
  stored c d hc := by
    obtain ⟨p, n, hs, hx⟩ := h.stored c d hc
    refine ⟨p, n, hs.congr hsize fun a ha ha' => ?_, hx⟩
    have hb := hx.below
    refine hbyte a _ (hx.owns a ha ha') (fun hd => ?_) (by omega)
    rw [show v.val c = none from hd] at hc
    cases hc
  chain := by
    apply h.chain.congr hsize
    intro x hx a ha ha'
    have hge := h.free_ge hx
    obtain ⟨he, -⟩ := h.free x hx
    have hb := he.below
    exact hbyte a _ (he.owns a ha (by omega)) (fun hd => hd x hx rfl) (by omega)
  free_nodup := h.free_nodup
  free := h.free

theorem put_extent (h : Layout z g f v) (bs : List UInt8) (hx : v.Extent r p n) (hr : v.Loose r)
    {off : ℕ} (hoff : p ≤ off) (hend : off + bs.length ≤ p + n) : Layout z g (f.put off bs) v := by
  have ha := hx.above
  apply h.frame File.size_le_put
  · intro a ham
    exact overlay_of_not (by omega)
  · intro a r' hown hr' _
    apply overlay_of_not
    by_contra hin
    have : v.own a = some r := hx.owns a (by omega) (by omega)
    obtain rfl : r = r' := Option.some.inj (this.symm.trans hown)
    exact hr' hr

theorem put_above (h : Layout z g f v) (bs : List UInt8) {off : ℕ} (hoff : v.alloc ≤ off) :
    Layout z g (f.put off bs) v := by
  have ha := h.meta_le_alloc
  apply h.frame File.size_le_put
  · intro a ham
    exact overlay_of_not (by omega)
  · intro a r' _ _ hlt
    exact overlay_of_not (by omega)

theorem own_congr (h : Layout z g f v) {own : ℕ → Option Region}
    (ho : ∀ a r, v.own a = some r → ¬ v.Dead r → a < v.alloc → own a = some r) :
    Layout z g f { v with own := own } := by
  have hx : ∀ r p n, v.Extent r p n → ¬ v.Dead r →
      View.Extent { v with own := own } r p n := by
    intro r p n hx hr
    refine ⟨hx.above, hx.below, fun a ha ha' => ho a r (hx.owns a ha ha') hr ?_⟩
    have := hx.below
    omega
  refine { h with table := ?_, stored := ?_, free := ?_ }
  · intro i hi h0
    exact hx _ _ _ (h.table i hi h0) id
  · intro c d hc
    obtain ⟨p, n, hs, he⟩ := h.stored c d hc
    refine ⟨p, n, hs, hx _ _ _ he fun hd => ?_⟩
    rw [show v.val c = none from hd] at hc
    cases hc
  · intro x hx'
    obtain ⟨he, hrest⟩ := h.free x hx'
    exact ⟨hx _ _ _ he fun hd => hd x hx' rfl, hrest⟩

theorem claim (h : Layout z g f v) (hx : v.Extent r p n) (hr : v.Dead r) (r' : Region) :
    Layout z g f { v with own := reown v.own p n r' } ∧
      View.Extent { v with own := reown v.own p n r' } r' p n := by
  refine ⟨h.own_congr fun a r₀ ha hr₀ _ => ?_, hx.above, hx.below, owns_reown _ _ _ _⟩
  have hn : ¬ (p ≤ a ∧ a < p + n) := by
    intro hin
    obtain rfl : r = r₀ := Option.some.inj ((hx.owns a hin.1 hin.2).symm.trans ha)
    exact hr₀ hr
  exact (if_neg hn).trans ha

theorem grow (h : Layout z g f v) (hn : v.alloc + n ≤ 2 ^ 62 + 2 ^ 24) (r' : Region) :
    Layout z g f { v with own := reown v.own v.alloc n r', alloc := v.alloc + n } ∧
      View.Extent { v with own := reown v.own v.alloc n r', alloc := v.alloc + n } r'
        v.alloc n := by
  have hown : Layout z g f { v with own := reown v.own v.alloc n r' } := by
    apply h.own_congr
    intro a r₀ ha _ hlt
    exact (if_neg (by omega)).trans ha
  have hx : ∀ r₀ q m, View.Extent { v with own := reown v.own v.alloc n r' } r₀ q m →
      View.Extent { v with own := reown v.own v.alloc n r', alloc := v.alloc + n } r₀ q m :=
    fun _ _ _ he => ⟨he.above, he.below.trans (Nat.le_add_right _ _), he.owns⟩
  refine ⟨?_, h.meta_le_alloc, le_rfl, owns_reown _ _ _ _⟩
  refine { hown with meta_le_alloc := ?_, alloc_le := hn, table := ?_, stored := ?_, free := ?_ }
  · exact h.meta_le_alloc.trans (Nat.le_add_right _ _)
  · intro i hi h0
    exact hx _ _ _ (hown.table i hi h0)
  · intro c d hc
    obtain ⟨p, n, hs, he⟩ := hown.stored c d hc
    exact ⟨p, n, hs, hx _ _ _ he⟩
  · intro x hx'
    obtain ⟨he, hrest⟩ := hown.free x hx'
    exact ⟨hx _ _ _ he, hrest⟩

theorem forget (h : Layout z g f v) (c : ℕ) :
    Layout z g f (v.forget c) := by
  refine { h with stored := ?_ }
  intro k d (hk : Function.update v.val c none k = some d)
  by_cases hkc : k = c
  · subst hkc
    simp at hk
  · rw [Function.update_of_ne hkc] at hk
    exact h.stored k d hk

theorem head_lt (h : Layout z g f v) : v.head < 2 ^ 64 := by
  have hc := h.chain
  cases hfl : v.free with
  | nil =>
    rw [hfl] at hc
    rw [show v.head = 0 from hc]
    norm_num
  | cons x fl =>
    rw [hfl] at hc
    have hx := (h.free x (by simp [hfl])).1.below
    have ha := h.alloc_le
    rw [show v.head = x.1 from hc.1]
    omega

theorem push (h : Layout z g f v) (hx : v.Extent r p n) (hr : v.Dead r) (hdvd : 4096 ∣ n)
    (hpos : 0 < n) (hlt : n < 2 ^ 32) :
    Layout z g (f.put p (tombstone n v.head)) (v.push p n) := by
  have hge : 4096 ≤ n := Nat.le_of_dvd hpos hdvd
  have hput : Layout z g (f.put p (tombstone n v.head)) v :=
    h.put_extent _ hx hr.loose le_rfl (by rw [length_tombstone]; omega)
  obtain ⟨hown, hx'⟩ := hput.claim hx hr (.free p)
  have hfresh : ∀ x ∈ v.free, x.1 ≠ p := by
    intro x hxm hxp
    have howns := (h.free x hxm).1.owns x.1 le_rfl (by have := h.free_ge hxm; omega)
    rw [hxp, hx.owns p le_rfl (by omega)] at howns
    rw [Option.some.inj howns] at hr
    exact hr x hxm hxp
  refine { hown with chain := ?_, free_nodup := ?_, free := ?_ }
  · refine ⟨rfl, v.head, h.head_lt, File.reads_put ?_, hown.chain⟩
    rw [← List.length_pos_iff, length_tombstone]
    norm_num
  · refine List.nodup_cons.mpr ⟨fun hm => ?_, h.free_nodup⟩
    obtain ⟨x, hxm, hxp⟩ := List.mem_map.mp hm
    exact hfresh x hxm hxp
  · intro x hxm
    rcases List.mem_cons.mp hxm with rfl | hxm
    · exact ⟨hx', hdvd, hpos, hlt⟩
    · exact hown.free x hxm

theorem popFirst {post : List (ℕ × ℕ)} {next : ℕ} (h : Layout z g f v)
    (hfl : v.free = (p, n) :: post) (hc : Chain f next post) :
    Layout z g f { v with free := post, head := next } := by
  have hnodup := h.free_nodup
  rw [hfl] at hnodup
  refine { h with chain := hc, free_nodup := (List.nodup_cons.mp hnodup).2, free := ?_ }
  intro x hx
  exact h.free x (hfl ▸ List.mem_cons_of_mem _ hx)

theorem dropFree (h : Layout z g f v) : Layout z g f { v with free := [], head := 0 } :=
  { h with chain := rfl, free_nodup := List.nodup_nil, free := fun _ hx => nomatch hx }

theorem popNext {init post : List (ℕ × ℕ)} {q m next : ℕ} (h : Layout z g f v)
    (hfl : v.free = init ++ (q, m) :: (p, n) :: post) (hc : Chain f next post)
    (hlt : next < 2 ^ 64) :
    Layout z g (f.put (q + 8) (beBytes 8 next)) { v with free := init ++ (q, m) :: post } := by
  have hsub : (init ++ (q, m) :: post).Sublist v.free :=
    hfl ▸ (List.sublist_cons_self _ _ |>.cons_cons _).append_left init
  have hqm : (q, m) ∈ v.free := by simp [hfl]
  have hq := h.free _ hqm
  have hm := h.free_ge hqm
  have habove := hq.1.above
  -- the other extents of the list lie outside of the tombstone that changes
  have hother : ∀ y ∈ v.free, y.1 ≠ q → ∀ a, y.1 ≤ a → a < y.1 + 16 →
      (f.put (q + 8) (beBytes 8 next)).byte a = f.byte a := by
    intro y hy hyq a ha ha'
    have hyg := h.free_ge hy
    apply overlay_of_not
    by_contra hin
    rw [length_beBytes] at hin
    have h1 := (h.free y hy).1.owns a ha (by omega)
    have h2 := hq.1.owns a (by omega) (by omega)
    rw [h1] at h2
    injection h2 with h2
    injection h2 with h2
    exact hyq h2
  have hne : ∀ y ∈ init ++ post, y.1 ≠ q := by
    have hnodup := (h.free_nodup.sublist (hsub.map Prod.fst))
    rw [List.map_append, List.map_cons, List.nodup_middle, ← List.map_append] at hnodup
    intro y hy hyq
    exact (List.nodup_cons.mp hnodup).1 (List.mem_map.mpr ⟨y, hy, hyq⟩)
  have hmem : ∀ y ∈ init ++ post, y ∈ v.free := by
    intro y hy
    rcases List.mem_append.mp hy with hy | hy <;> simp [hfl, hy]
  obtain ⟨old, -, hr, -⟩ := (show Chain f v.head (init ++ (q, m) :: (p, n) :: post) from
    hfl ▸ h.chain).tail
  have hput : Layout z g (f.put (q + 8) (beBytes 8 next)) { v with free := [], head := 0 } :=
    h.dropFree.put_extent _ hq.1 (by intro x hx; cases hx) (by omega)
      (by rw [length_beBytes]; omega)
  refine { hput with
    chain := ?_, free_nodup := h.free_nodup.sublist (hsub.map _),
    free := fun x hx => h.free x (hsub.subset hx) }
  apply Chain.unlink (hfl ▸ h.chain) hc hlt File.size_le_put
  · intro y hy
    exact hother y (hmem y (by simp [hy])) (hne y (by simp [hy]))
  · intro y hy
    exact hother y (hmem y (by simp [hy])) (hne y (by simp [hy]))
  · exact reads_tombstone_link hr

theorem synced_mono (h : Layout z g f v) {s : ℕ → Prop} (hs : ∀ i, s i → v.synced i) :
    Layout z g f { v with synced := s } :=
  { h with synced := fun i hi h0 hi' => h.synced i hi h0 (hs i hi') }

theorem l2Bytes_ne_nil (g : Geometry) (t : ℕ → ℕ) : l2Bytes g.l2Entries t ≠ [] := by
  have := g.le_clusterSize
  rw [← List.length_pos_iff, length_l2Bytes]
  omega

theorem flush (h : Layout z g f v) (hi : i < v.l1Size) (h0 : v.l1 i ≠ 0) :
    Layout z g (f.put (v.l1 i) (l2Bytes g.l2Entries (v.tab i)))
      { v with synced := fun k => k = i ∨ v.synced k } := by
  have hloose := h.synced_mono (s := fun k => k ≠ i ∧ v.synced k) fun _ hk => hk.2
  have hput := hloose.put_extent (l2Bytes g.l2Entries (v.tab i)) (h.table i hi h0)
    (r := .table i) (fun hk => hk.1 rfl) le_rfl (by rw [length_l2Bytes])
  refine { hput with synced := fun k hk hk0 hs => ?_ }
  by_cases hki : k = i
  · subst hki
    exact File.reads_put (l2Bytes_ne_nil g _)
  · exact hput.synced k hk hk0 ⟨hki, hs.resolve_left hki⟩

theorem addTable (h : Layout z g f v) (hi : i < v.l1Size) (h0 : v.l1 i = 0)
    (hn : v.alloc + g.clusterSize ≤ 2 ^ 62 + 2 ^ 24) :
    Layout z g (f.put v.alloc (l2Bytes g.l2Entries fun _ => 0))
      { v with
        l1 := Function.update v.l1 i v.alloc
        alloc := v.alloc + g.clusterSize
        own := reown v.own v.alloc g.clusterSize (.table i)
        synced := fun k => k = i ∨ v.synced k } := by
  obtain ⟨hgrow, hx⟩ := (h.put_above (l2Bytes g.l2Entries fun _ => 0) le_rfl).grow hn (.table i)
  refine { hgrow with tab_none := ?_, table := ?_, synced := ?_ }
  · intro k hk
    apply h.tab_none k
    by_cases hki : k = i
    · exact .inr (hki ▸ h0)
    · simpa [hki] using hk
  · intro k hk hk0
    dsimp only at hk0 ⊢
    by_cases hki : k = i
    · subst hki
      rw [Function.update_self]
      exact hx
    · rw [Function.update_of_ne hki] at hk0 ⊢
      exact hgrow.table k hk hk0
  · intro k hk hk0 hs
    dsimp only at hk0 ⊢
    by_cases hki : k = i
    · subst hki
      have htab : v.tab k = fun _ => 0 := funext (h.tab_none k (.inr h0))
      rw [Function.update_self, htab]
      exact File.reads_put (l2Bytes_ne_nil g _)
    · rw [Function.update_of_ne hki] at hk0 ⊢
      exact hgrow.synced k hk hk0 (hs.resolve_left hki)

theorem setEntry {e : ℕ} {o : Option (List UInt8)} (h : Layout z g f v) (he : e < 2 ^ 64)
    (hi : c / g.l2Entries < v.l1Size) (h0 : v.l1 (c / g.l2Entries) ≠ 0)
    (ho : ∀ d, o = some d → ∃ p n, StoredAt z g f e p n d ∧ v.Extent (.data c) p n) :
    Layout z g f (v.setEntry g c e o) := by
  refine { h with tab_lt := ?_, tab_none := ?_, synced := ?_, stored := ?_ }
  · intro i j
    show (if _ then e else v.tab i j) < _
    split_ifs
    · exact he
    · exact h.tab_lt i j
  · intro i hn j
    have hne : i ≠ c / g.l2Entries := by
      rintro rfl
      exact hn.elim (fun hle => absurd hi (Nat.not_lt.mpr hle)) h0
    exact (if_neg fun hc => hne hc.1).trans (h.tab_none i hn j)
  · intro i hi' hi0 hs
    have htab : (v.setEntry g c e o).tab i = v.tab i :=
      funext fun j => if_neg fun hc => hs.1 hc.1
    rw [htab]
    exact h.synced i hi' hi0 hs.2
  · intro k d (hk : Function.update v.val c o k = some d)
    rw [View.entry_setEntry]
    by_cases hkc : k = c
    · subst hkc
      rw [Function.update_self] at hk
      rw [if_pos rfl]
      exact ho d hk
    · rw [Function.update_of_ne hkc] at hk
      rw [if_neg hkc]
      exact h.stored k d hk

theorem l1_congr (h : Layout z g f v) {l1 : ℕ → ℕ} (hl : ∀ i < v.l1Size, l1 i = v.l1 i) :
    Layout z g f { v with l1 := l1 } := by
  refine { h with tab_none := ?_, table := ?_, synced := ?_ }
  · intro i hi
    apply h.tab_none i
    by_cases hlt : i < v.l1Size
    · exact hi.imp_right fun h0 => (hl i hlt).symm.trans h0
    · exact .inl (Nat.not_lt.mp hlt)
  · intro i hi h0
    dsimp only at h0 ⊢
    rw [hl i hi] at h0 ⊢
    exact h.table i hi h0
  · intro i hi h0
    dsimp only at h0 ⊢
    rw [hl i hi] at h0 ⊢
    exact h.synced i hi h0

theorem l1_lt (h : Layout z g f v) (hi : i < v.l1Size) : v.l1 i < 2 ^ 64 := by
  have hle := h.alloc_le
  by_cases h0 : v.l1 i = 0
  · omega
  · have := (h.table i hi h0).below
    omega

theorem putMeta (h : Layout z g f v) {off : ℕ} (hoff : off + bs.length ≤ v.metaEnd) :
    Layout z g (f.put off bs) { v with metaByte := overlay v.metaByte off bs } := by
  have hsize : f.size ≤ (f.put off bs).size := File.size_le_put
  have hkeep : ∀ a, v.metaEnd ≤ a → (f.put off bs).byte a = f.byte a := fun a ha =>
    overlay_of_not (by omega)
  refine { h with
    meta_le_size := h.meta_le_size.trans hsize, metaByte := ?_, synced := ?_, stored := ?_,
    chain := ?_ }
  · intro a ha
    show overlay f.byte off bs a = overlay v.metaByte off bs a
    unfold overlay
    rw [h.metaByte a ha]
  · intro i hi h0 hs
    have hx := (h.table i hi h0).above
    exact (h.synced i hi h0 hs).congr hsize fun a ha _ => hkeep a (by omega)
  · intro c d hc
    obtain ⟨p, n, hs, hx⟩ := h.stored c d hc
    have := hx.above
    exact ⟨p, n, hs.congr hsize fun a ha _ => hkeep a (by omega), hx⟩
  · apply h.chain.congr hsize
    intro x hx a ha _
    have := (h.free x hx).1.above
    exact hkeep a (by omega)

end Layout

end Lbd.QCow2
