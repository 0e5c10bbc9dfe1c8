import Lbd.QCow2.ImageRuns

/-!
# The extents of a `QCow2Image`

What the allocator keeps in every history: the header with the L1 table, the L2
tables, the extents of the stored clusters and the extents on the free list do not
overlap, and the free list is a list of valid tombstones. Guest offsets need not
lie inside of the virtual size: a cluster index that is too large for the `uint32`
of the L1 index stands for another cluster, or for one without an L1 entry.
-/

namespace Lbd.QCow2

open Act

variable {z : Codec} {g : Geometry} {vsize : ℕ} {img img' : QCow2Image} {v : View} {X : Set ℕ}
  {c i j m p n : ℕ} {data : List UInt8} {fl : List (ℕ × ℕ)} {E : QCow2Error → QCow2Image → Prop}

namespace QCow2Image

/-- An entry of an L2 table, which is cached or in the file. -/
def tableEntry (img : QCow2Image) (l1Idx l2Idx : ℕ) : ℕ :=
  match img.l2Cache l1Idx with
  | some l2 => l2 l2Idx
  | none => get64 (img.f.slice (img.l1Table l1Idx) img.clusterSize) (8 * l2Idx)

inductive Holder
  | metadata
  | table (l1Idx : ℕ)
  | entry (l1Idx l2Idx : ℕ)
  | free (phys : ℕ)
deriving DecidableEq

/-- `[p, p + n)` belongs to the owner, in an image with the free list `fl`. -/
inductive Holds (img : QCow2Image) (fl : List (ℕ × ℕ)) : Holder → ℕ → ℕ → Prop
  | metadata : Holds img fl .metadata 0 (img.l1Offset + 8 * img.l1Size)
  | table {i : ℕ} (hi : i < img.l1Size) (h0 : img.l1Table i ≠ 0) :
      Holds img fl (.table i) (img.l1Table i) img.clusterSize
  | entry {i j : ℕ} (hi : i < img.l1Size) (h0 : img.l1Table i ≠ 0) (hj : j < img.l2Entries)
      (he : img.tableEntry i j ≠ 0) :
      Holds img fl (.entry i j) (physOffset (img.tableEntry i j))
        (entrySize img.clusterSize img.f (img.tableEntry i j))
  | free {p n : ℕ} (hx : (p, n) ∈ fl) : Holds img fl (.free p) p n

/-- The free list from `FreeListHead` to 0: its tombstones give the position and the size of
each extent. -/
structure FreeList (img : QCow2Image) (fl : List (ℕ × ℕ)) : Prop where
  chain : Chain img.f img.freeListHead fl
  acyclic : (fl.map Prod.fst).Nodup
  ne_zero : ∀ x ∈ fl, x.1 ≠ 0
  size : ∀ x ∈ fl, 4096 ∣ x.2 ∧ 4096 ≤ x.2 ∧ x.2 < 2 ^ 32

structure NoOverlap (img : QCow2Image) (fl : List (ℕ × ℕ)) : Prop where
  free : FreeList img fl
  below : ∀ o p n, Holds img fl o p n → p + n ≤ img.allocOffset
  disjoint : ∀ o p n o' p' n', Holds img fl o p n → Holds img fl o' p' n' → o ≠ o' →
    p + n ≤ p' ∨ p' + n' ≤ p

theorem tableEntry_eq (h : ImageInv z g vsize img v) (hi : i < v.l1Size) (h0 : v.l1 i ≠ 0)
    (hj : j < g.l2Entries) : img.tableEntry i j = v.tab i j := by
  unfold tableEntry
  cases hc : img.l2Cache i with
  | some l2 => exact (h.mem.cached i l2 hc).2.2 j hj
  | none =>
    have hr := h.layout.synced i hi h0 (h.mem.uncached i hc)
    have hslice : img.f.slice (v.l1 i) g.clusterSize = l2Bytes g.l2Entries (v.tab i) := by
      have := hr.2
      rwa [At, length_l2Bytes] at this
    dsimp only
    rw [h.mem.l1, h.mem.clusterSize, hslice]
    exact get64_l2Bytes hj (h.layout.tab_lt i j)

/-- The region of the view that an owner other than the metadata stands for. -/
def Holder.region (g : Geometry) : Holder → Option Region
  | metadata => none
  | table i => some (.table i)
  | entry i j => some (.data (i * g.l2Entries + j))
  | free p => some (.free p)

theorem entry_index (v : View) (i : ℕ) (hj : j < g.l2Entries) :
    v.entry g (i * g.l2Entries + j) = v.tab i j := by
  rw [View.entry, div_cluster hj, mod_cluster hj]

theorem Holds.part {o : Holder} (ho : Holds img fl o p n) (h : ImageInv z g vsize img v)
    (hs : v.Settled g) (hfl : fl = v.free) :
    (o = .metadata ∧ p = 0 ∧ n = headerSize + 8 * v.l1Size) ∨
      ∃ r, o.region g = some r ∧ Part g img.f v r p n := by
  cases ho with
  | metadata => exact .inl ⟨rfl, rfl, by rw [h.mem.l1Offset, h.mem.l1Size]⟩
  | table hi h0 =>
    rw [h.mem.l1Size] at hi
    rw [h.mem.l1] at h0
    exact .inr ⟨_, rfl, hi, h0, by rw [h.mem.l1], h.mem.clusterSize⟩
  | @entry i j hi h0 hj he =>
    rw [h.mem.l1Size] at hi
    rw [h.mem.l1] at h0
    rw [h.mem.l2Entries] at hj
    have htab := tableEntry_eq h hi h0 hj
    rw [htab] at he ⊢
    have hval : v.val (i * g.l2Entries + j) ≠ none := by
      intro hn
      have := hs _ hn
      rw [entry_index v i hj] at this
      exact he this
    rw [← entry_index v i hj, h.mem.clusterSize]
    exact .inr ⟨_, rfl, hval, rfl, rfl⟩
  | free hx => exact .inr ⟨_, rfl, rfl, hfl ▸ hx⟩

theorem Holder.region_inj {o o' : Holder} {r : Region} {fl' : List (ℕ × ℕ)} {p' n' : ℕ}
    (ho : Holds img fl o p n) (ho' : Holds img fl' o' p' n') (hl2 : img.l2Entries = g.l2Entries)
    (hr : o.region g = some r) (hr' : o'.region g = some r) : o = o' := by
  cases ho <;> cases ho' <;> simp only [Holder.region, Option.some.injEq, reduceCtorEq] at hr hr'
  case table.table => cases hr; cases hr'; rfl
  case entry.entry i j _ _ hj _ i' j' _ _ hj' _ =>
    rw [hl2] at hj hj'
    have heq : i * g.l2Entries + j = i' * g.l2Entries + j' := Region.data.inj (hr.trans hr'.symm)
    have hi : i = i' := by rw [← div_cluster (c := i) hj, heq, div_cluster hj']
    have hj : j = j' := by rw [← mod_cluster (c := i) hj, heq, mod_cluster hj']
    rw [hi, hj]
  case free.free => cases hr; cases hr'; rfl
  all_goals (subst hr; cases hr')

theorem freeList_of_inv (h : ImageInv z g vsize img v) : FreeList img v.free where
  chain := h.head ▸ h.layout.chain
  acyclic := h.layout.free_nodup
  ne_zero x hx := (h.layout.pos_of_above (h.layout.free x hx).1.above).ne'
  size x hx := ⟨(h.layout.free x hx).2.1, h.layout.free_ge hx, (h.layout.free x hx).2.2.2⟩

theorem noOverlap_of_inv (h : ImageInv z g vsize img v) (hs : v.Settled g) :
    NoOverlap img v.free where
  free := freeList_of_inv h
  below o p n ho := by
    have hmeta := h.mem.l1_le.trans h.layout.meta_le_alloc
    rw [h.alloc]
    rcases ho.part h hs rfl with ⟨-, rfl, rfl⟩ | ⟨r, -, hp⟩
    · omega
    · exact (h.layout.extent_of_part hp).1.below
  disjoint o p n o' p' n' ho ho' hne := by
    have hmeta := h.mem.l1_le
    rcases ho.part h hs rfl with ⟨rfl, rfl, rfl⟩ | ⟨r, hr, hp⟩ <;>
      rcases ho'.part h hs rfl with ⟨rfl, rfl, rfl⟩ | ⟨r', hr', hp'⟩
    · exact absurd rfl hne
    · have := (h.layout.extent_of_part hp').1.above
      omega
    · have := (h.layout.extent_of_part hp).1.above
      omega
    · apply h.layout.disjoint_of_part hp hp'
      rintro rfl
      exact hne (Holder.region_inj ho ho' h.mem.l2Entries hr hr')

/-- The cluster that an index stands for when its L1 index is cut to a `uint32`. -/
def foldCluster (l2Entries clusterIdx : ℕ) : ℕ :=
  clusterIdx / l2Entries % 2 ^ 32 * l2Entries + clusterIdx % l2Entries

theorem foldCluster_div (g : Geometry) (c : ℕ) :
    foldCluster g.l2Entries c / g.l2Entries = c / g.l2Entries % 2 ^ 32 :=
  div_cluster (Nat.mod_lt _ g.l2Entries_pos)

theorem foldCluster_mod (g : Geometry) (c : ℕ) :
    foldCluster g.l2Entries c % g.l2Entries = c % g.l2Entries :=
  mod_cluster (Nat.mod_lt _ g.l2Entries_pos)

theorem foldCluster_l1Idx (hl2 : img.l2Entries = g.l2Entries) :
    foldCluster g.l2Entries c / img.l2Entries % 2 ^ 32 = c / img.l2Entries % 2 ^ 32 := by
  rw [hl2, foldCluster_div, Nat.mod_mod]

theorem foldCluster_l2Idx (hl2 : img.l2Entries = g.l2Entries) :
    foldCluster g.l2Entries c % img.l2Entries = c % img.l2Entries := by
  rw [hl2, foldCluster_mod]

theorem readCluster_fold (hl2 : img.l2Entries = g.l2Entries) :
    readCluster z c img = readCluster z (foldCluster g.l2Entries c) img := by
  unfold readCluster
  rw [get_bind_apply, get_bind_apply, foldCluster_l1Idx hl2, foldCluster_l2Idx hl2]

theorem writeCluster_fold (hl2 : img.l2Entries = g.l2Entries) :
    writeCluster z c data img = writeCluster z (foldCluster g.l2Entries c) data img := by
  unfold writeCluster
  rw [get_bind_apply, get_bind_apply, foldCluster_l1Idx hl2, foldCluster_l2Idx hl2]

theorem trimWhole_fold (hl2 : img.l2Entries = g.l2Entries) :
    trimWhole c img = trimWhole (foldCluster g.l2Entries c) img := by
  unfold trimWhole
  rw [get_bind_apply, get_bind_apply, foldCluster_l1Idx hl2, foldCluster_l2Idx hl2]

/-- The entry that the cluster index stands for, 0 without an L2 table. -/
def clusterEntry (img : QCow2Image) (clusterIdx : ℕ) : ℕ :=
  let l1Idx := clusterIdx / img.l2Entries % 2 ^ 32
  if l1Idx < img.l1Size ∧ img.l1Table l1Idx ≠ 0 then
    img.tableEntry l1Idx (clusterIdx % img.l2Entries)
  else 0

theorem clusterEntry_eq (h : ImageInv z g vsize img v) :
    img.clusterEntry c = v.entry g (foldCluster g.l2Entries c) := by
  unfold clusterEntry
  dsimp only
  rw [h.mem.l2Entries, h.mem.l1Size, h.mem.l1, View.entry, foldCluster_div, foldCluster_mod]
  split_ifs with hl1
  · exact tableEntry_eq h hl1.1 hl1.2 (Nat.mod_lt _ g.l2Entries_pos)
  · refine (h.layout.tab_none _ ?_ _).symm
    by_contra hn
    rw [not_or, Nat.not_le] at hn
    exact hl1 hn

/-- The invariant between the operations, without what the clusters hold. -/
def Consistent (z : Codec) (g : Geometry) (vsize : ℕ) (X : Set ℕ) (m : ℕ) (img : QCow2Image) :
    Prop :=
  ∃ v, Ledger z g vsize X img v ∧ v.Settled g ∧ v.metaEnd = m

/-- An operation that no file operation fails in may still report an error. -/
def Stops (z : Codec) (g : Geometry) (vsize : ℕ) (X : Set ℕ) (m : ℕ) (_ : QCow2Error)
    (img : QCow2Image) : Prop :=
  img.f.failed = true ∨ Consistent z g vsize X m img

theorem Rewritten.consistent (h : Rewritten z g vsize X v c data img) (hm : v.metaEnd = m) :
    Consistent z g vsize X m img := by
  obtain ⟨v', h', hs', hg, -⟩ := h
  exact ⟨v', h', hs', hg.metaEnd.trans hm⟩

theorem readCluster_any (h : ImageInv z g vsize img v) (hs : v.Settled g) :
    Meets (readCluster z c) img (fun d img' => d.length = g.clusterSize ∧
      ImageInv z g vsize img' v ∧ img'.f = img.f) E := by
  have hl2 := h.mem.l2Entries
  by_cases hi : foldCluster g.l2Entries c / g.l2Entries < v.l1Size
  · refine Meets.congr ?_ (readCluster_fold hl2)
    apply (readCluster_spec h hs hi).post
    rintro _ img' ⟨rfl, h', hf⟩
    exact ⟨h.layout.length_content _, h', hf⟩
  · rw [foldCluster_div] at hi
    simp only [readCluster, meets_bind, meets_get]
    rw [hl2, if_pos (.inl (by rw [h.mem.l1Size]; omega)), meets_pure, h.mem.clusterSize]
    exact ⟨List.length_replicate, h, rfl⟩

theorem writeCluster_any (h : Ledger z g vsize X img v) (hs : v.Settled g) (hm : v.metaEnd = m)
    (hd : data.length = g.clusterSize)
    (hfit : Fills z g.clusterSize img.f (img.clusterEntry c) data ∨ X = Set.univ) :
    Meets (writeCluster z c data) img (fun _ => Consistent z g vsize X m)
      (Stops z g vsize X m) := by
  have hl2 := h.mem.l2Entries
  by_cases hi : foldCluster g.l2Entries c / g.l2Entries < v.l1Size
  · refine Meets.congr ?_ (writeCluster_fold hl2)
    rw [clusterEntry_eq h.toImageInv] at hfit
    apply (writeCluster_spec h hs hi hd hfit).imp
    · exact fun _ _ hr => hr.consistent hm
    · exact fun _ _ hfail => .inl hfail
  · rw [foldCluster_div] at hi
    simp only [writeCluster, allocateL2, meets_bind, meets_get]
    rw [hl2, if_pos (by rw [h.mem.l1Size]; omega), meets_throw]
    exact .inr ⟨v, h, hs, hm⟩

theorem trimWhole_any (h : Ledger z g vsize X img v) (hs : v.Settled g) (hm : v.metaEnd = m) :
    Meets (trimWhole c) img (fun _ => Consistent z g vsize X m) (Stops z g vsize X m) := by
  have hl2 := h.mem.l2Entries
  by_cases hi : foldCluster g.l2Entries c / g.l2Entries < v.l1Size
  · refine Meets.congr ?_ (trimWhole_fold hl2)
    apply (trimWhole_spec h hs hi).imp
    · exact fun _ _ hr => hr.consistent hm
    · exact fun _ _ hfail => .inl hfail
  · rw [foldCluster_div] at hi
    simp only [trimWhole, meets_bind, meets_get]
    apply meets_when
    · rintro ⟨hlt, -⟩
      rw [hl2, h.mem.l1Size] at hlt
      exact absurd hlt hi
    · exact fun _ => ⟨v, h, hs, hm⟩

/-- The new bytes of a chunk leave its cluster with no less space than it has, or with none. -/
def Refills (z : Codec) (img : QCow2Image) (c : Chunk) (bs : List UInt8) : Prop :=
  ∀ d img', readCluster z c.cluster img = (.ok d, img') →
    Fills z img.clusterSize img.f (img.clusterEntry c.cluster) (overwrite d c.off bs)

theorem Refills.fills {c : Chunk} {bs d : List UInt8} {img₁ : QCow2Image}
    (hfit : Refills z img c bs) (h : ImageInv z g vsize img v) (h' : ImageInv z g vsize img' v)
    (hf : img'.f = img.f) (hread : readCluster z c.cluster img = (.ok d, img₁)) :
    Fills z g.clusterSize img'.f (img'.clusterEntry c.cluster) (overwrite d c.off bs) := by
  have := hfit d img₁ hread
  rwa [h.mem.clusterSize, clusterEntry_eq h, ← clusterEntry_eq h', ← hf] at this

theorem writeChunk_consistent {c : Chunk} (h : Consistent z g vsize X m img)
    (hin : c.off + c.len ≤ g.clusterSize)
    (hfit : Refills z img c ((data.drop c.pos).take c.len) ∨ X = Set.univ) :
    Meets (writeChunk z data c) img (fun _ => Consistent z g vsize X m) (Stops z g vsize X m) := by
  obtain ⟨v, h, hs, hm⟩ := h
  have hlen : ((data.drop c.pos).take c.len).length ≤ c.len := List.length_take_le ..
  simp only [writeChunk, meets_bind]
  apply (readCluster_any h.toImageInv hs).and_eq.imp
  · rintro d img₁ ⟨⟨hd, h₁, hf⟩, hread⟩
    apply writeCluster_any (h.of_file h₁ hf) hs hm
    · rw [length_overwrite (by omega), hd]
    · exact hfit.imp_left fun hfit => hfit.fills h.toImageInv h₁ hf hread
  · exact fun _ _ hfail => hfail.1

theorem trimPart_consistent {c : Chunk} (h : Ledger z g vsize X img v) (hs : v.Settled g)
    (hm : v.metaEnd = m) (hin : c.off + c.len ≤ g.clusterSize)
    (hfit : Refills z img c (List.replicate c.len 0) ∨ X = Set.univ) :
    Meets (trimPart z c) img (fun _ => Consistent z g vsize X m) (Stops z g vsize X m) := by
  simp only [trimPart, meets_bind, meets_get]
  apply (readCluster_any h.toImageInv hs).and_eq.imp
  · rintro d img₁ ⟨⟨hd, h₁, hf₁⟩, hread⟩
    apply meets_when
    · rintro ⟨hi, h0⟩
      rw [h.mem.l1Size] at hi
      rw [h.mem.l1] at h0
      rw [meets_bind]
      apply (getL2_spec h₁ hi h0).post
      rintro l2 img₂ ⟨h₂, hf₂, -⟩
      apply meets_when
      · intro _
        apply writeCluster_any (h.of_file h₂ (hf₂.trans hf₁)) hs hm
        · rw [length_overwrite (by simp; omega), hd]
        · exact hfit.imp_left fun hfit => hfit.fills h.toImageInv h₂ (hf₂.trans hf₁) hread
      · exact fun _ => ⟨v, h.of_file h₂ (hf₂.trans hf₁), hs, hm⟩
    · exact fun _ => ⟨v, h.of_file h₁ hf₁, hs, hm⟩
  · exact fun _ _ hfail => hfail.1

theorem trimChunk_consistent {c : Chunk} (h : Consistent z g vsize X m img)
    (hin : c.off + c.len ≤ g.clusterSize)
    (hfit : Refills z img c (List.replicate c.len 0) ∨ X = Set.univ) :
    Meets (trimChunk z c) img (fun _ => Consistent z g vsize X m) (Stops z g vsize X m) := by
  obtain ⟨v, h, hs, hm⟩ := h
  simp only [trimChunk, meets_bind, meets_get]
  apply meets_ite
  · exact fun _ => trimWhole_any h hs hm
  · exact fun _ => trimPart_consistent h hs hm hin hfit

/-- Each chunk of a request refills its cluster, in the state in which the request comes to
it. -/
def RefillsAll (z : Codec) (f : Chunk → ImageM Unit) (bs : Chunk → List UInt8) :
    List Chunk → QCow2Image → Prop
  | [], _ => True
  | c :: l, img => Refills z img c (bs c) ∧
      ∀ img', f c img = (.ok (), img') → RefillsAll z f bs l img'

theorem forM_consistent {f : Chunk → ImageM Unit} {bs : Chunk → List UInt8} {l : List Chunk}
    (hstep : ∀ c img, Consistent z g vsize X m img → c.off + c.len ≤ g.clusterSize →
      (Refills z img c (bs c) ∨ X = Set.univ) →
      Meets (f c) img (fun _ => Consistent z g vsize X m) (Stops z g vsize X m))
    (h : Consistent z g vsize X m img) (hin : ∀ c ∈ l, c.off + c.len ≤ g.clusterSize)
    (hfit : RefillsAll z f bs l img ∨ X = Set.univ) :
    Meets (l.forM f) img (fun _ => Consistent z g vsize X m) (Stops z g vsize X m) := by
  induction l generalizing img with
  | nil => exact h
  | cons c l ih =>
    show Meets (f c >>= fun _ => l.forM f) img _ _
    rw [meets_bind]
    apply (hstep c img h (hin c (List.mem_cons_self ..)) (hfit.imp_left And.left)).and_eq.imp
    · rintro _ img₁ ⟨h₁, heq⟩
      apply ih h₁ (fun c' hc' => hin c' (List.mem_cons_of_mem _ hc'))
      exact hfit.imp_left fun hfit => hfit.2 img₁ heq
    · exact fun _ _ hfail => hfail.1

/-- The buffer for a large L1 table is too short, which ends a flush after the L2 tables. -/
theorem flush_stops {Q : Unit → QCow2Image → Prop} (h : ImageInv z g vsize img v)
    (hs : v.Settled g) (hfit : ¬ v.l1Size * 8 < 2 ^ 32) :
    Meets flush img Q (Stops z g vsize Set.univ v.metaEnd) := by
  simp only [flush, writeL1Table, meets_bind, meets_get]
  apply (writeCachedTables_spec h).imp
  · intro _ img₁ h₁
    rw [h₁.mem.l1Size, if_pos (Nat.not_lt.mp hfit), meets_throw]
    exact .inr ⟨_, h₁.ledger, hs, rfl⟩
  · exact fun _ _ hfail => .inl hfail

theorem flush_consistent (h : Consistent z g vsize Set.univ m img) :
    Meets flush img (fun _ => Consistent z g vsize Set.univ m) (Stops z g vsize Set.univ m) := by
  obtain ⟨v, h, hs, rfl⟩ := h
  by_cases hfit : v.l1Size * 8 < 2 ^ 32
  · apply (flush_spec h.toImageInv hfit).imp
    · rintro _ img' ⟨v', h', hfl⟩
      exact ⟨v', h'.ledger, hfl.settled hs, hfl.metaEnd⟩
    · exact fun _ _ hfail => .inl hfail
  · exact flush_stops h.toImageInv hs hfit

theorem reopen_consistent (h : Consistent z g vsize Set.univ m img) :
    Meets reopen img (fun _ => Consistent z g vsize Set.univ m) (Stops z g vsize Set.univ m) := by
  obtain ⟨v, h, hs, rfl⟩ := h
  by_cases hfit : v.l1Size * 8 < 2 ^ 32
  · apply (reopen_spec hfit ⟨v, h.toImageInv, hs, .refl v, rfl⟩).imp
    · rintro _ img' ⟨v', h', hs', hg, -⟩
      exact ⟨v', h'.ledger, hs', hg.metaEnd⟩
    · exact fun _ _ hfail => .inl hfail
  · simp only [reopen, close, meets_bind, meets_get]
    apply meets_when
    · exact fun _ => flush_stops h.toImageInv hs hfit
    · exact fun hn => absurd h.mem.readOnly hn

end QCow2Image

open QCow2Image

/-- The chunks of a write or a trim refill their clusters. -/
def ImageOp.Refills (z : Codec) (img : QCow2Image) : ImageOp → Prop
  | write off data => RefillsAll z (writeChunk z data) (fun c => (data.drop c.pos).take c.len)
      (chunks img.clusterBits img.clusterSize off data.length) img
  | trim off length => RefillsAll z (trimChunk z) (fun c => List.replicate c.len 0)
      (chunks img.clusterBits img.clusterSize off length) img
  | flush => False
  | reopen => False

theorem exec_consistent {op : ImageOp} (h : Consistent z g vsize X m img)
    (hfit : op.Refills z img ∨ X = Set.univ) :
    Meets (op.exec z) img (fun _ => Consistent z g vsize X m) (Stops z g vsize X m) := by
  obtain ⟨v, h', -⟩ := id h
  have hin : ∀ off n, ∀ c ∈ chunks img.clusterBits img.clusterSize off n,
      c.off + c.len ≤ g.clusterSize := by
    rw [h'.mem.clusterBits, h'.mem.clusterSize]
    exact fun _ _ _ hc => chunks_inside hc
  cases op with
  | write off data =>
    simp only [ImageOp.exec, writeAt, meets_bind, meets_get]
    exact forM_consistent (fun _ _ => writeChunk_consistent) h (hin _ _) hfit
  | trim off length =>
    simp only [ImageOp.exec, QCow2Image.trim, meets_bind, meets_get]
    exact forM_consistent (fun _ _ => trimChunk_consistent) h (hin _ _) hfit
  | flush =>
    obtain rfl := hfit.resolve_left id
    exact flush_consistent h
  | reopen =>
    obtain rfl := hfit.resolve_left id
    exact reopen_consistent h

/-- One operation without an I/O error. -/
def Step (z : Codec) (allowed : QCow2Image → ImageOp → Prop) (img img' : QCow2Image) : Prop :=
  ∃ op r, allowed img op ∧ op.exec z img = (r, img') ∧ img'.f.failed = false

/-- The states that histories of allowed operations lead to. -/
abbrev Reaches (z : Codec) (allowed : QCow2Image → ImageOp → Prop) :
    QCow2Image → QCow2Image → Prop := Relation.ReflTransGen (Step z allowed)

theorem Step.consistent {allowed : QCow2Image → ImageOp → Prop} (hstep : Step z allowed img img')
    (h : Consistent z g vsize X m img)
    (hfit : ∀ img op, allowed img op → op.Refills z img ∨ X = Set.univ) :
    Consistent z g vsize X m img' := by
  obtain ⟨op, r, hop, hexec, hok⟩ := hstep
  have hspec := exec_consistent h (hfit img op hop)
  cases r with
  | ok a => exact hspec.of_eq_ok hexec
  | error e =>
    refine (hspec.of_eq_error hexec).resolve_left fun hfailed => ?_
    rw [hok] at hfailed
    cases hfailed

theorem Reaches.consistent {allowed : QCow2Image → ImageOp → Prop}
    (hrun : Reaches z allowed img img')
    (h : Consistent z g vsize X m img)
    (hfit : ∀ img op, allowed img op → op.Refills z img ∨ X = Set.univ) :
    Consistent z g vsize X m img' := by
  induction hrun with
  | refl => exact h
  | tail _ hstep ih => exact hstep.consistent ih hfit

theorem createQCow2_bits {f : File} {virtualSize clusterBits : ℕ}
    (h : createQCow2 f virtualSize clusterBits = .ok img) :
    12 ≤ clusterBits ∧ clusterBits ≤ 24 := by
  unfold createQCow2 at h
  split_ifs at h
  omega

theorem created_consistent {f : File} {virtualSize clusterBits : ℕ} (hf : f.NoFaults)
    (hcap : f.capacity ≤ 2 ^ 62) (hv : virtualSize < W64)
    (h : createQCow2 f virtualSize clusterBits = .ok img) :
    ∃ g : Geometry, Consistent z g virtualSize ∅ img.allocOffset img := by
  obtain ⟨hlower, hupper⟩ := createQCow2_bits h
  refine ⟨⟨clusterBits, hlower, hupper⟩, ?_⟩
  obtain ⟨v, hinv, hs, -, -, hmeta⟩ :=
    created_inv (z := z) (g := ⟨clusterBits, hlower, hupper⟩) hf hcap hv h
  exact ⟨v, ⟨hinv, fun _ a ha ha' => by omega⟩, hs, hmeta.trans hinv.alloc.symm⟩

theorem reachable_inv (z : Codec) {capacity virtualSize clusterBits : ℕ} {img₀ img : QCow2Image}
    (hcap : capacity ≤ 2 ^ 62) (hv : virtualSize < W64)
    (hcreate : createQCow2 (File.empty capacity fun _ => none) virtualSize clusterBits = .ok img₀)
    (hrun : Reaches z (fun _ _ => True) img₀ img) :
    ∃ g v, ImageInv z g virtualSize img v ∧ v.Settled g := by
  obtain ⟨g, v, h, hs, hm⟩ := created_consistent (z := z) (fun _ => rfl) hcap hv hcreate
  have hstart : Consistent z g virtualSize Set.univ img₀.allocOffset img₀ :=
    ⟨v, h.toImageInv.ledger, hs, hm⟩
  obtain ⟨v', h', hs', -⟩ := hrun.consistent hstart fun _ _ _ => .inr rfl
  exact ⟨g, v', h'.toImageInv, hs'⟩

/-- In every state of every history of a new image, what the image occupies does not overlap
and lies below the append point, and its free list is intact. -/
theorem reachable_noOverlap (z : Codec) {capacity virtualSize clusterBits : ℕ}
    {img₀ img : QCow2Image} (hcap : capacity ≤ 2 ^ 62) (hv : virtualSize < W64)
    (hcreate : createQCow2 (File.empty capacity fun _ => none) virtualSize clusterBits = .ok img₀)
    (hrun : Reaches z (fun _ _ => True) img₀ img) : ∃ fl, NoOverlap img fl := by
  obtain ⟨g, v, h, hs⟩ := reachable_inv z hcap hv hcreate hrun
  exact ⟨v.free, noOverlap_of_inv h hs⟩

/-- An image without L2 tables and free extents, on a file with room for two clusters more. -/
structure Blank (g : Geometry) (img : QCow2Image) : Prop where
  noFaults : img.f.NoFaults
  clusterBits : img.clusterBits = g.clusterBits
  clusterSize : img.clusterSize = g.clusterSize
  l1Table : ∀ i, img.l1Table i = 0
  l1Size : 0 < img.l1Size
  freeListHead : img.freeListHead = 0
  pos : 0 < img.allocOffset
  room : img.allocOffset + 2 * g.clusterSize ≤ img.f.capacity
  capacity : img.f.capacity ≤ 2 ^ 62

/-- The image after the first L2 table was added. -/
def firstTable (img : QCow2Image) : QCow2Image :=
  { img with
    f := img.f.put img.allocOffset (withTrailer (List.replicate (img.clusterSize - 4) 0))
    l1Table := Function.update img.l1Table 0 img.allocOffset
    allocOffset := img.allocOffset + img.clusterSize
    l2Cache := Function.update img.l2Cache 0 (some fun _ => 0) }

/-- The image after its first cluster was written with data that is stored raw. -/
def firstCluster (img : QCow2Image) (data : List UInt8) : QCow2Image :=
  { firstTable img with
    f := (firstTable img).f.put (img.allocOffset + img.clusterSize) data
    allocOffset := img.allocOffset + img.clusterSize + img.clusterSize
    l2Cache := Function.update (firstTable img).l2Cache 0
      (some (Function.update (fun _ => 0) 0 (img.allocOffset + img.clusterSize))) }

theorem firstCluster_l1Table (img : QCow2Image) (data : List UInt8) :
    (firstCluster img data).l1Table 0 = img.allocOffset := by
  show Function.update img.l1Table 0 img.allocOffset 0 = _
  exact Function.update_self ..

theorem allocateL2_blank (h : Blank g img) : Meets (allocateL2 0) img
    (fun l2 img' => l2 = (fun _ => 0) ∧ img' = firstTable img) fun _ _ => False := by
  have hroom := h.room
  have hcap := h.capacity
  have hcs := h.clusterSize
  have hmod : (img.allocOffset + img.clusterSize) % W64 = img.allocOffset + img.clusterSize :=
    Nat.mod_eq_of_lt (by unfold W64; omega)
  simp only [allocateL2, meets_bind, meets_get]
  rw [if_neg (Nat.not_le.mpr h.l1Size), if_neg (not_not.mpr (h.l1Table 0))]
  simp only [meets_bind, meets_modify, meets_pure, hmod]
  apply meets_writeFile
  · exact h.noFaults.clean
  · exact fun _ => ⟨trivial, rfl⟩
  · rw [hcs, withTrailer_zeros, length_l2Bytes]
    exact fun hfull => hfull ⟨h.noFaults _, by dsimp only; omega⟩

theorem allocSpace_blank (h : Blank g img) : Meets (allocSpace img.clusterSize) (firstTable img)
    (fun p img' => p = img.allocOffset + img.clusterSize ∧ img' = { firstTable img with
      allocOffset := img.allocOffset + img.clusterSize + img.clusterSize }) fun _ _ => False := by
  have hroom := h.room
  have hcap := h.capacity
  have hcs := h.clusterSize
  have hmod : (img.allocOffset + img.clusterSize + img.clusterSize) % W64 =
      img.allocOffset + img.clusterSize + img.clusterSize :=
    Nat.mod_eq_of_lt (by unfold W64; omega)
  have hscan : scanFree (firstTable img).f img.clusterSize freeScanLimit 0 true
      (firstTable img).freeListHead = none := by
    rw [show (firstTable img).freeListHead = 0 from h.freeListHead]
    rfl
  simp only [allocSpace, meets_bind, meets_get, hscan]
  simp only [appendSpace, meets_bind, meets_get, meets_modify, meets_pure]
  refine ⟨rfl, ?_⟩
  show { firstTable img with
    allocOffset := (img.allocOffset + img.clusterSize + img.clusterSize) % W64 } = _
  rw [hmod]

theorem writeCluster_blank (h : Blank g img) (hlen : data.length = g.clusterSize)
    (hz : data.all (· == 0) = false) (hcomp : compressed z g.clusterSize data = none) :
    Meets (writeCluster z 0 data) img (fun _ img' => img' = firstCluster img data)
      fun _ _ => False := by
  have hroom := h.room
  have hcs := h.clusterSize
  simp only [writeCluster, meets_bind, meets_get, Nat.zero_div, Nat.zero_mod, hz, hcs, hcomp]
  apply (allocateL2_blank h).post
  rintro _ _ ⟨rfl, rfl⟩
  simp only [readOldAllocSize, meets_bind, meets_get, if_true, meets_pure, Bool.false_eq_true,
    if_false, placeCluster, lt_irrefl, false_and, when]
  rw [← hcs]
  apply (allocSpace_blank h).post
  rintro _ _ ⟨rfl, rfl⟩
  apply meets_writeFile
  · exact h.noFaults.clean
  · exact fun _ => rfl
  · refine fun hfull => hfull ⟨h.noFaults _, ?_⟩
    show img.allocOffset + img.clusterSize + data.length ≤ img.f.capacity
    omega

theorem chunks_cluster (g : Geometry) :
    chunks g.clusterBits g.clusterSize 0 g.clusterSize = [⟨0, 0, 0, g.clusterSize⟩] := by
  have hpos : 0 < g.clusterSize := by have := g.le_clusterSize; omega
  have hchunk : chunks g.clusterBits (2 ^ g.clusterBits) 0 g.clusterSize = _ :=
    chunks_single hpos (by rw [Nat.zero_mod, zero_add]; rfl)
  refine hchunk.trans ?_
  simp [chunkAt, Geometry.clusterSize]

theorem writeAt_cluster {Q : Unit → QCow2Image → Prop} (hbits : img.clusterBits = g.clusterBits)
    (hsize : img.clusterSize = g.clusterSize) (hlen : data.length = g.clusterSize)
    (h : Meets (readCluster z 0) img (fun d img' => d.length = g.clusterSize ∧
      Meets (writeCluster z 0 data) img' Q E) E) : Meets (writeAt z data 0) img Q E := by
  simp only [writeAt, meets_bind, meets_get]
  rw [hbits, hsize, hlen, chunks_cluster]
  show Meets (writeChunk z data _ >>= fun _ => pure ()) _ _ _
  simp only [writeChunk, meets_bind, meets_pure]
  apply h.post
  rintro d img' ⟨hd, hw⟩
  rwa [List.drop_zero, ← hlen, List.take_length, overwrite_all (hlen.trans hd.symm)]

theorem writeAt_blank (h : Blank g img) (hlen : data.length = g.clusterSize)
    (hz : data.all (· == 0) = false) (hcomp : compressed z g.clusterSize data = none) :
    writeAt z data 0 img = (.ok (), firstCluster img data) := by
  apply Meets.eq_ok
  apply writeAt_cluster h.clusterBits h.clusterSize hlen
  simp only [readCluster, meets_bind, meets_get]
  rw [if_pos (.inr (h.l1Table _)), meets_pure, h.clusterSize]
  refine ⟨List.length_replicate, (writeCluster_blank h hlen hz hcomp).post ?_⟩
  exact fun _ _ heq => ⟨trivial, heq⟩

/-- An image of 1 MiB with clusters of 8 KiB. -/
def smallImage : QCow2Image :=
  newImage (newFile (File.empty (2 ^ 62) fun _ => none) (2 ^ 20) 13 1 8192) (2 ^ 20) 13 1 8192

def smallGeometry : Geometry := ⟨13, by norm_num, by norm_num⟩

theorem createQCow2_small :
    createQCow2 (File.empty (2 ^ 62) fun _ => none) (2 ^ 20) 13 = .ok smallImage := by
  have hl1 : 1 = newL1Size (2 ^ 20) (2 ^ 13) := by decide
  exact createQCow2_ok smallGeometry (fun _ => rfl) hl1 (by decide) (by decide)

theorem smallImage_blank : Blank smallGeometry smallImage where
  noFaults := fun _ => rfl
  clusterBits := rfl
  clusterSize := rfl
  l1Table := fun _ => rfl
  l1Size := by decide
  freeListHead := rfl
  pos := by decide
  room := by decide
  capacity := by decide

@[irreducible] def smallData (b : UInt8) : List UInt8 := List.replicate 8192 b

theorem length_smallData (b : UInt8) : (smallData b).length = smallGeometry.clusterSize := by
  rw [smallData, List.length_replicate]
  rfl

theorem smallData_not_zeros {b : UInt8} (hb : (b == 0) = false) :
    (smallData b).all (· == 0) = false := by
  rw [smallData, List.all_replicate, if_neg (by norm_num), hb]

theorem small_noOverlap : 2 ^ 20 < W64 ∧ ∃ fl,
    NoOverlap (firstCluster smallImage (smallData 2)) fl :=
  ⟨by decide, reachable_noOverlap Codec.none le_rfl (by decide) createQCow2_small
    (.single ⟨.write 0 (smallData 2), .ok (), trivial, writeAt_blank smallImage_blank
      (length_smallData 2) (smallData_not_zeros (by decide)) rfl, rfl⟩)⟩

end Lbd.QCow2
