import Lbd.QCow2.CtlBounds

/-!
# Images that are written from front to back

`convert` and `compact` store clusters at an append point and reserve the places of their L2 tables
as they go; the tables and the header are written in the end. `Packed` says what the output holds
in between, `Written` what it holds afterwards.
-/

namespace Lbd

namespace File

variable {f : File} {p off : ℕ} {bs data : List UInt8}

theorem Reads.put_of_disjoint (h : f.Reads p bs)
    (hd : p + bs.length ≤ off ∨ off + data.length ≤ p) : (f.put off data).Reads p bs :=
  h.congr size_le_put fun _ _ _ => overlay_of_not (by omega)

theorem Reads.truncate (h : f.Reads p bs) {size : ℕ} (hle : p + bs.length ≤ size) :
    (f.truncate size).Reads p bs :=
  ⟨hle, h.2.congr fun _ _ ha => if_pos (by omega)⟩

theorem capacity_of_writeAt (h : (f.writeAt off data).1 = true) :
    off + data.length ≤ f.capacity := by
  unfold writeAt at h
  split at h
  · cases h
  · split_ifs at h with hle
    exact hle

end File

namespace QCow2.Ctl
open Act

variable {z : Codec} {g : Geometry} {lo : ℕ} {K : ℕ → ℕ → Option (List UInt8)} {w : Work}

/-- The entry `e` stands for `data`, which takes the `n` bytes at `p`. -/
def HoldsData (z : Codec) (g : Geometry) (f : File) (e : ℕ) (data : List UInt8) (p n : ℕ) : Prop :=
  p < 2 ^ 62 ∧ data.length = g.clusterSize ∧
    (e = p ∧ n = g.clusterSize ∧ f.Reads p data ∨
      ∃ comp, e = l2Compressed ||| p ∧ n = 4 + comp.length ∧
        compressed z g.clusterSize data = some comp ∧
        f.Reads p (beBytes 4 comp.length ++ comp))

variable {f f' : File} {e p n : ℕ} {data : List UInt8}

theorem HoldsData.congr (h : HoldsData z g f e data p n)
    (hf : ∀ bs, bs.length = n → f.Reads p bs → f'.Reads p bs) : HoldsData z g f' e data p n := by
  obtain ⟨hp, hlen, ⟨rfl, rfl, hr⟩ | ⟨comp, rfl, rfl, hc, hr⟩⟩ := h
  · exact ⟨hp, hlen, .inl ⟨rfl, rfl, hf data hlen hr⟩⟩
  · refine ⟨hp, hlen, .inr ⟨comp, rfl, rfl, hc, hf _ ?_ hr⟩⟩
    rw [List.length_append, length_beBytes]

/-- The output while clusters are stored: `K i j` is the cluster behind entry `j` of table `i`.
Nothing is kept below `lo`, and no two pieces overlap. -/
structure Packed (z : Codec) (g : Geometry) (lo : ℕ) (K : ℕ → ℕ → Option (List UInt8))
    (w : Work) : Prop where
  pos : 0 < lo
  lo_le : lo ≤ w.allocOffset
  size : lo ≤ w.out.size
  capacity : w.out.capacity ≤ 2 ^ 62
  table : ∀ i, w.l1Table i ≠ 0 → lo ≤ w.l1Table i ∧ w.l1Table i + g.clusterSize ≤ w.allocOffset
  apart : ∀ i k, i ≠ k → w.l1Table i ≠ 0 → w.l1Table k ≠ 0 →
    w.l1Table i + g.clusterSize ≤ w.l1Table k ∨ w.l1Table k + g.clusterSize ≤ w.l1Table i
  stored : ∀ i j data, K i j = some data → w.l1Table i ≠ 0 ∧ ∃ p n, lo ≤ p ∧
    p + n ≤ w.allocOffset ∧ HoldsData z g w.out (w.l2Tables i j) data p n ∧
      ∀ k, w.l1Table k ≠ 0 → w.l1Table k + g.clusterSize ≤ p ∨ p + n ≤ w.l1Table k
  unset : ∀ i j, K i j = none → w.l2Tables i j = 0

theorem Packed.allocTable (h : Packed z g lo K w) (i : ℕ) :
    Meets (allocTable g.clusterSize i) w
      (fun _ w' => Packed z g lo K w' ∧ w'.l1Table i ≠ 0)
      fun _ _ => True := by
  unfold Ctl.allocTable
  rw [meets_modify]
  have hlo := h.lo_le
  have hpos := h.pos
  split_ifs with h0
  · have hne : w.allocOffset ≠ 0 := by omega
    have hi (k : ℕ) (hk : k ≠ i) : Function.update w.l1Table i w.allocOffset k = w.l1Table k :=
      Function.update_of_ne hk _ _
    have hself : Function.update w.l1Table i w.allocOffset i = w.allocOffset :=
      Function.update_self _ _ _
    refine ⟨⟨hpos, by dsimp only; omega, h.size, h.capacity, ?_, ?_, ?_, h.unset⟩, ?_⟩
    · intro k hk
      dsimp only at hk ⊢
      by_cases hki : k = i
      · subst hki
        rw [hself]
        omega
      · rw [hi k hki] at hk ⊢
        have := h.table k hk
        omega
    · intro k m hkm hk hm
      dsimp only at hk hm ⊢
      by_cases hki : k = i
      · subst hki
        rw [hi m (Ne.symm hkm)] at hm ⊢
        rw [hself]
        exact .inr (h.table m hm).2
      · rw [hi k hki] at hk ⊢
        by_cases hmi : m = i
        · subst hmi
          rw [hself]
          exact .inl (h.table k hk).2
        · rw [hi m hmi] at hm ⊢
          exact h.apart k m hkm hk hm
    · intro k j data hK
      obtain ⟨hk, p, n, hp, hend, hdata, hfar⟩ := h.stored k j data hK
      dsimp only
      have hki : k ≠ i := fun hki => hk (hki ▸ h0)
      rw [hi k hki]
      refine ⟨hk, p, n, hp, by omega, hdata, fun m hm => ?_⟩
      by_cases hmi : m = i
      · subst hmi
        rw [hself]
        exact .inr hend
      · rw [hi m hmi] at hm ⊢
        exact hfar m hm
    · dsimp only
      rw [hself]
      exact hne
  · exact ⟨h, h0⟩

def setCell (K : ℕ → ℕ → Option (List UInt8)) (i j : ℕ) (data : List UInt8) :
    ℕ → ℕ → Option (List UInt8) :=
  Function.update K i (Function.update (K i) j (some data))

theorem update_update {α : Type*} (T : ℕ → ℕ → α) (i j : ℕ) (a : α) (k m : ℕ) :
    Function.update T i (Function.update (T i) j a) k m = if k = i ∧ m = j then a else T k m := by
  by_cases hk : k = i
  · subst hk
    by_cases hm : m = j
    · subst hm
      simp
    · simp [hm]
  · simp [hk]

theorem Packed.setEntry (h : Packed z g lo K w) {i j e n m : ℕ} {data : List UInt8}
    {f : File} (hl1 : w.l1Table i ≠ 0) (hsize : w.out.size ≤ f.size)
    (hcap : f.capacity = w.out.capacity)
    (hkeep : ∀ p bs, p + bs.length ≤ w.allocOffset → w.out.Reads p bs → f.Reads p bs)
    (hdata : HoldsData z g f e data w.allocOffset n) (hn : n ≤ m) :
    Meets (setEntry i j e m) { w with out := f }
      (fun _ w' => Packed z g lo (setCell K i j data) w')
      fun _ _ => True := by
  unfold Ctl.setEntry
  rw [meets_modify]
  have hlo := h.lo_le
  have hcap' : f.capacity ≤ 2 ^ 62 := hcap ▸ h.capacity
  refine ⟨h.pos, by dsimp only; omega, h.size.trans hsize, hcap', ?_, h.apart, ?_, ?_⟩
  · intro k hk
    have := h.table k hk
    dsimp only
    omega
  · intro k l data' hK
    dsimp only
    rw [setCell, update_update] at hK
    rw [update_update]
    split_ifs at hK ⊢ with hkl
    · cases hK
      rw [hkl.1]
      refine ⟨hl1, w.allocOffset, n, hlo, by omega, hdata, fun k' hk' => ?_⟩
      exact .inl (h.table k' hk').2
    · obtain ⟨hk, p, n', hp, hend, hold, hfar⟩ := h.stored k l data' hK
      refine ⟨hk, p, n', hp, by omega, hold.congr fun bs hbs => hkeep p bs (by omega), hfar⟩
  · intro k l hK
    dsimp only
    rw [setCell, update_update] at hK
    rw [update_update]
    split_ifs at hK ⊢
    exact h.unset k l hK

/-- `f'` is `f` with `data` at `off`. -/
structure Puts (f : File) (off : ℕ) (data : List UInt8) (f' : File) : Prop where
  size : f.size ≤ f'.size
  capacity : f'.capacity = f.capacity
  fits : data ≠ [] → off + data.length ≤ f.capacity
  length_le : data.length ≤ maxRw
  kept : ∀ p bs, p + bs.length ≤ off ∨ off + data.length ≤ p → f.Reads p bs → f'.Reads p bs
  reads : data ≠ [] ∨ off ≤ f.size → f'.Reads off data

theorem meets_pwrite (what : Piece) (off : ℕ) (data : List UInt8) (w : Work) :
    Meets (pwrite what off data) w
      (fun _ w' => ∃ f, w' = { w with out := f } ∧ Puts w.out off data f)
      fun _ _ => True := by
  unfold Meets pwrite
  split_ifs with hnil hmax
  · subst hnil
    refine ⟨w.out, rfl, le_rfl, rfl, fun h => (h rfl).elim, Nat.zero_le _, fun _ _ _ hr => hr,
      fun h => ?_⟩
    exact ⟨h.resolve_left fun h => h rfl, rfl⟩
  · trivial
  · dsimp only
    cases hok : (w.out.writeAt off data).1 with
    | true =>
      rw [File.writeAt_snd_of_fst hok]
      exact ⟨_, rfl, File.size_le_put, rfl, fun _ => File.capacity_of_writeAt hok,
        not_lt.mp hmax, fun _ _ hd hr => hr.put_of_disjoint hd, fun _ => File.reads_put hnil⟩
    | false => trivial

theorem beBytes_four_ne_nil (n : ℕ) : beBytes 4 n ≠ [] :=
  List.ne_nil_of_length_eq_add_one (length_beBytes 4 n)

theorem Packed.storeCluster (h : Packed z g lo K w) {ci : ℕ} {data : List UInt8}
    (hlen : data.length = g.clusterSize) :
    Meets (storeCluster z g.clusterSize g.l2Entries ci data) w
      (fun _ w' => Packed z g lo (setCell K (ci / g.l2Entries % 2 ^ 32) (ci % g.l2Entries) data) w')
      fun _ _ => True := by
  have hcs := g.le_clusterSize
  unfold Ctl.storeCluster
  rw [meets_bind]
  apply (h.allocTable _).post
  rintro _ w₁ ⟨h₁, hl1⟩
  have hcap := h₁.capacity
  rw [meets_bind, meets_get]
  cases hcomp : compressed z g.clusterSize data with
  | some comp =>
    have hne := List.ne_nil_of_length_pos (compressed_eq_some hcomp).2.1
    have hsize := length_beBytes 4 comp.length
    simp only [meets_bind]
    apply (meets_pwrite _ _ _ w₁).post
    rintro _ _ ⟨f₁, rfl, hf₁⟩
    apply (meets_pwrite _ _ _ _).post
    rintro _ _ ⟨f₂, rfl, hf₂⟩
    have hfit := hf₂.fits hne
    have hdata : f₂.Reads w₁.allocOffset (beBytes 4 comp.length ++ comp) := by
      rw [File.reads_append, hsize]
      refine ⟨hf₂.kept _ _ (by omega) ?_, hf₂.reads (.inl hne)⟩
      exact hf₁.reads (.inl (beBytes_four_ne_nil _))
    apply h₁.setEntry hl1 (hf₁.size.trans hf₂.size) (hf₂.capacity.trans hf₁.capacity)
    · intro p bs hle hr
      exact hf₂.kept p bs (by omega) (hf₁.kept p bs (.inl hle) hr)
    · refine ⟨?_, hlen, .inr ⟨comp, rfl, rfl, hcomp, hdata⟩⟩
      rw [hf₁.capacity] at hfit
      omega
    · exact le_alignUp _
  | none =>
    have hne : data ≠ [] := List.ne_nil_of_length_pos (by omega)
    simp only [meets_bind]
    apply (meets_pwrite _ _ _ w₁).post
    rintro _ _ ⟨f₁, rfl, hf₁⟩
    have hfit := hf₁.fits hne
    apply h₁.setEntry hl1 hf₁.size hf₁.capacity
    · exact fun p bs hle hr => hf₁.kept p bs (.inl hle) hr
    · exact ⟨by omega, hlen, .inl ⟨rfl, rfl, hf₁.reads (.inl hne)⟩⟩
    · exact le_rfl

/-- The tables below `k` were written, over nothing that was stored. -/
structure Laid (g : Geometry) (w : Work) (k : ℕ) (f : File) : Prop where
  size : w.out.size ≤ f.size
  capacity : f.capacity = w.out.capacity
  kept : ∀ p bs, (∀ i, w.l1Table i ≠ 0 → w.l1Table i + g.clusterSize ≤ p ∨
    p + bs.length ≤ w.l1Table i) → w.out.Reads p bs → f.Reads p bs
  tables : ∀ i < k, w.l1Table i ≠ 0 → w.l1Table i + g.clusterSize ≤ w.out.capacity ∧
    f.Reads (w.l1Table i) (l2Bytes g.l2Entries (w.l2Tables i))

theorem Packed.writeL2 (h : Packed z g lo K w) {k : ℕ} {f : File} (hf : Laid g w k f) :
    Meets (writeL2 g.l2Entries k) { w with out := f }
      (fun _ w' => ∃ f', w' = { w with out := f' } ∧ Laid g w (k + 1) f')
      fun _ _ => True := by
  have hlen := length_l2Bytes g (w.l2Tables k)
  have hcs := g.le_clusterSize
  unfold Ctl.writeL2
  rw [meets_bind, meets_get]
  apply meets_ite
  · intro h0
    refine ⟨f, rfl, hf.size, hf.capacity, hf.kept, fun i hi hne => hf.tables i ?_ hne⟩
    have : i ≠ k := fun hik => hne (hik ▸ h0)
    omega
  · intro h0
    have hnil : l2Bytes g.l2Entries (w.l2Tables k) ≠ [] := List.ne_nil_of_length_pos (by omega)
    apply (meets_pwrite _ _ _ _).post
    rintro _ _ ⟨f', rfl, hf'⟩
    dsimp only at hf'
    have hfit := hf'.fits hnil
    have hcap := hf.capacity
    refine ⟨f', rfl, hf.size.trans hf'.size, hf'.capacity.trans hcap, fun p bs hfar hr => ?_, ?_⟩
    · apply hf'.kept p bs _ (hf.kept p bs hfar hr)
      have := hfar k h0
      rw [hlen]
      omega
    · intro i hi hne
      by_cases hik : i = k
      · subst hik
        rw [hlen] at hfit
        exact ⟨by omega, hf'.reads (.inl hnil)⟩
      · obtain ⟨hend, hr⟩ := hf.tables i (by omega) hne
        refine ⟨hend, hf'.kept _ _ ?_ hr⟩
        have := h.apart i k hik hne h0
        rw [length_l2Bytes, hlen]
        omega

theorem Packed.writeTables (h : Packed z g lo K w) (l1Size : ℕ) :
    Meets ((List.range l1Size).forM (Ctl.writeL2 g.l2Entries)) w
      (fun _ w' => ∃ f, w' = { w with out := f } ∧ Laid g w l1Size f)
      fun _ _ => True := by
  refine meets_forM_range (fun k (w' : Work) => ∃ f, w' = { w with out := f } ∧ Laid g w k f) ?_ ?_
  · exact ⟨w.out, rfl, le_rfl, rfl, fun _ _ _ hr => hr, by omega⟩
  · rintro k - _ ⟨f, rfl, hf⟩
    exact h.writeL2 hf

/-- A written image: the entries of its tables stand for the clusters `K`. -/
structure Written (z : Codec) (g : Geometry) (virtualSize l1Offset l1Size : ℕ)
    (K : ℕ → ℕ → Option (List UInt8)) (w : Work) (f : File) : Prop where
  header : f.Reads 0 (newHeader g.clusterBits virtualSize l1Offset l1Size w.allocOffset)
  l1 : f.Reads l1Offset (tableBytes l1Size w.l1Table)
  l1_le : l1Size * 8 ≤ maxRw
  tables : ∀ i < l1Size, w.l1Table i ≠ 0 → w.l1Table i < 2 ^ 62 ∧
    f.Reads (w.l1Table i) (l2Bytes g.l2Entries (w.l2Tables i))
  stored : ∀ i j data, K i j = some data → w.l1Table i ≠ 0 ∧ ∃ p n, p ≠ 0 ∧
    HoldsData z g f (w.l2Tables i j) data p n
  unset : ∀ i j, K i j = none → w.l2Tables i j = 0

theorem meets_attempt_ftruncate (size : ℕ) (w : Work) :
    Meets (attempt (ftruncate size)) w
      (fun _ w' => ∃ f, w' = { w with out := f } ∧
        ∀ p bs, p + bs.length ≤ size → w.out.Reads p bs → f.Reads p bs)
      fun _ _ => False := by
  rw [meets_attempt]
  unfold Meets ftruncate
  split_ifs
  · exact ⟨w.out, rfl, fun _ _ _ hr => hr⟩
  · exact ⟨_, rfl, fun _ _ hle hr => hr.truncate hle⟩

theorem Packed.writeMeta {virtualSize l1Offset l1Size : ℕ}
    (h : Packed z g lo K w) (hl1 : headerSize ≤ l1Offset) (hlo : l1Offset + l1Size * 8 ≤ lo) :
    Meets (writeMeta g.clusterBits g.l2Entries virtualSize l1Offset l1Size) w
      (fun _ w' => Written z g virtualSize l1Offset l1Size K w w'.out)
      fun _ _ => True := by
  have hcs := g.le_clusterSize
  have hcap := h.capacity
  have hle := h.lo_le
  have hsize := h.size
  unfold Ctl.writeMeta
  rw [meets_bind]
  apply (h.writeTables l1Size).post
  intro _ w' hw'
  have halloc : w'.allocOffset = w.allocOffset := by
    obtain ⟨f, rfl, -⟩ := hw'
    rfl
  have hhdr := length_newHeader g.clusterBits virtualSize l1Offset l1Size w.allocOffset
  rw [meets_bind, meets_get, halloc]
  generalize heq : newHeader g.clusterBits virtualSize l1Offset l1Size w.allocOffset = hdr at hhdr ⊢
  simp only [meets_bind]
  obtain ⟨f, rfl, hf⟩ := hw'
  have hl1len := length_tableBytes l1Size w.l1Table
  have hfsize := hf.size
  apply (meets_pwrite _ _ _ _).post
  rintro _ _ ⟨f₁, rfl, hf₁⟩
  have hf₁size := hf₁.size
  apply (meets_pwrite _ _ _ _).post
  rintro _ _ ⟨f₂, rfl, hf₂⟩
  apply (meets_attempt_ftruncate _ _).imp
  swap
  · exact fun _ _ he => he.elim
  rintro _ _ ⟨f₃, rfl, hf₃⟩
  dsimp only at halloc hf₁size hf₁ hf₂ hf₃
  have hnil : hdr ≠ [] := List.ne_nil_of_length_pos (by rw [hhdr]; norm_num [headerSize])
  -- what starts behind the L1 table is kept
  have hkeep : ∀ p bs, lo ≤ p → p + bs.length ≤ w.allocOffset → f.Reads p bs → f₃.Reads p bs := by
    intro p bs hp hend hr
    exact hf₃ p bs hend (hf₂.kept p bs (by omega) (hf₁.kept p bs (by omega) hr))
  have hwritten := hf₂.length_le
  refine ⟨?_, ?_, by omega, fun i hi hne => ?_, fun i j data hK => ?_, h.unset⟩
  · rw [heq]
    exact hf₃ _ _ (by omega) (hf₂.kept _ _ (by omega) (hf₁.reads (.inl hnil)))
  · exact hf₃ _ _ (by omega) (hf₂.reads (.inr (by omega)))
  · obtain ⟨hend, hr⟩ := hf.tables i hi hne
    have := h.table i hne
    exact ⟨by omega, hkeep _ _ (by omega) (by rw [length_l2Bytes]; omega) hr⟩
  · obtain ⟨hne, p, n, hp, hend, hdata, hfar⟩ := h.stored i j data hK
    have := h.pos
    refine ⟨hne, p, n, by omega, hdata.congr fun bs hbs hr => ?_⟩
    subst hbs
    exact hkeep p bs hp hend (hf.kept p bs hfar hr)

theorem packed_reserve {l1Offset l1Size : ℕ} (hl1 : headerSize ≤ l1Offset)
    (hcap : w.out.capacity ≤ 2 ^ 62) :
    Meets (reserve g.clusterSize l1Offset l1Size) w
      (fun _ w' => Packed z g (alignUp g.clusterSize (l1Offset + l1Size * 8)) (fun _ _ => none) w')
      fun _ _ => True := by
  have hle := le_alignUp' (Nat.two_pow_pos g.clusterBits) (l1Offset + l1Size * 8)
  change _ ≤ alignUp g.clusterSize _ at hle
  have hpos : 0 < headerSize := by norm_num [headerSize]
  unfold reserve createOut
  rw [meets_bind, meets_modify, meets_bind]
  unfold Meets ftruncate
  split_ifs
  · trivial
  · refine ⟨by omega, le_rfl, le_rfl, hcap, fun _ h => (h rfl).elim, fun _ _ _ h => (h rfl).elim,
      fun _ _ _ h => ?_, fun _ _ _ => rfl⟩
    cases h

end QCow2.Ctl

end Lbd
