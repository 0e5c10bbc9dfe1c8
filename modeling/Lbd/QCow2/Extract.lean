import Lbd.QCow2.CompactView
import Lbd.QCow2.Sessions

/-!
# `lbdctl extract`

`extract` writes the bytes of an image to a flat file, whichever programs have filled the image.
-/

namespace Lbd.QCow2.Ctl

open Act Device

variable {z : Codec} {g : Geometry} {vsize : ℕ} {f out : File} {img : Image} {w : Work} {v : View}
  {D : ℕ → List UInt8} {l2 : ℕ → ℕ → ℕ} {c : ℕ}

theorem pwrite_eq {what : Piece} {off : ℕ} {data : List UInt8} (h : w.out.NoFaults)
    (hend : off + data.length ≤ w.out.capacity) (hlen : data.length ≤ maxRw) :
    pwrite what off data w =
      (.ok (), if data = [] then w else { w with out := w.out.put off data }) := by
  unfold pwrite
  by_cases h0 : data = []
  · rw [if_pos h0, if_pos h0]
  · rw [if_neg h0, if_neg (not_lt.mpr hlen), h.writeAt, if_pos hend, if_neg h0]
    rfl

/-- The flat file after the clusters below `k`. -/
structure Copied (cs vsize : ℕ) (D : ℕ → List UInt8) (k : ℕ) (w : Work) : Prop where
  noFaults : w.out.NoFaults
  room : vsize ≤ w.out.capacity
  size : w.out.size = vsize
  byte : ∀ a < vsize, w.out.byte a = if a < k * cs then flat cs D a else 0

theorem flat_of_lt {cs a : ℕ} (hlo : c * cs ≤ a) (hhi : a < (c + 1) * cs) :
    flat cs D a = (D c).getD (a - c * cs) 0 := by
  have hdiv : a / cs = c := Nat.div_eq_of_lt_le hlo hhi
  have hmod := Nat.div_add_mod' a cs
  rw [hdiv] at hmod
  rw [flat, hdiv, show a % cs = a - c * cs by omega]

theorem Copied.skip {cs : ℕ} (h : Copied cs vsize D c w) (hD : D c = List.replicate cs 0) :
    Copied cs vsize D (c + 1) w := by
  refine ⟨h.noFaults, h.room, h.size, fun a ha => ?_⟩
  rw [h.byte a ha]
  have hsucc : (c + 1) * cs = c * cs + cs := Nat.succ_mul c cs
  split_ifs with h1 h2 h2
  · rfl
  · omega
  · rw [flat_of_lt (Nat.not_lt.mp h1) h2, hD, List.getD_replicate _ (by omega)]
  · rfl

theorem Copied.write {cs len : ℕ} (h : Copied cs vsize D c w) (hD : (D c).length = cs)
    (hc : c * cs < vsize) (hlen : len = if vsize < (c + 1) * cs then vsize - c * cs else cs) :
    Copied cs vsize D (c + 1) { w with out := w.out.put (c * cs) ((D c).take len) } := by
  have hsucc : (c + 1) * cs = c * cs + cs := Nat.succ_mul c cs
  have htake : ((D c).take len).length = len := by
    rw [List.length_take, hD]
    split_ifs at hlen <;> omega
  have hend : c * cs + len ≤ vsize := by split_ifs at hlen <;> omega
  refine ⟨h.noFaults.put, h.room, ?_, fun a ha => ?_⟩
  · show (if (D c).take len = [] then w.out.size else max w.out.size _) = vsize
    rw [htake, h.size]
    split_ifs <;> omega
  · show overlay w.out.byte (c * cs) ((D c).take len) a = _
    by_cases hin : c * cs ≤ a ∧ a < c * cs + len
    · rw [overlay, htake, if_pos hin, if_pos (by split_ifs at hlen <;> omega),
        flat_of_lt hin.1 (by split_ifs at hlen <;> omega)]
      simp only [List.getD_eq_getElem?_getD, List.getElem?_take]
      rw [if_pos (by omega)]
    · rw [overlay_of_not (by omega), h.byte a ha]
      split_ifs at hlen ⊢ <;> first | rfl | omega

theorem extractCluster_spec {o : Option (List UInt8)}
    (h : Copied img.clusterSize img.virtualSize D c w) (hread : readCluster z img l2 c = .ok o)
    (ho : D c = o.getD (List.replicate img.clusterSize 0)) (hD : (D c).length = img.clusterSize)
    (hcs : img.clusterSize ≤ maxRw) (hc : c * img.clusterSize < img.virtualSize) :
    Meets (extractCluster z img l2 c) w
      (fun _ => Copied img.clusterSize img.virtualSize D (c + 1)) fun _ _ => False := by
  unfold extractCluster
  rw [meets_bind, hread, meets_ofExcept_ok]
  cases o with
  | none => exact h.skip ho
  | some data =>
    obtain rfl : D c = data := ho
    have hnext := h.write hD hc rfl
    have hsucc : (c + 1) * img.clusterSize = c * img.clusterSize + img.clusterSize :=
      Nat.succ_mul ..
    dsimp only
    generalize hlen : (if img.virtualSize < (c + 1) * img.clusterSize then
      img.virtualSize - c * img.clusterSize else img.clusterSize) = len at hnext
    have hle : ((D c).take len).length ≤ len := List.length_take_le ..
    have hroom := h.room
    have hcs0 : 0 < img.clusterSize := Nat.two_pow_pos _
    have hpos : (D c).take len ≠ [] := by
      apply List.ne_nil_of_length_pos
      rw [List.length_take, hD]
      split_ifs at hlen <;> omega
    apply meets_of_ok (pwrite_eq h.noFaults (by split_ifs at hlen <;> omega)
      (by split_ifs at hlen <;> omega))
    rw [if_neg hpos]
    exact hnext

theorem cmdExtract_spec (himg : openImage f = .ok img)
    (hload : loadTables img img.l1Size = .ok l2) (hout : out.NoFaults)
    (hroom : img.virtualSize ≤ out.capacity) (hsize : img.virtualSize < 2 ^ 63)
    (hcs : img.clusterSize ≤ maxRw)
    (hread : ∀ c, c * img.clusterSize < img.virtualSize → ∃ o, readCluster z img l2 c = .ok o ∧
      D c = o.getD (List.replicate img.clusterSize 0) ∧ (D c).length = img.clusterSize) :
    Meets (cmdExtract z) (start f out) (fun _ w => w.out.size = img.virtualSize ∧
      ∀ a < img.virtualSize, w.out.byte a = flat img.clusterSize D a) fun _ _ => False := by
  have hmax : maxRw = 0x7ffff000 := rfl
  have hpos : 0 < img.clusterSize := Nat.two_pow_pos _
  have htotal : img.totalClusters = (img.virtualSize + img.clusterSize - 1) / img.clusterSize := by
    unfold Image.totalClusters
    rw [Nat.mod_eq_of_lt (by unfold W64; omega)]
  unfold cmdExtract
  simp only [meets_bind, meets_get]
  change Meets (ofExcept (openImage f)) _ _ _
  rw [himg, meets_ofExcept_ok]
  unfold createOut
  rw [meets_modify]
  have htrunc : ftruncate img.virtualSize { start f out with out := out.truncate 0 } =
      (.ok (), { start f out with out := (out.truncate 0).truncate img.virtualSize }) := by
    unfold ftruncate
    exact if_neg (not_or.mpr ⟨not_le.mpr hsize, not_lt.mpr hroom⟩)
  apply meets_of_ok htrunc
  rw [hload, meets_ofExcept_ok]
  -- the file has its size from the start, so a hole is already written when it is skipped
  refine (meets_forM_range (fun k => Copied img.clusterSize img.virtualSize D k) ?_ ?_).post ?_
  · refine ⟨hout, hroom, rfl, fun a ha => ?_⟩
    show (if a < img.virtualSize then if a < 0 then out.byte a else 0 else 0) = _
    simp
  · intro k hk w hw
    have hlt : k * img.clusterSize < img.virtualSize := by
      rw [htotal, Nat.lt_div_iff_mul_lt hpos] at hk
      omega
    obtain ⟨o, ho, hDo, hlen⟩ := hread k hlt
    exact extractCluster_spec hw ho hDo hlen hcs hlt
  · intro _ w hw
    refine ⟨hw.size, fun a ha => ?_⟩
    rw [hw.byte a ha, if_pos]
    rw [htotal]
    have hceil : img.virtualSize ≤
        (img.virtualSize + img.clusterSize - 1) / img.clusterSize * img.clusterSize := by
      have := Nat.div_add_mod' (img.virtualSize + img.clusterSize - 1) img.clusterSize
      have := Nat.mod_lt (img.virtualSize + img.clusterSize - 1) hpos
      omega
    omega

theorem readEntry_of_loadData {e : ℕ} {data : List UInt8} (hb : img.clusterBits = g.clusterBits)
    (h : loadData z img.f img.clusterSize e = some data) : readEntry z img c e = .ok data := by
  have hmax : maxRw = 0x7ffff000 := rfl
  have hcs : img.clusterSize ≤ 2 ^ 24 := by
    rw [Image.clusterSize, hb]
    exact g.clusterSize_le
  have hphys : physOffset e ≤ 0x3FFFFFFFFFFFFFFF := Nat.and_le_right
  unfold readEntry
  unfold loadData at h
  split_ifs at h ⊢ with hc
  · cases hsize : img.f.readAt (physOffset e) 4 with
    | none => simp [hsize] at h
    | some buf =>
      simp only [hsize] at h
      rw [preadOr_eq_ok.mpr (pread_of_readAt hsize (by omega) (by omega))]
      dsimp only [bind, Except.bind]
      split_ifs at h with hbound
      -- both readers have the same bound on the compressed size
      have hcap : ¬ compCap img.clusterSize < get32 buf 0 := by
        rwa [compCap, if_neg (by omega)]
      rw [if_neg hcap]
      cases hcomp : img.f.readAt (physOffset e + 4) (get32 buf 0) with
      | none => simp [hcomp] at h
      | some comp =>
        simp only [hcomp, Option.filter_eq_some_iff, decide_eq_true_eq] at h
        have hle : get32 buf 0 ≤ maxRw := by
          unfold compressBound at hbound
          omega
        rw [preadOr_eq_ok.mpr (pread_of_readAt hcomp (by omega) hle)]
        dsimp only
        rw [decompressCluster, h.1]
        exact if_neg (not_not.mpr h.2)
  · exact preadOr_eq_ok.mpr (pread_of_readAt h (by omega) (by omega))

theorem cmdExtract_reads (himg : openImage f = .ok img) (hb : img.clusterBits = g.clusterBits)
    (htables : ∀ i < img.l1Size, img.l1Table i ≠ 0 → TableReads img i) (hout : out.NoFaults)
    (hroom : img.virtualSize ≤ out.capacity) (hsize : img.virtualSize < 2 ^ 63)
    (hD : ∀ c, c * g.clusterSize < img.virtualSize →
      if entryAt img c = 0 then D c = List.replicate g.clusterSize 0
      else loadData z img.f g.clusterSize (entryAt img c) = some (D c)) :
    Meets (cmdExtract z) (start f out) (fun _ w => w.out.size = img.virtualSize ∧
      ∀ a < img.virtualSize, w.out.byte a = flat g.clusterSize D a) fun _ _ => False := by
  have hlower := g.lower
  have hupper := g.upper
  have hcs : img.clusterSize = g.clusterSize := congrArg (2 ^ ·) hb
  have hmax : maxRw = 0x7ffff000 := rfl
  have hle := g.clusterSize_le
  have hn : img.l2Entries ≠ 0 := by
    rw [l2Entries_eq hb]
    exact g.l2Entries_pos.ne'
  obtain ⟨l2, hload, hl⟩ := loadTables_of_reads (by omega) (by omega) htables
  rw [← hcs] at hD ⊢
  refine cmdExtract_spec himg hload hout hroom hsize (by omega) fun c hc => ?_
  have hDc := hD c hc
  rw [readCluster_eq hn hl]
  split_ifs at hDc ⊢ with h0
  · exact ⟨none, rfl, hDc, by rw [hDc, List.length_replicate]⟩
  · have hread := readEntry_of_loadData (c := c) hb hDc
    rw [hread]
    exact ⟨some (D c), rfl, rfl, length_of_readEntry hread⟩

end Lbd.QCow2.Ctl
