import Lbd.QCow2.ImageOpen

/-!
# Histories of a `QCow2Image`

Every history of an image from `CreateQCow2` on serves a flat byte array, as
long as the L1 table covers the virtual size. The number of L1 entries is
computed with a sum that can wrap.
-/

namespace Lbd.QCow2

open Act

inductive ImageOp
  | write (off : ℕ) (data : List UInt8)
  | trim (off length : ℕ)
  | flush
  | reopen

namespace ImageOp

def exec (z : Codec) : ImageOp → ImageM Unit
  | write off data => QCow2Image.writeAt z data off
  | trim off length => QCow2Image.trim z off length
  | flush => QCow2Image.flush
  | reopen => QCow2Image.reopen

/-- The effect on a flat byte array. -/
def apply (A : ℕ → UInt8) : ImageOp → ℕ → UInt8
  | write off data => overlay A off data
  | trim off length => overlay A off (List.replicate length 0)
  | flush => A
  | reopen => A

/-- The ranges lie inside of the virtual size. -/
def Inside (vsize : ℕ) : ImageOp → Prop
  | write off data => off + data.length ≤ vsize
  | trim off length => off + length ≤ vsize
  | flush => True
  | reopen => True

end ImageOp

variable {z : Codec} {g : Geometry} {vsize : ℕ} {img : QCow2Image} {v : View} {off n : ℕ}
  {A : ℕ → UInt8}

namespace QCow2Image

theorem Serves.of_grows {v₁ : View} (h : Serves z g vsize v₁ A img) (hg : v.Grows v₁) :
    Serves z g vsize v A img := by
  obtain ⟨v', h, hs, hg', hA⟩ := h
  exact ⟨v', h, hs, hg.trans hg', hA⟩

/-- Opening the file gives an image with the byte array `A`. -/
def Saved (z : Codec) (g : Geometry) (vsize : ℕ) (v : View) (A : ℕ → UInt8) (f : File) : Prop :=
  ∃ img, openQCow2File f = .ok img ∧ Serves z g vsize v A img

theorem close_saved (hfit : v.l1Size * 8 < 2 ^ 32) (h : Serves z g vsize v A img) :
    Meets close img (fun _ img' => Saved z g vsize v A img'.f) WriteFailed := by
  obtain ⟨v₁, h₁, hs, hg, rfl⟩ := h
  rw [← hg.l1Size] at hfit
  apply (close_spec h₁ hfit).post
  rintro _ img₂ ⟨v₂, h₂, hfl⟩
  obtain ⟨img₃, hopen, hl1, h₃⟩ :=
    openQCow2File_spec h₂ (hfl.l1Size ▸ hfit) hfl.persisted (hfl.l1Size ▸ hfl.synced)
  refine ⟨img₃, hopen, _, h₃, fun c hc => hfl.settled hs c hc,
    hg.trans ⟨hfl.l1Size, hfl.metaEnd, ?_⟩, hfl.guest⟩
  intro i hi _
  exact (hl1 i (hfl.l1Size ▸ hi)).trans (congrFun hfl.l1 i)

theorem reopen_spec (hfit : v.l1Size * 8 < 2 ^ 32) (h : Serves z g vsize v A img) :
    Meets reopen img (fun _ => Serves z g vsize v A) WriteFailed := by
  simp only [reopen, meets_bind, meets_get]
  apply (close_saved hfit h).post
  rintro _ img₁ ⟨img₂, hopen, hserves⟩
  rw [hopen]
  exact hserves

theorem exec_spec (hspan : vsize ≤ v.span g) (hfit : v.l1Size * 8 < 2 ^ 32)
    (h : Serves z g vsize v A img) {op : ImageOp} (hop : op.Inside vsize) :
    Meets (op.exec z) img (fun _ => Serves z g vsize v (op.apply A)) WriteFailed := by
  obtain ⟨v₁, h₁, hs, hg, rfl⟩ := id h
  rw [← hg.span_eq] at hspan
  have hv := h₁.mem.vsize_lt.le
  cases op with
  | write off data =>
    apply (writeAt_spec h₁ hs (hop.trans hspan) (hop.trans hv)).post
    exact fun _ _ hserves => hserves.of_grows hg
  | trim off length =>
    apply (trim_spec h₁ hs (hop.trans hspan) (hop.trans hv)).post
    exact fun _ _ hserves => hserves.of_grows hg
  | flush =>
    apply (flush_spec h₁ (hg.l1Size ▸ hfit)).post
    rintro _ img' ⟨v', h', hfl⟩
    exact ⟨v', h', hfl.settled hs,
      hg.trans ⟨hfl.l1Size, hfl.metaEnd, fun i _ _ => congrFun hfl.l1 i⟩, hfl.guest⟩
  | reopen => exact reopen_spec hfit h

/-- A history followed by a read. -/
def runThenRead (z : Codec) (ops : List ImageOp) (off n : ℕ) : ImageM (List UInt8) := do
  ops.forM fun op => op.exec z
  readAt z off n

theorem runThenRead_spec (hspan : vsize ≤ v.span g) (hfit : v.l1Size * 8 < 2 ^ 32)
    (h : Serves z g vsize v A img)
    {ops : List ImageOp} (hops : ∀ op ∈ ops, op.Inside vsize) (hn : off + n ≤ vsize) :
    Meets (runThenRead z ops off n) img
      (fun bs _ => bs = window (ops.foldl ImageOp.apply A) off n) WriteFailed := by
  simp only [runThenRead, meets_bind]
  refine (meets_forM (fun pre => Serves z g vsize v (pre.foldl ImageOp.apply A)) h ?_).post ?_
  · intro pre op post img' hl hI
    rw [List.foldl_append]
    exact exec_spec hspan hfit hI (hops op (by simp [hl]))
  · rintro _ img' ⟨v', h', hs, hg, hA⟩
    rw [← hg.span_eq] at hspan
    apply (readAt_spec h' hs (hn.trans hspan) (hn.trans h'.mem.vsize_lt.le)).post
    rintro bs _ ⟨rfl, -⟩
    rw [hA]

end QCow2Image

theorem tableSpan_eq (g : Geometry) : tableSpan g.clusterSize = g.l2Entries * g.clusterSize := rfl

theorem tableSpan_pos (g : Geometry) : 0 < tableSpan g.clusterSize := by
  have := g.le_clusterSize
  exact Nat.mul_pos g.l2Entries_pos (by omega)

theorem tableSpan_lt (g : Geometry) : tableSpan g.clusterSize < 2 ^ 48 := by
  have hc := g.clusterSize_le
  have he := g.eight_mul_l2Entries
  calc g.l2Entries * g.clusterSize
    _ ≤ 2 ^ 21 * 2 ^ 24 := Nat.mul_le_mul (by omega) hc
    _ < 2 ^ 48 := by norm_num

theorem newL1Size_lt (virtualSize clusterSize : ℕ) :
    newL1Size virtualSize clusterSize < 2 ^ 32 := by
  unfold newL1Size
  dsimp only
  split_ifs
  · norm_num
  · exact Nat.mod_lt _ (by norm_num)

theorem newL1Size_covers (hfit : (vsize + tableSpan g.clusterSize - 1) / tableSpan g.clusterSize * 8
      < 2 ^ 32) (hsum : vsize + tableSpan g.clusterSize - 1 < W64) :
    newL1Size vsize g.clusterSize * 8 < 2 ^ 32 ∧
      vsize ≤ newL1Size vsize g.clusterSize * tableSpan g.clusterSize := by
  have hpos := tableSpan_pos g
  have hlt := Nat.lt_div_mul_add hpos (a := vsize + tableSpan g.clusterSize - 1)
  have heq : newL1Size vsize g.clusterSize =
      if (vsize + tableSpan g.clusterSize - 1) / tableSpan g.clusterSize = 0 then 1
      else (vsize + tableSpan g.clusterSize - 1) / tableSpan g.clusterSize := by
    unfold newL1Size
    rw [Nat.mod_eq_of_lt hsum, Nat.mod_eq_of_lt (by omega)]
  rw [heq]
  split_ifs with h0
  · rw [h0] at hlt
    exact ⟨by norm_num, by omega⟩
  · exact ⟨hfit, by omega⟩

theorem newL1Size_wraps (hv : vsize < W64) (hsum : W64 ≤ vsize + tableSpan g.clusterSize - 1) :
    newL1Size vsize g.clusterSize = 1 := by
  have hspan := tableSpan_lt g
  have hmod : (vsize + tableSpan g.clusterSize - 1) % W64 =
      vsize + tableSpan g.clusterSize - 1 - W64 := by
    rw [Nat.mod_eq_sub_mod hsum, Nat.mod_eq_of_lt]
    unfold W64 at *
    omega
  unfold newL1Size
  rw [hmod, Nat.div_eq_of_lt (by omega)]
  rfl

theorem writeAt_beyond_l1 (z : Codec) {i : ℕ} (hbits : img.clusterBits = g.clusterBits)
    (hsize : img.clusterSize = g.clusterSize) (hentries : img.l2Entries = g.l2Entries)
    (hoff : off < W64) (hi : off / tableSpan g.clusterSize = i) (hlow : img.l1Size ≤ i)
    (hhigh : i < 2 ^ 32) :
    QCow2Image.writeAt z [1] off img = (.error (.l1OutOfRange i (img.l1Size - 1)), img) := by
  have hidx : (off % W64) >>> g.clusterBits / g.l2Entries % 2 ^ 32 = i := by
    rw [Nat.mod_eq_of_lt hoff, Nat.shiftRight_eq_div_pow, Nat.div_div_eq_div_mul, Nat.mul_comm]
    change off / tableSpan g.clusterSize % 2 ^ 32 = i
    rw [hi, Nat.mod_eq_of_lt hhigh]
  have hfail : Meets (QCow2Image.writeChunk z [1]
      (chunkAt g.clusterBits g.clusterSize off 0 1)) img (fun _ _ => False)
      fun e img' => e = .l1OutOfRange i (img.l1Size - 1) ∧ img' = img := by
    simp only [QCow2Image.writeChunk, QCow2Image.readCluster, meets_bind, meets_get, chunkAt,
      hentries, hidx]
    rw [if_pos (Or.inl hlow)]
    simp only [meets_pure, QCow2Image.writeCluster, QCow2Image.allocateL2, meets_bind, meets_get,
      hentries, hidx]
    rw [if_pos hlow, meets_throw]
    exact ⟨rfl, rfl⟩
  apply Meets.eq_error
  simp only [QCow2Image.writeAt, meets_bind, meets_get]
  rw [hbits, hsize]
  show Meets (QCow2Image.writeChunk z [1] _ >>= fun _ => pure ()) _ _ _
  rw [meets_bind]
  exact hfail.post fun _ _ hfalse => hfalse.elim

/-- New images of this size hold a flat byte array: a history that no file operation fails in is
followed by a read of the bytes that the same history leaves in an array of zeros. The file
system holds files that an L2 entry can address. -/
def FlatArray (z : Codec) (virtualSize clusterBits : ℕ) : Prop :=
  ∀ capacity ≤ 2 ^ 62, ∀ img,
    createQCow2 (File.empty capacity fun _ => none) virtualSize clusterBits = .ok img →
    ∀ ops : List ImageOp, (∀ op ∈ ops, op.Inside virtualSize) →
    ∀ off n, off + n ≤ virtualSize →
    ∀ r img', QCow2Image.runThenRead z ops off n img = (r, img') → img'.f.failed = false →
      r = .ok (window (ops.foldl ImageOp.apply fun _ => 0) off n)

theorem created_inv {f : File} (hf : f.NoFaults) (hcap : f.capacity ≤ 2 ^ 62)
    (hv : vsize < W64) (h : createQCow2 f vsize g.clusterBits = .ok img) :
    ∃ v, ImageInv z g vsize img v ∧ v.Settled g ∧ v.l1Size = newL1Size vsize g.clusterSize ∧
      v.guest g = (fun _ => 0) ∧ v.metaEnd = v.alloc := by
  obtain ⟨l1Size, allocOffset, hsize, halloc, hle, rfl⟩ := createQCow2_eq h
  have hbelow : headerSize + l1Size * 8 ≤ allocOffset :=
    halloc ▸ le_alignUp' (Nat.two_pow_pos _) _
  have hinv := newImage_inv z (g := g) hf hcap hv (hsize ▸ newL1Size_lt ..) hbelow hle
  exact ⟨_, hinv, fun _ _ => rfl, hsize, newView_guest g _ _ _, rfl⟩

theorem flatArray_of_covers (hv : vsize < W64)
    (hl1 : newL1Size vsize g.clusterSize * 8 < 2 ^ 32)
    (hspan : vsize ≤ newL1Size vsize g.clusterSize * tableSpan g.clusterSize) :
    FlatArray z vsize g.clusterBits := by
  intro capacity hcap img hcreate ops hops off n hn r img' hrun hok
  obtain ⟨v, hinv, hs, hsize, hguest, -⟩ := created_inv (z := z) (fun _ => rfl) hcap hv hcreate
  have hserves : QCow2Image.Serves z g vsize v (fun _ => 0) img := ⟨v, hinv, hs, .refl v, hguest⟩
  have hcovers : vsize ≤ v.span g := by
    unfold View.span
    rwa [hsize, ← tableSpan_eq]
  have hspec := QCow2Image.runThenRead_spec hcovers (hsize ▸ hl1) hserves hops hn
  cases r with
  | ok bs => exact congrArg _ (hspec.of_eq_ok hrun)
  | error e =>
    have hfailed : img'.f.failed = true := hspec.of_eq_error hrun
    rw [hok] at hfailed
    cases hfailed

/-- An image with one L1 entry can be made, and not be written behind that entry's span. -/
theorem createQCow2_single (z : Codec) (g : Geometry) (hl1 : newL1Size vsize g.clusterSize = 1) :
    ∃ img, createQCow2 (File.empty (2 ^ 62) fun _ => none) vsize g.clusterBits = .ok img ∧
      QCow2Image.writeAt z [1] (tableSpan g.clusterSize) img =
        (.error (.l1OutOfRange 1 0), img) ∧ img.f.failed = false := by
  have hcap : alignUp g.clusterSize (headerSize + 1 * 8) ≤ 2 ^ 62 := by
    have hc := g.clusterSize_le
    have := Nat.div_mul_le_self (headerSize + 1 * 8 + g.clusterSize - 1) g.clusterSize
    unfold alignUp headerSize at *
    omega
  refine ⟨_, createQCow2_ok g (fun _ => rfl) hl1.symm rfl hcap, ?_, rfl⟩
  exact writeAt_beyond_l1 z rfl rfl rfl ((tableSpan_lt g).trans (by decide))
    (Nat.div_self (tableSpan_pos g)) le_rfl (by decide)

/-- A new image holds a flat byte array exactly if the sum that counts its L1 entries does not
wrap. -/
theorem flatArray_iff (z : Codec) {virtualSize clusterBits : ℕ} (hlower : 12 ≤ clusterBits)
    (hupper : clusterBits ≤ 24) (hv : virtualSize < W64)
    (hfit : (virtualSize + tableSpan (2 ^ clusterBits) - 1) / tableSpan (2 ^ clusterBits) * 8
      < 2 ^ 32) :
    FlatArray z virtualSize clusterBits ↔
      virtualSize + tableSpan (2 ^ clusterBits) - 1 < W64 := by
  let g : Geometry := ⟨clusterBits, hlower, hupper⟩
  constructor
  · intro hflat
    by_contra hsum
    have hwrap : W64 ≤ virtualSize + tableSpan g.clusterSize - 1 := Nat.not_lt.mp hsum
    obtain ⟨img, hcreate, hwrite, hok⟩ := createQCow2_single z g (newL1Size_wraps hv hwrap)
    have hinside : tableSpan g.clusterSize + 1 ≤ virtualSize := by
      have := tableSpan_lt g
      unfold W64 at hwrap
      omega
    have hrun : QCow2Image.runThenRead z [.write (tableSpan g.clusterSize) [1]] 0 0 img =
        (.error (.l1OutOfRange 1 0), img) := by
      apply Meets.eq_error
      have hfail : Meets (QCow2Image.writeAt z [1] (tableSpan g.clusterSize)) img
          (fun _ _ => False) fun e img' => e = .l1OutOfRange 1 0 ∧ img' = img := by
        unfold Meets
        rw [hwrite]
        exact ⟨rfl, rfl⟩
      show Meets ((QCow2Image.writeAt z [1] _ >>= fun _ => pure ()) >>= fun _ =>
        QCow2Image.readAt z 0 0) _ _ _
      rw [meets_bind, meets_bind]
      exact hfail.post fun _ _ hfalse => hfalse.elim
    have hmem : ∀ op ∈ [ImageOp.write (tableSpan g.clusterSize) [1]], op.Inside virtualSize := by
      simpa [ImageOp.Inside] using hinside
    exact nomatch hflat _ le_rfl img hcreate _ hmem 0 0 (Nat.zero_le _) _ img hrun hok
  · intro hsum
    obtain ⟨hl1, hcovers⟩ := newL1Size_covers (g := g) hfit hsum
    exact flatArray_of_covers (g := g) hv hl1 hcovers

/-- A codec that never compresses. -/
def Codec.none : Codec where
  compress _ := Option.none
  decompress _ _ := Option.none
  decompress_compress _ _ h := nomatch h

theorem flatArray_gigabyte : 2 ^ 30 < W64 ∧ FlatArray Codec.none (2 ^ 30) 16 :=
  ⟨by decide, (flatArray_iff Codec.none (by norm_num) (by norm_num) (by decide) (by decide)).mpr
    (by decide)⟩

/-- A new image of the largest size has one L1 entry and cannot be written at 32 TiB. -/
theorem largest_image_not_writable :
    ∃ img, createQCow2 (File.empty (2 ^ 62) fun _ => none) (2 ^ 64 - 1) 24 = .ok img ∧
      QCow2Image.writeAt Codec.none [1] 35184355311616 img = (.error (.l1OutOfRange 1 0), img) ∧
      img.f.failed = false := by
  have hspan : tableSpan (2 ^ 24) = 35184355311616 := by norm_num [tableSpan, l2TrailerSize]
  have hl1 : newL1Size (2 ^ 64 - 1) (2 ^ 24) = 1 := by
    unfold newL1Size W64
    rw [hspan]
    norm_num
  obtain ⟨img, hcreate, hwrite, hok⟩ :=
    createQCow2_single Codec.none ⟨24, by norm_num, le_rfl⟩ hl1
  exact ⟨img, hcreate, hspan ▸ hwrite, hok⟩

end Lbd.QCow2
