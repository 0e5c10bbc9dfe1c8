import Lbd.Replay
import Lbd.QCow2.ImageRuns

/-!
# Replay to an image

`lbdlog replay` writes either a flat file (`replayToFlat`) or a qcow2 image
(`replayToQCow2`). Both go through the entries of the segments in order, once, or in
several runs of which all but the first are incremental.
-/

namespace Lbd.ReplayImage

open Act QCow2 QCow2Image Replay

/-- `os.Create` of an existing file. -/
def truncated (f : File) : File :=
  { File.empty f.capacity f.faults with writes := f.writes, failed := f.failed }

/-- `replayToFlat`; the state is the output file. -/
def replayToFlat (logs : List Segment) (deviceSize blockSize : ℕ) (incremental : Bool) :
    Act (Option Flat) Unit Unit := fun output =>
  if incremental = false ∧ 2 ^ 63 ≤ deviceSize then (.error (), some (.create 0))
  else
    match if incremental then output else some (.create deviceSize) with
    | none => (.error (), none)
    | some f =>
      let out := replayEntries blockSize f (logs.flatMap Segment.entries)
      (if out.2 then .ok () else .error (), some out.1)

/-- One entry of a segment; a wrong checksum is only reported. -/
def replayImageEntry (z : Codec) (blockSize : ℕ) (e : Entry) : ImageM Unit :=
  let offset := entryOffset blockSize e
  if e.isWrite then writeAt z e.data offset
  else if e.isTrim then trim z offset e.length
  else pure ()

/-- The loops of `replayToQCow2`; the image is closed in any case. -/
def replayImage (z : Codec) (logs : List Segment) (blockSize : ℕ) : ImageM Unit := do
  let r ← Act.attempt (logs.forM fun log => log.entries.forM (replayImageEntry z blockSize))
  match r with
  | .ok () => close
  | .error e => do
    let _ ← Act.attempt close
    Act.throw e

/-- Run a computation on an opened image and keep the file. -/
def onFile (m : ImageM Unit) (img : QCow2Image) : Except QCow2Error Unit × File :=
  ((m img).1, (m img).2.f)

/-- `replayToQCow2`; the state is the output file. What `CreateQCow2` has written before it
fails is left out. -/
def replayToQCow2 (z : Codec) (logs : List Segment) (deviceSize blockSize : ℕ)
    (incremental : Bool) : Act File QCow2Error Unit := fun f =>
  if incremental then
    match openQCow2File f with
    | .error e => (.error e, f)
    | .ok img => onFile (replayImage z logs blockSize) img
  else
    match createQCow2 (truncated f) deviceSize 16 with
    | .error e => (.error e, (truncated f).skip)
    | .ok img => onFile (replayImage z logs blockSize) img

section Runs

variable {σ ε : Type} (target : List Segment → ℕ → ℕ → Bool → Act σ ε Unit)

/-- A run of `lbdlog replay`: the first header has the device size and the block size. -/
def run (incremental : Bool) : List Segment → Act σ ε Unit
  | [] => pure ()
  | first :: rest =>
    target (first :: rest) first.header.deviceSize first.header.blockSize incremental

/-- A first run and incremental runs over later segments. -/
def runs (first : List Segment) (later : List (List Segment)) : Act σ ε Unit := do
  run target false first
  later.forM (run target true)

end Runs

/-- A range of the virtual content of an image. -/
def readImage (z : Codec) (off n : ℕ) (f : File) : Except QCow2Error (List UInt8) :=
  match openQCow2File f with
  | .error e => .error e
  | .ok img => (readAt z off n img).1

/-- The entry lies inside of the device. -/
def InDevice (deviceSize blockSize : ℕ) (e : Entry) : Prop :=
  (e.op = .write → e.block * blockSize + e.data.length ≤ deviceSize) ∧
    (e.op = .trim → 0 < e.length ∧ e.block * blockSize + e.length ≤ deviceSize)

structure Valid (deviceSize blockSize : ℕ) (seg : Segment) : Prop where
  device : seg.header.deviceSize = deviceSize
  block : seg.header.blockSize = blockSize
  entries : ∀ e ∈ seg.entries, InDevice deviceSize blockSize e

/-- For all segments of such devices, and for all ways to split them into runs: unless a write
to the image fails, the image has the content of the flat file, which is the same for a single
run. -/
def ReplaysAgree (z : Codec) (deviceSize blockSize : ℕ) : Prop :=
  ∀ capacity ≤ 2 ^ 62, ∀ first later, first ≠ [] →
    (∀ logs ∈ first :: later, ∀ seg ∈ logs, Valid deviceSize blockSize seg) →
    ∀ r f, runs (replayToQCow2 z) first later (File.empty capacity fun _ => none) = (r, f) →
      f.failed = false →
      r = .ok () ∧ ∃ flat, runs replayToFlat first later none = (.ok (), some flat) ∧
        runs replayToFlat (first ++ later.flatten) [] none = (.ok (), some flat) ∧
        flat.size = deviceSize ∧
        ∀ off n, off + n ≤ deviceSize → readImage z off n f = .ok (window flat.byte off n)

variable {z : Codec} {g : Geometry} {deviceSize blockSize off n : ℕ} {img : QCow2Image} {v : View}
  {f : Flat} {e : Entry} {logs first : List Segment} {later : List (List Segment)}

theorem entryOffset_eq (h : e.block * blockSize < W64) :
    entryOffset blockSize e = e.block * blockSize := Nat.mod_eq_of_lt h

theorem replayEntry_eq (h : InDevice deviceSize blockSize e) (hdev : deviceSize < 2 ^ 63)
    (f : Flat) :
    replayEntry blockSize f e = some (match e.op with
      | .write => f.writeAt (e.block * blockSize) e.data
      | .trim => f.punchHole (e.block * blockSize) e.length
      | .other _ => f) := by
  unfold replayEntry Entry.isWrite Entry.isTrim
  cases hop : e.op with
  | write =>
    have hin := h.1 hop
    rw [entryOffset_eq (by unfold W64; omega)]
    simp only [decide_true, if_true]
    rw [if_neg (by omega)]
  | trim =>
    obtain ⟨hpos, hin⟩ := h.2 hop
    rw [entryOffset_eq (by unfold W64; omega)]
    simp only [reduceCtorEq, decide_false, Bool.false_eq_true, if_false, decide_true, if_true]
    rw [if_neg (by omega)]
  | other text => simp

theorem apply_eq (h : InDevice deviceSize blockSize e) (hdev : deviceSize < 2 ^ 63) (f : Flat) :
    f.apply blockSize e = match e.op with
      | .write => f.writeAt (e.block * blockSize) e.data
      | .trim => f.punchHole (e.block * blockSize) e.length
      | .other _ => f := by
  rw [Flat.apply, replayEntry_eq h hdev]
  rfl

theorem byte_writeAt (f : Flat) (off : ℕ) (data : List UInt8) :
    (f.writeAt off data).byte = overlay f.byte off data := by
  unfold Flat.writeAt
  split_ifs with h
  · rw [h, overlay_nil]
  · rfl

/-- Inside of the device a flat file takes an entry as the plain array of bytes does. -/
theorem byte_apply (h : InDevice deviceSize blockSize e) (hdev : deviceSize < 2 ^ 63) (f : Flat) :
    (f.apply blockSize e).byte = e.apply blockSize f.byte := by
  funext x
  rw [apply_eq h hdev]
  unfold Entry.apply Entry.byteAt
  generalize e.block * blockSize = off
  cases e.op with
  | write =>
    dsimp only
    rw [byte_writeAt]
    rcases Nat.lt_or_ge x off with hlt | hle
    · rw [if_neg (not_le.mpr hlt), overlay_of_not (.inl hlt)]
      rfl
    · obtain ⟨i, rfl⟩ := Nat.exists_eq_add_of_le hle
      rw [if_pos hle, Nat.add_sub_cancel_left]
      rcases Nat.lt_or_ge i e.data.length with hi | hi
      · rw [overlay_add hi, List.getElem?_eq_getElem hi]
        rfl
      · rw [overlay_of_not (.inr (by omega)), List.getElem?_eq_none hi]
        rfl
  | trim =>
    show overlay f.byte off (List.replicate e.length 0) x =
      (if off ≤ x ∧ x < off + e.length then some 0 else none).getD (f.byte x)
    unfold overlay
    rw [List.length_replicate]
    split_ifs with hin
    · rw [List.getD_eq_getElem _ _ (by rw [List.length_replicate]; omega), List.getElem_replicate]
      rfl
    · rfl
  | other text => rfl

theorem apply_size (h : InDevice deviceSize blockSize e) (hdev : deviceSize < 2 ^ 63)
    (hf : f.size = deviceSize) : (f.apply blockSize e).size = deviceSize := by
  rw [apply_eq h hdev]
  cases hop : e.op with
  | write =>
    have hin := h.1 hop
    unfold Flat.writeAt
    dsimp only
    split_ifs
    · exact hf
    · show max f.size _ = deviceSize
      omega
  | trim => exact hf
  | other text => exact hf

/-- The flat file after the entries of these segments. -/
def flatAfter (blockSize : ℕ) (f : Flat) (logs : List Segment) : Flat :=
  (logs.flatMap Segment.entries).foldl (Flat.apply blockSize) f

theorem flatAfter_append (f : Flat) (logs logs' : List Segment) :
    flatAfter blockSize f (logs ++ logs') =
      flatAfter blockSize (flatAfter blockSize f logs) logs' := by
  simp [flatAfter]

theorem inDevice_of_mem (h : ∀ seg ∈ logs, Valid deviceSize blockSize seg)
    (he : e ∈ logs.flatMap Segment.entries) : InDevice deviceSize blockSize e := by
  obtain ⟨seg, hseg, he⟩ := List.mem_flatMap.mp he
  exact (h seg hseg).entries e he

theorem flatAfter_size (h : ∀ seg ∈ logs, Valid deviceSize blockSize seg)
    (hdev : deviceSize < 2 ^ 63) (hf : f.size = deviceSize) :
    (flatAfter blockSize f logs).size = deviceSize := by
  have hall := fun e => inDevice_of_mem (e := e) h
  unfold flatAfter
  generalize logs.flatMap Segment.entries = es at hall
  induction es generalizing f with
  | nil => exact hf
  | cons e es ih =>
    obtain ⟨he, hes⟩ := List.forall_mem_cons.mp hall
    exact ih (apply_size he hdev hf) hes

/-- The file that `replayToFlat` makes of segments that stay inside of the device holds the bytes
of their replay. -/
theorem flatAfter_byte {segs : List (Name × Segment)}
    (h : ∀ seg ∈ segs, Valid deviceSize blockSize seg.2) (hdev : deviceSize < 2 ^ 63) :
    (flatAfter blockSize (.create deviceSize) (segs.map Prod.snd)).byte = replay segs := by
  have hentries : ∀ es : List Entry, (∀ e ∈ es, InDevice deviceSize blockSize e) → ∀ f : Flat,
      (es.foldl (Flat.apply blockSize) f).byte = es.foldl (Entry.apply blockSize) f.byte := by
    intro es hes
    induction es with
    | nil => exact fun _ => rfl
    | cons e es ih =>
      obtain ⟨he, hes⟩ := List.forall_mem_cons.mp hes
      intro f
      rw [List.foldl_cons, ih hes, byte_apply he hdev]
      rfl
  have hsegs : ∀ f : Flat, (flatAfter blockSize f (segs.map Prod.snd)).byte =
      segs.foldl (fun m s => s.2.apply m) f.byte := by
    induction segs with
    | nil => exact fun _ => rfl
    | cons s segs ih =>
      obtain ⟨hs, hsegs⟩ := List.forall_mem_cons.mp h
      intro f
      have hone : (s.2.entries.foldl (Flat.apply blockSize) f).byte = s.2.apply f.byte := by
        rw [hentries s.2.entries hs.entries, Segment.apply, hs.block]
      rw [List.foldl_cons, ← hone, ← ih hsegs]
      simp [flatAfter]
  exact hsegs _

theorem replayToFlat_spec (h : ∀ seg ∈ logs, Valid deviceSize blockSize seg)
    (hdev : deviceSize < 2 ^ 63) {incremental : Bool} {output : Option Flat}
    (hf : (if incremental then output else some (.create deviceSize)) = some f) :
    Meets (replayToFlat logs deviceSize blockSize incremental) output
      (fun _ out => out = some (flatAfter blockSize f logs)) fun _ _ => False := by
  have hentries : replayEntries blockSize f (logs.flatMap Segment.entries) =
      (flatAfter blockSize f logs, true) := by
    apply replayEntries_eq
    intro e he f
    have hin := inDevice_of_mem h he
    rw [replayEntry_eq hin hdev, apply_eq hin hdev]
  unfold Meets replayToFlat
  rw [if_neg (by omega), hf]
  simp [hentries]

theorem replayImageEntry_spec (hspan : deviceSize ≤ v.span g) (hfit : v.l1Size * 8 < 2 ^ 32)
    (hdev : deviceSize < 2 ^ 63) (he : InDevice deviceSize blockSize e)
    (h : Serves z g deviceSize v f.byte img) :
    Meets (replayImageEntry z blockSize e) img
      (fun _ => Serves z g deviceSize v (f.apply blockSize e).byte) WriteFailed := by
  rw [apply_eq he hdev]
  unfold replayImageEntry Entry.isWrite Entry.isTrim
  cases hop : e.op with
  | write =>
    have hin := he.1 hop
    rw [entryOffset_eq (by unfold W64; omega)]
    simp only [decide_true, if_true, byte_writeAt]
    have hop : (ImageOp.write (e.block * blockSize) e.data).Inside deviceSize := hin
    exact exec_spec hspan hfit h hop
  | trim =>
    obtain ⟨-, hin⟩ := he.2 hop
    rw [entryOffset_eq (by unfold W64; omega)]
    simp only [reduceCtorEq, decide_false, Bool.false_eq_true, if_false, decide_true, if_true]
    have hop : (ImageOp.trim (e.block * blockSize) e.length).Inside deviceSize := hin
    exact exec_spec hspan hfit h hop
  | other text =>
    simp only [reduceCtorEq, decide_false, Bool.false_eq_true, if_false]
    exact h

theorem replayLogs_spec (hspan : deviceSize ≤ v.span g) (hfit : v.l1Size * 8 < 2 ^ 32)
    (hdev : deviceSize < 2 ^ 63) (hlogs : ∀ seg ∈ logs, Valid deviceSize blockSize seg)
    (h : Serves z g deviceSize v f.byte img) :
    Meets (logs.forM fun log => log.entries.forM (replayImageEntry z blockSize)) img
      (fun _ => Serves z g deviceSize v (flatAfter blockSize f logs).byte) WriteFailed := by
  apply meets_forM (fun pre => Serves z g deviceSize v (flatAfter blockSize f pre).byte) h
  intro pre seg post img₁ hl h₁
  have hvalid := hlogs seg (by simp [hl])
  have hseg : flatAfter blockSize f (pre ++ [seg]) =
      seg.entries.foldl (Flat.apply blockSize) (flatAfter blockSize f pre) := by
    rw [flatAfter_append]
    simp [flatAfter]
  rw [hseg]
  apply meets_forM (fun es =>
    Serves z g deviceSize v (es.foldl (Flat.apply blockSize) (flatAfter blockSize f pre)).byte) h₁
  intro es e rest img₂ hl₂ h₂
  rw [List.foldl_append]
  exact replayImageEntry_spec hspan hfit hdev (hvalid.entries e (by simp [hl₂])) h₂

theorem writeFile_failed {op : FileOp} {bs : List UInt8} (h : img.f.failed = true) :
    Meets (writeFile op off bs) img (fun _ img' => img'.f.failed = true) WriteFailed := by
  have hfile : (img.f.writeAt off bs).2.failed = true := by
    unfold File.writeAt
    split
    · dsimp only
      split_ifs <;> rfl
    · split_ifs
      · exact h
      · rfl
  exact meets_always hfile

theorem writeCachedTables_failed (h : img.f.failed = true) :
    Meets writeCachedTables img (fun _ img' => img'.f.failed = true) WriteFailed := by
  simp only [writeCachedTables, meets_bind, meets_get]
  apply meets_forM (fun _ (img' : QCow2Image) => img'.f.failed = true) h
  intro pre i post img₁ _ h₁
  unfold writeCached
  cases img.l2Cache i with
  | none => exact h₁
  | some l2 =>
    simp only [writeL2Table, meets_bind, meets_get]
    exact meets_when (fun _ => writeFile_failed h₁) fun _ => h₁

theorem close_failed (h : img.f.failed = true) :
    Meets close img (fun _ img' => img'.f.failed = true) WriteFailed := by
  simp only [close, meets_bind, meets_get]
  apply meets_when
  · intro _
    simp only [writeL1Table, writeAllocOffset, meets_bind, meets_get]
    apply (writeCachedTables_failed h).post
    intro _ img₁ h₁
    apply meets_ite
    · exact fun _ => h₁
    · intro _
      apply (writeFile_failed h₁).post
      intro _ img₂ h₂
      apply (writeFile_failed h₂).post
      exact fun _ _ => writeFile_failed
  · exact fun _ => h

theorem replayImage_spec (hspan : deviceSize ≤ v.span g) (hfit : v.l1Size * 8 < 2 ^ 32)
    (hdev : deviceSize < 2 ^ 63) (hlogs : ∀ seg ∈ logs, Valid deviceSize blockSize seg)
    (h : Serves z g deviceSize v f.byte img) :
    Meets (replayImage z logs blockSize) img
      (fun _ img' => Saved z g deviceSize v (flatAfter blockSize f logs).byte img'.f)
      WriteFailed := by
  simp only [replayImage, meets_bind, meets_attempt]
  apply (replayLogs_spec hspan hfit hdev hlogs h).imp
  · intro _ img₁ h₁
    exact close_saved hfit h₁
  · intro e img₁ h₁
    simp only [meets_throw]
    apply (close_failed h₁).imp
    · exact fun _ _ hfailed => hfailed
    · exact fun _ _ hfailed => hfailed

/-- The file holds an image of the device with the bytes of the flat file. -/
def Mirrors (z : Codec) (deviceSize : ℕ) (flat : Flat) (f : File) : Prop :=
  ∃ g v, deviceSize ≤ v.span g ∧ v.l1Size * 8 < 2 ^ 32 ∧ Saved z g deviceSize v flat.byte f

/-- Some write to the file has failed. -/
def FileFailed (_ : QCow2Error) (f : File) : Prop := f.failed = true

theorem meets_onFile {m : ImageM Unit} {file : File} (Q : File → Prop)
    (E : QCow2Error → File → Prop)
    (h : Meets m img (fun _ img' => Q img'.f) fun e img' => E e img'.f)
    {k : Act File QCow2Error Unit} (hk : k file = onFile m img) : Meets k file (fun _ => Q) E := by
  unfold Meets at h ⊢
  rw [hk, onFile]
  generalize m img = r at h
  rcases r with ⟨_ | _, _⟩ <;> exact h

theorem incremental_spec {file : File} (hdev : deviceSize < 2 ^ 63)
    (hlogs : ∀ seg ∈ logs, Valid deviceSize blockSize seg) (h : Mirrors z deviceSize f file) :
    Meets (replayToQCow2 z logs deviceSize blockSize true) file
      (fun _ => Mirrors z deviceSize (flatAfter blockSize f logs)) FileFailed := by
  obtain ⟨g, v, hspan, hfit, img, hopen, hserves⟩ := h
  have himage := replayImage_spec hspan hfit hdev hlogs hserves
  refine meets_onFile _ _ (himage.post fun _ img' hsaved => ⟨g, v, hspan, hfit, hsaved⟩) ?_
  unfold replayToQCow2
  rw [if_pos rfl, hopen]

/-- The clusters of the images that `replayToQCow2` makes. -/
def imageGeometry : Geometry := ⟨16, Geometry.lower_sixteen, Geometry.upper_sixteen⟩

/-- The L1 table of an image for the device has a length in bytes below `2^32`. -/
def Covered (deviceSize : ℕ) : Prop :=
  (deviceSize + tableSpan (2 ^ 16) - 1) / tableSpan (2 ^ 16) * 8 < 2 ^ 32

instance (deviceSize : ℕ) : Decidable (Covered deviceSize) := inferInstanceAs (Decidable (_ < _))

theorem tableSpan_image : tableSpan (2 ^ 16) = 8191 * 65536 := by
  norm_num [tableSpan, l2TrailerSize]

theorem Covered.lt (h : Covered deviceSize) : deviceSize < 2 ^ 60 := by
  unfold Covered at h
  rw [tableSpan_image] at h
  omega

theorem scratch_spec {file : File} (hf : file.NoFaults) (hcap : file.capacity ≤ 2 ^ 62)
    (hcover : Covered deviceSize) (hlogs : ∀ seg ∈ logs, Valid deviceSize blockSize seg) :
    Meets (replayToQCow2 z logs deviceSize blockSize false) file
      (fun _ => Mirrors z deviceSize (flatAfter blockSize (.create deviceSize) logs))
      FileFailed := by
  have hdev := hcover.lt
  cases hcreate : createQCow2 (truncated file) deviceSize 16 with
  | error e =>
    unfold Meets replayToQCow2
    rw [if_neg Bool.false_ne_true, hcreate]
    rfl
  | ok img =>
    have hsum : deviceSize + tableSpan imageGeometry.clusterSize - 1 < W64 := by
      show deviceSize + tableSpan (2 ^ 16) - 1 < W64
      rw [tableSpan_image]
      unfold W64
      omega
    obtain ⟨hl1, hspan⟩ := newL1Size_covers (g := imageGeometry) hcover hsum
    obtain ⟨v, hinv, hs, hsize, hguest, -⟩ := created_inv (z := z) (g := imageGeometry)
      (f := truncated file) hf hcap (by unfold W64; omega) hcreate
    have hserves : Serves z imageGeometry deviceSize v (Flat.create deviceSize).byte img :=
      ⟨v, hinv, hs, .refl v, hguest⟩
    have hspan : deviceSize ≤ v.span imageGeometry := by
      unfold View.span
      rwa [hsize, ← tableSpan_eq]
    have hfit : v.l1Size * 8 < 2 ^ 32 := hsize ▸ hl1
    have himage := replayImage_spec hspan hfit (by omega) hlogs hserves
    refine meets_onFile _ _ (himage.post fun _ img' hsaved => ⟨_, v, hspan, hfit, hsaved⟩) ?_
    unfold replayToQCow2
    rw [if_neg Bool.false_ne_true, hcreate]

section Targets

variable {σ ε : Type} {target : List Segment → ℕ → ℕ → Bool → Act σ ε Unit}
  {R : Flat → σ → Prop} {E : ε → σ → Prop} {s : σ}

/-- A target whose runs keep `R` between the flat file and its own output keeps it over every
sequence of runs. -/
theorem runs_spec (hne : first ≠ [])
    (hlogs : ∀ logs ∈ first :: later, ∀ seg ∈ logs, Valid deviceSize blockSize seg)
    (hscratch : (∀ seg ∈ first, Valid deviceSize blockSize seg) →
      Meets (target first deviceSize blockSize false) s
        (fun _ => R (flatAfter blockSize (.create deviceSize) first)) E)
    (hincremental : ∀ logs f s, (∀ seg ∈ logs, Valid deviceSize blockSize seg) → R f s →
      Meets (target logs deviceSize blockSize true) s
        (fun _ => R (flatAfter blockSize f logs)) E) :
    Meets (runs target first later) s
      (fun _ => R (flatAfter blockSize (.create deviceSize) (first ++ later.flatten))) E := by
  have hfirst := hlogs first List.mem_cons_self
  obtain ⟨seg, rest, rfl⟩ := List.exists_cons_of_ne_nil hne
  have hseg := hfirst seg List.mem_cons_self
  rw [runs, meets_bind, run, hseg.device, hseg.block]
  apply (hscratch hfirst).post
  intro _ s₁ h₁
  apply meets_forM fun pre =>
    R (flatAfter blockSize (.create deviceSize) (seg :: rest ++ pre.flatten))
  · rwa [List.flatten_nil, List.append_nil]
  · intro pre logs post s₂ hl h₂
    have hvalid := hlogs logs (by simp [hl])
    rw [List.flatten_append, ← List.append_assoc, List.flatten_singleton, flatAfter_append]
    cases logs with
    | nil => exact h₂
    | cons seg' rest' =>
      have hseg' := hvalid seg' List.mem_cons_self
      rw [run, hseg'.device, hseg'.block]
      exact hincremental _ _ s₂ hvalid h₂

end Targets

theorem flatRuns_eq (hdev : deviceSize < 2 ^ 63) (hne : first ≠ [])
    (hlogs : ∀ logs ∈ first :: later, ∀ seg ∈ logs, Valid deviceSize blockSize seg) :
    runs replayToFlat first later none =
      (.ok (), some (flatAfter blockSize (.create deviceSize) (first ++ later.flatten))) := by
  apply Meets.eq_ok
  have hruns : Meets (runs replayToFlat first later) none
      (fun _ out => out = some (flatAfter blockSize (.create deviceSize)
        (first ++ later.flatten))) fun _ _ => False := by
    apply runs_spec (R := fun f out => out = some f) hne hlogs
    · exact fun hfirst => replayToFlat_spec hfirst hdev rfl
    · rintro logs f _ hvalid rfl
      exact replayToFlat_spec hvalid hdev rfl
  exact hruns.post fun _ _ hout => ⟨rfl, hout⟩

theorem readImage_eq {flat : Flat} {file : File} (h : Mirrors z deviceSize flat file)
    (hn : off + n ≤ deviceSize) : readImage z off n file = .ok (window flat.byte off n) := by
  obtain ⟨g, v, hspan, hfit, img, hopen, v', hinv, hs, hg, hA⟩ := h
  rw [← hg.span_eq] at hspan
  obtain ⟨_, img', heq, rfl, -⟩ :=
    (readAt_spec hinv hs (hn.trans hspan) (hn.trans hinv.mem.vsize_lt.le)).exists_ok
  rw [readImage, hopen, ← hA]
  exact congrArg Prod.fst heq

theorem replaysAgree_of_covered (z : Codec) (hcover : Covered deviceSize) :
    ReplaysAgree z deviceSize blockSize := by
  intro capacity hcap first later hne hlogs r file hrun hok
  have hdev : deviceSize < 2 ^ 63 := by have := hcover.lt; omega
  have hall : ∀ seg ∈ first ++ later.flatten, Valid deviceSize blockSize seg := by
    intro seg hseg
    rcases List.mem_append.mp hseg with hseg | hseg
    · exact hlogs first List.mem_cons_self seg hseg
    · obtain ⟨logs, hl, hseg⟩ := List.mem_flatten.mp hseg
      exact hlogs logs (List.mem_cons_of_mem _ hl) seg hseg
  have hspec : Meets (runs (replayToQCow2 z) first later) (File.empty capacity fun _ => none)
      (fun _ => Mirrors z deviceSize
        (flatAfter blockSize (.create deviceSize) (first ++ later.flatten))) FileFailed := by
    apply runs_spec hne hlogs
    · exact fun hfirst => scratch_spec (fun _ => rfl) hcap hcover hfirst
    · exact fun logs f file hvalid h => incremental_spec hdev hvalid h
  cases r with
  | error e =>
    have hfailed : file.failed = true := hspec.of_eq_error hrun
    rw [hok] at hfailed
    cases hfailed
  | ok a =>
    have hmirrors := hspec.of_eq_ok hrun
    have hsingle : runs replayToFlat (first ++ later.flatten) [] none = _ :=
      flatRuns_eq hdev (by simp [hne]) (List.forall_mem_singleton.mpr hall)
    rw [List.flatten_nil, List.append_nil] at hsingle
    exact ⟨rfl, _, flatRuns_eq hdev hne hlogs, hsingle, flatAfter_size hall hdev rfl,
      fun off n hn => readImage_eq hmirrors hn⟩

/-- An image that has just been made, on a file with enough room. -/
structure Fresh (img : QCow2Image) : Prop where
  readOnly : img.readOnly = false
  l2Cache : ∀ i, img.l2Cache i = none
  noFaults : img.f.NoFaults
  failed : img.f.failed = false
  room : img.l1Offset + img.l1Size * 8 + 56 ≤ img.f.capacity

theorem fresh_newImage {capacity : ℕ} (hcap : 2 ^ 40 ≤ capacity) (deviceSize : ℕ) :
    ∃ img, createQCow2 (truncated (File.empty capacity fun _ => none)) deviceSize 16 = .ok img ∧
      Fresh img ∧ img.l1Size = newL1Size deviceSize (2 ^ 16) ∧
      img.clusterBits = imageGeometry.clusterBits ∧
      img.clusterSize = imageGeometry.clusterSize ∧ img.l2Entries = imageGeometry.l2Entries := by
  have hlt := newL1Size_lt deviceSize (2 ^ 16)
  have hroom : alignUp imageGeometry.clusterSize
      (headerSize + newL1Size deviceSize (2 ^ 16) * 8) ≤ capacity := by
    have := Nat.div_mul_le_self
      (headerSize + newL1Size deviceSize (2 ^ 16) * 8 + 2 ^ 16 - 1) (2 ^ 16)
    show (headerSize + newL1Size deviceSize (2 ^ 16) * 8 + 2 ^ 16 - 1) / 2 ^ 16 * 2 ^ 16 ≤ capacity
    unfold headerSize at *
    omega
  refine ⟨_, createQCow2_ok imageGeometry (fun _ => rfl) rfl rfl hroom, ?_, rfl, rfl, rfl, rfl⟩
  refine ⟨rfl, fun _ => rfl, fun _ => rfl, rfl, ?_⟩
  show headerSize + newL1Size deviceSize (2 ^ 16) * 8 + 56 ≤ capacity
  unfold headerSize
  omega

theorem close_fresh (h : Fresh img) :
    Meets close img (fun _ img' => img.l1Size * 8 < 2 ^ 32 ∧ img'.f.failed = false)
      fun e img' => e = .l1Buffer ∧ img'.f.failed = false := by
  have hroom := h.room
  have htables : Meets writeCachedTables img (fun _ img' => img' = img)
      fun e img' => e = .l1Buffer ∧ img'.f.failed = false := by
    simp only [writeCachedTables, meets_bind, meets_get]
    apply meets_forM (fun _ (img' : QCow2Image) => img' = img) rfl
    rintro pre i post img₁ - rfl
    unfold writeCached
    rw [h.l2Cache i]
    exact rfl
  simp only [close, meets_bind, meets_get]
  apply meets_when
  · intro _
    simp only [writeL1Table, writeAllocOffset, meets_bind, meets_get]
    apply htables.post
    rintro _ img₁ rfl
    apply meets_ite
    · exact fun _ => ⟨rfl, h.failed⟩
    · intro hlt
      apply meets_writeFile_ok
      · refine ⟨h.noFaults _, ?_⟩
        rw [length_tableBytes]
        omega
      · apply meets_writeFile_ok
        · exact ⟨h.noFaults _, by rw [length_beBytes]; show 36 + 8 ≤ img₁.f.capacity; omega⟩
        · apply meets_writeFile_ok
          · exact ⟨h.noFaults _, by rw [length_beBytes]; show 48 + 8 ≤ img₁.f.capacity; omega⟩
          · exact ⟨by omega, h.failed⟩
  · exact fun hn => absurd h.readOnly hn

theorem runs_single {seg : Segment} {file : File} (E : QCow2Error → File → Prop)
    (hvalid : Valid deviceSize blockSize seg)
    (hcreate : createQCow2 (truncated file) deviceSize 16 = .ok img)
    (h : Meets (replayImage z [seg] blockSize) img (fun _ _ => False) fun e img' => E e img'.f) :
    Meets (runs (replayToQCow2 z) [seg] []) file (fun _ _ => False) E := by
  have hfirst : Meets (replayToQCow2 z [seg] deviceSize blockSize false) file (fun _ _ => False)
      E := by
    refine meets_onFile (fun _ => False) E h ?_
    unfold replayToQCow2
    rw [if_neg Bool.false_ne_true, hcreate]
  rw [runs, meets_bind, run, hvalid.device, hvalid.block]
  exact hfirst.post fun _ _ hfalse => hfalse.elim

theorem not_agree_of_fails {capacity : ℕ} {seg : Segment} {err : QCow2Error} {file : File}
    (hcap : capacity ≤ 2 ^ 62) (hvalid : Valid deviceSize blockSize seg)
    (hrun : runs (replayToQCow2 z) [seg] [] (File.empty capacity fun _ => none) =
      (.error err, file)) (hok : file.failed = false) : ¬ ReplaysAgree z deviceSize blockSize := by
  intro hagree
  have hone : ∀ logs ∈ [[seg]], ∀ seg ∈ logs, Valid deviceSize blockSize seg := by
    simpa using hvalid
  exact nomatch (hagree capacity hcap [seg] [] (by simp) hone _ file hrun hok).1

/-- A segment of a device that was not written to. -/
def emptySegment (deviceSize blockSize : ℕ) : Segment := ⟨⟨1, blockSize, [], deviceSize, ""⟩, []⟩

theorem valid_emptySegment (deviceSize blockSize : ℕ) :
    Valid deviceSize blockSize (emptySegment deviceSize blockSize) :=
  ⟨rfl, rfl, fun _ he => nomatch he⟩

/-- Without entries the replay gets to the end, where the L1 table cannot be written. -/
theorem long_fails {capacity : ℕ} (deviceSize blockSize : ℕ) (hcap : 2 ^ 40 ≤ capacity)
    (hlong : 2 ^ 32 ≤ newL1Size deviceSize (2 ^ 16) * 8) :
    ∃ file, runs (replayToQCow2 z) [emptySegment deviceSize blockSize] []
      (File.empty capacity fun _ => none) = (.error .l1Buffer, file) ∧ file.failed = false := by
  obtain ⟨img, hcreate, hfresh, hl1, -⟩ := fresh_newImage hcap deviceSize
  have himage : Meets (replayImage z [emptySegment deviceSize blockSize] blockSize) img
      (fun _ _ => False) fun e img' => e = .l1Buffer ∧ img'.f.failed = false := by
    simp only [replayImage, meets_bind, meets_attempt]
    show Meets close img (fun _ _ => False) _
    apply (close_fresh hfresh).imp
    · rintro _ _ ⟨hlt, -⟩
      omega
    · exact fun _ _ hfail => hfail
  obtain ⟨_, file, hrun, rfl, hok⟩ :=
    (runs_single (fun e file => e = .l1Buffer ∧ file.failed = false)
      (valid_emptySegment deviceSize blockSize) hcreate himage).exists_error
  exact ⟨file, hrun, hok⟩

theorem wrapped_fails {capacity b : ℕ} {seg : Segment} (hcap : 2 ^ 40 ≤ capacity)
    (hvalid : Valid deviceSize blockSize seg)
    (hentries : seg.entries = [⟨.write, 0, 0, b, 1, 0, [1]⟩]) (hoff : b * blockSize < W64)
    (hlow : newL1Size deviceSize (2 ^ 16) ≤ b * blockSize / tableSpan (2 ^ 16))
    (hhigh : b * blockSize / tableSpan (2 ^ 16) < 2 ^ 32) :
    ∃ err file, runs (replayToQCow2 z) [seg] [] (File.empty capacity fun _ => none) =
      (.error err, file) ∧ file.failed = false := by
  obtain ⟨img, hcreate, hfresh, hl1, hbits, hsize, hl2⟩ := fresh_newImage hcap deviceSize
  have hwrite : Meets (writeAt z [1] (b * blockSize % W64)) img (fun _ _ => False)
      fun _ img' => img' = img := by
    have heq := writeAt_beyond_l1 z hbits hsize hl2 hoff rfl (hl1 ▸ hlow) hhigh
    unfold Meets
    rw [Nat.mod_eq_of_lt hoff, heq]
  refine (runs_single (fun _ file => file.failed = false) hvalid hcreate ?_).exists_error
  simp only [replayImage, meets_bind, meets_attempt]
  show Meets (seg.entries.forM (replayImageEntry z blockSize) >>= fun _ => pure ()) img _ _
  rw [hentries]
  show Meets ((writeAt z [1] (b * blockSize % W64) >>= fun _ => pure ()) >>= fun _ => pure ()) img
    _ _
  rw [meets_bind, meets_bind]
  apply hwrite.imp
  · exact fun _ _ hfalse => hfalse.elim
  · rintro _ _ rfl
    simp only [meets_throw]
    apply (close_fresh hfresh).imp
    · exact fun _ _ hok => hok.2
    · exact fun _ _ hok => hok.2

theorem exists_block (hpos : 0 < blockSize) (off : ℕ) :
    ∃ b, off ≤ b * blockSize ∧ b * blockSize < off + blockSize := by
  refine ⟨(off + blockSize - 1) / blockSize, ?_, ?_⟩
  · have := Nat.lt_div_mul_add hpos (a := off + blockSize - 1)
    omega
  · have := Nat.div_mul_le_self (off + blockSize - 1) blockSize
    omega

theorem lt_deviceSize_of_wrapped (hcover : ¬ Covered deviceSize)
    (hshort : newL1Size deviceSize (2 ^ 16) * 8 < 2 ^ 32) :
    (2 ^ 32 - 1) * tableSpan (2 ^ 16) < deviceSize := by
  by_contra hle
  unfold Covered at hcover
  unfold newL1Size W64 at hshort
  rw [tableSpan_image] at *
  dsimp only at hshort
  split_ifs at hshort <;> omega

/-- The two replays agree for a device exactly if the L1 table of its image has a length in
bytes below `2^32`. -/
theorem replaysAgree_iff (z : Codec) (hpos : 0 < blockSize) (hbs : blockSize < 2 ^ 32) :
    ReplaysAgree z deviceSize blockSize ↔
      (deviceSize + tableSpan (2 ^ 16) - 1) / tableSpan (2 ^ 16) * 8 < 2 ^ 32 := by
  constructor
  · intro hagree
    by_contra hcover
    obtain ⟨capacity, hle, hge⟩ : ∃ c, c ≤ 2 ^ 62 ∧ 2 ^ 40 ≤ c := ⟨2 ^ 62, le_rfl, by norm_num⟩
    by_cases hshort : newL1Size deviceSize (2 ^ 16) * 8 < 2 ^ 32
    · have hlt := lt_deviceSize_of_wrapped hcover hshort
      -- the first block that starts behind the span of the L1 table
      obtain ⟨b, hlow, hhigh⟩ :=
        exists_block hpos (newL1Size deviceSize (2 ^ 16) * tableSpan (2 ^ 16))
      have hspan : 0 < tableSpan (2 ^ 16) := by rw [tableSpan_image]; norm_num
      rw [← Nat.le_div_iff_mul_le hspan] at hlow
      rw [tableSpan_image] at hlt hhigh
      have hidx : b * blockSize / tableSpan (2 ^ 16) < 2 ^ 32 := by
        rw [Nat.div_lt_iff_lt_mul hspan, tableSpan_image]
        omega
      have hvalid : Valid deviceSize blockSize
          ⟨⟨1, blockSize, [], deviceSize, ""⟩, [⟨.write, 0, 0, b, 1, 0, [1]⟩]⟩ := by
        refine ⟨rfl, rfl, fun e he => ?_⟩
        obtain rfl := List.mem_singleton.mp he
        refine ⟨fun _ => ?_, fun hop => nomatch hop⟩
        show b * blockSize + 1 ≤ deviceSize
        omega
      obtain ⟨err, file, hrun, hok⟩ :=
        wrapped_fails (z := z) hge hvalid rfl (by unfold W64; omega) hlow hidx
      exact not_agree_of_fails hle hvalid hrun hok hagree
    · obtain ⟨file, hrun, hok⟩ :=
        long_fails (z := z) deviceSize blockSize hge (Nat.not_lt.mp hshort)
      exact not_agree_of_fails hle (valid_emptySegment ..) hrun hok hagree
  · exact replaysAgree_of_covered z

theorem gigabyte_agrees : ReplaysAgree Codec.none (2 ^ 30) 512 :=
  (replaysAgree_iff Codec.none (by norm_num) (by norm_num)).mpr (by decide)

/-- The flat file of a device of 256 PiB that was never written to is made, and its image cannot
be closed, however much room the file system has. -/
theorem large_device_fails :
    Valid (2 ^ 58) 512 (emptySegment (2 ^ 58) 512) ∧
      runs replayToFlat [emptySegment (2 ^ 58) 512] [] none = (.ok (), some (.create (2 ^ 58))) ∧
      ∀ capacity, 2 ^ 40 ≤ capacity →
        ∃ f, runs (replayToQCow2 Codec.none) [emptySegment (2 ^ 58) 512] []
          (File.empty capacity fun _ => none) = (.error .l1Buffer, f) ∧ f.failed = false := by
  have hvalid := valid_emptySegment (2 ^ 58) 512
  have hlong : 2 ^ 32 ≤ newL1Size (2 ^ 58) (2 ^ 16) * 8 := by decide
  refine ⟨hvalid, flatRuns_eq (by norm_num) (by simp) (by simpa using hvalid), ?_⟩
  exact fun capacity hcap => long_fails (2 ^ 58) 512 hcap hlong

end Lbd.ReplayImage
