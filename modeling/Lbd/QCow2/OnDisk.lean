import Lbd.QCow2.ImageSound
import Lbd.QCow2.KernelRuns

/-!
# Images at rest

What a file holds while neither program has the image open. Each program finds
such a file acceptable and leaves one when it closes the image.
-/

namespace Lbd.QCow2

open Act

variable {z : Codec} {g : Geometry} {vsize : ℕ} {B : ℕ → List UInt8} {f : File} {d d' : Device}
  {img : QCow2Image} {v v' : View} {E : Errno → Device → Prop}

/-- The file holds the view: memory could be rebuilt from it. -/
structure OnDisk (z : Codec) (g : Geometry) (vsize : ℕ) (f : File) (v : View) : Prop
    extends Sound f where
  layout : Layout z g f v
  capacity : f.capacity ≤ 2 ^ 62
  vsize_lt : vsize < W64
  l1Size_lt : v.l1Size < 2 ^ 32
  l1_le : headerSize + 8 * v.l1Size ≤ v.metaEnd
  fixed : At v.metaByte 0 (fixedHeader g.clusterBits vsize headerSize v.l1Size)
  persisted : v.Persisted headerSize
  synced : ∀ i, v.synced i
  settled : v.Settled g

namespace OnDisk

theorem at_byte (h : OnDisk z g vsize f v) {off : ℕ} {bs : List UInt8} (hat : At v.metaByte off bs)
    (hend : off + bs.length ≤ v.metaEnd) : At f.byte off bs :=
  hat.congr fun a _ ha => h.layout.metaByte a (by omega)

theorem header (h : OnDisk z g vsize f v) :
    HeaderFields (window f.byte 0 headerSize) g.clusterBits vsize headerSize v.l1Size v.alloc
      v.head := by
  have hhdr := h.layout.header_le
  have halloc := h.layout.alloc_le
  have hbits := g.upper
  have hl1 := h.l1Size_lt
  unfold headerSize at hhdr
  exact headerFields (h.at_byte h.fixed (by rw [length_fixedHeader]; omega))
    (h.at_byte h.persisted.alloc (by rw [length_beBytes]; omega))
    (h.at_byte h.persisted.head (by rw [length_beBytes]; omega))
    (by omega) h.vsize_lt (by norm_num [headerSize]) hl1 (by omega) h.layout.head_lt

theorem readHeader (h : OnDisk z g vsize f v) :
    f.readAt 0 headerSize = some (window f.byte 0 headerSize) := by
  have := h.layout.header_le.trans h.layout.meta_le_size
  exact if_pos (by omega)

theorem readL1 (h : OnDisk z g vsize f v) :
    f.readAt headerSize (v.l1Size * 8) = some (tableBytes v.l1Size v.l1) := by
  have hlen := length_tableBytes v.l1Size v.l1
  have hle := h.l1_le
  have hsize := h.layout.meta_le_size
  have hr : f.Reads headerSize (tableBytes v.l1Size v.l1) :=
    ⟨by omega, h.at_byte h.persisted.l1 (by omega)⟩
  exact hr.readAt (by omega)

theorem l1_eq (h : OnDisk z g vsize f v) {i : ℕ} (hi : i < v.l1Size) :
    get64 (tableBytes v.l1Size v.l1) (8 * i) = v.l1 i :=
  get64_tableBytes hi (h.layout.l1_lt hi)

/-- The view with the L1 table that was read back. -/
def reread (v : View) : View := { v with l1 := fun i => get64 (tableBytes v.l1Size v.l1) (8 * i) }

theorem reread_onDisk (h : OnDisk z g vsize f v) : OnDisk z g vsize f (reread v) :=
  { h with
    layout := h.layout.l1_congr fun _ hi => h.l1_eq hi
    persisted := ⟨by
        have : tableBytes v.l1Size (reread v).l1 = tableBytes v.l1Size v.l1 :=
          tableBytes_congr fun _ hi => h.l1_eq hi
        show At v.metaByte headerSize (tableBytes v.l1Size (reread v).l1)
        rw [this]
        exact h.persisted.l1, h.persisted.alloc, h.persisted.head⟩ }

end OnDisk

theorem OnDisk.serving (h : OnDisk z g vsize f v) (hfile : d.backingFile = f)
    (hbits : d.clusterBits = g.clusterBits) (hcs : d.clusterSize = g.clusterSize)
    (hentries : d.l2Entries = g.l2Entries) (hvs : d.virtualSize = vsize)
    (hl1 : d.l1Table = v.l1) (hl1s : d.l1Size = v.l1Size) (hl1o : d.l1Offset = headerSize)
    (ha : d.allocOffset = v.alloc) (hhd : d.freeListHead = v.head)
    (hl2 : ∀ i, (d.l2Cache i).valid = false) (hcl : ∀ i, (d.clCache i).valid = false)
    (hmiss : d.missHandler = none) (hB : BaseShows z g d.base B) :
    Serving z g vsize B d v where
  mem := {
    clusterBits := hbits
    clusterSize := hcs
    l2Entries := hentries
    virtualSize := hvs
    vsize_lt := h.vsize_lt
    l1 := hl1
    l1Size := hl1s
    l1Size_lt := h.l1Size_lt
    l1Offset := hl1o
    l1_le := hl1o ▸ h.l1_le
    fixed := hl1o ▸ h.fixed
    l1Saved := hl1o ▸ h.persisted.l1
    l2 := Cache.coherent_of_invalid hl2 }
  layout := hfile ▸ h.layout
  noFaults := hfile ▸ h.noFaults
  capacity := hfile ▸ h.capacity
  size_le := hfile ▸ h.size_le
  alloc := ha
  head := hhd
  synced := h.synced
  settled := h.settled
  headSaved := h.persisted.head
  noHandler := hmiss
  shows := hB
  clusters := Cache.coherent_of_invalid hcl

/-- A device whose header and L1 table in the file are current could be rebuilt from there. -/
theorem Serving.onDisk (h : Serving z g vsize B d v) (ha : v.AllocSaved) :
    OnDisk z g vsize d.backingFile v where
  noFaults := h.noFaults
  size_le := h.size_le
  layout := h.layout
  capacity := h.capacity
  vsize_lt := h.mem.vsize_lt
  l1Size_lt := h.mem.l1Size_lt
  l1_le := h.mem.l1Offset ▸ h.mem.l1_le
  fixed := h.mem.l1Offset ▸ h.mem.fixed
  persisted := ⟨h.mem.l1Offset ▸ h.mem.l1Saved, ha, h.headSaved⟩
  synced := h.synced
  settled := h.settled

namespace Device

/-- The only image at rest that `lbd_qcow2_init` refuses has an L1 table that is too long for one
`kernel_read`. -/
theorem init_spec (h : OnDisk z g vsize d.backingFile v) (hmiss : d.missHandler = none) :
    Meets init d (fun _ d' => d'.base = d.base ∧ ∀ B base, BaseShows z g base B →
      Serving z g vsize B { d' with base := base } (OnDisk.reread v))
      (fun _ d' => maxRw < v.l1Size * 8 ∧ d'.backingFile = d.backingFile) := by
  have hf := h.header
  have hread := h.readHeader
  have hlow := g.lower
  have hup := g.upper
  generalize window d.backingFile.byte 0 headerSize = hdr at hf hread
  simp only [init, meets_bind, meets_get, hread]
  rw [if_neg (not_not.mpr hf.magic), if_neg (not_not.mpr hf.version)]
  simp only [meets_bind, meets_modify]
  rw [if_neg (by rw [hf.clusterBits]; omega)]
  simp only [meets_bind, meets_modify]
  rw [hf.l1Offset, hf.l1Size]
  rcases Nat.lt_or_ge maxRw (v.l1Size * 8) with hlong | hl1
  · rw [File.kernelRead, if_pos hlong]
    exact ⟨hlong, rfl⟩
  rw [File.kernelRead_of_readAt hl1, h.readL1]
  refine ⟨rfl, fun B base hB => ?_⟩
  refine h.reread_onDisk.serving rfl ?_ ?_ ?_ ?_ rfl rfl rfl ?_ ?_ (fun _ => rfl)
    (fun _ => rfl) hmiss
    hB
  · exact hf.clusterBits
  · exact congrArg (2 ^ ·) hf.clusterBits
  · exact congrArg (fun b => (2 ^ b - l2TrailerSize) / 8) hf.clusterBits
  · exact hf.virtualSize
  · exact hf.allocOffset
  · exact hf.freeListHead

theorem init_serving (h : OnDisk z g vsize d.backingFile v) (hl1 : v.l1Size * 8 ≤ maxRw)
    (hmiss : d.missHandler = none) :
    Meets init d (fun _ d' => d'.base = d.base ∧ ∀ B base, BaseShows z g base B →
      Serving z g vsize B { d' with base := base } (OnDisk.reread v)) E :=
  (init_spec h hmiss).imp (fun _ _ h' => h') fun _ _ he => absurd he.1 (not_lt.mpr hl1)

theorem destroy_onDisk (h : Serving z g vsize B d v) :
    Meets destroy d (fun _ d' => ∃ v', OnDisk z g vsize d'.backingFile v' ∧ v.Grows v' ∧
      v'.val = v.val ∧ v'.alloc = v.alloc) E := by
  unfold destroy
  rw [meets_bind]
  apply meets_of_ok (flushAllL2_clean fun i hi => (h.mem.l2.holds i hi).1)
  simp only [ignore, meets_bind, meets_attempt, meets_pure]
  apply (writeAllocOffset_spec h.toDeviceInv).imp _ fun _ _ he => he
  rintro _ d₁ ⟨hk₁, h₁⟩
  have hs₁ : Serving z g vsize B d₁ (v.save 36 (beBytes 8 v.alloc)) :=
    h.of_keeps hk₁.keeps h₁ h.settled
      (At.overlay_of_disjoint h.headSaved (by simp only [length_beBytes]; omega)) h.clusters
  apply (writeFreeListHead_spec h₁).imp _ fun _ _ he => he
  intro _ d₂ h₂
  have hs₂ := hs₁.of_keeps h₂.allocs.keeps h₂.inv h.settled at_overlay hs₁.clusters
  have ha : (v.save 36 (beBytes 8 v.alloc)).AllocSaved := at_overlay
  exact ⟨_, hs₂.onDisk (View.AllocSaved.of_shifts ha h₂.shifts rfl),
    (v.grows_save ..).trans (View.grows_save ..), rfl, rfl⟩

end Device

namespace QCow2Image

theorem close_rests (hfit : v.l1Size * 8 < 2 ^ 32) (hsound : Sound img.f)
    (h : ImageInv z g vsize img v) (hs : v.Settled g) :
    Meets close img (fun _ img' => ∃ v', OnDisk z g vsize img'.f v' ∧ v.Grows v' ∧ v'.val = v.val)
      WriteFailed := by
  have hclose := (close_spec h hfit).and (keepsSound_close.meets hsound)
  apply hclose.imp _ fun _ _ he => he.1
  rintro _ img₂ ⟨⟨v₂, h₂, hfl⟩, hsound₂⟩
  have hsync := h₂.layout.synced
  refine ⟨{ v₂ with synced := fun _ => True }, ?_, ?_, hfl.val⟩
  · exact {
      noFaults := hsound₂.noFaults
      size_le := hsound₂.size_le
      layout := { h₂.layout with
        synced := fun i hi h0 _ => hsync i hi h0 (hfl.synced i (hfl.l1Size ▸ hi)) }
      capacity := h₂.capacity
      vsize_lt := h₂.mem.vsize_lt
      l1Size_lt := h₂.mem.l1Size_lt
      l1_le := h₂.mem.l1_le
      fixed := h₂.mem.fixed
      persisted := ⟨hfl.persisted.l1, hfl.persisted.alloc, hfl.persisted.head⟩
      synced := fun _ => trivial
      settled := hfl.settled hs }
  · exact ⟨hfl.l1Size, hfl.metaEnd, fun i _ _ => congrFun hfl.l1 i⟩

end QCow2Image

theorem sound_newFile {virtualSize clusterBits l1Size allocOffset : ℕ} (hf : f.NoFaults)
    (hsize : f.size ≤ f.capacity) (hl1 : headerSize + l1Size * 8 ≤ allocOffset)
    (hle : allocOffset ≤ f.capacity) :
    Sound (newFile f virtualSize clusterBits l1Size allocOffset) := by
  have hmod := Nat.mod_le (l1Size * 8) (2 ^ 32)
  refine ⟨hf, max_le (File.put_size_le (File.put_size_le hsize ?_) ?_) hle⟩
  · rw [length_newHeader]
    show 0 + headerSize ≤ f.capacity
    omega
  · rw [List.length_replicate]
    show headerSize + l1Size * 8 % 2 ^ 32 ≤ f.capacity
    omega

/-- A new image that the daemon has closed again. -/
def Created (virtualSize clusterBits : ℕ) (f : File) : Prop :=
  ∃ capacity img img', capacity ≤ 2 ^ 62 ∧
    createQCow2 (File.empty capacity fun _ => none) virtualSize clusterBits = .ok img ∧
    QCow2Image.close img = (.ok (), img') ∧ f = img'.f

/-- The L1 table of a new image covers its size and can be written. -/
structure Creatable (virtualSize clusterBits : ℕ) : Prop where
  lower : 12 ≤ clusterBits
  upper : clusterBits ≤ 24
  l1_lt : (virtualSize + tableSpan (2 ^ clusterBits) - 1) / tableSpan (2 ^ clusterBits) * 8 < 2 ^ 32
  sum_lt : virtualSize + tableSpan (2 ^ clusterBits) - 1 < W64

def Creatable.geometry {virtualSize clusterBits : ℕ} (h : Creatable virtualSize clusterBits) :
    Geometry := ⟨clusterBits, h.lower, h.upper⟩

theorem Creatable.fits {clusterBits : ℕ} (hc : Creatable vsize clusterBits) :
    newL1Size vsize (2 ^ clusterBits) * 8 < 2 ^ 32 :=
  (newL1Size_covers (g := hc.geometry) hc.l1_lt hc.sum_lt).1

/-- The limits of the kernel on an image: it reads the L1 table with one `kernel_read`, and the
offsets of a device are `loff_t`. -/
structure Attachable (virtualSize clusterBits : ℕ) : Prop extends
    Creatable virtualSize clusterBits where
  l1_le : newL1Size virtualSize (2 ^ clusterBits) * 8 ≤ maxRw
  size_lt : virtualSize < 2 ^ 63

theorem Created.onDisk {clusterBits : ℕ} (hc : Creatable vsize clusterBits)
    (h : Created vsize clusterBits f) :
    ∃ v, OnDisk z hc.geometry vsize f v ∧ vsize ≤ v.span hc.geometry ∧
      v.l1Size = newL1Size vsize (2 ^ clusterBits) ∧ v.val = fun _ => none := by
  obtain ⟨capacity, img, img', hcap, hcreate, hclose, rfl⟩ := h
  have hpos := tableSpan_pos hc.geometry
  have hv : vsize < W64 := by
    have := hc.sum_lt
    change 0 < tableSpan (2 ^ clusterBits) at hpos
    omega
  obtain ⟨hl1, hcovers⟩ := newL1Size_covers (g := hc.geometry) hc.l1_lt hc.sum_lt
  obtain ⟨l1Size, allocOffset, hsize, halloc, hle, rfl⟩ := createQCow2_eq hcreate
  have hbelow : headerSize + l1Size * 8 ≤ allocOffset :=
    halloc ▸ le_alignUp' (Nat.two_pow_pos _) _
  have hinv := newImage_inv z (g := hc.geometry) (fun _ => rfl) hcap hv (hsize ▸ newL1Size_lt ..)
    hbelow hle
  have hsound : Sound (newFile (File.empty capacity fun _ => none) vsize clusterBits l1Size
      allocOffset) := sound_newFile (fun _ => rfl) (Nat.zero_le _) hbelow hle
  rw [show newL1Size vsize hc.geometry.clusterSize = l1Size from hsize.symm] at hl1 hcovers
  obtain ⟨v, hdisk, hg, hval⟩ :=
    (QCow2Image.close_rests hl1 hsound hinv fun _ _ => rfl).of_eq_ok hclose
  refine ⟨v, hdisk, ?_, hg.l1Size.trans hsize, hval⟩
  rw [hg.span_eq]
  unfold View.span
  rwa [← tableSpan_eq]

end Lbd.QCow2
