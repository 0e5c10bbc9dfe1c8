import Lbd.QCow2.Layout
import Lbd.QCow2.Requests

/-!
# The invariant of the kernel's device

Between its writes the device keeps every L2 table current in the file, and the
L1 table too. Its free list head and its allocation offset are saved by separate
writes, so views say whether they are.
-/

namespace Lbd.QCow2

open Act

/-- A write has failed, because the file cannot have `K` bytes. -/
def NoRoom (K : ℕ) (_ : Errno) (d : Device) : Prop :=
  d.backingFile.failed = true ∧ d.backingFile.capacity < K

theorem NoRoom.mono {K K' : ℕ} {e : Errno} {d : Device} (h : NoRoom K e d) (hle : K ≤ K') :
    NoRoom K' e d := ⟨h.1, h.2.trans_le hle⟩

namespace View

def HeadSaved (v : View) : Prop := At v.metaByte 48 (beBytes 8 v.head)

def AllocSaved (v : View) : Prop := At v.metaByte 36 (beBytes 8 v.alloc)

/-- The metadata after a write. -/
def save (v : View) (off : ℕ) (bs : List UInt8) : View :=
  { v with metaByte := overlay v.metaByte off bs }

/-- The two views differ at most in the allocation state and in the saved free list head. -/
structure Shifts (v v' : View) : Prop where
  l1 : v'.l1 = v.l1
  l1Size : v'.l1Size = v.l1Size
  metaEnd : v'.metaEnd = v.metaEnd
  metaByte : ∀ a, a < 48 ∨ 56 ≤ a → v'.metaByte a = v.metaByte a
  tab : v'.tab = v.tab
  synced : v'.synced = v.synced
  val : v'.val = v.val

theorem Same.shifts {v v' : View} (h : v.Same v') : v.Shifts v' :=
  ⟨h.l1, h.l1Size, h.metaEnd, fun _ _ => congrFun h.metaByte _, h.tab, h.synced, h.val⟩

theorem Shifts.refl (v : View) : v.Shifts v := (Same.refl v).shifts

theorem Shifts.trans {v₁ v₂ v₃ : View} (h : v₁.Shifts v₂) (h' : v₂.Shifts v₃) : v₁.Shifts v₃ where
  l1 := h'.l1.trans h.l1
  l1Size := h'.l1Size.trans h.l1Size
  metaEnd := h'.metaEnd.trans h.metaEnd
  metaByte a ha := (h'.metaByte a ha).trans (h.metaByte a ha)
  tab := h'.tab.trans h.tab
  synced := h'.synced.trans h.synced
  val := h'.val.trans h.val

theorem shifts_saveHead (v : View) : v.Shifts (v.save 48 (beBytes 8 v.head)) :=
  ⟨rfl, rfl, rfl, fun _ _ => overlay_of_not (by rw [length_beBytes]; omega), rfl, rfl, rfl⟩

theorem headSaved_saveHead (v : View) : (v.save 48 (beBytes 8 v.head)).HeadSaved := at_overlay

theorem AllocSaved.of_shifts {v v' : View} (h : v.AllocSaved) (hs : v.Shifts v')
    (ha : v'.alloc = v.alloc) : v'.AllocSaved := by
  unfold AllocSaved
  rw [ha]
  refine At.congr h fun a _ ha' => hs.metaByte a (.inl ?_)
  rw [length_beBytes] at ha'
  omega

end View

/-- What the device holds in memory, apart from the allocation state and the clusters. -/
structure DeviceMem (g : Geometry) (vsize : ℕ) (d : Device) (v : View) : Prop where
  clusterBits : d.clusterBits = g.clusterBits
  clusterSize : d.clusterSize = g.clusterSize
  l2Entries : d.l2Entries = g.l2Entries
  virtualSize : d.virtualSize = vsize
  vsize_lt : vsize < W64
  l1 : d.l1Table = v.l1
  l1Size : d.l1Size = v.l1Size
  l1Size_lt : v.l1Size < 2 ^ 32
  l1Offset : d.l1Offset = headerSize
  l1_le : d.l1Offset + 8 * v.l1Size ≤ v.metaEnd
  fixed : At v.metaByte 0 (fixedHeader g.clusterBits vsize d.l1Offset v.l1Size)
  l1Saved : At v.metaByte d.l1Offset (tableBytes v.l1Size v.l1)
  l2 : d.l2Cache.Coherent fun s : Slot (ℕ → ℕ) =>
    s.dirty = false ∧ ∀ j < g.l2Entries, s.val j = v.tab s.key j

structure DeviceInv (z : Codec) (g : Geometry) (vsize : ℕ) (d : Device) (v : View) : Prop where
  mem : DeviceMem g vsize d v
  layout : Layout z g d.backingFile v
  noFaults : d.backingFile.NoFaults
  capacity : d.backingFile.capacity ≤ 2 ^ 62
  size_le : d.backingFile.size ≤ d.backingFile.capacity
  alloc : d.allocOffset = v.alloc
  head : d.freeListHead = v.head
  synced : ∀ i, v.synced i

variable {z : Codec} {g : Geometry} {vsize : ℕ} {d d' : Device} {v v' : View}
  {off n c p i : ℕ} {bs data : List UInt8} {r : Region}
  {α : Type} {E : Errno → Device → Prop}

namespace Device

/-- Only the file and the allocation state have changed. -/
def Allocs (d d' : Device) : Prop :=
  d' = { d with
    backingFile := d'.backingFile, allocOffset := d'.allocOffset, freeListHead := d'.freeListHead }

theorem Allocs.trans {d₁ d₂ d₃ : Device} (h : Allocs d₁ d₂) (h' : Allocs d₂ d₃) :
    Allocs d₁ d₃ := by
  unfold Allocs at *
  rw [h'] at ⊢
  rw [h]

end Device

theorem DeviceMem.of_shifts (h : DeviceMem g vsize d v) (hs : v.Shifts v') (ha : d.Allocs d') :
    DeviceMem g vsize d' v' := by
  rw [ha]
  exact {
    clusterBits := h.clusterBits
    clusterSize := h.clusterSize
    l2Entries := h.l2Entries
    virtualSize := h.virtualSize
    vsize_lt := h.vsize_lt
    l1 := h.l1.trans hs.l1.symm
    l1Size := h.l1Size.trans hs.l1Size.symm
    l1Size_lt := hs.l1Size ▸ h.l1Size_lt
    l1Offset := h.l1Offset
    l1_le := by
      rw [hs.l1Size, hs.metaEnd]
      exact h.l1_le
    fixed := by
      rw [hs.l1Size]
      refine h.fixed.congr fun a _ ha => hs.metaByte a (.inl ?_)
      rw [length_fixedHeader] at ha
      omega
    l1Saved := by
      rw [hs.l1Size, hs.l1]
      refine h.l1Saved.congr fun a ha _ => hs.metaByte a (.inr ?_)
      have : d.l1Offset = 4096 := h.l1Offset
      change d.l1Offset ≤ a at ha
      omega
    l2 := by
      rw [hs.tab]
      exact h.l2 }

theorem DeviceInv.of_layout (h : DeviceInv z g vsize d v) {f : File} {allocOffset freeListHead : ℕ}
    (hl : Layout z g f v') (hs : v.Shifts v') (hf : f.NoFaults)
    (hc : f.capacity = d.backingFile.capacity) (hsize : f.size ≤ f.capacity)
    (ha : allocOffset = v'.alloc) (hh : freeListHead = v'.head) :
    DeviceInv z g vsize
      { d with backingFile := f, allocOffset := allocOffset, freeListHead := freeListHead } v' :=
  ⟨h.mem.of_shifts hs rfl, hl, hf, hc.trans_le h.capacity, hsize, ha, hh,
    fun i => hs.synced ▸ h.synced i⟩

theorem DeviceInv.skip (h : DeviceInv z g vsize d v) :
    DeviceInv z g vsize { d with backingFile := d.backingFile.skip } v :=
  h.of_layout (h.layout.frame le_rfl (fun _ _ => rfl) fun _ _ _ _ _ => rfl) (.refl v)
    h.noFaults.skip rfl h.size_le h.alloc h.head

theorem DeviceInv.put (h : DeviceInv z g vsize d v)
    (hfits : off + bs.length ≤ d.backingFile.capacity)
    (hl : Layout z g (d.backingFile.put off bs) v) :
    DeviceInv z g vsize { d with backingFile := d.backingFile.put off bs } v :=
  h.of_layout hl (.refl v) h.noFaults.put rfl (File.put_size_le h.size_le hfits) h.alloc h.head

theorem DeviceInv.meta_le (h : DeviceInv z g vsize d v) : v.metaEnd ≤ d.backingFile.capacity :=
  h.layout.meta_le_size.trans h.size_le

theorem DeviceInv.header_le (h : DeviceInv z g vsize d v) : 4096 ≤ v.metaEnd :=
  h.layout.header_le

theorem DeviceInv.saveHead (h : DeviceInv z g vsize d v) :
    DeviceInv z g vsize { d with backingFile := d.backingFile.put 48 (beBytes 8 v.head) }
      (v.save 48 (beBytes 8 v.head)) := by
  have hm := h.meta_le
  have hh := h.header_le
  exact h.of_layout (h.layout.putMeta (by rw [length_beBytes]; omega)) v.shifts_saveHead
    h.noFaults.put rfl (File.put_size_le h.size_le (by rw [length_beBytes]; omega)) h.alloc h.head

end Lbd.QCow2
