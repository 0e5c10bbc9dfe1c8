import Lbd.Maintains
import Lbd.QCow2.ImageRuns

/-!
# The file under a `QCow2Image`

No function of the image makes its file longer than the file system allows, and
none causes a fault.
-/

namespace Lbd.QCow2

open Act

/-- A file on a file system without faults. -/
structure Sound (f : File) : Prop where
  noFaults : f.NoFaults
  size_le : f.size ≤ f.capacity

variable {f : File} {off : ℕ} {bs : List UInt8} {z : Codec}

theorem Sound.writeAt (h : Sound f) : Sound (f.writeAt off bs).2 := by
  rw [h.noFaults.writeAt]
  split_ifs with hfits
  · exact ⟨h.noFaults.put, File.put_size_le h.size_le hfits⟩
  · exact ⟨h.noFaults.skip, h.size_le⟩

namespace QCow2Image

abbrev KeepsSound {α : Type} (m : ImageM α) : Prop := Maintains (fun img => Sound img.f) m

theorem keepsSound_writeFile (op : FileOp) (off : ℕ) (bs : List UInt8) :
    KeepsSound (writeFile op off bs) := fun _ h => h.writeAt

theorem keepsSound_writeCached (l2Cache : ℕ → Option (ℕ → ℕ)) (i : ℕ) :
    KeepsSound (writeCached l2Cache i) := by
  unfold writeCached
  cases l2Cache i with
  | none => exact maintains_pure _
  | some l2 =>
    exact Maintains.bind maintains_get fun _ => maintains_when (keepsSound_writeFile _ _ _)

theorem keepsSound_flush : KeepsSound flush := by
  refine Maintains.bind ?_ fun _ => Maintains.bind ?_ fun _ => ?_
  · exact Maintains.bind maintains_get fun _ => maintains_forM (keepsSound_writeCached _) _
  · exact Maintains.bind maintains_get fun _ =>
      maintains_ite (maintains_throw _) (keepsSound_writeFile _ _ _)
  · refine Maintains.bind maintains_get fun _ => ?_
    exact Maintains.bind (keepsSound_writeFile _ _ _) fun _ => keepsSound_writeFile _ _ _

theorem keepsSound_close : KeepsSound close :=
  Maintains.bind maintains_get fun _ => maintains_when keepsSound_flush

end QCow2Image

end Lbd.QCow2
