import Lbd.QCow2.ImageExtents
import Lbd.QCow2.OnDisk

/-!
# One image, two programs

The daemon and the kernel open the same image file one after the other. Whatever
each of them does with it, the other finds the bytes that were last written.
-/

namespace Lbd.QCow2

open Act

variable {z : Codec} {g : Geometry} {vsize : ℕ} {f : File} {v : View} {B : ℕ → List UInt8}
  {A : ℕ → UInt8} {O : Overlay} {off n : ℕ}

namespace Request

/-- The effect on a flat byte array. -/
def onBytes (A : ℕ → UInt8) : Request → ℕ → UInt8
  | read _ _ => A
  | write off segments => overlay A off segments.flatten
  | discard off length => overlay A off (List.replicate length 0)

/-- What the guest gets from a flat byte array. -/
def ofBytes (A : ℕ → UInt8) : Request → List UInt8
  | read off segments => window A off segments.sum
  | write _ _ => []
  | discard _ _ => []

end Request

/-- The replies of a flat byte array. -/
def flatReplies : (ℕ → UInt8) → List Request → List (List UInt8)
  | _, [] => []
  | A, r :: rs => r.ofBytes A :: flatReplies (r.onBytes A) rs

/-- The clusters of no base. -/
def noBase (g : Geometry) : ℕ → List UInt8 := fun _ => List.replicate g.clusterSize 0

theorem length_noBase (g : Geometry) (c : ℕ) : (noBase g c).length = g.clusterSize :=
  List.length_replicate

def Request.IsDiscard : Request → Prop
  | discard _ _ => True
  | _ => False

theorem bytes_apply {r : Request} (h : O.Full g.clusterSize B) (hr : r.Inside W64)
    (hB : r.IsDiscard → B = noBase g) :
    Overlay.bytes g.clusterSize B (r.apply g.clusterBits B O) =
        r.onBytes (O.bytes g.clusterSize B) ∧
      Overlay.Full g.clusterSize B (r.apply g.clusterBits B O) := by
  cases r with
  | read off segments => exact ⟨rfl, h⟩
  | write off segments => exact ⟨Overlay.bytes_write h hr, Overlay.write_full h hr⟩
  | discard off length =>
    obtain rfl := hB trivial
    exact ⟨Overlay.bytes_discard (fun _ => rfl) h hr,
      Overlay.discard_full h (length_noBase g) hr⟩

theorem replies_eq_flatReplies {rs : List Request} (h : O.Full g.clusterSize B)
    (hrs : ∀ r ∈ rs, r.Inside W64) (hB : ∀ r ∈ rs, r.IsDiscard → B = noBase g) :
    replies g.clusterBits B O rs = flatReplies (O.bytes g.clusterSize B) rs ∧
      Overlay.bytes g.clusterSize B (rs.foldl (Request.apply g.clusterBits B) O) =
        rs.foldl Request.onBytes (O.bytes g.clusterSize B) := by
  induction rs generalizing O with
  | nil => exact ⟨rfl, rfl⟩
  | cons r rs ih =>
    obtain ⟨hbytes, hfull⟩ := bytes_apply h (hrs r List.mem_cons_self) (hB r List.mem_cons_self)
    obtain ⟨hreplies, hend⟩ := ih hfull (fun r' hr' => hrs r' (List.mem_cons_of_mem _ hr'))
      fun r' hr' => hB r' (List.mem_cons_of_mem _ hr')
    rw [hbytes] at hreplies hend
    refine ⟨?_, hend⟩
    show r.reply _ _ O :: replies _ _ _ rs = r.ofBytes _ :: flatReplies _ rs
    rw [hreplies]
    cases r <;> rfl

theorem Request.Inside.mono {r : Request} {m : ℕ} (h : r.Inside n) (hle : n ≤ m) : r.Inside m := by
  cases r <;> exact h.trans hle

/-- The daemon changes the image and reads a part of it, or the kernel serves requests. -/
inductive Session
  | daemon (ops : List ImageOp) (off n : ℕ)
  | kernel (requests : List Request)

abbrev FileM := Act File Unit

/-- From `OpenQCow2` to `Close`. -/
def daemonSession (z : Codec) (ops : List ImageOp) (off n : ℕ) : FileM (List (List UInt8)) :=
  fun f =>
    match openQCow2File f with
    | .error _ => (.error (), f)
    | .ok img =>
      match (QCow2Image.runThenRead z ops off n >>= fun bs =>
          QCow2Image.close >>= fun _ => pure [bs]) img with
      | (.ok out, img') => (.ok out, img'.f)
      | (.error _, img') => (.error (), img'.f)

/-- From `lbd_qcow2_init` to `lbd_qcow2_destroy`. -/
def kernelSession (z : Codec) (requests : List Request) : FileM (List (List UInt8)) := fun f =>
  match (Device.init >>= fun _ => Device.run z requests >>= fun out =>
      Device.destroy >>= fun _ => pure out) (Device.detached f) with
  | (.ok out, d) => (.ok out, d.backingFile)
  | (.error _, d) => (.error (), d.backingFile)

namespace Session

def run (z : Codec) : Session → FileM (List (List UInt8))
  | daemon ops off n => daemonSession z ops off n
  | kernel requests => kernelSession z requests

def Inside (vsize : ℕ) : Session → Prop
  | daemon ops off n => (∀ op ∈ ops, op.Inside vsize) ∧ off + n ≤ vsize
  | kernel requests => ∀ r ∈ requests, r.Inside vsize

def onBytes (A : ℕ → UInt8) : Session → ℕ → UInt8
  | daemon ops _ _ => ops.foldl ImageOp.apply A
  | kernel requests => requests.foldl Request.onBytes A

def ofBytes (A : ℕ → UInt8) : Session → List (List UInt8)
  | daemon ops off n => [window (ops.foldl ImageOp.apply A) off n]
  | kernel requests => flatReplies A requests

end Session

/-- A session fails only after a write to the file has failed. -/
def FileFailed (_ : Unit) (f : File) : Prop := f.failed = true

section Sample

/-- `smallImage` after it was closed. -/
def smallFile : File := (QCow2Image.close smallImage).2.f

theorem smallFile_created : Created (2 ^ 20) 13 smallFile :=
  ⟨2 ^ 62, smallImage, (QCow2Image.close smallImage).2, le_rfl, createQCow2_small, rfl, rfl⟩

attribute [irreducible] smallFile

theorem small_attachable : Attachable (2 ^ 20) 13 :=
  ⟨⟨by decide, by decide, by decide, by decide⟩, by decide, by decide⟩

end Sample

/-- The tables, the extents of the clusters and the free extents of the image in the file do not
overlap, and the free list is in order. -/
def InOrder (f : File) : Prop :=
  ∃ img fl, openQCow2File f = .ok img ∧ QCow2Image.NoOverlap img fl

end Lbd.QCow2
