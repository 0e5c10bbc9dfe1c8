import Lbd.QCow2.Convert
import Lbd.QCow2.Layers

/-!
# A converted file as a base

`lbdctl convert` makes a base of a disk image. A new image over it starts with the bytes of the
file.
-/

namespace Lbd.QCow2

open Act Device

variable {z : Codec} {g : Geometry} {src out f : File} {w : Ctl.Work} {n l1Size : ℕ} {d : Device}

namespace Ctl

theorem KernelReads.baseInit {hdr diskL1 : List UInt8} (hk : KernelReads f hdr diskL1)
    (d : Device) :
    baseInit (.ok f) d = baseInitQcow2 f hdr d := by
  have hread := hk.header
  unfold File.readAt at hread
  split_ifs at hread with hle
  have hheader : headerSize = 4096 := rfl
  have hmagic : get64 (f.slice 0 8) 0 = QCow2.magic := by
    rw [← hk.magic, ← Option.some.inj hread]
    change beNat (((f.slice 0 8).drop 0).take 8) = beNat (((f.slice 0 headerSize).drop 0).take 8)
    rw [take_drop_window (by omega), take_drop_window (by omega)]
  have hread8 : f.readAt 0 8 = some (f.slice 0 8) := if_pos (by omega)
  change (if f.size = 0 then _ else _) = _
  rw [if_neg (by omega), hread8]
  dsimp only
  rw [if_pos hmagic, hk.header]

theorem Written.baseInit {K : ℕ → ℕ → Option (List UInt8)}
    (h : Written z g n headerSize l1Size K w f) (hn : n < 2 ^ 64) (hl1 : l1Size < 2 ^ 32)
    (hbits : d.clusterBits = g.clusterBits) (hd : d.virtualSize = n) :
    ∃ b, baseInit (.ok f) d = .ok b ∧ b.file = f ∧ ∀ c, b.lookup z g.clusterSize c =
      b.readEntry z g.clusterSize (entryAt (writtenImage g n headerSize l1Size w f) c) := by
  obtain ⟨hdr, diskL1, hk, himg⟩ := h.kernelReads hn (by norm_num [headerSize]) hl1
  have hbits' : get32 hdr 12 = g.clusterBits := congrArg Image.clusterBits himg
  have hsize' : get64 hdr 16 = n := congrArg Image.virtualSize himg
  have hinit : ∃ b, baseInitQcow2 f hdr d = .ok b ∧ b.file = f ∧ b.isQcow2 = true ∧
      b.l1Table = (imageOf f hdr diskL1).l1Table ∧ b.l1Size = (imageOf f hdr diskL1).l1Size ∧
      b.clusterSize = g.clusterSize ∧ b.l2Entries = g.l2Entries := by
    unfold baseInitQcow2
    rw [if_neg (not_not.mpr hk.version), if_neg (by rw [hbits', hbits]; simp),
      if_neg (by rw [hsize', hd]; simp), hk.l1, hbits']
    exact ⟨_, rfl, rfl, rfl, rfl, rfl, rfl, rfl⟩
  obtain ⟨b, hb, hfile, hq, htable, hsize, hcs, hentries⟩ := hinit
  refine ⟨b, (hk.baseInit d).trans hb, hfile, fun c => ?_⟩
  rw [himg] at htable hsize
  exact lookup_eq hq hfile htable hsize hcs (hentries.trans (l2Entries_eq rfl).symm)
    (fun i hi h0 => h.tableReads hi h0) _ c

theorem sourceCluster_of_end {c : ℕ} (h : ¬ c < (src.size + g.clusterSize - 1) / g.clusterSize) :
    sourceCluster g src c = List.replicate g.clusterSize 0 := by
  have hpos : 0 < g.clusterSize := Nat.two_pow_pos _
  have hend : src.size ≤ c * g.clusterSize := by
    rw [Nat.lt_div_iff_mul_lt hpos] at h
    omega
  refine List.eq_replicate_iff.mpr ⟨length_sourceCluster g src c, fun b hb => ?_⟩
  obtain ⟨i, -, rfl⟩ := List.mem_map.mp hb
  exact src.zeroBeyond _ (hend.trans (Nat.le_add_right ..))

theorem Written.baseShows {total : ℕ}
    (htotal : (src.size + g.clusterSize - 1) / g.clusterSize = total)
    (h : Written z g src.size headerSize l1Size (sourceCells g src total) w f)
    (hn : src.size < 2 ^ 64) (hl1 : l1Size < 2 ^ 32)
    (hcover : src.size ≤ l1Size * (g.l2Entries * g.clusterSize))
    (hbits : d.clusterBits = g.clusterBits) (hd : d.virtualSize = src.size) :
    ∃ b, Device.baseInit (.ok f) d = .ok b ∧
      BaseShows z g (some b) (clusters g.clusterBits src.byte) := by
  obtain ⟨b, hb, hfile, hlookup⟩ := h.baseInit hn hl1 hbits hd
  refine ⟨b, hb, shows_of_baseInit hb fun c hc => ?_⟩
  change _ = some (sourceCluster g src c)
  rw [hlookup, Base.readEntry, hfile]
  by_cases hlt : c < total
  · have hload := h.loads hl1 (index_lt hcover (lt_size_of_lt_clusters (htotal ▸ hlt))) hlt
    split_ifs at hload ⊢ with h0
    · rw [hload]
      rfl
    · rw [hload]
      rfl
  · -- no cluster is stored behind the end
    have hnone : sourceCells g src total (c / g.l2Entries) (c % g.l2Entries) = none := by
      unfold sourceCells
      dsimp only
      rw [Nat.div_add_mod', if_neg fun hall => hlt hall.2.1]
    rw [h.entryAt_eq, Nat.mod_eq_of_lt hc, h.unset _ _ hnone, ite_self, if_pos rfl,
      sourceCluster_of_end (htotal.symm ▸ hlt)]
    rfl

theorem attachable_convert (hn : n < 2 ^ 60) (hl1 : newL1Size n (2 ^ 16) * 8 ≤ maxRw) :
    Attachable n 16 := by
  have hspan : tableSpan (2 ^ 16) = 536805376 := by decide
  have hmax : maxRw = 0x7ffff000 := rfl
  have hsum : n + 536805376 - 1 < W64 := by
    unfold W64
    omega
  refine ⟨⟨by norm_num, by norm_num, ?_, hspan.symm ▸ hsum⟩, hl1, by omega⟩
  unfold newL1Size at hl1
  rw [hspan] at hl1 ⊢
  rw [Nat.mod_eq_of_lt hsum] at hl1
  dsimp only at hl1
  split_ifs at hl1 <;> omega

/-- A converted file as the base of a new image: reads and writes of the device go to a flat byte
array that starts as the file. -/
theorem converted_base_shows {rs : List Request} (h : cmdConvert z (start src out) = (.ok (), w))
    (hn : src.size < 2 ^ 60) (hcap : out.capacity ≤ 2 ^ 62) (hf : Created src.size 16 f)
    (hrs : ∀ r ∈ rs, r.Inside src.size ∧ ¬r.IsDiscard) :
    Meets (attachTo (some w.out) >>= fun _ => run z rs) (detached f)
      (fun replies _ => replies = flatReplies src.byte rs)
      (fun _ d => d.backingFile.failed = true) := by
  have hcover := newL1Size_covers_convert hn
  have hlt := newL1Size_lt src.size convertGeometry.clusterSize
  obtain ⟨w', h⟩ := (cmdConvert_written z hn hcap).of_eq_ok h
  have hc := attachable_convert hn h.l1_le
  obtain ⟨v, hdisk, hspan, hsize, hval⟩ := hf.onDisk (z := z) hc.toCreatable
  change OnDisk z convertGeometry _ _ _ at hdisk
  rw [meets_bind]
  have hattach := attach_serving (d := detached f) (E := fun _ d => d.backingFile.failed = true)
    hdisk (hsize ▸ hc.l1_le) rfl fun d hbits hd => h.baseShows rfl (by omega) hlt hcover hbits hd
  apply hattach.post
  exact fun _ d hserving => run_flat hserving hval hspan hrs

section Sample

/-- A new image for a device of three bytes. -/
def threeImage : QCow2Image :=
  newImage (newFile (File.empty (2 ^ 62) fun _ => none) 3 16 1 65536) 3 16 1 65536

theorem createQCow2_three :
    createQCow2 (File.empty (2 ^ 62) fun _ => none) 3 16 = .ok threeImage := by
  have hl1 : 1 = newL1Size 3 (2 ^ 16) := by decide
  exact createQCow2_ok convertGeometry (fun _ => rfl) hl1 (by decide) (by decide)

def threeFile : File := (QCow2Image.close threeImage).2.f

theorem threeFile_created : Created 3 16 threeFile :=
  ⟨2 ^ 62, threeImage, (QCow2Image.close threeImage).2, le_rfl, createQCow2_three, rfl, rfl⟩

attribute [irreducible] threeFile

attribute [local irreducible] convertCluster

theorem converted_base_shows_three :
    Created 3 16 threeFile ∧ ∃ w, cmdConvert Codec.none (start threeBytes emptyOut) = (.ok (), w) ∧
      Meets (attachTo (some w.out) >>= fun _ =>
          run Codec.none [.read 0 [3], .write 1 [[5]], .read 0 [1, 2]]) (detached threeFile)
        (fun replies _ => replies = [[7, 8, 9], [], [7, 5, 9]])
        (fun _ d => d.backingFile.failed = true) := by
  have hrs : ∀ r ∈ [Request.read 0 [3], .write 1 [[5]], .read 0 [1, 2]],
      r.Inside threeBytes.size ∧ ¬r.IsDiscard := by
    simp [Request.Inside, Request.IsDiscard, show threeBytes.size = 3 from rfl]
  obtain ⟨w, hw⟩ := converts_threeBytes
  refine ⟨threeFile_created, w, hw, ?_⟩
  apply (converted_base_shows hw (by decide) (by decide) threeFile_created hrs).post
  rintro _ d rfl
  decide

end Sample

end Ctl

end Lbd.QCow2
