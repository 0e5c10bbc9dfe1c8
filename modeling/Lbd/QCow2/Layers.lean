import Lbd.QCow2.KernelFile
import Lbd.QCow2.Sessions

/-!
# Primary and base

What a device shows over the files it is attached to, through base swaps, removals and power
losses: an image that has been written to stands over whatever base is attached at the time.
-/

namespace Lbd.QCow2

open Act

variable {z : Codec} {g : Geometry} {vsize : ℕ} {B : ℕ → List UInt8} {f : File} {d d' : Device}
  {v v' : View} {A : ℕ → UInt8} {E : Errno → Device → Prop}

/-- The clusters of a byte array. -/
def clusters (bits : ℕ) (A : ℕ → UInt8) (c : ℕ) : List UInt8 := window A (c * 2 ^ bits) (2 ^ bits)

/-- What a raw file shows: a cluster that it does not fill is taken for a hole. -/
def rawBytes (bits : ℕ) (f : File) (a : ℕ) : UInt8 :=
  if f.size < a / 2 ^ bits * 2 ^ bits + 2 ^ bits then 0 else f.byte a

/-- A base at rest, with the bytes it shows: an image of the device's size whose layout is in
order, or a raw file. `lbd_qcow2_base_init` takes more than these, as it looks only at the header
and the L1 table of an image. -/
inductive BaseFile (z : Codec) (g : Geometry) (vsize : ℕ) (f : File) : (ℕ → UInt8) → Prop
  | image (v : View) (h : OnDisk z g vsize f v) (hl1 : v.l1Size * 8 ≤ maxRw) :
      BaseFile z g vsize f (v.guest g)
  | raw (hpos : 8 ≤ vsize) (hsize : f.size = vsize) (hmagic : get64 (window f.byte 0 8) 0 ≠ magic) :
      BaseFile z g vsize f (rawBytes g.clusterBits f)

theorem clusters_guest (h : OnDisk z g vsize f v) (c : ℕ) :
    clusters g.clusterBits (v.guest g) c =
      Overlay.shown (fun _ => List.replicate g.clusterSize 0) v.val c := by
  have hlen : (Overlay.shown (fun _ => List.replicate g.clusterSize 0) v.val c).length =
      g.clusterSize := by
    unfold Overlay.shown
    cases hc : v.val c with
    | none => exact List.length_replicate
    | some x =>
      obtain ⟨p, n, hst, -⟩ := h.layout.stored c x hc
      exact hst.length_eq
  have hwin := window_flat hlen (show 0 + g.clusterSize ≤ g.clusterSize by omega)
  rw [List.drop_zero, List.take_of_length_le hlen.le] at hwin
  exact hwin

theorem clusters_rawBytes {c : ℕ} :
    clusters g.clusterBits (rawBytes g.clusterBits f) c =
      if f.size < c * g.clusterSize + g.clusterSize then List.replicate g.clusterSize 0
      else window f.byte (c * g.clusterSize) g.clusterSize := by
  have hdiv : ∀ i < g.clusterSize, (c * g.clusterSize + i) / g.clusterSize = c :=
    fun i hi => div_cluster hi
  apply List.ext_getElem
  · split_ifs <;> simp [clusters, Geometry.clusterSize]
  · intro i hi hi'
    have hlt : i < g.clusterSize := by simpa [clusters, Geometry.clusterSize] using hi
    have hraw : (clusters g.clusterBits (rawBytes g.clusterBits f) c)[i] =
        if f.size < c * g.clusterSize + g.clusterSize then 0
          else f.byte (c * g.clusterSize + i) := by
      simp only [clusters, window, List.getElem_map, List.getElem_range, rawBytes]
      rw [show (c * 2 ^ g.clusterBits + i) / 2 ^ g.clusterBits = c from hdiv i hlt]
      rfl
    rw [hraw]
    split_ifs <;> simp [window]

theorem OnDisk.lookup (h : OnDisk z g vsize f v) {b : Base} (hb : b.file = f)
    (hq : b.isQcow2 = true) (hcs : b.clusterSize = g.clusterSize)
    (hentries : b.l2Entries = g.l2Entries) (hl1 : b.l1Table = v.l1) (hl1s : b.l1Size = v.l1Size)
    {c : ℕ} (hc : c / g.l2Entries < 2 ^ 32) :
    (b.lookup z g.clusterSize c).bytes g.clusterSize =
      some (Overlay.shown (fun _ => List.replicate g.clusterSize 0) v.val c) := by
  obtain ⟨table, hload, htable⟩ := Device.loadTable_of_layout h.layout (h.synced (c / g.l2Entries))
  have hentry : table (c % g.l2Entries) = v.entry g c := htable _ (Nat.mod_lt _ g.l2Entries_pos)
  unfold Base.lookup
  rw [if_neg (by rw [hq]; simp), hentries, Nat.mod_eq_of_lt hc, hb, hl1, hl1s, hcs, hload]
  dsimp only
  unfold Base.readEntry Overlay.shown
  rw [hentry, hb]
  cases hv : v.val c with
  | none =>
    rw [if_pos (h.settled c hv)]
    rfl
  | some x =>
    obtain ⟨p, n, hst, -⟩ := h.layout.stored c x hv
    rw [if_neg (h.layout.entry_ne_zero hv), hst.loadData]
    rfl

theorem OnDisk.magic (h : OnDisk z g vsize f v) : get64 (window f.byte 0 8) 0 = magic := by
  have hhdr := h.layout.header_le
  have hfixed := h.at_byte h.fixed (by
    rw [length_fixedHeader]
    unfold headerSize at hhdr
    omega)
  simp only [fixedHeader, at_append] at hfixed
  have hget := (show At f.byte (0 + 0) (beBytes 8 QCow2.magic) from hfixed.1).getBE (n := 8) le_rfl
  rwa [Nat.mod_eq_of_lt (by decide)] at hget

namespace Device

theorem length_clusters (g : Geometry) (A : ℕ → UInt8) (c : ℕ) :
    (clusters g.clusterBits A c).length = g.clusterSize := by
  simp [clusters, Geometry.clusterSize]

theorem shows_of_baseInit {b : Base} (h : baseInit (.ok f) d = .ok b)
    (hb : ∀ c, c / g.l2Entries < 2 ^ 32 →
      (b.lookup z g.clusterSize c).bytes g.clusterSize = some (clusters g.clusterBits A c)) :
    BaseShows z g (some b) (clusters g.clusterBits A) :=
  ⟨fun _ hb' => Option.some.inj hb' ▸ baseInit_coherent h, length_clusters g A, hb⟩

theorem baseInit_image (h : OnDisk z g vsize f v) (hl1 : v.l1Size * 8 ≤ maxRw)
    (hbits : d.clusterBits = g.clusterBits)
    (hvs : d.virtualSize = vsize) :
    ∃ b, baseInit (.ok f) d = .ok b ∧
      BaseShows z g (some b) (clusters g.clusterBits (v.guest g)) := by
  have hf := h.header
  have hread := h.readHeader
  have hmagic := h.magic
  have hle := h.layout.header_le.trans h.layout.meta_le_size
  unfold headerSize at hle
  have hread8 : f.readAt 0 8 = some (window f.byte 0 8) := if_pos (by omega)
  generalize window f.byte 0 headerSize = hdr at hf hread
  have hbase : baseInit (.ok f) d = baseInitQcow2 f hdr d := by
    change (if f.size = 0 then _ else _) = _
    rw [if_neg (by omega), hread8]
    dsimp only
    rw [if_pos hmagic, hread]
  have hinit : ∃ b, baseInitQcow2 f hdr d = .ok b ∧ b.file = f ∧ b.isQcow2 = true ∧
      b.clusterSize = g.clusterSize ∧ b.l2Entries = g.l2Entries ∧
      b.l1Table = (OnDisk.reread v).l1 ∧ b.l1Size = v.l1Size := by
    unfold baseInitQcow2
    rw [if_neg (not_not.mpr hf.version), if_neg (by rw [hf.clusterBits, hbits]; simp),
      if_neg (by rw [hf.virtualSize, hvs]; simp), hf.l1Offset, hf.l1Size,
      File.kernelRead_of_readAt hl1, h.readL1, hf.clusterBits]
    exact ⟨_, rfl, rfl, rfl, rfl, rfl, rfl, rfl⟩
  obtain ⟨b, hb, hfile, hq, hcs, hentries, hl1, hl1s⟩ := hinit
  refine ⟨b, hbase.trans hb, shows_of_baseInit (hbase.trans hb) fun c hc => ?_⟩
  rw [clusters_guest h]
  exact h.reread_onDisk.lookup hfile hq hcs hentries hl1 hl1s hc

theorem baseInit_raw (hpos : 8 ≤ vsize) (hsize : f.size = vsize)
    (hmagic : get64 (window f.byte 0 8) 0 ≠ magic) (hvs : d.virtualSize = vsize) :
    ∃ b, baseInit (.ok f) d = .ok b ∧
      BaseShows z g (some b) (clusters g.clusterBits (rawBytes g.clusterBits f)) := by
  have hread8 : f.readAt 0 8 = some (window f.byte 0 8) := if_pos (by omega)
  have hinit : ∃ b, baseInit (.ok f) d = .ok b ∧ b.file = f ∧ b.isQcow2 = false ∧
      b.size = f.size := by
    change ∃ b, (if f.size = 0 then _ else _) = _ ∧ _
    rw [if_neg (by omega), hread8]
    dsimp only
    rw [if_neg hmagic, if_neg (by rw [hvs, hsize]; simp)]
    exact ⟨_, rfl, rfl, rfl, rfl⟩
  obtain ⟨b, hb, hfile, hq, hbs⟩ := hinit
  refine ⟨b, hb, shows_of_baseInit hb fun c _ => ?_⟩
  rw [clusters_rawBytes, Base.lookup, if_pos hq, Base.readRaw, hfile, hbs]
  split_ifs with hend
  · rfl
  · have hread : f.readAt (c * g.clusterSize) g.clusterSize =
        some (window f.byte (c * g.clusterSize) g.clusterSize) := if_pos (by omega)
    rw [hread]
    rfl

theorem baseInit_shows (h : BaseFile z g vsize f A) (hbits : d.clusterBits = g.clusterBits)
    (hvs : d.virtualSize = vsize) :
    ∃ b, baseInit (.ok f) d = .ok b ∧ BaseShows z g (some b) (clusters g.clusterBits A) := by
  cases h with
  | image v h hl1 => exact baseInit_image h hl1 hbits hvs
  | raw hpos hsize hmagic => exact baseInit_raw hpos hsize hmagic hvs

theorem shows_invalidate {b : Base} (h : BaseShows z g (some b) B) :
    BaseShows z g (some (if b.isQcow2 then { b with l2Cache := b.l2Cache.purgeAll } else b)) B := by
  split_ifs
  · refine ⟨fun b' hb' i hi => ?_, h.length, h.bytes⟩
    obtain rfl := Option.some.inj hb'
    cases hi
  · exact h

theorem swapBase_spec (h : Serving z g vsize B d v) (hl1 : v.l1Size * 8 ≤ maxRw)
    (ha : v.AllocSaved) (hf : BaseFile z g vsize f A) :
    Meets (swapBase (.ok f) none) d (fun _ d' =>
      Serving z g vsize (clusters g.clusterBits A) d' (OnDisk.reread v)) E := by
  have hdisk := h.onDisk ha
  have hhdr := hdisk.header
  have hread := hdisk.readHeader
  generalize window d.backingFile.byte 0 headerSize = hdr at hhdr hread
  obtain ⟨b, hb, hshows⟩ := baseInit_shows (d := { d with base := none }) hf h.mem.clusterBits
    h.mem.virtualSize
  unfold swapBase
  rw [meets_bind]
  -- between requests every table in the cache is clean, so the flush writes nothing
  apply meets_of_ok (flushAllL2_clean fun i hi => (h.mem.l2.holds i hi).1)
  simp only [meets_bind, meets_modify, meets_get, hb]
  unfold reloadL1
  simp only [meets_bind, meets_get, if_neg (Option.some_ne_none ReloadFault.header).symm,
    if_neg (Option.some_ne_none ReloadFault.table).symm, hread, meets_modify, hhdr.l1Offset,
    hhdr.l1Size, File.kernelRead_of_readAt hl1, hdisk.readL1]
  exact hdisk.reread_onDisk.serving rfl h.mem.clusterBits h.mem.clusterSize h.mem.l2Entries
    h.mem.virtualSize rfl rfl rfl hhdr.allocOffset hhdr.freeListHead (fun _ => rfl) (fun _ => rfl)
    h.noHandler (shows_invalidate hshows)

/-- `lbd_add_device` for a qcow2 file, with the path of a base or without. -/
def attachTo : Option File → KernelM Unit
  | none => init
  | some f => attach (.ok f)

/-- The bytes of an optional base; `C` says what each file shows. -/
def baseBytes (C : File → ℕ → UInt8) : Option File → ℕ → UInt8
  | none => fun _ => 0
  | some f => C f

theorem shows_none (z : Codec) (g : Geometry) :
    BaseShows z g none (clusters g.clusterBits fun _ => 0) := by
  refine ⟨fun _ hb => (by cases hb), length_clusters g _, fun c _ => ?_⟩
  show some (List.replicate g.clusterSize 0) = _
  simp [clusters, window, Geometry.clusterSize]

theorem attach_serving (h : OnDisk z g vsize d.backingFile v) (hl1 : v.l1Size * 8 ≤ maxRw)
    (hmiss : d.missHandler = none)
    (hbase : ∀ d' : Device, d'.clusterBits = g.clusterBits → d'.virtualSize = vsize →
      ∃ b, baseInit (.ok f) d' = .ok b ∧ BaseShows z g (some b) B) :
    Meets (attach (.ok f)) d (fun _ d' => Serving z g vsize B d' (OnDisk.reread v)) E := by
  simp only [attach, meets_bind, meets_get]
  apply (init_serving h hl1 hmiss).post
  rintro _ d' ⟨-, hserving⟩
  have h' := hserving _ none (shows_none z g)
  obtain ⟨b, hb, hshows⟩ := hbase d' h'.mem.clusterBits h'.mem.virtualSize
  rw [hb]
  exact hserving _ (some b) hshows

theorem attachTo_spec {C : File → ℕ → UInt8} {base : Option File}
    (h : OnDisk z g vsize d.backingFile v) (hl1 : v.l1Size * 8 ≤ maxRw) (hd : d.base = none)
    (hmiss : d.missHandler = none)
    (hbase : ∀ f, base = some f → BaseFile z g vsize f (C f)) :
    Meets (attachTo base) d (fun _ d' =>
      Serving z g vsize (clusters g.clusterBits (baseBytes C base)) d' (OnDisk.reread v)) E := by
  cases base with
  | none =>
    apply (init_serving h hl1 hmiss).post
    rintro _ d' ⟨hd', hserving⟩
    have h' := hserving _ none (shows_none z g)
    rwa [← hd, ← hd'] at h'
  | some f => exact attach_serving h hl1 hmiss fun d' hbits hvs =>
    baseInit_shows (hbase f rfl) hbits hvs

end Device

/-- What happens to a device. A power loss takes the memory of the kernel; after it, as after a
removal, the image is attached again. -/
inductive Event
  | request (r : Request)
  | swapBase (f : File)
  | removal (base : Option File)
  | powerLoss (base : Option File)

/-- An overlay and the bytes under it. -/
structure Layers where
  overlay : Overlay
  base : ℕ → UInt8

namespace Event

def exec (z : Codec) : Event → KernelM (List UInt8)
  | request r => r.serve z
  | swapBase f => do
    Device.swapBase (.ok f) none
    pure []
  | removal base => do
    Device.destroy
    Act.modify fun d => Device.detached d.backingFile
    Device.attachTo base
    pure []
  | powerLoss base => do
    Act.modify fun d => Device.detached d.backingFile
    Device.attachTo base
    pure []

def apply (bits : ℕ) (C : File → ℕ → UInt8) (s : Layers) : Event → Layers
  | request r => { s with overlay := r.apply bits (clusters bits s.base) s.overlay }
  | swapBase f => { s with base := C f }
  | removal base => { s with base := Device.baseBytes C base }
  | powerLoss base => { s with base := Device.baseBytes C base }

def reply (bits : ℕ) (s : Layers) : Event → List UInt8
  | request r => r.reply bits (clusters bits s.base) s.overlay
  | _ => []

def room (bits : ℕ) : Event → ℕ
  | request r => r.room bits
  | _ => 0

/-- Requests stay inside of the device and discard whole clusters only: a discard of a part of a
cluster may add an L2 table without saving the append point. -/
def Allowed (z : Codec) (g : Geometry) (vsize : ℕ) (C : File → ℕ → UInt8) : Event → Prop
  | request r => r.Inside vsize ∧ r.Aligned g.clusterSize
  | swapBase f => BaseFile z g vsize f (C f)
  | removal base => ∀ f, base = some f → BaseFile z g vsize f (C f)
  | powerLoss base => ∀ f, base = some f → BaseFile z g vsize f (C f)

end Event

namespace Device

def live (z : Codec) : List Event → KernelM (List (List UInt8))
  | [] => pure []
  | e :: es => do
    let bs ← e.exec z
    let rest ← live z es
    pure (bs :: rest)

/-- The device serves the layers, and its append point has not passed `a`. -/
def ServesLayers (z : Codec) (g : Geometry) (vsize : ℕ) (s : Layers) (a : ℕ) (d : Device) : Prop :=
  ∃ v, Serving z g vsize (clusters g.clusterBits s.base) d v ∧ v.val = s.overlay ∧ v.AllocSaved ∧
    vsize ≤ v.span g ∧ v.l1Size * 8 ≤ maxRw ∧ v.alloc ≤ a

theorem reattach_spec {C : File → ℕ → UInt8} {base : Option File} {s : Layers} {a : ℕ}
    (h : OnDisk z g vsize d.backingFile v) (hval : v.val = s.overlay) (hspan : vsize ≤ v.span g)
    (hl1 : v.l1Size * 8 ≤ maxRw) (ha : v.alloc ≤ a)
    (hbase : ∀ f, base = some f → BaseFile z g vsize f (C f)) :
    Meets (Act.modify (fun d => detached d.backingFile) >>= fun _ => attachTo base) d
      (fun _ => ServesLayers z g vsize { s with base := baseBytes C base } a) E := by
  simp only [meets_bind, meets_modify]
  apply (attachTo_spec (d := detached d.backingFile) h hl1 rfl rfl hbase).post
  exact fun _ d' h' => ⟨_, h', hval, h.persisted.alloc, hspan, hl1, ha⟩

theorem exec_spec {C : File → ℕ → UInt8} {s : Layers} {a : ℕ} {e : Event}
    (h : ServesLayers z g vsize s a d) (he : e.Allowed z g vsize C) :
    Meets (e.exec z) d (fun out d' => out = e.reply g.clusterBits s ∧
        ServesLayers z g vsize (e.apply g.clusterBits C s) (a + e.room g.clusterBits) d')
      (NoRoom (a + e.room g.clusterBits)) := by
  obtain ⟨v, h, hval, hsaved, hspan, hl1, ha⟩ := h
  cases e with
  | request r =>
    apply (serve_spec h hspan he.1).imp _ fun _ _ hn => hn.mono (Nat.add_le_add_right ha _)
    rintro _ d' ⟨rfl, v', ⟨h', hg, hval', ha'⟩, hsaved'⟩
    rw [hval] at hval'
    refine ⟨by rw [hval]; rfl, v', h', hval', hsaved' he.2 hsaved, hg.span_eq ▸ hspan,
      hg.l1Size ▸ hl1, ?_⟩
    exact ha'.trans (Nat.add_le_add_right ha _)
  | swapBase f =>
    simp only [Event.exec, meets_bind, meets_pure]
    apply (swapBase_spec h hl1 hsaved he).post
    exact fun _ d' h' => ⟨rfl, _, h', hval, hsaved, hspan, hl1, ha⟩
  | removal base =>
    simp only [Event.exec]
    rw [meets_bind]
    apply (destroy_onDisk h).post
    rintro _ d₁ ⟨v₁, hdisk, hg, hval₁, ha₁⟩
    have hre := reattach_spec (C := C) (s := s) (a := a) (E := NoRoom (a + 0)) hdisk
      (hval₁.trans hval) (hg.span_eq ▸ hspan) (hg.l1Size ▸ hl1) (ha₁ ▸ ha) he
    simp only [meets_bind, meets_modify, meets_pure] at hre ⊢
    exact hre.post fun _ d' h' => ⟨rfl, h'⟩
  | powerLoss base =>
    have hre := reattach_spec (C := C) (s := s) (E := NoRoom (a + 0)) (h.onDisk hsaved) hval hspan
      hl1 ha he
    simp only [Event.exec, meets_bind, meets_modify, meets_pure] at hre ⊢
    exact hre.post fun _ d' h' => ⟨rfl, h'⟩

section Sample

end Sample

theorem bytes_clusters (g : Geometry) (A : ℕ → UInt8) :
    Overlay.bytes g.clusterSize (clusters g.clusterBits A) (fun _ => none) = A := by
  funext a
  have hlt : a % g.clusterSize < (clusters g.clusterBits A (a / g.clusterSize)).length := by
    rw [length_clusters]
    exact Nat.mod_lt _ (Nat.two_pow_pos _)
  show (clusters g.clusterBits A (a / g.clusterSize)).getD (a % g.clusterSize) 0 = A a
  rw [List.getD_eq_getElem _ _ hlt]
  simp only [clusters, window, List.getElem_map, List.getElem_range]
  exact congrArg A (Nat.div_add_mod' a g.clusterSize)

/-- Over an empty overlay, reads and writes go to a flat byte array that starts as the base. -/
theorem run_flat {rs : List Request} (h : Serving z g vsize (clusters g.clusterBits A) d v)
    (hval : v.val = fun _ => none) (hspan : vsize ≤ v.span g)
    (hrs : ∀ r ∈ rs, r.Inside vsize ∧ ¬r.IsDiscard) :
    Meets (run z rs) d (fun out _ => out = flatReplies A rs)
      (fun _ d => d.backingFile.failed = true) := by
  have hv := h.mem.vsize_lt.le
  apply (run_spec h hspan fun r hr => (hrs r hr).1).imp _ fun _ _ hn => hn.1
  rintro _ d' ⟨rfl, -⟩
  rw [(replies_eq_flatReplies h.full (fun r hr => (hrs r hr).1.mono hv)
    fun r hr hd => absurd hd (hrs r hr).2).1, hval]
  exact congrArg (fun A => flatReplies A rs) (bytes_clusters g A)

end Device

end Lbd.QCow2
