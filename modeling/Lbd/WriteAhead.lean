import Lbd.KernelLogRuns
import Lbd.LogDump
import Lbd.QCow2.Sessions
import Lbd.ReplayImage

/-!
# The device and its log

`lbd_handle_request` changes the image first and logs the request then. As long as
nothing fails, the log files alone give the content of the disk: `lbdlog` reads them
back and replays them into an empty file or image. Its CBOR decoder is a library, of which
only that it reads what the module writes is assumed.
-/

namespace Lbd.WriteAhead

open Act KernelLog LogDump QCow2 Replay

/-- A request of the block layer to a device with a qcow2 file, or an expiry of its age timer.
`synced` says whether the backing file could be synced. -/
inductive Rq where
  | read (sector : ℕ) (segments : List ℕ)
  | write (sector : ℕ) (segments : List (List UInt8)) (time : ℕ)
  | discard (sector length time : ℕ)
  | flush (synced : Bool)
  | timer

/-- The image and the log of `struct lbd_device`; there is no log once `memcpy` has run past the
end of the log buffer. -/
structure LoggedDisk where
  disk : QCow2.Device
  log : Option LogState

abbrev LoggedM := Act LoggedDisk Errno

def onDisk {α : Type} (m : KernelM α) : LoggedM α := fun s =>
  ((m s.disk).1, { s with disk := (m s.disk).2 })

/-- What happens in the log is not reported. -/
def onLog (dev : KernelLog.Device) (io : Io) (e : KernelLog.Event) : LoggedM Unit :=
  Act.modify fun s => { s with log := s.log.bind fun log => handle dev log (e, io) }

/-- `lbd_handle_request` and the work of the age timer. -/
def handleRequest (z : Codec) (dev : KernelLog.Device) (io : Io) : Rq → LoggedM (List UInt8)
  | .read sector segments => onDisk (Request.serve z (.read (sector * 512) segments))
  | .write sector segments time => do
    let bs ← onDisk (Request.serve z (.write (sector * 512) segments))
    onLog dev io (.write sector segments.flatten time)
    pure bs
  | .discard sector length time => do
    let bs ← onDisk (Request.serve z (.discard (sector * 512) length))
    onLog dev io (.discard sector length time)
    pure bs
  | .flush synced => do
    onLog dev io (.flush synced)
    if synced then pure [] else Act.throw .eio
  | .timer => do
    onLog dev io .timer
    pure []

def run (z : Codec) (dev : KernelLog.Device) : List (Rq × Io) → LoggedM (List (List UInt8))
  | [] => pure []
  | (rq, io) :: rqs => do
    let bs ← handleRequest z dev io rq
    let rest ← run z dev rqs
    pure (bs :: rest)

namespace Rq

/-- The effect on the bytes of the disk. -/
def onBytes (A : ℕ → UInt8) : Rq → ℕ → UInt8
  | write sector segments _ => overlay A (sector * 512) segments.flatten
  | discard sector length _ => overlay A (sector * 512) (List.replicate length 0)
  | _ => A

def ofBytes (A : ℕ → UInt8) : Rq → List UInt8
  | read sector segments => window A (sector * 512) segments.sum
  | _ => []

/-- What the log hears of the request. -/
def events : Rq → List KernelLog.Event
  | read _ _ => []
  | write sector segments time => [.write sector segments.flatten time]
  | discard sector length time => [.discard sector length time]
  | flush synced => [.flush synced]
  | timer => [.timer]

/-- What the limits of the request queue guarantee: whole blocks inside of the device, at most
128 KiB to write, and 32 bits of length to discard. -/
def Valid (size : ℕ) : Rq → Prop
  | read sector segments => sector * 512 + segments.sum ≤ size
  | write sector segments _ =>
    8 ∣ sector ∧ segments.flatten.length ≤ 256 * 512 ∧
      sector * 512 + segments.flatten.length ≤ size
  | discard sector length _ =>
    8 ∣ sector ∧ 0 < length ∧ length < 2 ^ 32 ∧ sector * 512 + length ≤ size
  | flush synced => synced = true
  | timer => True

/-- The request leaves an entry in the log. -/
def Logs : Rq → Prop
  | write _ segments _ => segments.flatten ≠ []
  | discard _ _ _ => True
  | _ => False

end Rq

/-- The replies of a flat byte array. -/
def bytesReplies : (ℕ → UInt8) → List Rq → List (List UInt8)
  | _, [] => []
  | A, rq :: rqs => rq.ofBytes A :: bytesReplies (rq.onBytes A) rqs

/-- `Reader.Next`: the data of a write is decompressed. -/
def next (u : Lz4) (e : Entry) : Option Entry :=
  if e.isWrite ∧ e.data ≠ [] ∧ 0 < e.length then
    (u.decompress e.data e.length).map fun data => { e with data := data }
  else some e

def utf8 (s : String) : List UInt8 := s.toByteArray.data.toList

/-- The decoder under `NewReader` and `Next`: the header of a file and its entries, still
compressed. It takes a text only if that is UTF-8. -/
structure LogReader where
  decode : List UInt8 → Option (Header × List Entry)
  decode_segmentBytes : ∀ {dev : KernelLog.Device} {label : Name} {path : String} {es : List Entry},
    label.length = 24 → (∀ c ∈ label, c.toNat < 128) → dev.backingPath = utf8 path →
      (∀ e ∈ es, Stored e) →
        decode (segmentBytes dev label es) = some (⟨logVersion, 4096, label, dev.size, path⟩, es)

/-- `NewReader` and then `Next` up to the end of the file. -/
def readSegment (r : LogReader) (u : Lz4) (bytes : List UInt8) : Option Segment := do
  let (header, es) ← r.decode bytes
  let entries ← es.mapM (next u)
  pure ⟨header, entries⟩

/-- The finished log files in the order of their names. -/
def readPublished (r : LogReader) (u : Lz4) (files : SortedMap Name (List UInt8)) :
    Option (List Segment) :=
  files.entries.mapM fun file => readSegment r u file.2

/-- The texts in the headers of the device's log files are UTF-8. -/
structure TextsUtf8 (dev : KernelLog.Device) : Prop where
  path : ∃ path, dev.backingPath = utf8 path
  labels : ∀ i, ∀ c ∈ dev.labels i, c.toNat < 128

variable {r : LogReader} {z : Codec} {g : Geometry} {vsize : ℕ} {dev : KernelLog.Device} {u : Lz4}
  {A : ℕ → UInt8}
  {s : LoggedDisk} {es : List KernelLog.Event} {rq : Rq}

theorem meets_onDisk {α : Type} {m : KernelM α} {Q : α → LoggedDisk → Prop}
    {E : Errno → LoggedDisk → Prop}
    (h : Meets m s.disk (fun a d => Q a { s with disk := d }) fun e d => E e { s with disk := d }) :
    Meets (onDisk m) s Q E := by
  unfold Meets onDisk at *
  generalize m s.disk = r at h
  rcases r with ⟨_ | _, _⟩ <;> exact h

/-- The disk holds the bytes `A`, and the log has heard of the events `es`. -/
structure Logging (z : Codec) (g : Geometry) (dev : KernelLog.Device) (A : ℕ → UInt8)
    (es : List KernelLog.Event) (s : LoggedDisk) : Prop where
  serving : ∃ v, Serving z g dev.size (noBase g) s.disk v ∧ dev.size ≤ v.span g ∧
    Overlay.bytes g.clusterSize (noBase g) v.val = A
  log : s.log = runOk dev (start dev) es

def DiskFailed (_ : Errno) (s : LoggedDisk) : Prop := s.disk.backingFile.failed = true

theorem runOk_append (dev : KernelLog.Device) (s : LogState) (es : List KernelLog.Event)
    (e : KernelLog.Event) :
    runOk dev s (es ++ [e]) = (runOk dev s es).bind fun s => handle dev s (e, .ok) := by
  induction es generalizing s with
  | nil =>
    simp only [runOk, List.nil_append, List.map_cons, List.map_nil, KernelLog.run,
      Option.bind_some]
    cases handle dev s (e, .ok) <;> rfl
  | cons e' es ih =>
    simp only [runOk, List.cons_append, List.map_cons, KernelLog.run] at ih ⊢
    cases handle dev s (e', .ok) with
    | none => rfl
    | some s' => exact ih s'

theorem Logging.onLog (h : Logging z g dev A es s) (e : KernelLog.Event) :
    Logging z g dev A (es ++ [e])
      { s with log := s.log.bind fun log => handle dev log (e, .ok) } :=
  ⟨h.serving, by rw [runOk_append, ← h.log]⟩

theorem Logging.serve {r : Request} (h : Logging z g dev A es s) (hr : r.Inside dev.size) :
    Meets (onDisk (r.serve z)) s
      (fun bs s' => bs = r.ofBytes A ∧ Logging z g dev (r.onBytes A) es s') DiskFailed := by
  obtain ⟨⟨v, hserving, hspan, rfl⟩, hlog⟩ := h
  have hv := hserving.mem.vsize_lt.le
  obtain ⟨hbytes, -⟩ := bytes_apply hserving.full (hr.mono hv) fun _ => rfl
  apply meets_onDisk
  apply (Device.serve_spec hserving hspan hr).imp _ fun _ _ hn => hn.1
  rintro _ d ⟨rfl, v', ⟨h', hg, hval, -⟩, -⟩
  refine ⟨by cases r <;> rfl, ⟨v', h', hg.span_eq ▸ hspan, ?_⟩, hlog⟩
  rw [hval, hbytes]

theorem handleRequest_spec (h : Logging z g dev A es s) (hrq : rq.Valid dev.size) :
    Meets (handleRequest z dev .ok rq) s (fun bs s' => bs = rq.ofBytes A ∧
      Logging z g dev (rq.onBytes A) (es ++ rq.events) s') DiskFailed := by
  cases rq with
  | read sector segments =>
    rw [Rq.events, List.append_nil]
    exact h.serve (r := .read (sector * 512) segments) hrq
  | write sector segments time =>
    simp only [handleRequest, meets_bind, onLog, meets_modify, meets_pure]
    apply (h.serve (r := .write (sector * 512) segments) hrq.2.2).post
    exact fun _ s' h' => ⟨h'.1, h'.2.onLog _⟩
  | discard sector length time =>
    simp only [handleRequest, meets_bind, onLog, meets_modify, meets_pure]
    apply (h.serve (r := .discard (sector * 512) length) hrq.2.2.2).post
    exact fun _ s' h' => ⟨h'.1, h'.2.onLog _⟩
  | flush synced =>
    obtain rfl : synced = true := hrq
    exact ⟨rfl, h.onLog _⟩
  | timer => exact ⟨rfl, h.onLog _⟩

theorem run_spec {rqs : List Rq} (h : Logging z g dev A es s)
    (hrqs : ∀ rq ∈ rqs, rq.Valid dev.size) :
    Meets (run z dev (rqs.map fun rq => (rq, .ok))) s (fun out s' => out = bytesReplies A rqs ∧
      Logging z g dev (rqs.foldl Rq.onBytes A) (es ++ rqs.flatMap Rq.events) s') DiskFailed := by
  induction rqs generalizing A es s with
  | nil => exact ⟨rfl, by rw [List.flatMap_nil, List.append_nil]; exact h⟩
  | cons rq rqs ih =>
    simp only [List.map_cons, run, meets_bind, meets_pure]
    apply (handleRequest_spec h (hrqs rq List.mem_cons_self)).post
    rintro _ s₁ ⟨rfl, h₁⟩
    apply (ih h₁ fun rq' hrq' => hrqs rq' (List.mem_cons_of_mem _ hrq')).post
    rintro _ s₂ ⟨rfl, h₂⟩
    rw [List.flatMap_cons, ← List.append_assoc]
    exact ⟨rfl, h₂⟩

/-- An entry as it is read back. -/
def plain (u : Lz4) (e : Entry) : Entry := (next u e).getD e

theorem mapM_eq_map {α β : Type} {f : α → Option β} {k : α → β} {l : List α}
    (h : ∀ a ∈ l, f a = some (k a)) : l.mapM f = some (l.map k) := by
  induction l with
  | nil => rfl
  | cons a l ih =>
    obtain ⟨ha, hl⟩ := List.forall_mem_cons.mp h
    simp [List.mapM_cons, ha, ih hl]

theorem next_writeEntry (hu : dev.compress = u.compress) {data : List UInt8} (hne : data ≠ [])
    (hlt : data.length < 2 ^ 32) (seq sector time : ℕ) :
    next u (writeEntry dev seq sector data time) =
      some { writeEntry dev seq sector data time with data := data } := by
  have hpos : 0 < data.length := List.length_pos_iff.mpr hne
  have hmod : data.length % 2 ^ 32 = data.length := Nat.mod_eq_of_lt hlt
  unfold next
  rw [if_pos ⟨rfl, by rw [writeEntry, hu]; exact u.compress_ne_nil data hne, by
    rw [writeEntry, hmod]; exact hpos⟩]
  simp only [writeEntry, hu, hmod, u.decompress_compress data hne, Option.map_some]

theorem blockOf_mul {sector size : ℕ} (h8 : 8 ∣ sector) (hsize : sector * 512 ≤ size)
    (hlt : size < 2 ^ 63) : blockOf sector * 4096 = sector * 512 := by
  obtain ⟨k, rfl⟩ := h8
  rw [blockOf_eq (hsize.trans_lt hlt), blockSize]
  omega

-- its numbers must not be evaluated
attribute [local irreducible] blockOf

/-- What the entries of a request are good for. -/
structure Replays (u : Lz4) (dev : KernelLog.Device) (rq : Rq) (es : List Entry) : Prop where
  next : ∀ e ∈ es, WriteAhead.next u e = some (plain u e)
  inDevice : ∀ e ∈ es, ReplayImage.InDevice dev.size 4096 (plain u e)
  bytes : ∀ f : Flat, ((es.map (plain u)).foldl (Flat.apply 4096) f).byte = rq.onBytes f.byte

theorem replays_trim {e : Entry} {off length : ℕ} (hop : e.op = .trim)
    (hblock : e.block * 4096 = off) (hlen : e.length = length) (hpos : 0 < length)
    (hin : off + length ≤ dev.size) (hsize : dev.size < 2 ^ 63) :
    ReplayImage.InDevice dev.size 4096 e ∧ ∀ f : Flat,
      (f.apply 4096 e).byte = overlay f.byte off (List.replicate length 0) := by
  have hdev : ReplayImage.InDevice dev.size 4096 e := by
    refine ⟨fun hw => ?_, fun _ => ?_⟩
    · rw [hop] at hw
      cases hw
    · rw [hblock, hlen]
      exact ⟨hpos, hin⟩
  refine ⟨hdev, fun f => ?_⟩
  rw [ReplayImage.apply_eq hdev hsize, hop, hblock, hlen]
  rfl

theorem replays_write {e : Entry} {off : ℕ} {data : List UInt8} (hop : e.op = .write)
    (hblock : e.block * 4096 = off) (hdata : e.data = data) (hin : off + data.length ≤ dev.size)
    (hsize : dev.size < 2 ^ 63) :
    ReplayImage.InDevice dev.size 4096 e ∧ ∀ f : Flat,
      (f.apply 4096 e).byte = overlay f.byte off data := by
  have hdev : ReplayImage.InDevice dev.size 4096 e := by
    refine ⟨fun _ => ?_, fun ht => ?_⟩
    · rw [hblock, hdata]
      exact hin
    · rw [hop] at ht
      cases ht
  refine ⟨hdev, fun f => ?_⟩
  rw [ReplayImage.apply_eq hdev hsize, hop, hblock, hdata]
  exact ReplayImage.byte_writeAt f off data

theorem Replays.singleton {e : Entry} {A : (ℕ → UInt8) → ℕ → UInt8}
    (hnext : WriteAhead.next u e = some (plain u e)) (hA : ∀ B, rq.onBytes B = A B)
    (h : ReplayImage.InDevice dev.size 4096 (plain u e) ∧
      ∀ f : Flat, (f.apply 4096 (plain u e)).byte = A f.byte) : Replays u dev rq [e] :=
  ⟨List.forall_mem_singleton.mpr hnext, List.forall_mem_singleton.mpr h.1,
    fun f => (h.2 f).trans (hA f.byte).symm⟩

theorem replays_logged (hu : dev.compress = u.compress) (hsize : dev.size < 2 ^ 63)
    (hrq : rq.Valid dev.size) (n : ℕ) : Replays u dev rq (loggedEntries dev n rq.events) := by
  cases rq with
  | read sector segments => exact ⟨List.forall_mem_nil _, List.forall_mem_nil _, fun _ => rfl⟩
  | flush synced => exact ⟨List.forall_mem_nil _, List.forall_mem_nil _, fun _ => rfl⟩
  | timer => exact ⟨List.forall_mem_nil _, List.forall_mem_nil _, fun _ => rfl⟩
  | discard sector length time =>
    obtain ⟨h8, hpos, hlt, hin⟩ := hrq
    have hblock := blockOf_mul h8 ((Nat.le_add_right _ _).trans hin) hsize
    have hplain : plain u (trimEntry (n % W64) sector length time) =
      trimEntry (n % W64) sector length time := rfl
    refine Replays.singleton rfl (fun _ => rfl) ?_
    rw [hplain]
    exact replays_trim rfl hblock (Nat.mod_eq_of_lt hlt) hpos hin hsize
  | write sector segments time =>
    obtain ⟨h8, hlen, hin⟩ := hrq
    have hblock := blockOf_mul h8 ((Nat.le_add_right _ _).trans hin) hsize
    by_cases hne : segments.flatten = []
    · -- an empty write is not logged and changes nothing
      have hnone : loggedEntries dev n (Rq.write sector segments time).events = [] := by
        simp [Rq.events, loggedEntries, hne]
      rw [hnone]
      refine ⟨List.forall_mem_nil _, List.forall_mem_nil _, fun f => ?_⟩
      show f.byte = overlay f.byte (sector * 512) segments.flatten
      rw [hne, overlay_nil]
    · have hone : loggedEntries dev n (Rq.write sector segments time).events =
          [writeEntry dev (n % W64) sector segments.flatten time] := by
        simp only [Rq.events, loggedEntries]
        rw [if_neg (by rw [hu]; exact not_or.mpr ⟨hne, u.compress_ne_nil _ hne⟩)]
      have hnext := next_writeEntry hu hne (by omega) (n % W64) sector time
      have hplain : plain u (writeEntry dev (n % W64) sector segments.flatten time) =
          { writeEntry dev (n % W64) sector segments.flatten time with
            data := segments.flatten } := by
        rw [plain, hnext, Option.getD_some]
      rw [hone]
      refine Replays.singleton (hnext.trans (congrArg some hplain.symm)) (fun _ => rfl) ?_
      rw [hplain]
      exact replays_write rfl hblock rfl hin hsize

theorem loggedEntries_append (dev : KernelLog.Device) (n : ℕ) (es es' : List KernelLog.Event) :
    loggedEntries dev n (es ++ es') =
      loggedEntries dev n es ++ loggedEntries dev (n + (loggedEntries dev n es).length) es' := by
  induction es generalizing n with
  | nil => rfl
  | cons e es ih =>
    rw [List.cons_append, loggedEntries_cons, loggedEntries_cons dev n e es, ih, List.append_assoc,
      List.length_append, Nat.add_assoc]

/-- The entries of all requests, read back and applied to a file, make the bytes of the disk. -/
theorem replays_all (hu : dev.compress = u.compress) (hsize : dev.size < 2 ^ 63) {rqs : List Rq}
    (hrqs : ∀ rq ∈ rqs, rq.Valid dev.size) (n : ℕ) :
    (∀ e ∈ loggedEntries dev n (rqs.flatMap Rq.events), next u e = some (plain u e)) ∧
    (∀ e ∈ loggedEntries dev n (rqs.flatMap Rq.events),
      ReplayImage.InDevice dev.size 4096 (plain u e)) ∧
    ∀ f : Flat, (((loggedEntries dev n (rqs.flatMap Rq.events)).map (plain u)).foldl
      (Flat.apply 4096) f).byte = rqs.foldl Rq.onBytes f.byte := by
  induction rqs generalizing n with
  | nil => exact ⟨List.forall_mem_nil _, List.forall_mem_nil _, fun _ => rfl⟩
  | cons rq rqs ih =>
    obtain ⟨hrq, hrqs⟩ := List.forall_mem_cons.mp hrqs
    have hone := replays_logged hu hsize hrq n
    obtain ⟨hnext, hdev, hbytes⟩ := ih hrqs (n + (loggedEntries dev n rq.events).length)
    rw [List.flatMap_cons, loggedEntries_append]
    refine ⟨List.forall_mem_append.mpr ⟨hone.next, hnext⟩,
      List.forall_mem_append.mpr ⟨hone.inDevice, hdev⟩, fun f => ?_⟩
    rw [List.map_append, List.foldl_append, hbytes, hone.bytes]
    rfl

/-- A log file as it is read back. -/
def segmentOf (u : Lz4) (dev : KernelLog.Device) (path : String) (label : Name)
    (es : List Entry) : Segment :=
  ⟨⟨logVersion, 4096, label, dev.size, path⟩, es.map (plain u)⟩

theorem readSegment_segmentBytes {path : String} (htexts : TextsUtf8 dev)
    (hpath : dev.backingPath = utf8 path) (i : ℕ) {es : List Entry} (hes : ∀ e ∈ es, Stored e)
    (hnext : ∀ e ∈ es, next u e = some (plain u e)) :
    readSegment r u (segmentBytes dev (dev.labels i) es) =
      some (segmentOf u dev path (dev.labels i) es) := by
  have hdecode := r.decode_segmentBytes (dev.length_labels i) (htexts.labels i) hpath hes
  simp only [readSegment, hdecode, Option.bind_eq_bind, Option.bind_some, mapM_eq_map hnext]
  rfl

theorem fits_events (hu : dev.compress = u.compress) {rqs : List Rq}
    (hrqs : ∀ rq ∈ rqs, rq.Valid dev.size) : ∀ e ∈ rqs.flatMap Rq.events, e.Fits dev := by
  intro e he
  obtain ⟨rq, hrq, he⟩ := List.mem_flatMap.mp he
  cases rq with
  | read sector segments => cases he
  | write sector segments time =>
    obtain rfl := List.mem_singleton.mp he
    have hlen := (hrqs _ hrq).2.1
    have hbound := u.length_compress_le segments.flatten
    show (dev.compress segments.flatten).length < logBufSize
    rw [hu]
    unfold logBufSize
    omega
  | discard sector length time =>
    obtain rfl := List.mem_singleton.mp he
    trivial
  | flush synced =>
    obtain rfl := List.mem_singleton.mp he
    trivial
  | timer =>
    obtain rfl := List.mem_singleton.mp he
    trivial

theorem loggedEntries_ne_nil (hu : dev.compress = u.compress) {rqs : List Rq}
    (hlog : ∃ rq ∈ rqs, rq.Logs) (n : ℕ) : loggedEntries dev n (rqs.flatMap Rq.events) ≠ [] := by
  induction rqs generalizing n with
  | nil => exact absurd hlog (by simp)
  | cons rq rqs ih =>
    rw [List.flatMap_cons, loggedEntries_append]
    obtain ⟨rq', hmem, hrq⟩ := hlog
    rcases List.mem_cons.mp hmem with rfl | hmem
    · refine fun hnil => ?_
      obtain ⟨hnil, -⟩ := List.append_eq_nil_iff.mp hnil
      cases rq' with
      | write sector segments time =>
        simp only [Rq.events, loggedEntries] at hnil
        rw [if_neg (by rw [hu]; exact not_or.mpr ⟨hrq, u.compress_ne_nil _ hrq⟩)] at hnil
        cases hnil
      | discard sector length time => cases hnil
      | read sector segments => exact hrq
      | flush synced => exact hrq
      | timer => exact hrq
    · exact fun hnil => ih ⟨rq', hmem, hrq⟩ _ (List.append_eq_nil_iff.mp hnil).2

/-- The labels of the segments up to the last are in order. -/
def LabelsInOrder (dev : KernelLog.Device) (rqs : List Rq) : Prop :=
  ∀ log, runOk dev (start dev) (rqs.flatMap Rq.events) = some log →
    StrictMonoOn dev.labels (Set.Iic log.segment)

theorem published_segments (r : LogReader) (htexts : TextsUtf8 dev)
    (hu : dev.compress = u.compress) (hsize : dev.size < 2 ^ 63) {rqs : List Rq}
    (hrqs : ∀ rq ∈ rqs, rq.Valid dev.size) (hlabels : LabelsInOrder dev rqs)
    (hlog : ∃ rq ∈ rqs, rq.Logs) :
    ∃ log segs, runOk dev (start dev) (rqs.flatMap Rq.events) = some log ∧
      readPublished r u (finalizeLog dev .ok log).published = some segs ∧ segs ≠ [] ∧
      (∀ seg ∈ segs, ReplayImage.Valid dev.size 4096 seg) ∧
      (ReplayImage.flatAfter 4096 (.create dev.size) segs).byte =
        rqs.foldl Rq.onBytes fun _ => 0 := by
  have hfits := fits_events hu hrqs
  obtain ⟨log, hrun, -⟩ := runOk_ok dev (start dev) hfits
  have hstart : Holds dev (start dev) [] := ⟨rfl, [], [], sim_start dev, rfl⟩
  have hholds := hstart.run (hlabels log hrun) hfits hrun le_rfl
  obtain ⟨groups, hfiles, -, hgroups⟩ := hholds.finalizeLog (hlabels log hrun) le_rfl
  rw [List.nil_append, List.length_nil] at hgroups
  obtain ⟨hnext, hdev, hbytes⟩ := replays_all hu hsize hrqs 0
  have hmem : ∀ gr ∈ groups, ∀ e ∈ gr.2, e ∈ loggedEntries dev 0 (rqs.flatMap Rq.events) :=
    fun gr hgr e he => hgroups ▸ List.mem_flatMap.mpr ⟨gr, hgr, he⟩
  obtain ⟨path, hpath⟩ := htexts.path
  have hread : ∀ gr ∈ groups, readSegment r u (segmentBytes dev (dev.labels gr.1) gr.2) =
      some (segmentOf u dev path (dev.labels gr.1) gr.2) := fun gr hgr =>
    readSegment_segmentBytes htexts hpath gr.1
      (fun e he => stored_loggedEntries hfits 0 e (hmem gr hgr e he))
      fun e he => hnext e (hmem gr hgr e he)
  refine ⟨log, groups.map fun gr => segmentOf u dev path (dev.labels gr.1) gr.2, hrun, ?_, ?_, ?_,
    ?_⟩
  · rw [readPublished, hfiles, List.mapM_map]
    exact mapM_eq_map hread
  · intro hnil
    rw [List.map_eq_nil_iff.mp hnil] at hgroups
    exact loggedEntries_ne_nil hu hlog 0 hgroups.symm
  · intro seg hseg
    obtain ⟨gr, hgr, rfl⟩ := List.mem_map.mp hseg
    refine ⟨rfl, rfl, fun e he => ?_⟩
    obtain ⟨e', he', rfl⟩ := List.mem_map.mp he
    exact hdev e' (hmem gr hgr e' he')
  · have hentries : (groups.map fun gr => segmentOf u dev path (dev.labels gr.1) gr.2).flatMap
        Segment.entries = (loggedEntries dev 0 (rqs.flatMap Rq.events)).map (plain u) := by
      rw [← hgroups, List.map_flatMap, List.flatMap_map]
      rfl
    unfold ReplayImage.flatAfter
    rw [hentries]
    exact hbytes _

theorem init_logging {clusterBits : ℕ} {f : File} (z : Codec)
    (hc : Attachable dev.size clusterBits) (hf : Created dev.size clusterBits f) :
    ∃ d, Device.init (Device.detached f) = (.ok (), d) ∧
      Logging z hc.geometry dev (fun _ => 0) [] ⟨d, some (start dev)⟩ := by
  obtain ⟨v, hdisk, hspan, hl1, hval⟩ := hf.onDisk (z := z) hc.toCreatable
  have hinit := Device.init_serving (d := Device.detached f) (E := fun _ _ => False) hdisk
    (hl1 ▸ hc.l1_le) rfl
  obtain ⟨_, d, hd, hbase, hserving⟩ := hinit.exists_ok
  have h := hserving (noBase hc.geometry) none
    ⟨fun _ hb => (by cases hb), length_noBase _, fun _ _ => rfl⟩
  rw [show { d with base := none } =
    d by rw [show (none : Option Base) = d.base from hbase.symm]] at h
  refine ⟨d, hd, ⟨_, h, hspan, ?_⟩, rfl⟩
  funext a
  show flat _ (Overlay.shown _ v.val) a = 0
  rw [hval]
  simp [flat, Overlay.shown, noBase]

theorem Logging.read (h : Logging z g dev A es s) {off n : ℕ} (hn : off + n ≤ dev.size) :
    (Device.read z off [n] s.disk).1 = .ok (window A off n) := by
  obtain ⟨⟨v, hserving, hspan, rfl⟩, -⟩ := h
  have hv := hserving.mem.vsize_lt.le
  have hsum : off + [n].sum ≤ dev.size := by simpa using hn
  have hread := Device.read_spec (E := fun _ _ => False) hserving (hsum.trans hspan) (hsum.trans hv)
  obtain ⟨_, d, hd, rfl, -⟩ := hread.exists_ok
  rw [hd]
  simp

/-- The finished log files of a device, read back and replayed into an empty file, give what the
device shows. -/
theorem log_replays_to_disk {clusterBits : ℕ} {f : File} {rqs : List Rq} (z : Codec)
    (r : LogReader) (hc : Attachable dev.size clusterBits) (hf : Created dev.size clusterBits f)
    (hu : dev.compress = u.compress) (htexts : TextsUtf8 dev)
    (hrqs : ∀ rq ∈ rqs, rq.Valid dev.size) (hlabels : LabelsInOrder dev rqs)
    (hlog : ∃ rq ∈ rqs, rq.Logs) :
    ∃ d, Device.init (Device.detached f) = (.ok (), d) ∧
      Meets (run z dev (rqs.map fun rq => (rq, .ok))) ⟨d, some (start dev)⟩
        (fun out s => out = bytesReplies (fun _ => 0) rqs ∧ ∃ log segs flat, s.log = some log ∧
          readPublished r u (finalizeLog dev .ok log).published = some segs ∧
          ReplayImage.runs ReplayImage.replayToFlat segs [] none = (.ok (), some flat) ∧
          flat.size = dev.size ∧ ∀ off n, off + n ≤ dev.size →
            (Device.read z off [n] s.disk).1 = .ok (window flat.byte off n)) DiskFailed := by
  have hsize := hc.size_lt
  obtain ⟨d, hd, hlogging⟩ := init_logging z hc hf
  refine ⟨d, hd, (run_spec hlogging hrqs).post ?_⟩
  rintro _ s ⟨rfl, h⟩
  obtain ⟨log, segs, hrun, hread, hne, hvalid, hbytes⟩ :=
    published_segments r htexts hu hsize hrqs hlabels hlog
  refine ⟨rfl, log, segs, _, h.log.trans hrun, hread,
    ReplayImage.flatRuns_eq hsize hne (List.forall_mem_singleton.mpr hvalid), ?_,
      fun off n hn => ?_⟩
  · rw [List.flatten_nil, List.append_nil]
    exact ReplayImage.flatAfter_size hvalid hsize rfl
  · rw [List.flatten_nil, List.append_nil, hbytes]
    exact h.read hn

section Sample

/-- `sampleDevice` with a compressor that only marks its output. -/
def sampleLogged : KernelLog.Device := { sampleDevice with compress := literals.compress }

/-- A write and a flush, a discard of a part of it, a read, and the timer. -/
def sampleRqs : List Rq :=
  [.write 16 [[1, 2], [3]] 5, .flush true, .discard 16 2 6, .read 16 [1, 3], .timer]

theorem sampleRqs_valid : ∀ rq ∈ sampleRqs, rq.Valid sampleLogged.size := by
  simp only [sampleRqs, List.forall_mem_cons, Rq.Valid]
  exact ⟨by decide, trivial, by decide, by decide, trivial, List.forall_mem_nil _⟩

theorem sampleRqs_labels : LabelsInOrder sampleLogged sampleRqs := by
  have hsegment : (runOk sampleLogged (start sampleLogged) (sampleRqs.flatMap Rq.events)).map
      LogState.segment = some 2 := by decide +kernel
  intro log hlog i hi j hj hlt
  rw [hlog, Option.map_some, Option.some.injEq] at hsegment
  rw [Set.mem_Iic, hsegment] at hj
  exact LogName.tai64nLabel_lt (by unfold LogName.ClockInRange; omega) hlt

theorem sampleLogged_attachable : Attachable sampleLogged.size 13 := small_attachable

theorem sampleLogged_created : Created sampleLogged.size 13 smallFile := smallFile_created

theorem hexFixed_lt (w n : ℕ) : ∀ c ∈ LogName.hexFixed w n, c.toNat < 128 := by
  induction w generalizing n with
  | zero => exact List.forall_mem_nil _
  | succ w ih =>
    have hdigit : ∀ k < 16, (LogName.hexDigit k).toNat < 128 := by decide
    rw [LogName.hexFixed, List.forall_mem_append, List.forall_mem_singleton]
    exact ⟨ih _, hdigit _ (Nat.mod_lt _ (by norm_num))⟩

theorem sampleLogged_texts : TextsUtf8 sampleLogged := by
  refine ⟨⟨"/d", by decide⟩, fun i => ?_⟩
  change ∀ c ∈ LogName.tai64nLabel i, c.toNat < 128
  rw [LogName.tai64nLabel, List.forall_mem_append]
  exact ⟨hexFixed_lt _ _, hexFixed_lt _ _⟩

theorem fromUTF8?_utf8 (s : String) : String.fromUTF8? ⟨(utf8 s).toArray⟩ = some s :=
  dif_pos s.isValidUTF8

theorem map_ascii {label : Name} (h : ∀ c ∈ label, c.toNat < 128) :
    (ascii label).map (fun b => Char.ofNat b.toNat) = label := by
  rw [ascii, List.map_map]
  refine (List.map_congr_left fun c hc => ?_).trans (List.map_id label)
  have hlt := h c hc
  show Char.ofNat (UInt8.ofNat c.toNat).toNat = c
  rw [UInt8.toNat_ofNat', Nat.mod_eq_of_lt (by omega), Char.ofNat_toNat]

/-- A reader of the fields that the module writes, in their order. -/
def fieldReader : LogReader where
  decode bytes := do
    let (h, es) ← readLog bytes
    let path ← String.fromUTF8? ⟨h.backingPath.toArray⟩
    pure (⟨h.version, h.blockSize, h.label.map fun b => Char.ofNat b.toNat, h.deviceSize, path⟩, es)
  decode_segmentBytes hlabel hascii hpath hes := by
    simp only [readLog_segmentBytes hlabel hes, Option.bind_eq_bind, Option.bind_some, hpath,
      fromUTF8?_utf8, map_ascii hascii]
    rfl

theorem log_replays_to_disk_small :
    ∃ d, Device.init (Device.detached smallFile) = (.ok (), d) ∧
      Meets (run Codec.none sampleLogged (sampleRqs.map fun rq => (rq, .ok)))
        ⟨d, some (start sampleLogged)⟩
        (fun out s => out = [[], [], [], [0, 0, 3, 0], []] ∧ ∃ log segs flat, s.log = some log ∧
          readPublished fieldReader literals (finalizeLog sampleLogged .ok log).published =
            some segs ∧
          ReplayImage.runs ReplayImage.replayToFlat segs [] none = (.ok (), some flat) ∧
          flat.size = 2 ^ 20 ∧ ∀ off n, off + n ≤ 2 ^ 20 →
            (Device.read Codec.none off [n] s.disk).1 =
              .ok (window flat.byte off n)) DiskFailed := by
  have hu : sampleLogged.compress = literals.compress := rfl
  obtain ⟨d, hd, h⟩ := log_replays_to_disk Codec.none fieldReader sampleLogged_attachable
    sampleLogged_created hu sampleLogged_texts sampleRqs_valid sampleRqs_labels
    ⟨_, List.mem_cons_self, by simp [Rq.Logs]⟩
  exact ⟨d, hd, h.post fun _ _ h' => ⟨h'.1.trans (by decide), h'.2⟩⟩

end Sample

end Lbd.WriteAhead
