import Lbd.Chunks

/-!
# A disk of clusters over a base

The clusters that have been written stand in an overlay, the others show the
base. A write copies a cluster up before it changes it; a discard of a whole
cluster drops it from the overlay, so that the base shows again.
-/

namespace Lbd

theorem chunksFrom_whole {bits fuel off pos n : ℕ} (hoff : 2 ^ bits ∣ off) (hn : 2 ^ bits ∣ n) :
    ∀ ch ∈ chunksFrom bits (2 ^ bits) fuel off pos n, ch.off = 0 ∧ ch.len = 2 ^ bits := by
  induction fuel generalizing off pos n with
  | zero => exact fun ch hch => absurd hch List.not_mem_nil
  | succ fuel ih =>
    intro ch hch
    rw [chunksFrom] at hch
    split_ifs at hch with h0
    · exact absurd hch List.not_mem_nil
    · have hstart : off &&& (2 ^ bits - 1) = 0 := by
        rw [Nat.and_two_pow_sub_one_eq_mod]
        exact Nat.mod_eq_zero_of_dvd hoff
      have hle : 2 ^ bits ≤ n := Nat.le_of_dvd (by omega) hn
      have hlen : (chunkAt bits (2 ^ bits) off pos n).len = 2 ^ bits := by
        show min (2 ^ bits - (off &&& (2 ^ bits - 1))) n = 2 ^ bits
        omega
      rcases List.mem_cons.mp hch with rfl | hch
      · exact ⟨hstart, hlen⟩
      · rw [hlen] at hch
        exact ih (hoff.add (dvd_refl _)) (Nat.dvd_sub hn (dvd_refl _)) ch hch

theorem chunks_whole {bits off n : ℕ} (hoff : 2 ^ bits ∣ off) (hn : 2 ^ bits ∣ n) {ch : Chunk}
    (hch : ch ∈ chunks bits (2 ^ bits) off n) : ch.off = 0 ∧ ch.len = 2 ^ bits :=
  chunksFrom_whole hoff hn ch hch

/-- The clusters of an overlay; `none` is a cluster of the base. -/
abbrev Overlay := ℕ → Option (List UInt8)

namespace Overlay

variable {B : ℕ → List UInt8} {O : Overlay} {bits cs off n o : ℕ} {data : List UInt8}

def shown (B : ℕ → List UInt8) (O : Overlay) (c : ℕ) : List UInt8 := (O c).getD (B c)

/-- The bytes of the disk. -/
def bytes (cs : ℕ) (B : ℕ → List UInt8) (O : Overlay) : ℕ → UInt8 := flat cs (O.shown B)

def writeChunk (B : ℕ → List UInt8) (data : List UInt8) (O : Overlay) (ch : Chunk) : Overlay :=
  Function.update O ch.cluster
    (some (overwrite (O.shown B ch.cluster) ch.off ((data.drop ch.pos).take ch.len)))

/-- A part of a cluster is zeroed only if the overlay has the cluster. -/
def discardChunk (cs : ℕ) (O : Overlay) (ch : Chunk) : Overlay :=
  Function.update O ch.cluster
    (if ch.off = 0 ∧ ch.len = cs then none
      else (O ch.cluster).map fun x => overwrite x ch.off (List.replicate ch.len 0))

def write (bits : ℕ) (B : ℕ → List UInt8) (O : Overlay) (off : ℕ) (data : List UInt8) : Overlay :=
  (chunks bits (2 ^ bits) off data.length).foldl (writeChunk B data) O

def discard (bits : ℕ) (O : Overlay) (off n : ℕ) : Overlay :=
  (chunks bits (2 ^ bits) off n).foldl (discardChunk (2 ^ bits)) O

/-- All clusters have `cs` bytes. -/
def Full (cs : ℕ) (B : ℕ → List UInt8) (O : Overlay) : Prop := ∀ c, (O.shown B c).length = cs

theorem shown_update (O : Overlay) (c : ℕ) (x : Option (List UInt8)) :
    Overlay.shown B (Function.update O c x) = Function.update (O.shown B) c (x.getD (B c)) := by
  funext k
  by_cases hk : k = c
  · subst hk
    simp [shown]
  · simp [shown, hk]

theorem Full.update {c : ℕ} {x : Option (List UInt8)} (h : O.Full cs B)
    (hx : (x.getD (B c)).length = cs) : Overlay.Full cs B (Function.update O c x) := by
  intro k
  rw [shown_update]
  by_cases hk : k = c
  · subst hk
    rwa [Function.update_self]
  · rw [Function.update_of_ne hk]
    exact h k

theorem writeChunk_full {ch : Chunk} (h : O.Full cs B) (hch : ch.Fits cs off data.length) :
    (O.writeChunk B data ch).Full cs B := by
  have hin := hch.inside
  have hbelow := hch.below
  refine h.update ?_
  show (overwrite _ _ _).length = cs
  rw [length_overwrite (by rw [h]; simp; omega), h]

theorem bytes_writeChunk {ch : Chunk} (h : O.Full cs B) (hch : ch.Fits cs off data.length) :
    bytes cs B (O.writeChunk B data ch) =
      overlay (bytes cs B O) (off + ch.pos) ((data.drop ch.pos).take ch.len) := by
  have hin := hch.inside
  have hbelow := hch.below
  unfold bytes writeChunk
  rw [shown_update, Option.getD_some, flat_update (h _) (by simp; omega), hch.addr]

theorem foldl_writeChunk {pos : ℕ} {l : List Chunk} {A : ℕ → UInt8}
    (hl : Tiles cs off data.length pos l) (h : O.Full cs B)
    (hA : bytes cs B O = overlay A off (data.take pos)) :
    bytes cs B (l.foldl (writeChunk B data) O) = overlay A off data := by
  induction l generalizing pos O with
  | nil =>
    obtain rfl : pos = data.length := hl
    rwa [List.take_length] at hA
  | cons ch l ih =>
    obtain ⟨rfl, hch, hl⟩ := hl
    refine ih hl (writeChunk_full h hch) ?_
    rw [bytes_writeChunk h hch, hA, overlay_take_succ _ _ _ hch.below]

theorem bytes_write (h : O.Full (2 ^ bits) B) (hoff : off + data.length ≤ W64) :
    bytes (2 ^ bits) B (O.write bits B off data) = overlay (bytes (2 ^ bits) B O) off data :=
  foldl_writeChunk (tiles_chunks bits hoff) h (overlay_nil _).symm

theorem discardChunk_full {ch : Chunk} (h : O.Full cs B) (hB : ∀ c, (B c).length = cs)
    (hch : ch.Fits cs off n) : (O.discardChunk cs ch).Full cs B := by
  have hin := hch.inside
  refine h.update ?_
  split_ifs
  · exact hB _
  · have hc := h ch.cluster
    unfold shown at hc
    cases hO : O ch.cluster with
    | none => exact hB _
    | some x =>
      rw [hO] at hc
      show (overwrite x _ _).length = cs
      rw [length_overwrite (by rw [List.length_replicate]; exact hc ▸ hin)]
      exact hc

theorem bytes_discardChunk {ch : Chunk} (h : O.Full cs B)
    (hB : ∀ c, B c = List.replicate cs 0) (hch : ch.Fits cs off n) :
    bytes cs B (O.discardChunk cs ch) =
      overlay (bytes cs B O) (off + ch.pos) (List.replicate ch.len 0) := by
  have hin := hch.inside
  have hc := h ch.cluster
  have hshown : (if ch.off = 0 ∧ ch.len = cs then none
      else (O ch.cluster).map fun x => overwrite x ch.off (List.replicate ch.len 0)).getD
        (B ch.cluster) = overwrite (O.shown B ch.cluster) ch.off (List.replicate ch.len 0) := by
    split_ifs with hwhole
    · rw [hwhole.1, hwhole.2, overwrite_all (by rw [List.length_replicate, hc]), Option.getD_none,
        hB]
    · unfold shown
      cases O ch.cluster with
      | some x => rfl
      | none => exact (hB _).trans (by rw [Option.getD_none, hB, overwrite_replicate 0 hin])
  unfold bytes discardChunk
  rw [shown_update, hshown, flat_update hc (by rwa [List.length_replicate]), hch.addr]

theorem foldl_discardChunk {pos : ℕ} {l : List Chunk} {A : ℕ → UInt8}
    (hB : ∀ c, B c = List.replicate cs 0) (hl : Tiles cs off n pos l) (h : O.Full cs B)
    (hA : bytes cs B O = overlay A off (List.replicate pos 0)) :
    bytes cs B (l.foldl (discardChunk cs) O) = overlay A off (List.replicate n 0) := by
  induction l generalizing pos O with
  | nil =>
    obtain rfl : pos = n := hl
    exact hA
  | cons ch l ih =>
    obtain ⟨rfl, hch, hl⟩ := hl
    refine ih hl (discardChunk_full h (fun c => by rw [hB, List.length_replicate]) hch) ?_
    rw [bytes_discardChunk h hB hch, hA, overlay_replicate_succ]

theorem bytes_discard (hB : ∀ c, B c = List.replicate (2 ^ bits) 0) (h : O.Full (2 ^ bits) B)
    (hoff : off + n ≤ W64) :
    bytes (2 ^ bits) B (O.discard bits off n) =
      overlay (bytes (2 ^ bits) B O) off (List.replicate n 0) :=
  foldl_discardChunk hB (tiles_chunks bits hoff) h (overlay_nil _).symm

theorem foldl_full {f : Overlay → Chunk → Overlay} {pos : ℕ} {l : List Chunk}
    (hl : Tiles cs off n pos l) (h : O.Full cs B)
    (hf : ∀ O ch, O.Full cs B → ch.Fits cs off n → (f O ch).Full cs B) :
    (l.foldl f O).Full cs B := by
  induction l generalizing pos O with
  | nil => exact h
  | cons ch l ih => exact ih hl.2.2 (hf O ch h hl.2.1)

theorem write_full (h : O.Full (2 ^ bits) B) (hoff : off + data.length ≤ W64) :
    (O.write bits B off data).Full (2 ^ bits) B :=
  foldl_full (tiles_chunks bits hoff) h fun _ _ h hch => writeChunk_full h hch

theorem discard_full (h : O.Full (2 ^ bits) B) (hB : ∀ c, (B c).length = 2 ^ bits)
    (hoff : off + n ≤ W64) : (O.discard bits off n).Full (2 ^ bits) B :=
  foldl_full (tiles_chunks bits hoff) h fun _ _ h hch => discardChunk_full h hB hch

end Overlay

end Lbd
