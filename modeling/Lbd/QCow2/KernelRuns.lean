import Lbd.QCow2.KernelDisk

/-!
# Histories of the kernel's device

A sequence of requests gets the replies that an overlay over the base would give,
up to the first request that fails because the file cannot grow; none fails while the file has
room for a cluster and a table for every cluster that a request touches.
-/

namespace Lbd.QCow2

open Act

variable {z : Codec} {g : Geometry} {vsize : ℕ} {B : ℕ → List UInt8} {d d' : Device} {v v' : View}
  {off n : ℕ} {data : List UInt8}

inductive Request
  | read (off : ℕ) (segments : List ℕ)
  | write (off : ℕ) (segments : List (List UInt8))
  | discard (off length : ℕ)

namespace Request

def serve (z : Codec) : Request → KernelM (List UInt8)
  | read off segments => Device.read z off segments
  | write off segments => do
    Device.write z off segments
    pure []
  | discard off length => do
    Device.discard z off length
    pure []

/-- The range lies inside of the virtual size. -/
def Inside (vsize : ℕ) : Request → Prop
  | read off segments => off + segments.sum ≤ vsize
  | write off segments => off + segments.flatten.length ≤ vsize
  | discard off length => off + length ≤ vsize

/-- Only whole clusters are discarded. -/
def Aligned (clusterSize : ℕ) : Request → Prop
  | discard off length => clusterSize ∣ off ∧ clusterSize ∣ length
  | _ => True

/-- The room at the end of the file that the request may need: a cluster and an L2 table for each
cluster of its range. -/
def room (bits : ℕ) : Request → ℕ
  | read _ _ => 0
  | write off segments =>
    (chunks bits (2 ^ bits) off segments.flatten.length).length * (2 * 2 ^ bits)
  | discard off length => (chunks bits (2 ^ bits) off length).length * (2 * 2 ^ bits)

/-- The effect on an overlay. -/
def apply (bits : ℕ) (B : ℕ → List UInt8) (O : Overlay) : Request → Overlay
  | read _ _ => O
  | write off segments => O.write bits B off segments.flatten
  | discard off length => O.discard bits off length

/-- What the guest gets. -/
def reply (bits : ℕ) (B : ℕ → List UInt8) (O : Overlay) : Request → List UInt8
  | read off segments => window (O.bytes (2 ^ bits) B) off segments.sum
  | write _ _ => []
  | discard _ _ => []

end Request

/-- The replies to a sequence of requests. -/
def replies (bits : ℕ) (B : ℕ → List UInt8) : Overlay → List Request → List (List UInt8)
  | _, [] => []
  | O, r :: rs => r.reply bits B O :: replies bits B (r.apply bits B O) rs

namespace Device

def run (z : Codec) : List Request → KernelM (List (List UInt8))
  | [] => pure []
  | r :: rs => do
    let bs ← r.serve z
    let rest ← run z rs
    pure (bs :: rest)

theorem forM_spec {f : Chunk → KernelM Unit} (step : Overlay → Chunk → Overlay) (P : Chunk → Prop)
    {k : ℕ} (h : Serving z g vsize B d v) (hspan : off + n ≤ v.span g) (hn : off + n ≤ W64)
    (hstep : ∀ ch d v, ch.Fits g.clusterSize off n → Serving z g vsize B d v →
      off + n ≤ v.span g → Meets (f ch) d (fun _ d' => ∃ v',
        Rewritten z g vsize B v (step v.val ch) k d' v' ∧ (P ch → v.AllocSaved → v'.AllocSaved))
      (NoRoom (v.alloc + k))) :
    Meets ((chunks g.clusterBits g.clusterSize off n).forM f) d (fun _ d' => ∃ v',
      Rewritten z g vsize B v ((chunks g.clusterBits g.clusterSize off n).foldl step v.val)
        ((chunks g.clusterBits g.clusterSize off n).length * k) d' v' ∧
      ((∀ ch ∈ chunks g.clusterBits g.clusterSize off n, P ch) → v.AllocSaved → v'.AllocSaved))
      (NoRoom (v.alloc + (chunks g.clusterBits g.clusterSize off n).length * k)) := by
  refine (meets_forM (fun pre d' => ∃ v',
    Rewritten z g vsize B v (pre.foldl step v.val) (pre.length * k) d' v' ∧
    ((∀ ch ∈ pre, P ch) → v.AllocSaved → v'.AllocSaved)) ?_ ?_)
  · exact ⟨v, ⟨h, .refl v, rfl, Nat.le_add_right _ _⟩, fun _ => id⟩
  · rintro pre ch post d₁ hl ⟨v₁, ⟨h₁, hg₁, hval₁, halloc₁⟩, ha₁⟩
    have hch : ch.Fits g.clusterSize off n := (tiles_geometry g hn).fits (by simp [hl])
    have hlen : pre.length + 1 ≤ (chunks g.clusterBits g.clusterSize off n).length := by
      rw [hl]
      simp
    have hroom := Nat.mul_le_mul_right k hlen
    rw [Nat.succ_mul] at hroom
    apply (hstep ch d₁ v₁ hch h₁ (hg₁.span_eq ▸ hspan)).imp _ fun _ _ he => he.mono (by omega)
    rintro _ d₂ ⟨v₂, ⟨h₂, hg₂, hval₂, halloc₂⟩, ha₂⟩
    refine ⟨v₂, ⟨h₂, hg₁.trans hg₂, ?_, ?_⟩, fun hP ha => ?_⟩
    · rw [List.foldl_append, hval₂, hval₁]
      rfl
    · rw [List.length_append, List.length_singleton, Nat.succ_mul]
      omega
    · exact ha₂ (hP ch (by simp)) (ha₁ (fun k hk => hP k (by simp [hk])) ha)

theorem serve_spec {r : Request} (h : Serving z g vsize B d v) (hspan : vsize ≤ v.span g)
    (hr : r.Inside vsize) :
    Meets (r.serve z) d (fun bs d' => bs = r.reply g.clusterBits B v.val ∧ ∃ v',
      Rewritten z g vsize B v (r.apply g.clusterBits B v.val) (r.room g.clusterBits) d' v' ∧
      (r.Aligned g.clusterSize → v.AllocSaved → v'.AllocSaved))
      (NoRoom (v.alloc + r.room g.clusterBits)) := by
  have hv := h.mem.vsize_lt.le
  cases r with
  | read off segments =>
    apply (read_spec h (hr.trans hspan) (hr.trans hv)).post
    rintro bs d' ⟨hbs, h'⟩
    exact ⟨hbs, v, ⟨h', .refl v, rfl, le_rfl⟩, fun _ => id⟩
  | write off segments =>
    simp only [Request.serve, Device.write, meets_bind, meets_get, meets_pure]
    rw [h.mem.clusterBits, h.mem.clusterSize]
    refine (forM_spec (Overlay.writeChunk B segments.flatten) (fun _ => True) h (hr.trans hspan)
      (hr.trans hv) ?_).post ?_
    · intro ch d v hch h hspan
      apply (writeChunk_spec h hspan hch).post
      rintro _ d' ⟨v', h', ha⟩
      exact ⟨v', h', fun _ _ => ha⟩
    · rintro _ d' ⟨v', h', ha⟩
      exact ⟨rfl, v', h', fun _ => ha fun _ _ => trivial⟩
  | discard off length =>
    simp only [Request.serve, Device.discard, meets_bind, meets_get, meets_pure]
    rw [h.mem.clusterBits, h.mem.clusterSize]
    refine (forM_spec (Overlay.discardChunk g.clusterSize)
      (fun ch => ch.off = 0 ∧ ch.len = g.clusterSize) h (hr.trans hspan) (hr.trans hv) ?_).post ?_
    · intro ch d v hch h hspan
      exact discardChunk_spec h (l1_lt_of_fits hch hspan) hch.inside
    · rintro _ d' ⟨v', h', ha⟩
      exact ⟨rfl, v', h', fun hal => ha fun ch hch => chunks_whole hal.1 hal.2 hch⟩

theorem run_spec {rs : List Request} (h : Serving z g vsize B d v) (hspan : vsize ≤ v.span g)
    (hrs : ∀ r ∈ rs, r.Inside vsize) :
    Meets (run z rs) d (fun out d' => out = replies g.clusterBits B v.val rs ∧ ∃ v',
      Rewritten z g vsize B v (rs.foldl (Request.apply g.clusterBits B) v.val)
        (rs.map (Request.room g.clusterBits)).sum d' v' ∧
      ((∀ r ∈ rs, r.Aligned g.clusterSize) → v.AllocSaved → v'.AllocSaved))
      (NoRoom (v.alloc + (rs.map (Request.room g.clusterBits)).sum)) := by
  induction rs generalizing d v with
  | nil => exact ⟨rfl, v, ⟨h, .refl v, rfl, le_rfl⟩, fun _ => id⟩
  | cons r rs ih =>
    simp only [run, meets_bind, meets_pure, List.map_cons, List.sum_cons]
    apply (serve_spec h hspan (hrs r List.mem_cons_self)).imp _ fun _ _ he => he.mono (by omega)
    rintro _ d₁ ⟨rfl, v₁, ⟨h₁, hg₁, hval₁, halloc₁⟩, ha₁⟩
    apply (ih h₁ (hg₁.span_eq ▸ hspan) fun r' hr' => hrs r' (List.mem_cons_of_mem _ hr')).imp _
      fun _ _ he => he.mono (by omega)
    rintro _ d₂ ⟨rfl, v₂, ⟨h₂, hg₂, hval₂, halloc₂⟩, ha₂⟩
    rw [hval₁] at hval₂ ⊢
    refine ⟨rfl, v₂, ⟨h₂, hg₁.trans hg₂, hval₂, by omega⟩, fun hal ha => ?_⟩
    exact ha₂ (fun r' hr' => hal r' (List.mem_cons_of_mem _ hr'))
      (ha₁ (hal r List.mem_cons_self) ha)

end Device

end Lbd.QCow2
