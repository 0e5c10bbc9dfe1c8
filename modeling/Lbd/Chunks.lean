import Lbd.Act
import Lbd.Bytes
import Lbd.Words

/-!
# Requests cut at cluster boundaries

A request on a byte range is served cluster by cluster. `chunks` are the turns of
such a loop; a range of bytes is what the clusters hold one after the other.
-/

namespace Lbd

/-- One turn: `len` bytes from `off` on in `cluster`, which are the bytes from `pos` on of the
request. -/
structure Chunk where
  cluster : ℕ
  off : ℕ
  pos : ℕ
  len : ℕ

/-- The offset is a 64-bit word, and advancing it past the last word starts over at 0. -/
def chunkAt (bits clusterSize guestOffset pos remaining : ℕ) : Chunk where
  cluster := (guestOffset % W64) >>> bits
  off := guestOffset &&& (clusterSize - 1)
  pos := pos
  len := min (clusterSize - (guestOffset &&& (clusterSize - 1))) remaining

/-- The turns of a loop that may take at most `fuel` of them. -/
def chunksFrom (bits clusterSize : ℕ) : (fuel guestOffset pos remaining : ℕ) → List Chunk
  | 0, _, _, _ => []
  | fuel + 1, guestOffset, pos, remaining =>
    if remaining = 0 then []
    else
      let c := chunkAt bits clusterSize guestOffset pos remaining
      c :: chunksFrom bits clusterSize fuel (guestOffset + c.len) (pos + c.len)
        (remaining - c.len)

/-- Every turn advances, so a request takes at most as many turns as it has bytes. -/
def chunks (bits clusterSize guestOffset length : ℕ) : List Chunk :=
  chunksFrom bits clusterSize length guestOffset 0 length

/-- A turn of a request for the `n` bytes from `off` on. -/
structure Chunk.Fits (clusterSize off n : ℕ) (c : Chunk) : Prop where
  addr : c.cluster * clusterSize + c.off = off + c.pos
  pos : 0 < c.len
  inside : c.off + c.len ≤ clusterSize
  below : c.pos + c.len ≤ n

theorem chunkAt_fits (bits : ℕ) {off pos remaining : ℕ} (h : 0 < remaining)
    (hlt : off + pos < W64) :
    (chunkAt bits (2 ^ bits) (off + pos) pos remaining).Fits (2 ^ bits) off (pos + remaining) := by
  have hmod := Nat.mod_lt (off + pos) (Nat.two_pow_pos bits)
  have hoff : (off + pos) &&& (2 ^ bits - 1) = (off + pos) % 2 ^ bits :=
    Nat.and_two_pow_sub_one_eq_mod _ bits
  constructor
  · show ((off + pos) % W64) >>> bits * 2 ^ bits + ((off + pos) &&& (2 ^ bits - 1)) = off + pos
    rw [Nat.mod_eq_of_lt hlt, hoff, Nat.shiftRight_eq_div_pow, Nat.div_add_mod']
  · show 0 < min (2 ^ bits - ((off + pos) &&& (2 ^ bits - 1))) remaining
    omega
  · show ((off + pos) &&& (2 ^ bits - 1)) +
      min (2 ^ bits - ((off + pos) &&& (2 ^ bits - 1))) remaining ≤ 2 ^ bits
    omega
  · show pos + min _ remaining ≤ pos + remaining
    omega

/-- The turns follow one another from byte `pos` of the request to its end. -/
def Tiles (clusterSize off n : ℕ) : ℕ → List Chunk → Prop
  | pos, [] => pos = n
  | pos, c :: l => c.pos = pos ∧ c.Fits clusterSize off n ∧ Tiles clusterSize off n (pos + c.len) l

theorem Tiles.fits {clusterSize off n pos : ℕ} {l : List Chunk} {c : Chunk}
    (h : Tiles clusterSize off n pos l) (hc : c ∈ l) : c.Fits clusterSize off n := by
  induction l generalizing pos with
  | nil => cases hc
  | cons c' l ih =>
    obtain rfl | hc := List.mem_cons.mp hc
    · exact h.2.1
    · exact ih h.2.2 hc

theorem tiles_chunksFrom {bits off n fuel pos : ℕ} (hn : off + n ≤ W64) (hfuel : n ≤ pos + fuel)
    (hpos : pos ≤ n) :
    Tiles (2 ^ bits) off n pos (chunksFrom bits (2 ^ bits) fuel (off + pos) pos (n - pos)) := by
  induction fuel generalizing pos with
  | zero => exact Nat.le_antisymm hpos hfuel
  | succ fuel ih =>
    rw [chunksFrom]
    split_ifs with h0
    · exact Nat.le_antisymm hpos (Nat.sub_eq_zero_iff_le.mp h0)
    · have hfits := chunkAt_fits bits (show 0 < n - pos by omega) (show off + pos < W64 by omega)
      rw [show pos + (n - pos) = n by omega] at hfits
      refine ⟨rfl, hfits, ?_⟩
      have hlen := hfits.pos
      have hbelow := hfits.below
      show Tiles _ _ _ _ (chunksFrom _ _ fuel (off + pos + _) _ (n - pos - _))
      rw [add_assoc, Nat.sub_sub]
      exact ih (by omega) hbelow

theorem tiles_chunks (bits : ℕ) {off n : ℕ} (hn : off + n ≤ W64) :
    Tiles (2 ^ bits) off n 0 (chunks bits (2 ^ bits) off n) :=
  tiles_chunksFrom hn (by omega) (Nat.zero_le n)

theorem chunksFrom_inside {bits fuel off pos n : ℕ} :
    ∀ c ∈ chunksFrom bits (2 ^ bits) fuel off pos n, c.off + c.len ≤ 2 ^ bits := by
  induction fuel generalizing off pos n with
  | zero => exact fun c hc => nomatch hc
  | succ fuel ih =>
    intro c hc
    rw [chunksFrom] at hc
    split_ifs at hc
    · exact nomatch hc
    · rcases List.mem_cons.mp hc with rfl | hc
      · have hmod := Nat.mod_lt off (Nat.two_pow_pos bits)
        have hoff : off &&& (2 ^ bits - 1) = off % 2 ^ bits := Nat.and_two_pow_sub_one_eq_mod _ bits
        show (off &&& (2 ^ bits - 1)) + min (2 ^ bits - (off &&& (2 ^ bits - 1))) n ≤ 2 ^ bits
        omega
      · exact ih c hc

theorem chunks_inside {bits off n : ℕ} {c : Chunk} (h : c ∈ chunks bits (2 ^ bits) off n) :
    c.off + c.len ≤ 2 ^ bits :=
  chunksFrom_inside c h

theorem chunks_single {bits off n : ℕ} (hn : 0 < n) (hin : off % 2 ^ bits + n ≤ 2 ^ bits) :
    chunks bits (2 ^ bits) off n = [chunkAt bits (2 ^ bits) off 0 n] := by
  have hoff : off &&& (2 ^ bits - 1) = off % 2 ^ bits := Nat.and_two_pow_sub_one_eq_mod _ bits
  have hlen : (chunkAt bits (2 ^ bits) off 0 n).len = n := by
    show min (2 ^ bits - (off &&& (2 ^ bits - 1))) n = n
    omega
  obtain ⟨k, rfl⟩ : ∃ k, n = k + 1 := ⟨n - 1, by omega⟩
  unfold chunks
  rw [chunksFrom, if_neg (by omega)]
  dsimp only
  rw [hlen, Nat.sub_self]
  cases k with
  | zero => rfl
  | succ k => rw [chunksFrom, if_pos rfl]

namespace Act

variable {σ ε β : Type} {E : ε → σ → Prop} {s : σ} {cs off n pos : ℕ} {l : List Chunk}

/-- Run a loop whose turns each produce some bytes. -/
def collect (f : β → Act σ ε (List UInt8)) : List β → Act σ ε (List UInt8)
  | [] => pure []
  | b :: l => do
    let bs ← f b
    let rest ← collect f l
    pure (bs ++ rest)

theorem meets_forM_atEach {f : Chunk → Act σ ε Unit} {P : Chunk → σ → Prop} (I : ℕ → σ → Prop)
    (hstep : ∀ c s, c.Fits cs off n → P c s → I c.pos s →
      Meets (f c) s (fun _ s' => I (c.pos + c.len) s') E)
    (hl : Tiles cs off n pos l) (hP : AtEach f P l s) (h : I pos s) :
    Meets (l.forM f) s (fun _ s' => I n s') E := by
  induction l generalizing pos s with
  | nil =>
    obtain rfl : pos = n := hl
    exact h
  | cons c l ih =>
    obtain ⟨rfl, hfits, hl⟩ := hl
    obtain ⟨hc, hP⟩ := hP
    show Meets (f c >>= fun _ => l.forM f) s _ E
    rw [meets_bind]
    apply (hstep c s hfits hc h).and_eq.imp
    · rintro _ s' ⟨h', heq⟩
      exact ih hl (hP s' heq) h'
    · exact fun _ _ he => he.1

theorem meets_forM_tiles {f : Chunk → Act σ ε Unit} (I : ℕ → σ → Prop)
    (hstep : ∀ c s, c.Fits cs off n → I c.pos s →
      Meets (f c) s (fun _ s' => I (c.pos + c.len) s') E)
    (hl : Tiles cs off n pos l) (h : I pos s) : Meets (l.forM f) s (fun _ s' => I n s') E :=
  meets_forM_atEach I (fun c s hfits _ => hstep c s hfits) hl atEach_true h

theorem meets_collect_pos {f : Chunk → Act σ ε (List UInt8)} (I : ℕ → σ → Prop) (A : ℕ → UInt8)
    (hstep : ∀ c s, c.Fits cs off n → I c.pos s →
      Meets (f c) s (fun bs s' => bs = window A (off + c.pos) c.len ∧ I (c.pos + c.len) s') E)
    (hl : Tiles cs off n pos l) (hpos : pos ≤ n) (h : I pos s) :
    Meets (collect f l) s (fun bs s' => bs = window A (off + pos) (n - pos) ∧ I n s') E := by
  induction l generalizing pos s with
  | nil =>
    obtain rfl : pos = n := hl
    rw [Nat.sub_self]
    exact ⟨rfl, h⟩
  | cons c l ih =>
    obtain ⟨rfl, hfits, hl⟩ := hl
    rw [collect, meets_bind]
    apply (hstep c s hfits h).post
    rintro _ s' ⟨rfl, h'⟩
    have hbelow := hfits.below
    rw [meets_bind]
    apply (ih hl hbelow h').post
    rintro _ s'' ⟨rfl, h''⟩
    refine ⟨?_, h''⟩
    rw [← add_assoc, ← window_add]
    congr 1
    omega

theorem meets_collect_tiles {f : Chunk → Act σ ε (List UInt8)} (I : σ → Prop) (A : ℕ → UInt8)
    (hstep : ∀ c s, c.Fits cs off n → I s →
      Meets (f c) s (fun bs s' => bs = window A (off + c.pos) c.len ∧ I s') E)
    (hl : Tiles cs off n pos l) (hpos : pos ≤ n) (h : I s) :
    Meets (collect f l) s (fun bs s' => bs = window A (off + pos) (n - pos) ∧ I s') E :=
  meets_collect_pos (fun _ => I) A hstep hl hpos h

end Act

section Flat

variable {cs c off len o : ℕ} {D : ℕ → List UInt8} {bs : List UInt8}

/-- The byte array that clusters of `cs` bytes make up. -/
def flat (cs : ℕ) (D : ℕ → List UInt8) : ℕ → UInt8 := fun o => (D (o / cs)).getD (o % cs) 0

/-- `bs` copied over a part of `d`. -/
def overwrite (d : List UInt8) (off : ℕ) (bs : List UInt8) : List UInt8 :=
  d.take off ++ bs ++ d.drop (off + bs.length)

theorem length_overwrite {d : List UInt8} (h : off + bs.length ≤ d.length) :
    (overwrite d off bs).length = d.length := by
  simp [overwrite]
  omega

theorem overwrite_replicate {n len : ℕ} (b : UInt8) (h : off + len ≤ n) :
    overwrite (List.replicate n b) off (List.replicate len b) = List.replicate n b := by
  unfold overwrite
  rw [List.take_replicate, List.drop_replicate, List.length_replicate,
    List.replicate_append_replicate, List.replicate_append_replicate]
  congr 1
  omega

theorem overwrite_all {d : List UInt8} (h : bs.length = d.length) : overwrite d 0 bs = bs := by
  simp [overwrite, h]

theorem div_cluster (h : off < cs) : (c * cs + off) / cs = c := by
  rw [Nat.mul_comm, Nat.mul_add_div (by omega), Nat.div_eq_of_lt h, add_zero]

theorem mod_cluster (h : off < cs) : (c * cs + off) % cs = off := by
  rw [Nat.mul_comm, Nat.mul_add_mod, Nat.mod_eq_of_lt h]

theorem window_flat (hD : (D c).length = cs) (h : off + len ≤ cs) :
    window (flat cs D) (c * cs + off) len = ((D c).drop off).take len := by
  apply List.ext_getElem
  · simp
    omega
  · intro i hi hi'
    have hlt : off + i < cs := by simp at hi; omega
    have hbyte : flat cs D (c * cs + off + i) = (D c)[off + i] := by
      rw [flat, add_assoc, div_cluster hlt, mod_cluster hlt]
      simp [hD, hlt]
    simpa [window] using hbyte

theorem getD_overwrite {d : List UInt8} (h : off + bs.length ≤ d.length) (k : ℕ) :
    (overwrite d off bs).getD k 0 =
      if off ≤ k ∧ k < off + bs.length then bs.getD (k - off) 0 else d.getD k 0 := by
  simp only [overwrite, List.getD_eq_getElem?_getD, List.getElem?_append, List.getElem?_take,
    List.getElem?_drop, List.length_append, List.length_take, Nat.min_eq_left (by omega :
      off ≤ d.length)]
  split_ifs <;> first | rfl | omega | congr 2; omega

theorem flat_update (hD : (D c).length = cs) (h : off + bs.length ≤ cs) :
    flat cs (Function.update D c (overwrite (D c) off bs)) =
      overlay (flat cs D) (c * cs + off) bs := by
  funext o
  have hdiv := Nat.div_add_mod' o cs
  by_cases hc : o / cs = c
  · have hiff : (off ≤ o % cs ∧ o % cs < off + bs.length) ↔
        (c * cs + off ≤ o ∧ o < c * cs + off + bs.length) := by
      rw [← hc]
      omega
    have hsub : o % cs - off = o - (c * cs + off) := by
      rw [← hc]
      omega
    unfold flat overlay
    rw [hc, Function.update_self, getD_overwrite (by omega), hsub]
    simp only [hiff, hc]
  · have hout : ¬ (c * cs + off ≤ o ∧ o < c * cs + off + bs.length) := by
      rintro ⟨h1, h2⟩
      apply hc
      exact Nat.div_eq_of_lt_le (by omega) (by rw [Nat.add_mul]; omega)
    unfold flat overlay
    rw [Function.update_of_ne hc, if_neg hout]

theorem overlay_take_succ (A : ℕ → UInt8) (off : ℕ) (data : List UInt8) {pos len : ℕ}
    (h : pos + len ≤ data.length) :
    overlay (overlay A off (data.take pos)) (off + pos) ((data.drop pos).take len) =
      overlay A off (data.take (pos + len)) := by
  funext a
  have h1 : (data.take pos).length = pos := by simp; omega
  have h2 : ((data.drop pos).take len).length = len := by simp; omega
  have h3 : (data.take (pos + len)).length = pos + len := by simp; omega
  unfold overlay
  rw [h1, h2, h3]
  by_cases hin : off + pos ≤ a ∧ a < off + pos + len
  · rw [if_pos hin, if_pos (by omega)]
    simp only [List.getD_eq_getElem?_getD, List.getElem?_take, List.getElem?_drop]
    rw [if_pos (by omega), if_pos (by omega)]
    congr 2
    omega
  · rw [if_neg hin]
    by_cases hpos : off ≤ a ∧ a < off + pos
    · rw [if_pos hpos, if_pos (by omega)]
      simp only [List.getD_eq_getElem?_getD, List.getElem?_take]
      rw [if_pos (by omega), if_pos (by omega)]
    · rw [if_neg hpos, if_neg (by omega)]

theorem overlay_replicate_succ (A : ℕ → UInt8) (b : UInt8) (pos len : ℕ) :
    overlay (overlay A off (List.replicate pos b)) (off + pos) (List.replicate len b) =
      overlay A off (List.replicate (pos + len) b) := by
  have := overlay_take_succ A off (List.replicate (pos + len) b) (List.length_replicate).ge
  simpa [List.take_replicate, List.drop_replicate] using this

theorem overlay_nil (A : ℕ → UInt8) : overlay A off [] = A :=
  funext fun _ => overlay_of_not (by simp; omega)

end Flat

end Lbd
