import Mathlib

/-!
# Big-endian fields

The on-disk formats store fixed-width integers most significant byte first.
-/

namespace Lbd

variable {α : Type*}

/-- The low `k` bytes of `n`, most significant first. -/
def beBytes : ℕ → ℕ → List UInt8
  | 0, _ => []
  | k + 1, n => beBytes k (n / 256) ++ [UInt8.ofNat n]

def beNat (bs : List UInt8) : ℕ := bs.foldl (fun n b => 256 * n + b.toNat) 0

@[simp] theorem length_beBytes (k n : ℕ) : (beBytes k n).length = k := by
  induction k generalizing n with
  | zero => rfl
  | succ k ih => simp [beBytes, ih]

@[simp] theorem beNat_nil : beNat [] = 0 := rfl

theorem beNat_concat (bs : List UInt8) (b : UInt8) :
    beNat (bs ++ [b]) = 256 * beNat bs + b.toNat := by
  simp [beNat]

theorem beNat_beBytes (k n : ℕ) : beNat (beBytes k n) = n % 256 ^ k := by
  induction k generalizing n with
  | zero => simp [beBytes, Nat.mod_one]
  | succ k ih =>
    have hb : (UInt8.ofNat n).toNat = n % 256 := by simp
    rw [beBytes, beNat_concat, ih, hb, pow_succ', Nat.mod_mul, add_comm]

theorem beNat_lt (bs : List UInt8) : beNat bs < 256 ^ bs.length := by
  induction bs using List.reverseRecOn with
  | nil => simp
  | append_singleton bs b ih =>
    have hb := b.toNat_lt
    rw [beNat_concat, List.length_append, List.length_singleton, pow_succ]
    omega

/-- The `k`-byte field at offset `off` of a buffer. -/
def getBE (k : ℕ) (buf : List UInt8) (off : ℕ) : ℕ := beNat ((buf.drop off).take k)

abbrev get32 : List UInt8 → ℕ → ℕ := getBE 4

abbrev get64 : List UInt8 → ℕ → ℕ := getBE 8

theorem getBE_append (k n : ℕ) (pre post : List UInt8) :
    getBE k (pre ++ (beBytes k n ++ post)) pre.length = n % 256 ^ k := by
  unfold getBE
  rw [List.drop_left, List.take_left' (length_beBytes k n), beNat_beBytes]

theorem getBE_beBytes (k n : ℕ) : getBE k (beBytes k n) 0 = n % 256 ^ k := by
  have := getBE_append k n [] []
  rwa [List.append_nil] at this

theorem getBE_lt (k : ℕ) (buf : List UInt8) (off : ℕ) : getBE k buf off < 256 ^ k :=
  (beNat_lt _).trans_le (Nat.pow_le_pow_right (by norm_num) (List.length_take_le k _))

theorem length_flatMap_range {f : ℕ → List α} {w : ℕ} (hf : ∀ j, (f j).length = w) (n : ℕ) :
    ((List.range n).flatMap f).length = w * n := by
  induction n with
  | zero => simp
  | succ n ih =>
    rw [List.range_succ, List.flatMap_append, List.length_append, ih]
    simp [hf, Nat.mul_succ]

theorem take_drop_flatMap_range {f : ℕ → List α} {w : ℕ} (hf : ∀ j, (f j).length = w) {n j : ℕ}
    (hj : j < n) (post : List α) :
    ((((List.range n).flatMap f) ++ post).drop (w * j)).take w = f j := by
  induction n generalizing post with
  | zero => omega
  | succ n ih =>
    rw [List.range_succ, List.flatMap_append, List.append_assoc]
    rcases Nat.lt_succ_iff_lt_or_eq.mp hj with h | rfl
    · exact ih h _
    · have hl := length_flatMap_range hf j
      rw [← hl, List.drop_left]
      simp [List.take_left' (hf j)]

theorem getBE_flatMap_range (k : ℕ) (v : ℕ → ℕ) {n j : ℕ} (hj : j < n) (post : List UInt8) :
    getBE k ((List.range n).flatMap (fun i => beBytes k (v i)) ++ post) (k * j) =
      v j % 256 ^ k := by
  unfold getBE
  rw [take_drop_flatMap_range (fun i => length_beBytes k (v i)) hj, beNat_beBytes]

section ByteMap

variable {b b' : ℕ → UInt8} {off n p : ℕ} {data bs cs : List UInt8}

/-- `n` bytes of an address space from `off` on. -/
def window (b : ℕ → UInt8) (off n : ℕ) : List UInt8 := (List.range n).map fun i => b (off + i)

/-- The address space after `data` was stored at `off`. -/
def overlay (b : ℕ → UInt8) (off : ℕ) (data : List UInt8) : ℕ → UInt8 := fun a =>
  if off ≤ a ∧ a < off + data.length then data.getD (a - off) 0 else b a

@[simp] theorem length_window : (window b off n).length = n := by simp [window]

theorem window_congr (h : ∀ a, off ≤ a → a < off + n → b' a = b a) :
    window b' off n = window b off n := by
  unfold window
  apply List.map_congr_left
  intro i hi
  have := List.mem_range.mp hi
  exact h _ (by omega) (by omega)

theorem window_add (off m k : ℕ) :
    window b off (m + k) = window b off m ++ window b (off + m) k := by
  simp [window, List.range_add, Function.comp_def, add_assoc]

theorem take_drop_window {k : ℕ} (h : off + k ≤ n) :
    ((window b p n).drop off).take k = window b (p + off) k := by
  obtain ⟨m, rfl⟩ := Nat.exists_eq_add_of_le h
  rw [window_add, window_add, List.append_assoc, List.drop_left' length_window,
    List.take_left' length_window]

theorem window_append : window b off (bs ++ cs).length = bs ++ cs ↔
    window b off bs.length = bs ∧ window b (off + bs.length) cs.length = cs := by
  rw [List.length_append, window_add]
  constructor
  · intro h
    exact List.append_inj h length_window
  · rintro ⟨h1, h2⟩
    rw [h1, h2]

theorem overlay_of_not {a : ℕ} (h : a < off ∨ off + data.length ≤ a) :
    overlay b off data a = b a := if_neg (by omega)

theorem overlay_add {i : ℕ} (hi : i < data.length) : overlay b off data (off + i) = data[i] := by
  have hin : off ≤ off + i ∧ off + i < off + data.length := by omega
  unfold overlay
  rw [if_pos hin, Nat.add_sub_cancel_left]
  simp [hi]

theorem window_overlay_self : window (overlay b off data) off data.length = data := by
  apply List.ext_getElem
  · simp
  · intro i hi hi'
    simp [window, overlay_add hi']

theorem window_overlay_of_disjoint (h : p + n ≤ off ∨ off + data.length ≤ p) :
    window (overlay b off data) p n = window b p n :=
  window_congr fun _ _ _ => overlay_of_not (by omega)

/-- The bytes `bs` stand at `off`. -/
def At (b : ℕ → UInt8) (off : ℕ) (bs : List UInt8) : Prop := window b off bs.length = bs

theorem At.getBE {k x : ℕ} (h : At b (p + off) (beBytes k x)) (hn : off + k ≤ n) :
    getBE k (window b p n) off = x % 256 ^ k := by
  have hw : window b (p + off) k = beBytes k x := by simpa [At] using h
  rw [Lbd.getBE, take_drop_window hn, hw, beNat_beBytes]

theorem At.congr (h : At b off bs) (hb : ∀ a, off ≤ a → a < off + bs.length → b' a = b a) :
    At b' off bs := (window_congr hb).trans h

theorem At.getElem (h : At b off bs) {i : ℕ} (hi : i < bs.length) : b (off + i) = bs[i] := by
  have hl : i < (window b off bs.length).length := by simpa using hi
  have hw : (window b off bs.length)[i] = bs[i] := by simp only [At] at h; simp [h]
  rw [← hw]
  simp [window]

theorem at_of_getElem (h : ∀ i (hi : i < bs.length), b (off + i) = bs[i]) : At b off bs := by
  apply List.ext_getElem
  · simp
  · intro i hi hi'
    simp [window, h i hi']

theorem at_append : At b off (bs ++ cs) ↔ At b off bs ∧ At b (off + bs.length) cs := window_append

theorem at_overlay : At (overlay b off data) off data := window_overlay_self

theorem At.overlay_of_disjoint (h : At b p bs)
    (hd : p + bs.length ≤ off ∨ off + data.length ≤ p) : At (overlay b off data) p bs :=
  (window_overlay_of_disjoint hd).trans h

theorem overlay_append : overlay (overlay b off bs) (off + bs.length) cs =
    overlay b off (bs ++ cs) := by
  funext a
  simp only [overlay, List.length_append]
  by_cases h : a < off + bs.length
  · simp only [show ¬ off + bs.length ≤ a by omega, false_and, if_false, h, and_true]
    by_cases ho : off ≤ a
    · rw [if_pos ho, if_pos ⟨ho, by omega⟩, List.getD_append _ _ _ _ (by omega)]
    · rw [if_neg ho, if_neg fun h => ho h.1]
  · by_cases ha : a < off + bs.length + cs.length
    · rw [if_pos ⟨by omega, ha⟩, if_pos ⟨by omega, by omega⟩,
        List.getD_append_right _ _ _ _ (by omega), Nat.sub_sub]
    · rw [if_neg (by omega), if_neg (by omega), if_neg (by omega)]

/-- The address space `c` below `pos` and `b` from there on. -/
def upTo (c b : ℕ → UInt8) (pos : ℕ) : ℕ → UInt8 := fun a => if a < pos then c a else b a

@[simp] theorem upTo_zero (c b : ℕ → UInt8) : upTo c b 0 = b := rfl

theorem overlay_upTo (c b : ℕ → UInt8) (pos n : ℕ) :
    overlay (upTo c b pos) pos (window c pos n) = upTo c b (pos + n) := by
  funext a
  simp only [overlay, upTo, length_window]
  by_cases h : pos ≤ a ∧ a < pos + n
  · rw [if_pos h, if_pos h.2, List.getD_eq_getElem _ _ (by simp; omega)]
    simp [window, Nat.add_sub_cancel' h.1]
  · rw [if_neg h]
    by_cases ha : a < pos
    · rw [if_pos ha, if_pos (by omega)]
    · rw [if_neg ha, if_neg (by omega)]

theorem upTo_add_of_window_eq {c b : ℕ → UInt8} {pos n : ℕ}
    (h : window b pos n = window c pos n) : upTo c b (pos + n) = upTo c b pos := by
  funext a
  simp only [upTo]
  by_cases ha : pos ≤ a ∧ a < pos + n
  · rw [if_pos ha.2, if_neg (by omega)]
    have hi := congrArg (fun l => l.getD (a - pos) 0) h
    have hlt : a - pos < n := by omega
    simpa [window, List.getD_eq_getElem, hlt, Nat.add_sub_cancel' ha.1] using hi.symm
  · by_cases hp : a < pos
    · rw [if_pos hp, if_pos (by omega)]
    · rw [if_neg hp, if_neg (by omega)]

end ByteMap

end Lbd
