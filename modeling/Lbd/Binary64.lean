import Mathlib

/-!
# Non-negative binary64 numbers

Ratios of machine integers never leave the normal range of binary64, so a value
is a significand of at most 53 bits and an exponent, and an operation is one
rounding to nearest, ties to even.
-/

namespace Lbd

/-- The value `mant * 2 ^ exp`. -/
structure Binary64 where
  mant : ℕ
  exp : ℤ
deriving DecidableEq, Repr

namespace Binary64

/-- `p / q` to the nearest integer, ties to even. -/
def divNearest (p q : ℕ) : ℕ :=
  let n := p / q
  let r := p % q
  if q < 2 * r ∨ (2 * r = q ∧ n % 2 = 1) then n + 1 else n

/-- Numerator and denominator of `p / q / 2 ^ e`. -/
def scale (p q : ℕ) (e : ℤ) : ℕ × ℕ := (p * 2 ^ (-e).toNat, q * 2 ^ e.toNat)

/-- The binary64 number nearest to `p / q`. -/
def ofRatio (p q : ℕ) : Binary64 :=
  if p = 0 ∨ q = 0 then ⟨0, 0⟩
  else
    let e : ℤ := (Nat.log2 p : ℤ) - Nat.log2 q - 52
    let s := scale p q e
    -- the first guess of the exponent is at most one too large
    let e := if s.1 < 2 ^ 52 * s.2 then e - 1 else e
    let s := scale p q e
    ⟨divNearest s.1 s.2, e⟩

def ofNat (n : ℕ) : Binary64 := ofRatio n 1

def div (a b : Binary64) : Binary64 :=
  ofRatio (a.mant * 2 ^ (a.exp - b.exp).toNat) (b.mant * 2 ^ (b.exp - a.exp).toNat)

def lt (a b : Binary64) : Bool :=
  a.mant * 2 ^ (a.exp - b.exp).toNat < b.mant * 2 ^ (b.exp - a.exp).toNat

example : (div (ofNat 1) (ofNat 10)).mant = 0x1999999999999A := by decide

theorem ofNat_mant_pos {n : ℕ} (h : 0 < n) : 0 < (ofNat n).mant := by
  have hlog : 2 ^ Nat.log2 n ≤ n := Nat.log2_self_le h.ne'
  -- the quotient that is rounded is at least one, whichever exponent is taken
  have hpos : ∀ e : ℤ, e ≤ (Nat.log2 n : ℤ) → 0 < divNearest (scale n 1 e).1 (scale n 1 e).2 := by
    intro e he
    have hle : (scale n 1 e).2 ≤ (scale n 1 e).1 := by
      simp only [scale, one_mul]
      calc 2 ^ e.toNat ≤ 2 ^ Nat.log2 n := Nat.pow_le_pow_right two_pos (by omega)
        _ ≤ n := hlog
        _ ≤ n * 2 ^ (-e).toNat := Nat.le_mul_of_pos_right _ (by positivity)
    have hq : 0 < (scale n 1 e).2 := by simp [scale]
    have hdiv : 0 < (scale n 1 e).1 / (scale n 1 e).2 := Nat.div_pos hle hq
    unfold divNearest
    dsimp only
    split_ifs <;> omega
  have hne : ¬ (n = 0 ∨ (1 : ℕ) = 0) := by omega
  have hone : Nat.log2 1 = 0 := by decide
  simp only [ofNat, ofRatio, if_neg hne, hone]
  apply hpos
  split_ifs <;> omega

theorem div_self {a : Binary64} (h : 0 < a.mant) : a.div a = ofNat 1 := by
  have hne : ¬ (a.mant = 0 ∨ a.mant = 0) := by omega
  have hexp : (Nat.log2 a.mant : ℤ) - Nat.log2 a.mant - 52 = -52 := by omega
  have hscale : scale a.mant a.mant (-52) = (a.mant * 2 ^ 52, a.mant) := by simp [scale]
  have hlt : ¬ a.mant * 2 ^ 52 < 2 ^ 52 * a.mant := by
    rw [Nat.mul_comm]
    exact lt_irrefl _
  have hnear : divNearest (a.mant * 2 ^ 52) a.mant = 2 ^ 52 := by
    simp only [divNearest, Nat.mul_div_cancel_left _ h, Nat.mul_mod_right]
    exact if_neg (by omega)
  have hratio : ofRatio a.mant a.mant = ⟨2 ^ 52, -52⟩ := by
    simp only [ofRatio, if_neg hne, hexp, hscale, if_neg hlt, hnear]
  have hdiv : a.div a = ofRatio a.mant a.mant := by
    simp only [div, sub_self, Int.toNat_zero, pow_zero, mul_one]
  rw [hdiv, hratio]
  decide

theorem one_not_lt_percent {t : ℕ} (h : t ≤ 100) :
    (ofNat 1).lt ((ofNat t).div (ofNat 100)) = false := by
  have hall : ∀ t < 101, (ofNat 1).lt ((ofNat t).div (ofNat 100)) = false := by decide +kernel
  exact hall t (by omega)

end Binary64

end Lbd
