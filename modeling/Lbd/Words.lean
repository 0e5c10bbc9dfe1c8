import Mathlib

namespace Lbd

/-- `uint64` arithmetic is modulo this. -/
abbrev W64 : ℕ := 2 ^ 64

theorem pow32_lt_W64 : 2 ^ 32 < W64 := by norm_num

/-- `a - b` in 32 bits -/
@[irreducible] def sub32 (a b : ℕ) : ℕ := (a + 2 ^ 32 - b) % 2 ^ 32

def sub64 (a b : ℕ) : ℕ := (a + W64 - b) % W64

theorem sub64_of_le {a b : ℕ} (h : b ≤ a) (ha : a < W64) : sub64 a b = a - b := by
  unfold sub64
  rw [show a + W64 - b = a - b + W64 by omega, Nat.add_mod_right, Nat.mod_eq_of_lt (by omega)]

theorem sub64_of_wrapped {a n : ℕ} (hn : n < W64) (h : W64 ≤ a + n) :
    sub64 (a + n - W64) a = n := by
  unfold sub64
  rw [Nat.sub_add_cancel h, Nat.add_sub_cancel_left, Nat.mod_eq_of_lt hn]

end Lbd
