import Mathlib.Algebra.Order.Ring.Int

/-!
# Unsigned machine words as natural numbers

A word of `w` bits is a natural number below `2 ^ w`; sums and differences wrap. The two rules say
when they do not, and are what a proof about a counter needs.
-/

namespace Word

/-- The largest value of a 64-bit word. -/
def max64 : ℕ := 2 ^ 64 - 1

def add64 (a b : ℕ) : ℕ :=
  (a + b) % 2 ^ 64

def sub64 (a b : ℕ) : ℕ :=
  if b ≤ a then a - b else 2 ^ 64 + a - b

theorem add64_of_le {a b : ℕ} (h : a + b ≤ max64) : add64 a b = a + b := by
  unfold add64 max64 at *
  omega

theorem sub64_of_le {a b : ℕ} (h : b ≤ a) : sub64 a b = a - b := by
  simp [sub64, h]

end Word
