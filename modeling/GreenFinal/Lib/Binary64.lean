import Mathlib.Data.Nat.Size
import Mathlib.Tactic.Ring

/-!
# Rounding to a fixed number of significant bits

A binary floating-point product is the exact product rounded to nearest,
ties to even, at the precision of the format. For non-negative operands
this is arithmetic on natural numbers: writing the exact product as
`n · 2^(-s)`, the rounded one is `roundTo p n · 2^(-s)`, where `roundTo`
keeps the `p` leading bits of `n`. The exponent range of binary64 is not
modelled; it matters only for magnitudes far from those of a 32-bit
integer times a constant of ordinary size.

`roundTo_le` and `le_roundTo` bound the error by half a unit in the last
place, and `roundTo_eq_of_near` says that a representable number closer
than that is what the rounding returns.
-/

namespace Binary64

/-- `n / 2^k` rounded to the nearest integer, ties to even. -/
def roundShift (n k : ℕ) : ℕ :=
  if 2 * (n % 2 ^ k) < 2 ^ k ∨ (2 * (n % 2 ^ k) = 2 ^ k ∧ n / 2 ^ k % 2 = 0)
  then n / 2 ^ k else n / 2 ^ k + 1

/-- The bits of `n` below its `p` leading ones. -/
def excess (p n : ℕ) : ℕ := n.size - p

/-- **`n` rounded to `p` significant bits.** -/
def roundTo (p n : ℕ) : ℕ := roundShift n (excess p n) * 2 ^ excess p n

/-- The integer part of the binary64 product of the integer `e` with the
binary64 number `m · 2^(-s)`. -/
def mulFloor (e m s : ℕ) : ℕ := roundTo 53 (e * m) / 2 ^ s

/-- Rounding goes up by at most half a unit. -/
theorem roundShift_le (n k : ℕ) : 2 * (roundShift n k * 2 ^ k) ≤ 2 * n + 2 ^ k := by
  have hdiv : n / 2 ^ k * 2 ^ k + n % 2 ^ k = n := Nat.div_add_mod' n (2 ^ k)
  unfold roundShift
  split
  · omega
  · rw [Nat.add_mul, Nat.one_mul]
    omega

/-- … and down by at most half a unit. -/
theorem le_roundShift (n k : ℕ) : 2 * n ≤ 2 * (roundShift n k * 2 ^ k) + 2 ^ k := by
  have hdiv : n / 2 ^ k * 2 ^ k + n % 2 ^ k = n := Nat.div_add_mod' n (2 ^ k)
  have hmod : n % 2 ^ k < 2 ^ k := Nat.mod_lt _ (Nat.two_pow_pos k)
  unfold roundShift
  split
  · omega
  · rw [Nat.add_mul, Nat.one_mul]
    omega

theorem roundTo_le (p n : ℕ) : 2 * roundTo p n ≤ 2 * n + 2 ^ excess p n :=
  roundShift_le n _

theorem le_roundTo (p n : ℕ) : 2 * n ≤ 2 * roundTo p n + 2 ^ excess p n :=
  le_roundShift n _

/-- **A representable number within less than half a unit is the rounded
value**: both are multiples of the unit, and less than one unit apart. -/
theorem roundTo_eq_of_near {p n N : ℕ} (hdvd : 2 ^ excess p n ∣ N)
    (hlo : 2 * N < 2 * n + 2 ^ excess p n) (hhi : 2 * n < 2 * N + 2 ^ excess p n) :
    roundTo p n = N := by
  obtain ⟨q, rfl⟩ := hdvd
  have h₁ := roundTo_le p n
  have h₂ := le_roundTo p n
  unfold roundTo at h₁ h₂ ⊢
  set P := 2 ^ excess p n
  set r := roundShift n (excess p n)
  have hr : r * P < (q + 1) * P := by
    have : (q + 1) * P = P * q + P := by ring
    omega
  have hq : q * P < (r + 1) * P := by
    have : (r + 1) * P = r * P + P := by ring
    have : q * P = P * q := Nat.mul_comm q P
    omega
  have hrq : r = q :=
    Nat.le_antisymm (Nat.le_of_lt_succ (lt_of_mul_lt_mul_right hr (Nat.zero_le P)))
      (Nat.le_of_lt_succ (lt_of_mul_lt_mul_right hq (Nat.zero_le P)))
  rw [hrq, Nat.mul_comm]

/-- A number of at least `p` bits lies in the binade of its excess. -/
theorem binade {p n : ℕ} (hp : 0 < p) (h : p ≤ n.size) :
    2 ^ (p - 1 + excess p n) ≤ n ∧ n < 2 ^ (p + excess p n) := by
  have hsize : p + excess p n = n.size := by
    unfold excess
    omega
  constructor
  · refine Nat.lt_size.mp ?_
    unfold excess
    omega
  · rw [hsize]
    exact Nat.lt_size_self n

/-- The excess of a bounded number is bounded. -/
theorem excess_lt {p n m : ℕ} (h : n < 2 ^ (p + m)) : excess p n ≤ m := by
  have := Nat.size_le.mpr h
  unfold excess
  omega

end Binary64
