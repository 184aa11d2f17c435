import Docroot.ByteSize
import Mathlib.Algebra.Order.Field.Basic
import Mathlib.Algebra.Order.Field.Rat
import Mathlib.Tactic.FieldSimp
import Mathlib.Tactic.Linarith
import Mathlib.Tactic.Ring

/-!
# Rounding

A quotient is rounded to a number next to it (`roundDiv_cases`). So a whole number that
is no more than the quotient is no more than what it is rounded to, and the same the
other way round (`le_roundDiv`, `roundDiv_le`); rounding keeps the order
(`roundDiv_mono`), and is off by a half at most (`abs_roundDiv_sub_le`).

What a number is rounded to if only some binary digits of it are kept is a multiple of
a power of two, which grows with the number. Order is kept all the same
(`roundToBits_mono`), because no power of two is passed in rounding: it is a multiple
of every smaller one (`roundToBits_le_pow`, `pow_le_roundToBits`).
-/

namespace Docroot.ByteSize

variable {a b bits d k m n : Nat}

/-! ## Quotients -/

theorem roundDiv_cases (n d : Nat) :
    roundDiv n d = n / d ∧ 2 * (n % d) ≤ d ∨ roundDiv n d = n / d + 1 ∧ d ≤ 2 * (n % d) := by
  rw [roundDiv]
  split_ifs <;> omega

theorem le_roundDiv (hd : 0 < d) (h : k * d ≤ n) : k ≤ roundDiv n d := by
  have := (Nat.le_div_iff_mul_le hd).2 h
  rcases roundDiv_cases n d with ⟨heq, _⟩ | ⟨heq, _⟩ <;> omega

theorem roundDiv_le (hd : 0 < d) (h : n ≤ k * d) : roundDiv n d ≤ k := by
  rcases roundDiv_cases n d with ⟨heq, _⟩ | ⟨heq, hrest⟩
  · rw [heq]
    exact Nat.div_le_of_le_mul (Nat.mul_comm k d ▸ h)
  · -- There is a rest, so the quotient is less than `k`.
    rw [heq, Nat.succ_le_iff, Nat.div_lt_iff_lt_mul hd]
    refine lt_of_le_of_ne h fun heq => ?_
    rw [heq, Nat.mul_mod_left] at hrest
    omega

theorem roundDiv_mul_cancel (hd : 0 < d) : roundDiv (k * d) d = k :=
  le_antisymm (roundDiv_le hd le_rfl) (le_roundDiv hd le_rfl)

theorem roundDiv_mono (h : a ≤ b) : roundDiv a d ≤ roundDiv b d := by
  rcases (Nat.div_le_div_right h : a / d ≤ b / d).lt_or_eq with hlt | heq
  · rcases roundDiv_cases a d with ⟨ha, _⟩ | ⟨ha, _⟩ <;>
      rcases roundDiv_cases b d with ⟨hb, _⟩ | ⟨hb, _⟩ <;> omega
  · -- With equal quotients, what counts is the rest.
    have hrest : a % d ≤ b % d := by
      have ha := Nat.div_add_mod a d
      have hb := Nat.div_add_mod b d
      rw [heq] at ha
      omega
    rw [roundDiv, roundDiv, heq]
    split_ifs <;> omega

/-- Rounding goes to a nearest number. -/
theorem abs_roundDiv_sub_le (hd : 0 < d) : |(roundDiv n d : ℚ) - n / d| ≤ 1 / 2 := by
  have hd' : (0 : ℚ) < d := by exact_mod_cast hd
  have hbounds : 2 * (roundDiv n d * d) ≤ 2 * n + d ∧ 2 * n ≤ 2 * (roundDiv n d * d) + d := by
    have hn := Nat.div_add_mod' n d
    rcases roundDiv_cases n d with ⟨heq, _⟩ | ⟨heq, _⟩
    · rw [heq]
      omega
    · rw [heq, Nat.add_mul, Nat.one_mul]
      have := Nat.mod_lt n hd
      omega
  have hle : 2 * ((roundDiv n d : ℚ) * d) ≤ 2 * n + d := by exact_mod_cast hbounds.1
  have hge : 2 * (n : ℚ) ≤ 2 * (roundDiv n d * d) + d := by exact_mod_cast hbounds.2
  have hsub : (roundDiv n d : ℚ) - n / d = (roundDiv n d * d - n) / d := by field_simp
  rw [hsub, abs_div, abs_of_pos hd', div_le_iff₀ hd', abs_le]
  constructor <;> linarith

/-! ## Binary digits -/

/-- The lowest binary digit that is kept. -/
def lowestKept (bits n : Nat) : Nat := n.log2 + 1 - bits

theorem roundToBits_eq : roundToBits bits n =
    roundDiv n (2 ^ lowestKept bits n) * 2 ^ lowestKept bits n := rfl

theorem lowestKept_le (hbits : 0 < bits) : lowestKept bits n ≤ n.log2 := by
  rw [lowestKept]
  omega

theorem log2_le (h : n ≤ 2 ^ m) : n.log2 ≤ m := by
  rcases eq_or_ne n 0 with rfl | hn
  · exact Nat.zero_le m
  · have hlog := (Nat.log2_self_le hn).trans h
    exact (Nat.pow_le_pow_iff_right (by decide)).1 hlog

/-- No power of two above the number is passed. -/
theorem roundToBits_le_pow (hbits : 0 < bits) (h : n ≤ 2 ^ m) : roundToBits bits n ≤ 2 ^ m := by
  have hkept := (lowestKept_le hbits).trans (log2_le h)
  rw [← Nat.sub_add_cancel hkept, Nat.pow_add] at h ⊢
  rw [roundToBits_eq]
  exact Nat.mul_le_mul_right _ (roundDiv_le (Nat.two_pow_pos _) h)

/-- No power of two below the number is passed. -/
theorem pow_le_roundToBits (hbits : 0 < bits) (h : 2 ^ m ≤ n) : 2 ^ m ≤ roundToBits bits n := by
  have hn : n ≠ 0 := ((Nat.two_pow_pos m).trans_le h).ne'
  have hlog := Nat.log2_self_le hn
  refine (Nat.pow_le_pow_right (by decide) ((Nat.le_log2 hn).2 h)).trans ?_
  rw [← Nat.sub_add_cancel (lowestKept_le (n := n) hbits), Nat.pow_add] at hlog ⊢
  rw [roundToBits_eq]
  exact Nat.mul_le_mul_right _ (le_roundDiv (Nat.two_pow_pos _) hlog)

theorem roundToBits_pow (hbits : 0 < bits) : roundToBits bits (2 ^ m) = 2 ^ m :=
  le_antisymm (roundToBits_le_pow hbits le_rfl) (pow_le_roundToBits hbits le_rfl)

/-- A number that has no more binary digits than are kept stays as it is. -/
theorem roundToBits_of_le (hbits : 0 < bits) (h : n ≤ 2 ^ bits) : roundToBits bits n = n := by
  rcases h.lt_or_eq with hlt | rfl
  · have hkept : lowestKept bits n = 0 := by
      rw [lowestKept]
      rcases eq_or_ne n 0 with rfl | hn
      · rw [Nat.log2_zero]
        omega
      · have := (Nat.log2_lt hn).2 hlt
        omega
    rw [roundToBits_eq, hkept, pow_zero, Nat.mul_one]
    exact (congrArg (roundDiv · 1) (Nat.mul_one n).symm).trans (roundDiv_mul_cancel Nat.one_pos)
  · exact roundToBits_pow hbits

theorem roundToBits_mono (hbits : 0 < bits) (h : a ≤ b) :
    roundToBits bits a ≤ roundToBits bits b := by
  rcases eq_or_ne b 0 with rfl | hb
  · rw [Nat.le_zero.1 h]
  rcases lt_or_ge a (2 ^ b.log2) with hlt | hge
  · -- There is a power of two between the numbers, which neither of them passes.
    exact (roundToBits_le_pow hbits hlt.le).trans
      (pow_le_roundToBits hbits (Nat.log2_self_le hb))
  · have hlog : a.log2 = b.log2 := by
      have ha : a ≠ 0 := ((Nat.two_pow_pos _).trans_le hge).ne'
      exact le_antisymm ((Nat.le_log2 hb).2 ((Nat.log2_self_le ha).trans h))
        ((Nat.le_log2 ha).2 hge)
    have hkept : lowestKept bits a = lowestKept bits b := by rw [lowestKept, lowestKept, hlog]
    rw [roundToBits_eq, roundToBits_eq, hkept]
    exact Nat.mul_le_mul_right _ (roundDiv_mono h)

/-- Rounding to binary digits is off by half of the lowest digit that is kept. -/
theorem abs_roundToBits_sub_le :
    |(roundToBits bits n : ℚ) - n| ≤ 2 ^ lowestKept bits n / 2 := by
  have hscale : (0 : ℚ) < 2 ^ lowestKept bits n := by positivity
  have hround := abs_roundDiv_sub_le (n := n) (Nat.two_pow_pos (lowestKept bits n))
  rw [Nat.cast_pow, Nat.cast_ofNat] at hround
  have hsub : (roundToBits bits n : ℚ) - n =
      (roundDiv n (2 ^ lowestKept bits n) - n / 2 ^ lowestKept bits n) *
        2 ^ lowestKept bits n := by
    rw [roundToBits_eq, sub_mul, div_mul_cancel₀ _ hscale.ne']
    push_cast
    rfl
  rw [hsub, abs_mul, abs_of_pos hscale]
  linarith [mul_le_mul_of_nonneg_right hround hscale.le]

end Docroot.ByteSize
