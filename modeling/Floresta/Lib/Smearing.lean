import Mathlib.Data.Nat.Bitwise
import Mathlib.Data.Nat.Size
import Mathlib.Order.Bounds.Defs

/-!
# Smearing — rounding up to a power of two with shifts

Or-ing a number with its own right shifts by `1, 2, 4, …` copies every set bit to the places below
it.  After shifts that sum up to `w - 1` a bit reaches `w` places, itself included, and adding one
gives a power of two exactly if these reach down to the last bit.
-/

namespace Smearing

variable {x w m j : Nat}

/-- Bit `j` of `m` is set if one of the `w` bits of `x` from `j` on is. -/
def Smears (x w m : Nat) : Prop :=
  ∀ j, m.testBit j = true ↔ ∃ i < w, x.testBit (j + i) = true

theorem Smears.self (x : Nat) : Smears x 1 x := by
  intro j
  simp

theorem Smears.double (h : Smears x w m) : Smears x (2 * w) (m ||| m >>> w) := by
  intro j
  rw [Nat.testBit_or, Nat.testBit_shiftRight, Bool.or_eq_true, h j, h (w + j)]
  constructor
  · rintro (⟨i, hi, hbit⟩ | ⟨i, hi, hbit⟩)
    · exact ⟨i, by omega, hbit⟩
    · refine ⟨w + i, by omega, ?_⟩
      rwa [← Nat.add_assoc, Nat.add_comm j w]
  · rintro ⟨i, hi, hbit⟩
    rcases Nat.lt_or_ge i w with hlow | hhigh
    · exact .inl ⟨i, hlow, hbit⟩
    · refine .inr ⟨i - w, by omega, ?_⟩
      rwa [show w + j + (i - w) = j + i by omega]

/-- The `w` bits of `x` from `j` on, as a number. -/
theorem window_ne_zero_iff :
    x / 2 ^ j % 2 ^ w ≠ 0 ↔ ∃ i < w, x.testBit (j + i) = true := by
  have hbit : ∀ i, (x / 2 ^ j % 2 ^ w).testBit i = (decide (i < w) && x.testBit (j + i)) := by
    intro i
    rw [Nat.testBit_mod_two_pow, Nat.testBit_div_two_pow, Nat.add_comm i j]
  constructor
  · intro hne
    rcases Nat.exists_testBit_of_ne_zero hne with ⟨i, hi⟩
    rw [hbit, Bool.and_eq_true, decide_eq_true_eq] at hi
    exact ⟨i, hi⟩
  · rintro ⟨i, hi, hset⟩ hzero
    have := hbit i
    rw [hzero, Nat.zero_testBit, hset] at this
    simp [hi] at this

theorem Smears.testBit_iff (h : Smears x w m) : m.testBit j = true ↔ x / 2 ^ j % 2 ^ w ≠ 0 :=
  (h j).trans window_ne_zero_iff.symm

theorem window_of_lt (hx : x < 2 ^ w) (hj : 2 ^ j ≤ x) : x / 2 ^ j % 2 ^ w ≠ 0 := by
  rw [Nat.mod_eq_of_lt (lt_of_le_of_lt (Nat.div_le_self _ _) hx)]
  exact (Nat.div_pos hj (Nat.two_pow_pos j)).ne'

/-- Smearing rounds up to the next power of two exactly if `x` has no `w` zero bits in a row below
its highest one. -/
theorem Smears.isLeast_iff (h : Smears x w m) :
    IsLeast {p | (∃ k, p = 2 ^ k) ∧ x < p} (m + 1) ↔ ∀ j, 2 ^ j ≤ x → x / 2 ^ j % 2 ^ w ≠ 0 := by
  constructor
  · rintro ⟨⟨⟨k, hk⟩, hx⟩, -⟩ j hj
    have hlt : j < k := (Nat.pow_lt_pow_iff_right (by decide)).mp (by omega : 2 ^ j < 2 ^ k)
    have hm : m = 2 ^ k - 1 := by omega
    rw [← h.testBit_iff, hm, Nat.testBit_two_pow_sub_one, decide_eq_true hlt]
  · intro hwindow
    have hm : m = 2 ^ x.size - 1 := by
      apply Nat.eq_of_testBit_eq
      intro j
      rw [Nat.testBit_two_pow_sub_one, Bool.eq_iff_iff, h.testBit_iff, decide_eq_true_eq,
        Nat.lt_size]
      refine ⟨fun hne => ?_, hwindow j⟩
      by_contra hj
      rw [Nat.div_eq_of_lt (Nat.not_le.mp hj), Nat.zero_mod] at hne
      exact hne rfl
    rw [hm, Nat.sub_add_cancel Nat.one_le_two_pow]
    refine ⟨⟨⟨_, rfl⟩, Nat.lt_size_self x⟩, ?_⟩
    rintro p ⟨⟨k, rfl⟩, hx⟩
    exact Nat.pow_le_pow_right (by decide) (Nat.size_le.mpr hx)

end Smearing
