import Mathlib.Data.Nat.Find
import Mathlib.Algebra.Order.Ring.Nat

/-!
# Rounding — numbers with a short mantissa

A floating format keeps the leading digits of a number and how many digits were dropped.  The
digits are those of the base `b`, and the mantissa is what stays below a bound `m`.  If the base
divides the bound, rounding down to the format is monotone, and a number that was rounded is not
changed any more.
-/

namespace Floresta.Rounding

variable {b m : Nat}

theorem exists_dropped (hb : 1 < b) (hm : 0 < m) (t : Nat) : ∃ j, t / b ^ j < m := by
  refine ⟨t, ?_⟩
  rw [Nat.div_eq_of_lt (Nat.lt_pow_self hb)]
  exact hm

/-- How many digits have to be dropped. -/
def dropped (hb : 1 < b) (hm : 0 < m) (t : Nat) : Nat := Nat.find (exists_dropped hb hm t)

/-- The number without these digits. -/
def round (hb : 1 < b) (hm : 0 < m) (t : Nat) : Nat :=
  t / b ^ dropped hb hm t * b ^ dropped hb hm t

variable (hb : 1 < b) (hm : 0 < m) {t u j : Nat}

theorem mantissa_lt (t : Nat) : t / b ^ dropped hb hm t < m := Nat.find_spec (exists_dropped hb hm t)

theorem le_mantissa (hj : j < dropped hb hm t) : m * b ^ j ≤ t :=
  (Nat.le_div_iff_mul_le (Nat.pow_pos (Nat.zero_lt_of_lt hb))).mp
    (Nat.not_lt.mp (Nat.find_min (exists_dropped hb hm t) hj))

theorem dropped_eq (hlt : t / b ^ j < m) (hge : ∀ i < j, m ≤ t / b ^ i) : dropped hb hm t = j :=
  (Nat.find_eq_iff _).mpr ⟨hlt, fun i hi => Nat.not_lt.mpr (hge i hi)⟩

theorem dropped_mono (h : t ≤ u) : dropped hb hm t ≤ dropped hb hm u :=
  Nat.find_min' _ (Nat.lt_of_le_of_lt (Nat.div_le_div_right h) (mantissa_lt hb hm u))

theorem round_le (t : Nat) : round hb hm t ≤ t := Nat.div_mul_le_self t _

theorem le_round (hdvd : b ∣ m) (hj : j < dropped hb hm t) : m * b ^ j ≤ round hb hm t := by
  -- with the last digit dropped, the least number is a multiple of the unit
  obtain ⟨i, hi⟩ : ∃ i, dropped hb hm t = i + 1 := ⟨dropped hb hm t - 1, by omega⟩
  have hunit : b ^ dropped hb hm t ∣ m * b ^ i := by
    rw [hi, Nat.pow_succ, Nat.mul_comm]
    exact Nat.mul_dvd_mul hdvd (Nat.dvd_refl _)
  have hlow : m * b ^ i ≤ t := le_mantissa hb hm (by omega)
  calc m * b ^ j ≤ m * b ^ i :=
        Nat.mul_le_mul_left m (Nat.pow_le_pow_right (Nat.zero_lt_of_lt hb) (by omega))
    _ = m * b ^ i / b ^ dropped hb hm t * b ^ dropped hb hm t := (Nat.div_mul_cancel hunit).symm
    _ ≤ round hb hm t := Nat.mul_le_mul_right _ (Nat.div_le_div_right hlow)

theorem round_mono (hdvd : b ∣ m) (h : t ≤ u) : round hb hm t ≤ round hb hm u := by
  rcases Nat.lt_or_ge (dropped hb hm t) (dropped hb hm u) with hlt | hge
  · -- the larger number is rounded to at least the first one that the smaller one stays below
    calc round hb hm t ≤ t := round_le hb hm t
      _ ≤ m * b ^ dropped hb hm t :=
          Nat.le_of_lt ((Nat.div_lt_iff_lt_mul (Nat.pow_pos (Nat.zero_lt_of_lt hb))).mp
            (mantissa_lt hb hm t))
      _ ≤ round hb hm u := le_round hb hm hdvd hlt
  · have hsame : dropped hb hm t = dropped hb hm u := Nat.le_antisymm (dropped_mono hb hm h) hge
    unfold round
    rw [hsame]
    exact Nat.mul_le_mul_right _ (Nat.div_le_div_right h)

theorem mantissa_round (t : Nat) :
    round hb hm t / b ^ dropped hb hm t = t / b ^ dropped hb hm t :=
  Nat.mul_div_cancel _ (Nat.pow_pos (Nat.zero_lt_of_lt hb))

theorem dropped_round (hdvd : b ∣ m) (t : Nat) : dropped hb hm (round hb hm t) = dropped hb hm t := by
  refine dropped_eq hb hm ?_ fun i hi => ?_
  · rw [mantissa_round]
    exact mantissa_lt hb hm t
  · rw [Nat.le_div_iff_mul_le (Nat.pow_pos (Nat.zero_lt_of_lt hb))]
    exact le_round hb hm hdvd hi

end Floresta.Rounding
