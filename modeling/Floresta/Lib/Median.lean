import Mathlib.Data.List.Sort

/-!
# Median — the median of a sliding window

The (upper) median of a list is the middle element of the sorted list.  It is at least `x` exactly
if at most half of the elements are below `x`, so the median of a window does not fall when an
element enters that is not below it, whatever element leaves.
-/

namespace Floresta.Median

variable {α : Type} [LinearOrder α]

def median (default : α) (l : List α) : α :=
  (l.insertionSort (· ≤ ·)).getD (l.length / 2) default

theorem le_getElem_iff {x : α} {l : List α} (hl : l.Pairwise (· ≤ ·)) {i : Nat}
    (hi : i < l.length) : x ≤ l[i] ↔ l.countP (· < x) ≤ i := by
  induction l generalizing i with
  | nil => simp at hi
  | cons a l ih =>
    rw [List.pairwise_cons] at hl
    by_cases ha : a < x
    · rw [List.countP_cons_of_pos (by simpa using ha)]
      cases i with
      | zero => simp [ha]
      | succ i =>
        rw [List.getElem_cons_succ, ih hl.2 (by simpa using hi)]
        exact Nat.succ_le_succ_iff.symm
    · -- no element is below `x`
      have hall : ∀ b ∈ a :: l, x ≤ b := by
        intro b hb
        rcases List.mem_cons.mp hb with rfl | hb
        · exact not_lt.mp ha
        · exact (not_lt.mp ha).trans (hl.1 b hb)
      have hcount : (a :: l).countP (· < x) = 0 := by
        refine List.countP_eq_zero.mpr fun b hb => ?_
        simpa using hall b hb
      rw [hcount]
      exact iff_of_true (hall _ (List.getElem_mem _)) (Nat.zero_le i)

theorem le_median_iff {d x : α} {l : List α} (hl : l ≠ []) :
    x ≤ median d l ↔ l.countP (· < x) ≤ l.length / 2 := by
  have hpos : 0 < l.length := List.length_pos_iff.mpr hl
  have hi : l.length / 2 < (l.insertionSort (· ≤ ·)).length := by
    rw [List.length_insertionSort]
    omega
  have hsorted : (l.insertionSort (· ≤ ·)).Pairwise (· ≤ ·) := List.pairwise_insertionSort _ l
  rw [median, List.getD_eq_getElem?_getD, List.getElem?_eq_getElem hi, Option.getD_some,
    le_getElem_iff hsorted hi,
    (List.perm_insertionSort (· ≤ ·) l).countP_eq]

/-- An element enters the window in front, and the last one leaves it. -/
theorem median_le_median_take {d t : α} {l : List α} (hl : l ≠ []) (n : Nat)
    (ht : median d (l.take (n + 1)) ≤ t) :
    median d (l.take (n + 1)) ≤ median d ((t :: l).take (n + 1)) := by
  have hwindow : l.take (n + 1) ≠ [] := by
    rw [Ne, List.take_eq_nil_iff]
    exact fun h => h.elim (Nat.succ_ne_zero n) hl
  have hnew : (t :: l).take (n + 1) ≠ [] := by simp
  have hcount := (le_median_iff (d := d) hwindow).mp le_rfl
  rw [le_median_iff hnew]
  calc ((t :: l).take (n + 1)).countP (· < median d (l.take (n + 1)))
      = (l.take n).countP (· < median d (l.take (n + 1))) := by
        rw [List.take_succ_cons, List.countP_cons_of_neg (by simpa using ht)]
    _ ≤ (l.take (n + 1)).countP (· < median d (l.take (n + 1))) :=
        ((List.take_prefix_take_left (Nat.le_succ n)).sublist).countP_le
    _ ≤ (l.take (n + 1)).length / 2 := hcount
    _ ≤ ((t :: l).take (n + 1)).length / 2 := by
        refine Nat.div_le_div_right ?_
        simp only [List.length_take, List.length_cons]
        omega

end Floresta.Median
