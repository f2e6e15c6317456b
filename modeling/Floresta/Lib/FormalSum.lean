import Mathlib.Algebra.BigOperators.Finsupp.Basic
import Mathlib.Data.Finsupp.Multiset
import Mathlib.LinearAlgebra.LinearIndependent.Defs

/-!
# FormalSum — sums of independent elements of a commutative group

A family of elements without integer relations behaves like a set of formal symbols: the sum of a
multiset of them determines the multiset.  Sums may be taken in any order and with any grouping.
-/

namespace FormalSum

variable {α G : Type} [AddCommGroup G]

/-! ## Multisets and their sums -/

/-- The multiplicities of a multiset, as integer coefficients. -/
noncomputable def coefficients (s : Multiset α) : α →₀ ℤ :=
  (s.map fun a => Finsupp.single a 1).sum

theorem coefficients_apply [DecidableEq α] (s : Multiset α) (a : α) :
    coefficients s a = s.count a := by
  induction s using Multiset.induction_on with
  | empty => simp [coefficients]
  | cons b s ih =>
    have hcons : coefficients (b ::ₘ s) = Finsupp.single b 1 + coefficients s := by
      simp [coefficients]
    rw [hcons, Finsupp.add_apply, ih, Finsupp.single_apply, Multiset.count_cons]
    by_cases h : b = a
    · simp [h, add_comm]
    · have h' : a ≠ b := fun heq => h heq.symm
      simp [h, h']

theorem linearCombination_coefficients (f : α → G) (s : Multiset α) :
    Finsupp.linearCombination ℤ f (coefficients s) = (s.map f).sum := by
  induction s using Multiset.induction_on with
  | empty => simp [coefficients]
  | cons a s ih =>
    have hcons : coefficients (a ::ₘ s) = Finsupp.single a 1 + coefficients s := by
      simp [coefficients]
    rw [hcons, map_add, ih, Finsupp.linearCombination_single, Multiset.map_cons,
      Multiset.sum_cons, one_smul]

/-- The sum of independent elements determines the multiset that was summed. -/
theorem sum_map_eq_iff {f : α → G} (hf : LinearIndependent ℤ f) {s t : Multiset α} :
    (s.map f).sum = (t.map f).sum ↔ s = t := by
  classical
  constructor
  · intro h
    have hcomb : Finsupp.linearCombination ℤ f (coefficients s) =
        Finsupp.linearCombination ℤ f (coefficients t) := by
      rw [linearCombination_coefficients, linearCombination_coefficients, h]
    have hcoeff : coefficients s = coefficients t := hf hcomb
    refine Multiset.ext.mpr ?_
    intro a
    have hcount : (s.count a : ℤ) = t.count a := by
      rw [← coefficients_apply, ← coefficients_apply, hcoeff]
    exact_mod_cast hcount
  · intro h
    rw [h]

/-! ## Groupings -/

/-- A way of adding up a collection: which two partial sums are added when. -/
inductive Grouping (α : Type)
  | zero
  | single (a : α)
  | add (l r : Grouping α)

namespace Grouping

def leaves : Grouping α → List α
  | .zero => []
  | .single a => [a]
  | .add l r => l.leaves ++ r.leaves

/-- Evaluates a grouping with an addition that need not be a group's. -/
def eval {β : Type} (zero : β) (f : α → β) (plus : β → β → β) : Grouping α → β
  | .zero => zero
  | .single a => f a
  | .add l r => plus (l.eval zero f plus) (r.eval zero f plus)

theorem eval_eq_sum (g : Grouping α) (f : α → G) :
    g.eval 0 f (· + ·) = (g.leaves.map f).sum := by
  induction g with
  | zero => simp [eval, leaves]
  | single a => simp [eval, leaves]
  | add l r ihl ihr => simp [eval, leaves, ihl, ihr]

theorem eval_le_sum {β : Type} (g : Grouping α) {zero : β} {f : α → β} {plus : β → β → β}
    {size : β → Nat} (h0 : size zero = 0)
    (hplus : ∀ a b, size (plus a b) ≤ size a + size b) :
    size (g.eval zero f plus) ≤ (g.leaves.map fun a => size (f a)).sum := by
  induction g with
  | zero => simp [eval, leaves, h0]
  | single a => simp [eval, leaves]
  | add l r ihl ihr =>
    calc
      size ((Grouping.add l r).eval zero f plus)
          ≤ size (l.eval zero f plus) + size (r.eval zero f plus) := hplus _ _
      _ ≤ (l.leaves.map fun a => size (f a)).sum + (r.leaves.map fun a => size (f a)).sum :=
        Nat.add_le_add ihl ihr
      _ = ((Grouping.add l r).leaves.map fun a => size (f a)).sum := by
        simp [leaves]

end Grouping

end FormalSum
