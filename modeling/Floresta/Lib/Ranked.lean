import Mathlib.Data.Finset.Card
import Mathlib.Data.Finset.Max
import Mathlib.Logic.Relation
import Mathlib.Order.Lattice.Nat

/-!
# Ranked — relations that descend along a rank

A relation whose steps lower a rank has no cycles.  Where its steps lead into a finite set, the rank
can be taken below the size of the set, which bounds the length of every descent.
-/

namespace Ranked

variable {α : Type} {r : α → α → Prop}

def Lowers (rank : α → Nat) (r : α → α → Prop) : Prop := ∀ ⦃a b⦄, r a b → rank b < rank a

theorem Lowers.transGen {rank : α → Nat} (h : Lowers rank r) {a b : α}
    (hab : Relation.TransGen r a b) : rank b < rank a := by
  induction hab with
  | single hstep => exact h hstep
  | tail _ hstep ih => exact Nat.lt_trans (h hstep) ih

theorem Lowers.acyclic {rank : α → Nat} (h : Lowers rank r) (a : α) :
    ¬ Relation.TransGen r a a := fun hcycle => Nat.lt_irrefl _ (h.transGen hcycle)

/-- How many elements of a finite set have a lower rank. -/
def position (s : Finset α) (rank : α → Nat) (a : α) : Nat := (s.filter fun b => rank b < rank a).card

theorem position_lt_card {s : Finset α} {rank : α → Nat} {a : α} (ha : a ∈ s) :
    position s rank a < s.card := by
  refine Finset.card_lt_card ⟨Finset.filter_subset _ _, fun hsub => ?_⟩
  exact Nat.lt_irrefl _ (Finset.mem_filter.mp (hsub ha)).2

/-- The position is a rank as well, if the steps lead into the set. -/
theorem Lowers.position {s : Finset α} {rank : α → Nat} (h : Lowers rank r)
    (hs : ∀ ⦃a b⦄, r a b → b ∈ s) : Lowers (position s rank) r := by
  intro a b hab
  have hlt := h hab
  refine Finset.card_lt_card ⟨fun c hc => ?_, fun hsub => ?_⟩
  · rcases Finset.mem_filter.mp hc with ⟨hcs, hcb⟩
    exact Finset.mem_filter.mpr ⟨hcs, Nat.lt_trans hcb hlt⟩
  · have hb := hsub (Finset.mem_filter.mpr ⟨hs hab, hlt⟩)
    exact Nat.lt_irrefl _ (Finset.mem_filter.mp hb).2

/-- A new element goes on top: the old steps do not touch it, and its own lead into the set. -/
theorem Lowers.push [DecidableEq α] {s : Finset α} {rank : α → Nat} (h : Lowers rank r)
    {r' : α → α → Prop} {new : α} (hnew : new ∉ s)
    (hstep : ∀ ⦃a b⦄, r' a b → b ∈ s ∧ (a = new ∨ (a ∈ s ∧ r a b))) :
    Lowers (Function.update rank new (s.sup rank + 1)) r' := by
  intro a b hab
  rcases hstep hab with ⟨hb, hcase⟩
  have hbne : b ≠ new := fun heq => hnew (heq ▸ hb)
  rw [Function.update_of_ne hbne]
  rcases hcase with rfl | ⟨ha, hr⟩
  · rw [Function.update_self]
    exact Nat.lt_succ_of_le (Finset.le_sup hb)
  · have hane : a ≠ new := fun heq => hnew (heq ▸ ha)
    rw [Function.update_of_ne hane]
    exact h hr

end Ranked
