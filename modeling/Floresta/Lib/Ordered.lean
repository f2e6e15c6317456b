import Mathlib.Data.Finset.Basic
import Mathlib.Data.List.Sort

/-!
# Ordered — walks through the elements of a finite set

A set has no order of its own; a walk visits each element once, in the order of a code that tells
the elements apart.
-/

namespace Floresta.Ordered

/-- A walk in the order of a code. -/
def ordered {α : Type} (code : α → Nat) (hcode : Function.Injective code) (s : Finset α) :
    List α :=
  Quotient.liftOn s.val (fun l => l.insertionSort fun a b => code a ≤ code b) (by
    intro l l' hperm
    have hsorted : (l.insertionSort fun a b => code a ≤ code b).Perm
        (l'.insertionSort fun a b => code a ≤ code b) :=
      (List.perm_insertionSort ..).trans (hperm.trans (List.perm_insertionSort ..).symm)
    have htotal : Std.Total fun a b => code a ≤ code b := ⟨fun a b => Nat.le_total _ _⟩
    have htrans : IsTrans α fun a b => code a ≤ code b := ⟨fun _ _ _ => Nat.le_trans⟩
    exact hsorted.eq_of_pairwise (fun a b _ _ hab hba => hcode (Nat.le_antisymm hab hba))
      (List.pairwise_insertionSort _ l) (List.pairwise_insertionSort _ l'))

theorem ordered_perm {α : Type} {code : α → Nat} {hcode : Function.Injective code} {s : Finset α} :
    (ordered code hcode s : Multiset α) = s.val := by
  rcases s with ⟨⟨l⟩, hnodup⟩
  exact Multiset.coe_eq_coe.mpr (List.perm_insertionSort (fun a b => code a ≤ code b) l)

theorem ordered_nodup {α : Type} {code : α → Nat} {hcode : Function.Injective code}
    (s : Finset α) : (ordered code hcode s).Nodup := by
  rw [← Multiset.coe_nodup, ordered_perm]
  exact s.nodup

theorem mem_ordered {α : Type} {code : α → Nat} {hcode : Function.Injective code} {s : Finset α}
    {a : α} : a ∈ ordered code hcode s ↔ a ∈ s := by
  rw [← Multiset.mem_coe, ordered_perm]
  rfl

end Floresta.Ordered
