import Mathlib.Data.List.Nodup

/-!
# Slots — a list that grows at its end and is blanked in the middle

Items enter a list of slots one after the other and leave it by having their slot blanked, so a slot
never moves.  The slots are then a view of the items: each shows its item while the item is live.
-/

namespace Floresta.Slots

variable {α β : Type}

/-- Blanks the slots at the targets. -/
def clear (blank : β) (targets : List Nat) (slots : List β) : List β :=
  slots.mapIdx fun i slot => if i ∈ targets then blank else slot

/-- The slots of the items, of which only the live ones show. -/
def view (blank : β) (node : α → β) (live : α → Prop) [DecidablePred live] (items : List α) :
    List β :=
  items.map fun c => if live c then node c else blank

section View

variable {blank : β} {node : α → β} {live : α → Prop} [DecidablePred live] {items : List α}

theorem clear_nil (slots : List β) : clear blank [] slots = slots := by
  refine List.ext_getElem? ?_
  intro i
  simp [clear]

theorem view_append (items items' : List α) :
    view blank node live (items ++ items') =
      view blank node live items ++ view blank node live items' :=
  List.map_append

theorem view_flatMap {γ : Type} (f : γ → List α) (l : List γ) :
    view blank node live (l.flatMap f) = l.flatMap fun x => view blank node live (f x) :=
  List.map_flatMap

theorem view_congr {live' : α → Prop} [DecidablePred live']
    (h : ∀ c ∈ items, live c ↔ live' c) :
    view blank node live items = view blank node live' items := by
  refine List.map_congr_left ?_
  intro c hc
  simp only [h c hc]

theorem getElem?_view {i : Nat} {d : α} (hblank : blank ≠ node d)
    (h : (view blank node live items)[i]? = some (node d)) :
    ∃ c, items[i]? = some c ∧ live c ∧ node c = node d := by
  rw [view, List.getElem?_map, Option.map_eq_some_iff] at h
  rcases h with ⟨c, hc, hshown⟩
  by_cases hlive : live c
  · exact ⟨c, hc, hlive, by simpa [hlive] using hshown⟩
  · rw [if_neg hlive] at hshown
    exact absurd hshown hblank

variable {targets : List Nat} {dead : List α}

theorem dead_live (hblank : ∀ c, blank ≠ node c)
    (hinj : ∀ c ∈ items, ∀ d ∈ dead, node c = node d → c = d)
    (htargets : targets.map (fun i => (view blank node live items)[i]?) =
      dead.map fun d => some (node d)) {d : α} (hd : d ∈ dead) :
    ∃ i ∈ targets, items[i]? = some d ∧ live d := by
  have hmem : some (node d) ∈ targets.map fun i => (view blank node live items)[i]? := by
    rw [htargets]
    exact List.mem_map_of_mem hd
  rcases List.mem_map.mp hmem with ⟨i, hi, hslot⟩
  rcases getElem?_view (hblank d) hslot with ⟨c, hc, hlive, hnode⟩
  have heq : c = d := hinj c (List.mem_of_getElem? hc) d hd hnode
  exact ⟨i, hi, heq ▸ hc, heq ▸ hlive⟩

theorem clear_view [DecidableEq α] (hnodup : items.Nodup) (hblank : ∀ c, blank ≠ node c)
    (hinj : ∀ c ∈ items, ∀ d ∈ dead, node c = node d → c = d)
    (htargets : targets.map (fun i => (view blank node live items)[i]?) =
      dead.map fun d => some (node d)) :
    clear blank targets (view blank node live items) =
      view blank node (fun c => live c ∧ c ∉ dead) items := by
  refine List.ext_getElem? ?_
  intro i
  rw [clear, List.getElem?_mapIdx]
  cases hc : items[i]? with
  | none => simp [view, hc]
  | some c =>
    simp only [view, List.getElem?_map, hc, Option.map_some]
    by_cases hi : i ∈ targets
    · -- the slot showed one of the dead items, which can only be `c`
      have hmem : (view blank node live items)[i]? ∈ dead.map fun d => some (node d) := by
        rw [← htargets]
        exact List.mem_map_of_mem hi
      rcases List.mem_map.mp hmem with ⟨d, hd, hslot⟩
      rcases getElem?_view (hblank d) hslot.symm with ⟨c', hc', -, hnode⟩
      have heq : c = d := by
        rw [← Option.some.inj (hc'.symm.trans hc)]
        exact hinj c' (List.mem_of_getElem? hc') d hd hnode
      simp [hi, heq, hd]
    · -- another target cannot hold `c`: no item has two slots
      have hkept : c ∉ dead := by
        intro hd
        rcases dead_live hblank hinj htargets hd with ⟨j, hj, hcj, -⟩
        have hlt : i < items.length := (List.getElem?_eq_some_iff.mp hc).1
        have heq : i = j := (List.getElem?_inj hlt hnodup).mp (hc.trans hcj.symm)
        exact hi (heq ▸ hj)
      simp [hi, hkept]

end View

end Floresta.Slots
