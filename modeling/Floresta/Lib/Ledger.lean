import Mathlib.Data.Finmap
import Mathlib.Algebra.BigOperators.Group.List.Basic
import Mathlib.Algebra.BigOperators.Group.Multiset.Basic

/-!
# Ledger — finite maps under spends and creations

A ledger is a finite map from keys to entries.  A transaction removes the keys it spends and then
inserts the entries it creates; a run applies transactions one after another, each of them on keys
that are present, and creates only keys that the run has not seen before.

The results say what a run leaves behind (`Run.lookup`), that no key is spent twice
(`Run.nodup_spent`) and that a key is spent only after it exists (`Run.spent_earlier`).
-/

namespace Ledger

variable {K V : Type} [DecidableEq K] {kvs : List (K × V)} {k : K}

abbrev Map (K V : Type) := Finmap fun _ : K => V

/-! ## Multisets of entries and their images -/

/-- A map that separates the elements of `s` from those of `t` reflects inclusion. -/
theorem le_of_map_le_map {α β : Type} {f : α → β} {s t : Multiset α}
    (hf : ∀ a ∈ s, ∀ b ∈ t, f a = f b → a = b) (h : s.map f ≤ t.map f) : s ≤ t := by
  induction s using Multiset.induction_on generalizing t with
  | empty => exact Multiset.zero_le t
  | cons a s ih =>
    rw [Multiset.map_cons] at h
    have hmem : f a ∈ t.map f := Multiset.mem_of_le h (Multiset.mem_cons_self _ _)
    rcases Multiset.mem_map.mp hmem with ⟨b, hb, hfb⟩
    have hab : a = b := hf a (Multiset.mem_cons_self _ _) b hb hfb.symm
    subst hab
    rcases Multiset.exists_cons_of_mem hb with ⟨t, rfl⟩
    rw [Multiset.map_cons, Multiset.cons_le_cons_iff] at h
    refine Multiset.cons_le_cons a (ih ?_ h)
    intro x hx y hy
    exact hf x (Multiset.mem_cons_of_mem hx) y (Multiset.mem_cons_of_mem hy)

/-! ## Bulk updates -/

def eraseAll (M : Map K V) (ks : List K) : Map K V :=
  ks.foldl (fun M k => M.erase k) M

def insertAll (M : Map K V) (kvs : List (K × V)) : Map K V :=
  kvs.foldl (fun M p => M.insert p.1 p.2) M

theorem lookup_erase_eq (M : Map K V) (k k' : K) :
    (M.erase k').lookup k = if k = k' then none else M.lookup k := by
  by_cases h : k = k'
  · subst h
    simp
  · simp [h, Finmap.lookup_erase_ne h]

theorem lookup_insert_eq (M : Map K V) (k k' : K) (v : V) :
    (M.insert k' v).lookup k = if k = k' then some v else M.lookup k := by
  by_cases h : k = k'
  · subst h
    simp
  · simp [h, Finmap.lookup_insert_of_ne _ h]

theorem lookup_eraseAll (M : Map K V) (ks : List K) (k : K) :
    (eraseAll M ks).lookup k = if k ∈ ks then none else M.lookup k := by
  induction ks generalizing M with
  | nil => simp [eraseAll]
  | cons k' ks ih =>
    have h : (eraseAll M (k' :: ks)).lookup k = (eraseAll (M.erase k') ks).lookup k := rfl
    rw [h, ih, lookup_erase_eq]
    by_cases hk : k = k' <;> by_cases hks : k ∈ ks <;> simp [hk, hks]

theorem eraseAll_concat (M : Map K V) (ks : List K) (k : K) :
    eraseAll M (ks ++ [k]) = (eraseAll M ks).erase k := by
  simp [eraseAll]

theorem lookup_insertAll_of_notMem (M : Map K V) (kvs : List (K × V)) (k : K)
    (h : ∀ p ∈ kvs, p.1 ≠ k) : (insertAll M kvs).lookup k = M.lookup k := by
  induction kvs generalizing M with
  | nil => rfl
  | cons p kvs ih =>
    have hp : p.1 ≠ k := h p (by simp)
    have htail : (insertAll M (p :: kvs)).lookup k =
        (insertAll (M.insert p.1 p.2) kvs).lookup k := rfl
    rw [htail, ih _ (fun q hq => h q (by simp [hq])), Finmap.lookup_insert_of_ne _ hp.symm]

theorem lookup_insertAll_cases {M : Map K V} {v : V}
    (h : (insertAll M kvs).lookup k = some v) :
    (k, v) ∈ kvs ∨ (M.lookup k = some v ∧ ∀ p ∈ kvs, p.1 ≠ k) := by
  induction kvs generalizing M with
  | nil => exact .inr ⟨h, by simp⟩
  | cons p kvs ih =>
    have htail : (insertAll (M.insert p.1 p.2) kvs).lookup k = some v := h
    rcases ih htail with hmem | ⟨hlook, hne⟩
    · exact .inl (List.mem_cons_of_mem _ hmem)
    · rw [lookup_insert_eq] at hlook
      by_cases hk : k = p.1
      · rw [if_pos hk] at hlook
        refine .inl ?_
        have hp : p = (k, v) := Prod.ext hk.symm (Option.some.inj hlook)
        simp [hp]
      · rw [if_neg hk] at hlook
        refine .inr ⟨hlook, ?_⟩
        intro q hq
        rcases List.mem_cons.mp hq with rfl | hq
        · exact fun heq => hk heq.symm
        · exact hne q hq

theorem mem_insertAll {M : Map K V} :
    k ∈ insertAll M kvs ↔ k ∈ M ∨ ∃ v, (k, v) ∈ kvs := by
  induction kvs generalizing M with
  | nil => simp [insertAll]
  | cons p kvs ih =>
    have htail : k ∈ insertAll M (p :: kvs) ↔ k ∈ insertAll (M.insert p.1 p.2) kvs := Iff.rfl
    rw [htail, ih, Finmap.mem_insert]
    constructor
    · rintro ((hk | hM) | ⟨v, hv⟩)
      · exact .inr ⟨p.2, by simp [hk]⟩
      · exact .inl hM
      · exact .inr ⟨v, List.mem_cons_of_mem _ hv⟩
    · rintro (hM | ⟨v, hv⟩)
      · exact .inl (.inr hM)
      · rcases List.mem_cons.mp hv with hp | hv
        · exact .inl (.inl (by rw [← hp]))
        · exact .inr ⟨v, hv⟩

theorem mem_insertAll_empty :
    k ∈ insertAll (∅ : Map K V) kvs ↔ k ∈ kvs.map Prod.fst := by
  rw [mem_insertAll, List.mem_map]
  constructor
  · rintro (h | ⟨v, hv⟩)
    · exact absurd h Finmap.notMem_empty
    · exact ⟨(k, v), hv, rfl⟩
  · rintro ⟨p, hp, rfl⟩
    exact .inr ⟨p.2, hp⟩

theorem lookup_insertAll_of_mem {M : Map K V}
    (hnodup : (kvs.map Prod.fst).Nodup) {p : K × V} (hp : p ∈ kvs) :
    (insertAll M kvs).lookup p.1 = some p.2 := by
  induction kvs generalizing M with
  | nil => simp at hp
  | cons q kvs ih =>
    rw [List.map_cons, List.nodup_cons] at hnodup
    rcases hnodup with ⟨hq, hnodup⟩
    change (insertAll (M.insert q.1 q.2) kvs).lookup p.1 = some p.2
    rcases List.mem_cons.mp hp with rfl | hp
    · have hne : ∀ r ∈ kvs, r.1 ≠ p.1 := by
        intro r hr heq
        exact hq (heq ▸ List.mem_map_of_mem hr)
      rw [lookup_insertAll_of_notMem _ _ _ hne, Finmap.lookup_insert]
    · exact ih hnodup hp

/-- What an inserted key maps to does not depend on the map it is inserted into. -/
theorem lookup_insertAll_congr (M N : Map K V)
    (h : ∃ p ∈ kvs, p.1 = k) : (insertAll M kvs).lookup k = (insertAll N kvs).lookup k := by
  induction kvs generalizing M N with
  | nil => simp at h
  | cons p kvs ih =>
    change (insertAll (M.insert p.1 p.2) kvs).lookup k =
      (insertAll (N.insert p.1 p.2) kvs).lookup k
    by_cases hk : ∃ q ∈ kvs, q.1 = k
    · exact ih _ _ hk
    · have hne : ∀ q ∈ kvs, q.1 ≠ k := fun q hq heq => hk ⟨q, hq, heq⟩
      have hp : k = p.1 := by
        rcases h with ⟨q, hq, rfl⟩
        rcases List.mem_cons.mp hq with rfl | hq
        · rfl
        · exact absurd rfl (hne q hq)
      rw [lookup_insertAll_of_notMem _ _ _ hne, lookup_insertAll_of_notMem _ _ _ hne,
        lookup_insert_eq, lookup_insert_eq, if_pos hp, if_pos hp]

/-! ## Updates in place -/

/-- Changes the entry of a key, if there is one. -/
def adjust (f : V → V) (M : Map K V) (k : K) : Map K V :=
  match M.lookup k with
  | some v => M.insert k (f v)
  | none => M

theorem lookup_adjust (f : V → V) (M : Map K V) (k k' : K) :
    (adjust f M k).lookup k' = if k' = k then (M.lookup k').map f else M.lookup k' := by
  unfold adjust
  cases h : M.lookup k with
  | none =>
    by_cases hk : k' = k
    · subst hk
      rw [if_pos rfl, h]
      rfl
    · rw [if_neg hk]
  | some v =>
    rw [lookup_insert_eq]
    by_cases hk : k' = k
    · subst hk
      rw [if_pos rfl, if_pos rfl, h]
      rfl
    · rw [if_neg hk, if_neg hk]

theorem mem_adjust {f : V → V} {M : Map K V} {k k' : K} : k' ∈ adjust f M k ↔ k' ∈ M := by
  rw [← Finmap.lookup_isSome, ← Finmap.lookup_isSome, lookup_adjust]
  split
  · rw [Option.isSome_map]
  · exact Iff.rfl

/-- Changing the entries of a list of keys one after another changes each of them as often as the
list names it. -/
theorem lookup_foldl_adjust (f : V → V) (ks : List K) (M : Map K V) (k : K) :
    (ks.foldl (adjust f) M).lookup k = (M.lookup k).map (f^[ks.count k]) := by
  induction ks generalizing M with
  | nil => rw [List.foldl_nil, List.count_nil, Function.iterate_zero, Option.map_id, id]
  | cons k' ks ih =>
    rw [List.foldl_cons, ih, lookup_adjust]
    by_cases hk : k = k'
    · subst hk
      rw [if_pos rfl, List.count_cons_self, Function.iterate_succ, Option.map_map]
    · rw [if_neg hk, List.count_cons_of_ne (Ne.symm hk)]

/-! ## Totals -/

/-- A quantity added up over all the entries. -/
def total (w : V → Nat) (M : Map K V) : Nat := (M.entries.map fun e => w e.2).sum

theorem total_insert_of_notMem (w : V → Nat) {M : Map K V} (h : k ∉ M) (v : V) :
    total w (M.insert k v) = w v + total w M := by
  unfold total
  rw [Finmap.entries_insert_of_notMem h, Multiset.map_cons, Multiset.sum_cons]

theorem total_erase (w : V → Nat) {M : Map K V} {v : V} (h : M.lookup k = some v) :
    total w M = w v + total w (M.erase k) := by
  have hM : (M.erase k).insert k v = M := by
    refine Finmap.ext_lookup fun k' => ?_
    rw [lookup_insert_eq, lookup_erase_eq]
    by_cases hk : k' = k
    · subst hk
      rw [if_pos rfl, h]
    · rw [if_neg hk, if_neg hk]
  conv_lhs => rw [← hM]
  exact total_insert_of_notMem w Finmap.notMem_erase_self v

theorem total_adjust {w : V → Nat} {f : V → V} (hf : ∀ v, w (f v) = w v) (M : Map K V) (k : K) :
    total w (adjust f M k) = total w M := by
  unfold adjust
  cases h : M.lookup k with
  | none => rfl
  | some v =>
    have herase : (M.insert k (f v)).erase k = M.erase k := by
      refine Finmap.ext_lookup fun k' => ?_
      rw [lookup_erase_eq, lookup_erase_eq, lookup_insert_eq]
      by_cases hk : k' = k <;> simp [hk]
    rw [total_erase w (Finmap.lookup_insert M), herase, total_erase w h, hf]

theorem total_foldl_adjust {w : V → Nat} {f : V → V} (hf : ∀ v, w (f v) = w v) (ks : List K)
    (M : Map K V) : total w (ks.foldl (adjust f) M) = total w M := by
  induction ks generalizing M with
  | nil => rfl
  | cons k ks ih => rw [List.foldl_cons, ih, total_adjust hf]

/-! ## Transactions and runs -/

structure Tx (K V : Type) where
  ins : List K
  outs : List (K × V)

/-- The map with everything the transactions create, and nothing spent. -/
def created (M : Map K V) (txs : List (Tx K V)) : Map K V :=
  txs.foldl (fun M tx => insertAll M tx.outs) M

theorem created_concat (M : Map K V) (txs : List (Tx K V)) (tx : Tx K V) :
    created M (txs ++ [tx]) = insertAll (created M txs) tx.outs := by
  simp [created]

theorem mem_created {M : Map K V} {txs : List (Tx K V)} :
    k ∈ created M txs ↔ k ∈ M ∨ ∃ tx ∈ txs, ∃ v, (k, v) ∈ tx.outs := by
  induction txs generalizing M with
  | nil => simp [created]
  | cons tx txs ih =>
    have htail : k ∈ created M (tx :: txs) ↔ k ∈ created (insertAll M tx.outs) txs := Iff.rfl
    rw [htail, ih, mem_insertAll]
    simp [or_assoc]

/-- `vs` lists the keys `ks` with the entries `M` holds for them, each key once. -/
structure Spends (M : Map K V) (ks : List K) (vs : List (K × V)) : Prop where
  keys : vs.map Prod.fst = ks
  nodup : ks.Nodup
  lookup : ∀ p ∈ vs, M.lookup p.1 = some p.2

/-- `Run M txs spent M'`: the transactions take `M` to `M'` and spend the entries `spent`. -/
inductive Run (M : Map K V) : List (Tx K V) → List (K × V) → Map K V → Prop
  | nil : Run M [] [] M
  | snoc {txs : List (Tx K V)} {spent : List (K × V)} {M' : Map K V} (tx : Tx K V)
      (vs : List (K × V)) (hrun : Run M txs spent M') (hins : Spends M' tx.ins vs)
      (hfresh : ∀ p ∈ tx.outs, p.1 ∉ created M txs) :
      Run M (txs ++ [tx]) (spent ++ vs) (insertAll (eraseAll M' tx.ins) tx.outs)

namespace Run

variable {M M' : Map K V} {txs : List (Tx K V)} {spent : List (K × V)}

theorem spent_keys (h : Run M txs spent M') :
    spent.map Prod.fst = txs.flatMap Tx.ins := by
  induction h with
  | nil => rfl
  | snoc tx vs hrun hins hfresh ih => simp [ih, hins.keys]

theorem spent_created (h : Run M txs spent M') :
    (∀ k, M'.lookup k = if k ∈ spent.map Prod.fst then none else (created M txs).lookup k) ∧
      ∀ p ∈ spent, (created M txs).lookup p.1 = some p.2 := by
  induction h with
  | nil => simp [created]
  | snoc tx vs hrun hins hfresh ih =>
    rename_i txs spent M'
    rcases ih with ⟨hlook, hspent⟩
    -- An entry spent so far, or spent by `tx`, is not one of the outputs `tx` creates.
    have hold : ∀ p ∈ spent ++ vs, (created M txs).lookup p.1 = some p.2 := by
      intro p hp
      rcases List.mem_append.mp hp with hp | hp
      · exact hspent p hp
      · have hM' := hins.lookup p hp
        rw [hlook] at hM'
        split at hM'
        · cases hM'
        · exact hM'
    have hnew : ∀ p ∈ spent ++ vs, ∀ q ∈ tx.outs, q.1 ≠ p.1 := by
      intro p hp q hq heq
      exact hfresh q hq (heq ▸ Finmap.mem_of_lookup_eq_some (hold p hp))
    refine ⟨?_, ?_⟩
    · intro k
      rw [created_concat]
      by_cases hk : ∃ q ∈ tx.outs, q.1 = k
      · rcases hk with ⟨q, hq, rfl⟩
        have hnot : q.1 ∉ (spent ++ vs).map Prod.fst := by
          intro hmem
          rcases List.mem_map.mp hmem with ⟨p, hp, heq⟩
          exact hnew p hp q hq heq.symm
        rw [if_neg hnot]
        exact lookup_insertAll_congr _ _ ⟨q, hq, rfl⟩
      · have hne : ∀ p ∈ tx.outs, p.1 ≠ k := fun p hp heq => hk ⟨p, hp, heq⟩
        rw [lookup_insertAll_of_notMem _ _ _ hne, lookup_insertAll_of_notMem _ _ _ hne,
          lookup_eraseAll, hlook, ← hins.keys, List.map_append]
        by_cases h1 : k ∈ vs.map Prod.fst <;> by_cases h2 : k ∈ spent.map Prod.fst <;>
          simp only [List.mem_append, h1, h2, or_true, true_or, or_self, if_true, if_false]
    · intro p hp
      rw [created_concat, lookup_insertAll_of_notMem _ _ _ (hnew p hp)]
      exact hold p hp

theorem lookup (h : Run M txs spent M') (k : K) :
    M'.lookup k = if k ∈ spent.map Prod.fst then none else (created M txs).lookup k :=
  h.spent_created.1 k

theorem nodup_spent (h : Run M txs spent M') : (spent.map Prod.fst).Nodup := by
  induction h with
  | nil => simp
  | snoc tx vs hrun hins hfresh ih =>
    rw [List.map_append, List.nodup_append]
    refine ⟨ih, hins.keys ▸ hins.nodup, ?_⟩
    intro a ha b hb hab
    subst hab
    rcases List.mem_map.mp hb with ⟨p, hp, rfl⟩
    have hlook := hins.lookup p hp
    rw [hrun.lookup, if_pos ha] at hlook
    cases hlook

/-- A key is spent only after it exists: it was in the first map, or an earlier transaction
created it. -/
theorem spent_earlier (h : Run M txs spent M') :
    ∀ (pre : List (Tx K V)) (tx : Tx K V) (post : List (Tx K V)), txs = pre ++ tx :: post →
      ∀ k ∈ tx.ins, k ∈ created M pre := by
  induction h with
  | nil =>
    intro pre tx post heq
    simp at heq
  | snoc last vs hrun hins hfresh ih =>
    rename_i txs spent M'
    intro pre tx post heq k hk
    rcases List.eq_nil_or_concat post with rfl | ⟨post, b, rfl⟩
    · rcases List.append_inj' heq rfl with ⟨rfl, hlast⟩
      cases hlast
      rw [← hins.keys] at hk
      rcases List.mem_map.mp hk with ⟨p, hp, rfl⟩
      have hlook := hins.lookup p hp
      rw [hrun.lookup] at hlook
      split at hlook
      · cases hlook
      · exact Finmap.mem_of_lookup_eq_some hlook
    · have heq' : txs ++ [last] = (pre ++ tx :: post) ++ [b] := by simpa using heq
      rcases List.append_inj' heq' rfl with ⟨hpre, -⟩
      exact ih pre tx post hpre k hk

end Run

end Ledger
