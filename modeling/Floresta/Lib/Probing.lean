import Mathlib.Data.Finset.Card
import Mathlib.Data.Fintype.Basic
import Mathlib.Order.Interval.Finset.Nat

/-!
# Probing — open addressing

A table of `size` buckets in which a key is looked for along its own sequence of buckets, up to the
bucket that holds it or the first empty one.  The table is correct if every key it holds is met
before an empty bucket, and held once.
-/

namespace Probing

variable {K : Type}

/-- The sequence of buckets of every key: inside the table, and meeting every bucket. -/
structure Scheme (K : Type) (size : Nat) where
  pos : K → Nat → Nat
  lt : ∀ k i, pos k i < size
  covers : ∀ k b, b < size → ∃ i < size, pos k i = b

variable {size : Nat} (P : Scheme K size)

/-- There are as many rounds as buckets, so no bucket is met twice. -/
theorem Scheme.existsUnique (k : K) {b : Nat} (hb : b < size) :
    ∃! i, i < size ∧ P.pos k i = b := by
  have hinj : Set.InjOn (P.pos k) (Finset.range size) := by
    refine Finset.injOn_of_surjOn_of_card_le (t := Finset.range size) _ ?_ ?_ le_rfl
    · intro i _
      simpa using P.lt k i
    · intro b hb
      simpa using P.covers k b (by simpa using hb)
  rcases P.covers k b hb with ⟨i, hi, hpos⟩
  refine ⟨i, ⟨hi, hpos⟩, ?_⟩
  rintro i' ⟨hi', hpos'⟩
  exact hinj (by simpa using hi') (by simpa using hi) (hpos'.trans hpos.symm)

structure Table (keyAt : Nat → Option K) : Prop where
  reach : ∀ b < size, ∀ k, keyAt b = some k →
    ∃ i < size, P.pos k i = b ∧ ∀ j < i, keyAt (P.pos k j) ≠ none
  unique : ∀ b < size, ∀ b' < size, ∀ k, keyAt b = some k → keyAt b' = some k → b = b'

/-- The search for `k` passes the first `i` buckets of its sequence: they hold other keys. -/
def Passes (keyAt : Nat → Option K) (k : K) (i : Nat) : Prop :=
  ∀ j < i, ∃ k', keyAt (P.pos k j) = some k' ∧ k' ≠ k

variable {P} {keyAt : Nat → Option K}

theorem Table.search_mem (h : Table P keyAt) {b : Nat} (hb : b < size) {k : K}
    (hk : keyAt b = some k) : ∃ i < size, P.pos k i = b ∧ Passes P keyAt k i := by
  rcases h.reach b hb k hk with ⟨i, hi, hpos, hfull⟩
  -- the first visit of the bucket, so that no earlier bucket can hold the key
  have hex : ∃ i, P.pos k i = b := ⟨i, hpos⟩
  have hmin : Nat.find hex ≤ i := Nat.find_min' hex hpos
  refine ⟨Nat.find hex, lt_of_le_of_lt hmin hi, Nat.find_spec hex, ?_⟩
  intro j hj
  have hsome : keyAt (P.pos k j) ≠ none := hfull j (lt_of_lt_of_le hj hmin)
  rcases Option.ne_none_iff_exists'.mp hsome with ⟨k', hk'⟩
  refine ⟨k', hk', ?_⟩
  intro heq
  rw [heq] at hk'
  have hsame : P.pos k j = b := h.unique _ (P.lt k j) b hb k hk' hk
  exact Nat.find_min hex hj hsame

theorem search_notMem {k : K} (hk : ∀ b < size, keyAt b ≠ some k)
    (hfree : ∃ b < size, keyAt b = none) :
    ∃ i < size, keyAt (P.pos k i) = none ∧ Passes P keyAt k i := by
  rcases hfree with ⟨b, hb, hnone⟩
  rcases P.covers k b hb with ⟨i, hi, hpos⟩
  have hex : ∃ i, keyAt (P.pos k i) = none := ⟨i, by rw [hpos]; exact hnone⟩
  have hmin : Nat.find hex ≤ i := Nat.find_min' hex (by rw [hpos]; exact hnone)
  refine ⟨Nat.find hex, lt_of_le_of_lt hmin hi, Nat.find_spec hex, ?_⟩
  intro j hj
  have hsome : keyAt (P.pos k j) ≠ none := Nat.find_min hex hj
  rcases Option.ne_none_iff_exists'.mp hsome with ⟨k', hk'⟩
  refine ⟨k', hk', ?_⟩
  intro heq
  exact hk _ (P.lt k j) (heq ▸ hk')

/-- Writing a new key into the empty bucket that its search found keeps the table correct. -/
theorem Table.insert (h : Table P keyAt) {k : K} (hk : ∀ b < size, keyAt b ≠ some k) {i : Nat}
    (hi : i < size) (hnone : keyAt (P.pos k i) = none) (hpass : Passes P keyAt k i) :
    Table P (Function.update keyAt (P.pos k i) (some k)) := by
  have hother : ∀ b k', k' ≠ k → Function.update keyAt (P.pos k i) (some k) b = some k' →
      keyAt b = some k' := by
    intro b k' hne hb
    by_cases hbi : b = P.pos k i
    · rw [hbi, Function.update_self, Option.some.injEq] at hb
      exact absurd hb.symm hne
    · rwa [Function.update_of_ne hbi] at hb
  have hself : ∀ b, b < size → Function.update keyAt (P.pos k i) (some k) b = some k →
      b = P.pos k i := by
    intro b hlt hb
    by_contra hbi
    rw [Function.update_of_ne hbi] at hb
    exact hk b hlt hb
  have hfull : ∀ b, keyAt b ≠ none →
      Function.update keyAt (P.pos k i) (some k) b ≠ none := by
    intro b hb
    by_cases hbi : b = P.pos k i
    · rw [hbi, Function.update_self]
      exact Option.some_ne_none k
    · rwa [Function.update_of_ne hbi]
  constructor
  · intro b hb k' hk'
    by_cases hkk : k' = k
    · subst hkk
      refine ⟨i, hi, (hself b hb hk').symm, ?_⟩
      intro j hj
      rcases hpass j hj with ⟨k'', hk'', -⟩
      exact hfull _ (by rw [hk'']; exact Option.some_ne_none k'')
    · rcases h.reach b hb k' (hother b k' hkk hk') with ⟨i', hi', hpos, hearlier⟩
      exact ⟨i', hi', hpos, fun j hj => hfull _ (hearlier j hj)⟩
  · intro b hb b' hb' k' hk' hk''
    by_cases hkk : k' = k
    · subst hkk
      rw [hself b hb hk', hself b' hb' hk'']
    · exact h.unique b hb b' hb' k' (hother b k' hkk hk') (hother b' k' hkk hk'')

theorem Table.congr (h : Table P keyAt) {keyAt' : Nat → Option K}
    (heq : ∀ b < size, keyAt' b = keyAt b) : Table P keyAt' := by
  constructor
  · intro b hb k hk
    rw [heq b hb] at hk
    rcases h.reach b hb k hk with ⟨i, hi, hpos, hfull⟩
    refine ⟨i, hi, hpos, ?_⟩
    intro j hj
    rw [heq _ (P.lt k j)]
    exact hfull j hj
  · intro b hb b' hb' k hk hk'
    rw [heq b hb] at hk
    rw [heq b' hb'] at hk'
    exact h.unique b hb b' hb' k hk hk'

/-! ## Occupancy -/

def occupancy (size : Nat) (keyAt : Nat → Option K) : Nat :=
  ((Finset.range size).filter fun b => (keyAt b).isSome).card

theorem occupancy_congr {keyAt' : Nat → Option K} (heq : ∀ b < size, keyAt' b = keyAt b) :
    occupancy size keyAt' = occupancy size keyAt := by
  unfold occupancy
  apply congrArg Finset.card
  apply Finset.filter_congr
  intro b hb
  rw [heq b (Finset.mem_range.mp hb)]

theorem exists_free (h : occupancy size keyAt < size) : ∃ b < size, keyAt b = none := by
  by_contra hnone
  push Not at hnone
  have hall : (Finset.range size).filter (fun b => (keyAt b).isSome) = Finset.range size := by
    apply Finset.filter_true_of_mem
    intro b hb
    exact Option.isSome_iff_ne_none.mpr (hnone b (Finset.mem_range.mp hb))
  rw [occupancy, hall, Finset.card_range] at h
  exact absurd h (Nat.lt_irrefl size)

theorem occupancy_insert {b : Nat} (hb : b < size) (hnone : keyAt b = none) (k : K) :
    occupancy size (Function.update keyAt b (some k)) = occupancy size keyAt + 1 := by
  have hset : (Finset.range size).filter
      (fun c => (Function.update keyAt b (some k) c).isSome) =
      insert b ((Finset.range size).filter fun c => (keyAt c).isSome) := by
    ext c
    by_cases hcb : c = b
    · subst hcb
      simp [hb]
    · simp [hcb]
  have hfresh : b ∉ (Finset.range size).filter fun c => (keyAt c).isSome := by
    simp [hnone]
  rw [occupancy, hset, Finset.card_insert_of_notMem hfresh, occupancy]

theorem Table.occupancy_le (h : Table P keyAt) {keys : Finset K}
    (hkeys : ∀ b < size, ∀ k, keyAt b = some k → k ∈ keys) :
    occupancy size keyAt ≤ keys.card := by
  rw [← Finset.card_map Function.Embedding.some]
  refine Finset.card_le_card_of_injOn keyAt ?_ ?_
  · intro b hb
    rcases Finset.mem_filter.mp hb with ⟨hlt, hsome⟩
    rcases Option.isSome_iff_exists.mp hsome with ⟨k, hk⟩
    refine Finset.mem_map.mpr ⟨k, hkeys b (Finset.mem_range.mp hlt) k hk, ?_⟩
    exact hk.symm
  · intro b hb b' hb' heq
    rcases Finset.mem_filter.mp hb with ⟨hlt, hsome⟩
    rcases Finset.mem_filter.mp hb' with ⟨hlt', -⟩
    rcases Option.isSome_iff_exists.mp hsome with ⟨k, hk⟩
    exact h.unique b (Finset.mem_range.mp hlt) b' (Finset.mem_range.mp hlt') k hk
      (heq.symm.trans hk)

end Probing
