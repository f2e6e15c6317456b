import Floresta.Lib.Smearing
import Floresta.Store.Refinement

/-!
# IndexSize — the configured size of the block index

`hash_map_find_pos` masks its running hash with the size of the index less one, which meets every
bucket if the size is a power of two.  `truncate_to_pow2` is to provide that for any configured
size.  Its shifts add up to 31, so they copy a bit to 32 places and no further.
-/

namespace Floresta.FlatChainStore

open Smearing

variable {s : FlatChainStore} {hash : BlockHash} {n k b : Nat}

/-- The bucket that the loop of `hash_map_find_pos` looks at after `i` rounds. -/
def bucket (size : Nat) (hash : BlockHash) (i : Nat) : Nat :=
  ((indexHashFn hash).toNat + i) % 2 ^ 64 &&& (size - 1)

/-- The bucket is in use, and not for this hash. -/
def Foreign (s : FlatChainStore) (hash : BlockHash) (b : Nat) : Prop :=
  (s.indexMap b).isEmpty = false ∧
    ∀ record, s.getDiskHeader (s.indexMap b) = .ok record → record.hash ≠ hash

/-- What the loop needs from the size of the index.  The stores are those whose entries point into
the header files, as `StoreCore.readable` has it: `get_disk_header` reports any other entry with the
same error as a full index. -/
structure Reaches (size : Nat) : Prop where
  inside : ∀ hash i, bucket size hash i < size
  once : ∀ hash, ∀ b < size, ∃! i, i < size ∧ bucket size hash i = b
  full : ∀ s : FlatChainStore, s.indexSize = size →
    (∀ b < size, (s.indexMap b).pos < s.slotCount (s.indexMap b)) →
    ∀ hash, s.hashMapFindPos hash = .error .fullIndex → ∀ b < size, Foreign s hash b

/-! ## A full round of the loop -/

theorem probe_full_step {rounds : Nat}
    (hin : (s.indexMap (n &&& (s.indexSize - 1))).pos <
      s.slotCount (s.indexMap (n &&& (s.indexSize - 1))))
    (hfull : s.probe hash (rounds + 1) n = .error .fullIndex) :
    Foreign s hash (n &&& (s.indexSize - 1)) ∧
      s.probe hash rounds ((n + 1) % 2 ^ 64) = .error .fullIndex := by
  rw [probe] at hfull
  simp only [getDiskHeader, if_neg (Nat.not_le.mpr hin)] at hfull
  unfold Foreign
  simp only [getDiskHeader, if_neg (Nat.not_le.mpr hin)]
  generalize s.indexMap (n &&& (s.indexSize - 1)) = candidate at hfull ⊢
  by_cases hzero : (s.slot candidate).hash = 0
  · rw [if_pos hzero] at hfull
    cases hfull
  rw [if_neg hzero] at hfull ⊢
  change (if (s.slot candidate).hash = hash then _ else _) = _ at hfull
  by_cases hsame : (s.slot candidate).hash = hash
  · rw [if_pos hsame] at hfull
    cases hfull
  rw [if_neg hsame] at hfull
  cases hempty : candidate.isEmpty with
  | true =>
    rw [hempty, if_pos rfl] at hfull
    cases hfull
  | false =>
    rw [hempty, if_neg Bool.false_ne_true] at hfull
    refine ⟨⟨rfl, ?_⟩, hfull⟩
    rintro record ⟨⟩
    exact hsame

theorem probe_full (hlt : ∀ n, n &&& (s.indexSize - 1) < s.indexSize)
    (hin : ∀ b < s.indexSize, (s.indexMap b).pos < s.slotCount (s.indexMap b)) {rounds : Nat}
    (hn : n < 2 ^ 64) (hfull : s.probe hash rounds n = .error .fullIndex) :
    ∀ i < rounds, Foreign s hash ((n + i) % 2 ^ 64 &&& (s.indexSize - 1)) := by
  induction rounds generalizing n with
  | zero =>
    intro i hi
    exact absurd hi (Nat.not_lt_zero i)
  | succ rounds ih =>
    rcases probe_full_step (hin _ (hlt n)) hfull with ⟨hhere, hrest⟩
    intro i hi
    cases i with
    | zero =>
      rwa [Nat.add_zero, Nat.mod_eq_of_lt hn]
    | succ i =>
      have hnext := ih (Nat.mod_lt _ (by decide)) hrest i (by omega)
      rwa [Nat.mod_add_mod, Nat.add_assoc, Nat.add_comm 1 i] at hnext

theorem reaches_two_pow (hk : k ≤ 64) : Reaches (2 ^ k) where
  inside := (scheme hk).lt
  once hash _ hb := (scheme hk).existsUnique hash hb
  full s hsize hin hash hfull b hb := by
    rcases (scheme hk).covers hash b hb with ⟨i, hi, rfl⟩
    have hlt : ∀ n, n &&& (s.indexSize - 1) < s.indexSize := by
      intro n
      rw [hsize, Nat.and_two_pow_sub_one_eq_mod]
      exact Nat.mod_lt _ (Nat.two_pow_pos k)
    have hforeign := probe_full hlt (hsize ▸ hin) (indexHashFn_lt hash) hfull i (hsize ▸ hi)
    rwa [hsize] at hforeign

/-! ## Rounding the configured size -/

theorem smears_truncateToPow2 (hn : 1 ≤ n) :
    ∃ m, truncateToPow2 n = m + 1 ∧ Smears (n - 1) 32 m :=
  ⟨_, by rw [truncateToPow2, if_neg (by omega)],
    (Smears.self (n - 1)).double.double.double.double.double⟩

/-- The least power of two that is not below the configured size. -/
def RoundsUp (n size : Nat) : Prop :=
  IsLeast {p | (∃ k, p = 2 ^ k) ∧ n ≤ p} size

theorem roundsUp_iff (hn : 1 ≤ n) :
    RoundsUp n (truncateToPow2 n) ↔ ∀ j, 2 ^ j ≤ n - 1 → (n - 1) / 2 ^ j % 2 ^ 32 ≠ 0 := by
  rcases smears_truncateToPow2 hn with ⟨m, hm, hsmears⟩
  have hset : {p | (∃ k, p = 2 ^ k) ∧ n ≤ p} = {p | (∃ k, p = 2 ^ k) ∧ n - 1 < p} := by
    ext p
    simp only [Set.mem_ofPred_eq, and_congr_right_iff]
    omega
  rw [RoundsUp, hset, hm, hsmears.isLeast_iff]

/-- A power of two that is not above `2 ^ 63` already bounds the size. -/
theorem RoundsUp.le_two_pow {size : Nat} (h : RoundsUp n size) (hn : n ≤ 2 ^ 63) :
    ∃ k ≤ 64, size = 2 ^ k := by
  rcases h.1.1 with ⟨k, rfl⟩
  have hle : 2 ^ k ≤ 2 ^ 63 := h.2 ⟨⟨63, rfl⟩, hn⟩
  have hk : k ≤ 63 := (Nat.pow_le_pow_iff_right (by decide)).mp hle
  exact ⟨k, by omega, rfl⟩

/-- Every bucket is reachable exactly if the configured size, less one, has no 32 zero bits in a row
below its highest set bit. -/
theorem truncateToPow2_reaches_iff (hn : 1 ≤ n) (hfits : n < 2 ^ 63) :
    (RoundsUp n (truncateToPow2 n) ∧ Reaches (truncateToPow2 n)) ↔
      ∀ j, 2 ^ j ≤ n - 1 → (n - 1) / 2 ^ j % 2 ^ 32 ≠ 0 := by
  rw [← roundsUp_iff hn]
  refine ⟨And.left, fun hup => ⟨hup, ?_⟩⟩
  rcases hup.le_two_pow hfits.le with ⟨k, hk, hsize⟩
  rw [hsize]
  exact reaches_two_pow hk

/-- The configured size of the index is one that is rounded up. -/
def IndexRounds (config : FlatChainStoreConfig) : Prop :=
  let n := config.blockIndexSize.getD 10000000
  1 ≤ n ∧ n ≤ 2 ^ 63 ∧ ∀ j, 2 ^ j ≤ n - 1 → (n - 1) / 2 ^ j % 2 ^ 32 ≠ 0

/-- The number of bits of a bucket. -/
def indexBits (config : FlatChainStoreConfig) : Nat := (createChainStore config).indexSize.log2

theorem IndexRounds.indexSize {config : FlatChainStoreConfig} (h : IndexRounds config) :
    indexBits config ≤ 64 ∧ (createChainStore config).indexSize = 2 ^ indexBits config := by
  rcases ((roundsUp_iff h.1).mpr h.2.2).le_two_pow h.2.1 with ⟨k, hk, hsize⟩
  have hindex : (createChainStore config).indexSize = 2 ^ k := hsize
  have hbits : indexBits config = k := by rw [indexBits, hindex, Nat.log2_two_pow]
  rw [hbits]
  exact ⟨hk, hindex⟩

theorem indexRounds_of_lt {config : FlatChainStoreConfig}
    (hpos : 1 ≤ config.blockIndexSize.getD 10000000)
    (hlt : config.blockIndexSize.getD 10000000 < 2 ^ 32) : IndexRounds config :=
  ⟨hpos, by omega, fun _ hj => window_of_lt (by omega) hj⟩

/-- The default size. -/
theorem truncateToPow2_reaches_default :
    truncateToPow2 10000000 = 2 ^ 24 ∧
      RoundsUp 10000000 (truncateToPow2 10000000) ∧ Reaches (truncateToPow2 10000000) :=
  ⟨by decide, (truncateToPow2_reaches_iff (by decide) (by decide)).mpr
    fun _ hj => window_of_lt (by decide) hj⟩

/-- One above `2 ^ 32`, the lowest bit stays zero: the size is odd, and the mask, which is even,
leaves out every other bucket. -/
theorem truncateToPow2_unreached :
    truncateToPow2 (2 ^ 32 + 1) = 2 ^ 33 - 1 ∧
      ¬ RoundsUp (2 ^ 32 + 1) (truncateToPow2 (2 ^ 32 + 1)) ∧
      1 < truncateToPow2 (2 ^ 32 + 1) ∧
      ∀ hash i, bucket (truncateToPow2 (2 ^ 32 + 1)) hash i ≠ 1 := by
  have hsize : truncateToPow2 (2 ^ 32 + 1) = 2 ^ 33 - 1 := by decide
  refine ⟨hsize, ?_, by rw [hsize]; decide, ?_⟩
  · rw [roundsUp_iff (by decide)]
    intro hwindow
    exact hwindow 0 (by decide) (by decide)
  · intro hash i hone
    have hmask : Nat.testBit (2 ^ 33 - 1 - 1) 0 = false := by decide
    have hbit : (bucket (truncateToPow2 (2 ^ 32 + 1)) hash i).testBit 0 = false := by
      rw [hsize, bucket, Nat.testBit_and, hmask, Bool.and_false]
    rw [hone] at hbit
    exact absurd hbit (by decide)

end Floresta.FlatChainStore
