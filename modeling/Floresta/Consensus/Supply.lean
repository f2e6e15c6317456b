import Floresta.Consensus.Block
import Mathlib.Algebra.BigOperators.Intervals
import Mathlib.Algebra.BigOperators.Ring.Finset
import Mathlib.Algebra.Order.BigOperators.Group.Finset

/-!
# Supply — the sum of the subsidies

`max_supply_at_height` adds up whole epochs and a remainder on `u64`.  For every halving interval
up to `2 ^ 30` no operation overflows, and the result is the sum of the subsidies of the blocks
after the genesis block.
-/

namespace Floresta.Consensus

open Finset Fallible

/-! ## Any interval -/

/-- `get_subsidy` for any halving interval, in satoshis. -/
def subsidyAt (interval height : Nat) : Nat :=
  if MAX_SUBSIDY_HALVINGS ≤ height / interval then 0
  else (50 * Amount.ONE_BTC.sat) >>> (height / interval)

/-- `get_subsidy` with its checks: `none` for a division by zero and for a shift out of range. -/
def getSubsidyChecked (interval height : Nat) : Option Nat := do
  guard (interval ≠ 0)
  let halvings := height / interval
  if MAX_SUBSIDY_HALVINGS ≤ halvings then pure 0
  else do
    guard (halvings < 64)
    pure ((50 * Amount.ONE_BTC.sat) >>> halvings)

def epochSubsidy (interval epoch : Nat) : Option Nat := do
  getSubsidyChecked interval (← fits 32 (interval * epoch))

def addBlocks (interval blocks total epoch : Nat) : Option Nat := do
  fits 64 (total + (← fits 64 (blocks * (← epochSubsidy interval epoch))))

/-- `max_supply_at_height` for any halving interval, `none` where an operation overflows. -/
def maxSupplyChecked (interval height : Nat) : Option Nat := do
  let blockCount ← fits 32 (height + 1)
  guard (interval ≠ 0)
  let fullEpochs := blockCount / interval
  let remBlocks := blockCount % interval
  let total ← (List.range (min fullEpochs MAX_SUBSIDY_HALVINGS)).foldlM
    (addBlocks interval interval) 0
  let total ← if fullEpochs < MAX_SUBSIDY_HALVINGS then
    addBlocks interval remBlocks total fullEpochs else pure total
  let genesis ← epochSubsidy interval 0
  guard (genesis ≤ total)
  pure (total - genesis)

def wholeEpochs (interval epochs : Nat) : Nat :=
  ∑ e ∈ range epochs, interval * subsidyAt interval (interval * e)

section Sums

variable {interval : Nat} (hpos : 0 < interval)

include hpos

theorem getSubsidyChecked_eq (height : Nat) :
    getSubsidyChecked interval height = some (subsidyAt interval height) := by
  unfold getSubsidyChecked subsidyAt
  by_cases hlate : MAX_SUBSIDY_HALVINGS ≤ height / interval
  · simp [hpos.ne', hlate]
  · have hshift : height / interval < 64 := Nat.lt_of_not_le hlate
    simp [hpos.ne', hlate, hshift]

theorem subsidyAt_epoch (epoch : Nat) {r : Nat} (hr : r < interval) :
    subsidyAt interval (interval * epoch + r) = subsidyAt interval (interval * epoch) := by
  unfold subsidyAt
  rw [Nat.mul_add_div hpos, Nat.div_eq_of_lt hr, Nat.add_zero, Nat.mul_div_cancel_left _ hpos]

theorem subsidyAt_late {epoch : Nat} (h : MAX_SUBSIDY_HALVINGS ≤ epoch) :
    subsidyAt interval (interval * epoch) = 0 := by
  unfold subsidyAt
  rw [Nat.mul_div_cancel_left _ hpos, if_pos h]

theorem subsidyAt_halves (epoch : Nat) :
    2 * subsidyAt interval (interval * (epoch + 1)) ≤ subsidyAt interval (interval * epoch) := by
  by_cases hlate : MAX_SUBSIDY_HALVINGS ≤ epoch + 1
  · rw [subsidyAt_late hpos hlate]
    exact Nat.zero_le _
  · unfold subsidyAt
    rw [Nat.mul_div_cancel_left _ hpos, Nat.mul_div_cancel_left _ hpos, if_neg hlate,
      if_neg (by omega), Nat.shiftRight_succ]
    omega

theorem sum_subsidyAt_le (epochs : Nat) :
    ∑ e ∈ range epochs, subsidyAt interval (interval * e) +
      2 * subsidyAt interval (interval * epochs) ≤ 10000000000 := by
  induction epochs with
  | zero => simp [subsidyAt, MAX_SUBSIDY_HALVINGS, Amount.ONE_BTC, Amount.fromSat]
  | succ n ih =>
    have := subsidyAt_halves hpos n
    rw [sum_range_succ]
    omega

theorem sum_subsidyAt (epochs r : Nat) (hr : r ≤ interval) :
    ∑ h ∈ range (interval * epochs + r), subsidyAt interval h =
      wholeEpochs interval epochs + r * subsidyAt interval (interval * epochs) := by
  have htail : ∀ epochs r, r ≤ interval →
      ∑ i ∈ range r, subsidyAt interval (interval * epochs + i) =
        r * subsidyAt interval (interval * epochs) := by
    intro epochs r hr
    rw [sum_const_nat fun i hi => subsidyAt_epoch hpos epochs ((mem_range.mp hi).trans_le hr),
      card_range]
  induction epochs generalizing r with
  | zero => simpa [wholeEpochs] using htail 0 r hr
  | succ n ih =>
    rw [sum_range_add, htail (n + 1) r hr, wholeEpochs, sum_range_succ, Nat.mul_succ, ih _ le_rfl,
      wholeEpochs]

theorem wholeEpochs_min (epochs : Nat) :
    wholeEpochs interval (min epochs MAX_SUBSIDY_HALVINGS) = wholeEpochs interval epochs := by
  apply sum_subset (range_subset_range.mpr (Nat.min_le_left _ _))
  intro e he hnot
  rw [mem_range] at he hnot
  rw [subsidyAt_late hpos (by omega), Nat.mul_zero]

theorem sum_blocks (count : Nat) :
    (if count / interval < MAX_SUBSIDY_HALVINGS then wholeEpochs interval (count / interval) +
        count % interval * subsidyAt interval (interval * (count / interval))
      else wholeEpochs interval (count / interval)) = ∑ i ∈ range count, subsidyAt interval i := by
  have hall := sum_subsidyAt hpos (count / interval) _ (Nat.mod_lt count hpos).le
  rw [Nat.div_add_mod] at hall
  rw [hall]
  split_ifs with hfull
  · rfl
  · rw [subsidyAt_late hpos (Nat.le_of_not_lt hfull), Nat.mul_zero, Nat.add_zero]

variable (hle : interval ≤ 2 ^ 30)

include hle

theorem wholeEpochs_lt (epochs : Nat) {r : Nat} (hr : r ≤ interval) :
    wholeEpochs interval epochs + r * subsidyAt interval (interval * epochs) < 2 ^ 64 := by
  have hsum := sum_subsidyAt_le hpos epochs
  calc
    _ ≤ interval * (∑ e ∈ range epochs, subsidyAt interval (interval * e) +
          subsidyAt interval (interval * epochs)) := by
        rw [wholeEpochs, ← mul_sum, Nat.mul_add]
        exact Nat.add_le_add_left (Nat.mul_le_mul_right _ hr) _
    _ ≤ 2 ^ 30 * 10000000000 := Nat.mul_le_mul hle (by omega)
    _ < 2 ^ 64 := by decide

theorem addBlocks_eq {blocks epochs : Nat} (hblocks : blocks ≤ interval)
    (hheight : interval * epochs < 2 ^ 32) :
    addBlocks interval blocks (wholeEpochs interval epochs) epochs =
      some (wholeEpochs interval epochs + blocks * subsidyAt interval (interval * epochs)) := by
  have hlt := wholeEpochs_lt hpos hle epochs hblocks
  simp only [addBlocks, epochSubsidy, fits_eq hheight, getSubsidyChecked_eq hpos,
    Option.bind_eq_bind, Option.bind_some]
  rw [fits_eq (by omega), Option.bind_some, fits_eq hlt]

theorem foldlM_addBlocks (epochs : Nat) (hheight : interval * epochs < 2 ^ 32) :
    (List.range epochs).foldlM (addBlocks interval interval) 0 =
      some (wholeEpochs interval epochs) := by
  induction epochs with
  | zero => rfl
  | succ n ih =>
    have hbelow : interval * n < 2 ^ 32 :=
      (Nat.mul_le_mul_left _ n.le_succ).trans_lt hheight
    rw [List.range_succ, List.foldlM_append, ih hbelow, Option.bind_eq_bind, Option.bind_some,
      List.foldlM_cons, addBlocks_eq hpos hle le_rfl hbelow, wholeEpochs, wholeEpochs,
      sum_range_succ]
    rfl

theorem maxSupplyChecked_sum {height : Nat} (hheight : height < 2 ^ 32 - 1) :
    maxSupplyChecked interval height = some (∑ i ∈ range height, subsidyAt interval (i + 1)) := by
  have hcount : height + 1 < 2 ^ 32 := by omega
  have hfit : interval * ((height + 1) / interval) < 2 ^ 32 :=
    (Nat.mul_div_le _ _).trans_lt hcount
  have hloop := foldlM_addBlocks hpos hle (min ((height + 1) / interval) MAX_SUBSIDY_HALVINGS)
    ((Nat.mul_le_mul_left _ (Nat.min_le_left _ _)).trans_lt hfit)
  rw [wholeEpochs_min hpos] at hloop
  have hgenesis : epochSubsidy interval 0 = some (subsidyAt interval 0) := by
    simp [epochSubsidy, fits, getSubsidyChecked_eq hpos]
  simp only [maxSupplyChecked, fits_eq hcount, hloop, hgenesis, Option.bind_eq_bind,
    Option.bind_some, addBlocks_eq hpos hle (Nat.mod_lt (height + 1) hpos).le hfit]
  have hsum := sum_blocks hpos (height + 1)
  rw [sum_range_succ'] at hsum
  split_ifs at hsum ⊢ <;> simp [hpos.ne', hsum]

end Sums

/-- No operation of `max_supply_at_height` overflows or shifts out of range, and the result is the
sum of the subsidies; so it does not decrease, and does not change after 64 intervals. -/
theorem maxSupplyChecked_exact {interval : Nat} (hpos : 1 ≤ interval) (hle : interval ≤ 2 ^ 30) :
    (∀ height < 2 ^ 32 - 1, ∃ subsidy : Nat → Nat,
      (∀ i, getSubsidyChecked interval i = some (subsidy i)) ∧
      maxSupplyChecked interval height = some (∑ i ∈ range height, subsidy (i + 1))) ∧
    (∀ a b, a ≤ b → b < 2 ^ 32 - 1 → ∀ x ∈ maxSupplyChecked interval a,
      ∀ y ∈ maxSupplyChecked interval b, x ≤ y) ∧
    ∀ a b, 64 * interval ≤ a + 1 → a ≤ b → b < 2 ^ 32 - 1 →
      maxSupplyChecked interval a = maxSupplyChecked interval b := by
  refine ⟨fun height hheight => ⟨_, getSubsidyChecked_eq hpos,
    maxSupplyChecked_sum hpos hle hheight⟩, ?_, ?_⟩
  · intro a b hab hb x hx y hy
    rw [maxSupplyChecked_sum hpos hle (by omega)] at hx
    rw [maxSupplyChecked_sum hpos hle hb] at hy
    cases hx
    cases hy
    exact sum_le_sum_of_subset (range_subset_range.mpr hab)
  · intro a b ha hab hb
    rw [maxSupplyChecked_sum hpos hle (by omega), maxSupplyChecked_sum hpos hle hb]
    refine congrArg some (sum_subset (range_subset_range.mpr hab) fun i _ hi => ?_)
    rw [mem_range, Nat.not_lt] at hi
    exact if_pos ((Nat.le_div_iff_mul_le hpos).mpr (by unfold MAX_SUBSIDY_HALVINGS; omega))

theorem maxSupplyChecked_exact_regtest :
    maxSupplyChecked 150 9599 = maxSupplyChecked 150 100000 :=
  (maxSupplyChecked_exact (by decide) (by decide)).2.2 _ _ (by decide) (by decide) (by decide)

/-! ## The two intervals of the networks -/

variable (params : ChainParams)

theorem interval_pos : 0 < params.subsidyHalvingInterval.get := by
  cases params.subsidyHalvingInterval <;> decide

theorem interval_le : params.subsidyHalvingInterval.get ≤ 2 ^ 30 := by
  cases params.subsidyHalvingInterval <;> decide

theorem getSubsidy_sat (height : Nat) : (getSubsidy params height).sat =
    subsidyAt params.subsidyHalvingInterval.get height := by
  unfold getSubsidy subsidyAt
  by_cases hlate : MAX_SUBSIDY_HALVINGS ≤ height / params.subsidyHalvingInterval.get
  · simp [hlate]
  · simp only [hlate, if_false]
    have hstart : 50 * Amount.ONE_BTC.sat < 2 ^ 64 := by decide
    exact Nat.mod_eq_of_lt ((Nat.shiftRight_le _ _).trans_lt hstart)

theorem epochSupply_eq (epochs : Nat) :
    epochSupply params epochs = wholeEpochs params.subsidyHalvingInterval.get epochs := by
  induction epochs with
  | zero => rfl
  | succ n ih =>
    have hlt := wholeEpochs_lt (interval_pos params) (interval_le params) n le_rfl
    rw [epochSupply, List.range_succ, List.foldl_append, ← epochSupply, List.foldl_cons,
      List.foldl_nil, getSubsidy_sat, ih, Nat.mod_eq_of_lt hlt, wholeEpochs, wholeEpochs,
      sum_range_succ]

/-- `max_supply_at_height` is the sum of the subsidies of the blocks 1 to `height`. -/
theorem maxSupplyAtHeight_eq (height : Nat) :
    (maxSupplyAtHeight params height).sat =
      ∑ h ∈ range height, (getSubsidy params (h + 1)).sat := by
  have hpos := interval_pos params
  have hrem := (Nat.mod_lt (height + 1) hpos).le
  have hlt := wholeEpochs_lt hpos (interval_le params)
    ((height + 1) / params.subsidyHalvingInterval.get) hrem
  have hsum := sum_subsidyAt hpos ((height + 1) / params.subsidyHalvingInterval.get) _ hrem
  rw [Nat.div_add_mod] at hsum
  simp only [maxSupplyAtHeight, getSubsidy_sat, epochSupply_eq, wholeEpochs_min hpos,
    Nat.mod_eq_of_lt hlt, sum_blocks hpos]
  rw [← hsum] at hlt
  rw [sum_range_succ'] at hlt ⊢
  rw [Nat.add_sub_cancel]
  exact Nat.mod_eq_of_lt (by omega)

end Floresta.Consensus
