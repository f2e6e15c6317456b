import Floresta.Consensus.Supply
import Floresta.Lib.FormalSum
import Floresta.SwiftSync.Delta
import Mathlib.Algebra.Order.BigOperators.Group.List
import Mathlib.LinearAlgebra.Finsupp.VectorSpace
import Mathlib.Tactic.Abel

/-!
# Balance — a chain's deltas cancel

Every coin that full validation lets a block consume was created before, in the same block or in an
earlier one.  So over a whole chain the coins that were created split into those that were consumed
and those that are left, and if the hints name the ones that are left, the deltas of the blocks
cancel.
-/

namespace Floresta
namespace Udata
namespace AcceptedBlock

open Fallible Ledger Consensus SwiftSync

variable {B : Bitcoin} {K : Kernel} {ε : Type} (a : AcceptedBlock B K ε) {c : LeafData}

/-! ## The coins a block moves -/

def coins : List LeafData := blockCoins B a.height a.blockHash a.block.txdata

def spendableCoins : List LeafData := a.coins.filter isSpendable

def internalCoins : List LeafData :=
  a.coins.filter fun c => isSpendable c && decide (c.prevout ∈ consumedOutpoints a.block.txdata)

def movedCoins : List LeafData := a.consumedCoins ++ a.internalCoins

theorem spendableCoins_perm : a.spendableCoins.Perm (a.internalCoins ++ a.createdCoins) := by
  have hinternal : a.internalCoins = a.spendableCoins.filter
      fun c => decide (c.prevout ∈ consumedOutpoints a.block.txdata) := by
    simp only [internalCoins, spendableCoins, List.filter_filter, Bool.and_comm]
  have hcreated : a.createdCoins = a.spendableCoins.filter
      fun c => !decide (c.prevout ∈ consumedOutpoints a.block.txdata) := by
    rw [spendableCoins, List.filter_filter]
    refine List.filter_congr ?_
    intro c _
    exact Bool.and_comm _ _
  rw [hinternal, hcreated]
  exact (List.filter_append_perm _ _).symm

theorem coins_isOutputOf (hc : c ∈ a.coins) :
    IsOutputOf B a.block.txdata c.prevout := by
  rcases List.mem_flatMap.mp hc with ⟨t, ht, hct⟩
  rcases List.mem_map.mp hct with ⟨p, hp, rfl⟩
  exact ⟨t, ht, p.2, List.snd_lt_of_mem_zipIdx hp, rfl⟩

theorem movedCoins_prevout_nodup : (a.movedCoins.map LeafData.prevout).Nodup := by
  unfold movedCoins
  rw [List.map_append, a.delHashes_eq.2, List.nodup_append]
  refine ⟨a.external_nodup, ?_, ?_⟩
  · exact a.blockCoins_prevout_nodup.sublist (List.filter_sublist.map _)
  · intro o ho o' ho' heq
    rcases List.mem_map.mp ho' with ⟨c, hc, rfl⟩
    have hforeign : ¬ IsOutputOf B a.block.txdata o := by simpa using (List.mem_filter.mp ho).2
    exact hforeign (heq ▸ a.coins_isOutputOf (List.mem_filter.mp hc).1)

theorem movedCoins_consumed (hc : c ∈ a.movedCoins) :
    c.prevout ∈ consumedOutpoints a.block.txdata := by
  rcases List.mem_append.mp hc with hc | hc
  · have hext : c.prevout ∈ externalOutpoints B a.block.txdata := by
      rw [← a.delHashes_eq.2]
      exact List.mem_map_of_mem hc
    exact (List.mem_filter.mp hext).1
  · have hboth := (List.mem_filter.mp hc).2
    simp only [Bool.and_eq_true, decide_eq_true_eq] at hboth
    exact hboth.2

theorem exists_consumedCoin {o : OutPoint} {u : UtxoData} (h : a.utxos.lookup o = some u) :
    ∃ c ∈ a.consumedCoins, c.prevout = o ∧ c.utxo = u.txout := by
  have hmem : o ∈ a.utxos := Finmap.mem_of_lookup_eq_some h
  have hext := a.utxos_external hmem
  have hprev := a.delHashes_eq.2
  rw [← hprev] at hext
  rcases List.mem_map.mp hext with ⟨c, hc, rfl⟩
  refine ⟨c, hc, rfl, ?_⟩
  rcases List.mem_filterMap.mp hc with ⟨o', -, hat⟩
  simp only [coinAt, Option.bind_eq_bind, Option.bind_eq_some_iff, Option.some.injEq] at hat
  rcases hat with ⟨u', hu', hash, -, rfl⟩
  rw [show a.utxos.lookup o' = some u from h] at hu'
  cases hu'
  rfl

theorem exists_internalCoin {t : Transaction} (ht : t ∈ a.block.txdata) {isCoinbase : Bool}
    {height : Nat} {cutoff : LockTimeCutoff} {p : OutPoint × UtxoData}
    (hp : p ∈ outputEntries (B.computeTxid t) isCoinbase height cutoff t.output)
    (hspendable : isUnspendable p.2.txout.scriptPubkey = false)
    (hcons : p.1 ∈ consumedOutpoints a.block.txdata) :
    ∃ c ∈ a.internalCoins, c.prevout = p.1 ∧ c.utxo = p.2.txout := by
  rcases List.mem_map.mp hp with ⟨q, hq, rfl⟩
  refine ⟨⟨a.blockHash, ⟨B.computeTxid t, UInt32.ofNat q.2⟩, headerCode a.height t.isCoinbase,
    q.1⟩, ?_, rfl, rfl⟩
  refine List.mem_filter.mpr ⟨?_, ?_⟩
  · exact List.mem_flatMap.mpr ⟨t, ht, List.mem_map.mpr ⟨q, hq, rfl⟩⟩
  · have hspendable' : isUnspendable q.1.scriptPubkey = false := hspendable
    have hcons' : (⟨B.computeTxid t, UInt32.ofNat q.2⟩ : OutPoint) ∈
        consumedOutpoints a.block.txdata := hcons
    simp [isSpendable, hspendable', hcons']

theorem spent_perm :
    ∃ coinbase rest st spent, a.block.txdata = coinbase :: rest ∧
      BlockInv B a.height a.cutoff coinbase
        (insertOutputs (B.computeTxid coinbase) true a.height a.cutoff a.utxos coinbase.output)
        rest st spent ∧
      outputSum coinbase ≤ st.fee.sat + a.subsidy.sat ∧
      (spent.map fun p => (p.1, p.2.txout)).Perm
        (a.movedCoins.map fun c => (c.prevout, c.utxo)) := by
  rcases a.blockInv with ⟨coinbase, rest, st, spent, htxs, -, hinv, hreward⟩
  refine ⟨coinbase, rest, st, spent, htxs, hinv, hreward, ?_⟩
  have hkeys : consumedOutpoints a.block.txdata = spent.map Prod.fst := by
    rw [htxs, hinv.consumed]
  have hnodup : (spent.map fun p => (p.1, p.2.txout)).Nodup := by
    apply List.Nodup.of_map Prod.fst
    simpa [Function.comp_def, hkeys] using a.consumed_nodup
  -- every spent entry comes from the map or from an output of the block
  have hsub : (spent.map fun p => (p.1, p.2.txout)) ⊆
      a.movedCoins.map fun c => (c.prevout, c.utxo) := by
    intro q hq
    rcases List.mem_map.mp hq with ⟨p, hp, rfl⟩
    have hspendable := (hinv.checked p hp).spendable
    have hcons : p.1 ∈ consumedOutpoints a.block.txdata := hkeys ▸ List.mem_map_of_mem hp
    have hcoin : ∃ c ∈ a.movedCoins, c.prevout = p.1 ∧ c.utxo = p.2.txout := by
      rcases hinv.origin B hp with hold | hcb | ⟨t, ht, hout⟩
      · rcases a.exists_consumedCoin hold with ⟨c, hc, heq⟩
        exact ⟨c, List.mem_append_left _ hc, heq⟩
      · rcases a.exists_internalCoin (by simp [htxs]) hcb hspendable hcons with ⟨c, hc, heq⟩
        exact ⟨c, List.mem_append_right _ hc, heq⟩
      · rcases a.exists_internalCoin (by simp [htxs, ht]) hout hspendable hcons with ⟨c, hc, heq⟩
        exact ⟨c, List.mem_append_right _ hc, heq⟩
    rcases hcoin with ⟨c, hc, hprev, hutxo⟩
    exact List.mem_map.mpr ⟨c, hc, by rw [hprev, hutxo]⟩
  -- and no moved coin is left over, because each has a spent entry of its own
  have hlen : (a.movedCoins.map fun c => (c.prevout, c.utxo)).length ≤
      (spent.map fun p => (p.1, p.2.txout)).length := by
    have hback : a.movedCoins.map LeafData.prevout ⊆ spent.map Prod.fst := by
      intro o ho
      rcases List.mem_map.mp ho with ⟨c, hc, rfl⟩
      exact hkeys ▸ a.movedCoins_consumed hc
    simpa using (List.subperm_of_subset a.movedCoins_prevout_nodup hback).length_le
  exact (List.subperm_of_subset hnodup hsub).perm_of_length_le hlen

theorem consumedOutpoints_perm :
    (consumedOutpoints a.block.txdata).Perm (a.movedCoins.map LeafData.prevout) := by
  rcases a.spent_perm with ⟨coinbase, rest, st, spent, htxs, hinv, -, hperm⟩
  have hfst := hperm.map Prod.fst
  rw [htxs, hinv.consumed]
  simpa [Function.comp_def] using hfst

theorem coinValue_blockCoins (height : Nat) (blockHash : BlockHash) (txs : List Transaction) :
    coinValue (blockCoins B height blockHash txs) = (txs.map outputSum).sum := by
  induction txs with
  | nil => rfl
  | cons t txs ih =>
    have htx : coinValue (txCoins B height blockHash t) = outputSum t := by
      have hfst : t.output.zipIdx.map (fun p => p.1.value.sat) =
          t.output.map fun o => o.value.sat := by
        rw [show (fun p : TxOut × Nat => p.1.value.sat) = (fun o => o.value.sat) ∘ Prod.fst from
          rfl, ← List.map_map, List.zipIdx_map_fst]
      simp [coinValue, txCoins, outputSum, Function.comp_def, hfst]
    have hcons : blockCoins B height blockHash (t :: txs) =
        txCoins B height blockHash t ++ blockCoins B height blockHash txs := rfl
    rw [hcons, coinValue_append, htx, ih, List.map_cons, List.sum_cons]

theorem coinValue_le : coinValue a.coins ≤ a.subsidy.sat + coinValue a.movedCoins := by
  rcases a.spent_perm with ⟨coinbase, rest, st, spent, htxs, hinv, hreward, hperm⟩
  have hvalue := hinv.value
  have hmoved : coinValue a.movedCoins = (spent.map fun p => p.2.txout.value.sat).sum := by
    have hsnd := (hperm.map fun q : OutPoint × TxOut => q.2.value.sat).sum_eq
    simpa [coinValue, Function.comp_def] using hsnd.symm
  have hcoins : coinValue a.coins = outputSum coinbase + (rest.map outputSum).sum := by
    unfold coins
    rw [coinValue_blockCoins, htxs, List.map_cons, List.sum_cons]
  omega

theorem coinbase_not_consumed (hheight : a.height + 100 < 2 ^ 32)
    (hc : c ∈ blockCoins B a.height a.blockHash (a.block.txdata.take 1)) :
    c.prevout ∉ consumedOutpoints a.block.txdata := by
  intro hcons
  rcases a.blockInv with ⟨coinbase, rest, st, spent, htxs, -, hinv, -⟩
  have htx : c ∈ txCoins B a.height a.blockHash coinbase := by
    simpa [htxs, blockCoins] using hc
  have hisOutput : IsOutputOf B a.block.txdata c.prevout := by
    apply a.coins_isOutputOf
    exact List.mem_flatMap.mpr ⟨coinbase, by simp [htxs], htx⟩
  have htxid : c.prevout.txid = B.computeTxid coinbase := by
    rcases List.mem_map.mp htx with ⟨p, -, rfl⟩
    rfl
  rw [htxs, hinv.consumed] at hcons
  rcases List.mem_map.mp hcons with ⟨p, hp, hpo⟩
  rcases hinv.origin B hp with hold | hcb | ⟨t, ht, hout⟩
  · exact a.utxos_foreign p.1 (Finmap.mem_of_lookup_eq_some hold) (hpo ▸ hisOutput)
  · rcases outputEntries_txid hcb with ⟨-, hflag, hcreation⟩
    have hmatured := (coinbaseMatured_iff (by omega)).mp (hinv.checked p hp).matured hflag
    omega
  · have hp' : p.1.txid = B.computeTxid t := (outputEntries_txid hout).1
    have hnodup := hinv.txids
    rw [List.map_cons, List.nodup_cons] at hnodup
    refine hnodup.1 ?_
    rw [← htxid, ← hpo, hp']
    exact List.mem_map_of_mem ht

end AcceptedBlock

/-! ## The coins a chain moves -/

section Chain

open Consensus SwiftSync

variable {B : Bitcoin} {K : Kernel} {ε : Type} {chain : List (AcceptedBlock B K ε)}

section

variable (hle : ∀ pre a post, chain = pre ++ a :: post →
  (↑a.consumedCoins : Multiset LeafData) ≤ utxoSet pre)

include hle

theorem utxoSet_add_consumed :
    utxoSet chain + ↑(chain.flatMap AcceptedBlock.consumedCoins) =
      ↑(chain.flatMap AcceptedBlock.createdCoins) := by
  induction chain using List.reverseRecOn with
  | nil => simp [utxoSet]
  | append_singleton chain a ih =>
    have hprev := ih fun pre a' post heq => hle pre a' (post ++ [a]) (by simp [heq])
    have hlast := hle chain a [] rfl
    simp only [List.flatMap_append, List.flatMap_singleton, ← Multiset.coe_add]
    calc
      utxoSet (chain ++ [a]) +
          (↑(chain.flatMap AcceptedBlock.consumedCoins) + ↑a.consumedCoins)
          = (utxoSet chain - ↑a.consumedCoins + ↑a.consumedCoins) +
            ↑(chain.flatMap AcceptedBlock.consumedCoins) + ↑a.createdCoins := by
        rw [utxoSet_concat]
        generalize utxoSet chain - ↑a.consumedCoins = left
        abel
      _ = ↑(chain.flatMap AcceptedBlock.createdCoins) + ↑a.createdCoins := by
        rw [tsub_add_cancel_of_le hlast, hprev]

theorem spendableCoins_eq :
    (↑(chain.flatMap AcceptedBlock.spendableCoins) : Multiset LeafData) =
      ↑(chain.flatMap AcceptedBlock.movedCoins) + utxoSet chain := by
  have hsplit : ∀ l : List (AcceptedBlock B K ε),
      (↑(l.flatMap AcceptedBlock.spendableCoins) : Multiset LeafData) =
        ↑(l.flatMap AcceptedBlock.internalCoins) + ↑(l.flatMap AcceptedBlock.createdCoins) := by
    intro l
    induction l with
    | nil => rfl
    | cons a l ih =>
      have ha : (↑a.spendableCoins : Multiset LeafData) = ↑a.internalCoins + ↑a.createdCoins :=
        Multiset.coe_eq_coe.mpr a.spendableCoins_perm
      simp only [List.flatMap_cons, ← Multiset.coe_add, ih, ha]
      abel
  have hmoved : ∀ l : List (AcceptedBlock B K ε),
      (↑(l.flatMap AcceptedBlock.movedCoins) : Multiset LeafData) =
        ↑(l.flatMap AcceptedBlock.consumedCoins) + ↑(l.flatMap AcceptedBlock.internalCoins) := by
    intro l
    induction l with
    | nil => rfl
    | cons a l ih =>
      simp only [List.flatMap_cons, AcceptedBlock.movedCoins, ← Multiset.coe_add] at ih ⊢
      rw [ih]
      abel
  rw [hsplit, hmoved, ← utxoSet_add_consumed hle]
  abel

end

/-- A part of a multiset without repetition is what is left when the rest is filtered out. -/
theorem filter_notMem_of_add {α : Type} [DecidableEq α] {s t u : Multiset α} (h : s = t + u)
    (hnodup : s.Nodup) : s.filter (· ∉ u) = t := by
  subst h
  have hdisj := (Multiset.nodup_add.mp hnodup).2.2
  rw [Multiset.filter_add]
  have ht : t.filter (· ∉ u) = t :=
    Multiset.filter_eq_self.mpr fun a ha hau => Multiset.disjoint_left.mp hdisj ha hau
  have hu : u.filter (· ∉ u) = 0 :=
    Multiset.filter_eq_nil.mpr fun a ha hnot => hnot ha
  rw [ht, hu, add_zero]

theorem coins_chain_nodup (hheights : (chain.map AcceptedBlock.height).Nodup)
    (hbound : ∀ a ∈ chain, a.height < 2 ^ 31)
    (kept : AcceptedBlock B K ε → LeafData → Bool) :
    (chain.flatMap fun a =>
      (blockCoins B a.height a.blockHash a.block.txdata).filter (kept a)).Nodup := by
  refine List.nodup_flatMap.mpr ⟨fun a _ => a.blockCoins_nodup.filter _, ?_⟩
  refine (List.pairwise_map.mp hheights).imp_of_mem ?_
  intro a a' ha ha' hne c hc hc'
  exact hne (height_unique (hbound a ha) (hbound a' ha') (List.mem_filter.mp hc).1
    (List.mem_filter.mp hc').1)

end Chain
end Udata

namespace SwiftSync

open Consensus Udata FormalSum

/-! ## Coins, hints and values -/

section Hints

variable {hints : Finset UInt32} {coins : List LeafData}

theorem coinValue_perm {cs cs' : List LeafData} (h : cs.Perm cs') :
    coinValue cs = coinValue cs' :=
  (h.map _).sum_eq

theorem numbered_fst : (numbered coins).map Prod.fst = coins.filter isSpendable := by
  simp [numbered, List.zipIdx_map_fst]

theorem notHinted_of_exact {left : Multiset LeafData}
    (h : ∀ p ∈ numbered coins, UInt32.ofNat p.2 ∈ hints ↔ p.1 ∈ left) :
    notHinted hints coins = (coins.filter isSpendable).filter fun c => c ∉ left := by
  have hcongr : (numbered coins).filter (fun p => UInt32.ofNat p.2 ∉ hints) =
      (numbered coins).filter ((fun c => decide (c ∉ left)) ∘ Prod.fst) := by
    apply List.filter_congr
    intro p hp
    simp [h p hp]
  rw [notHinted, hcongr, ← List.filter_map, numbered_fst]

theorem lockedValue_add : lockedValue hints coins + coinValue (notHinted hints coins) =
    coinValue coins := by
  have hnumbered : coinValue (hinted hints coins ++ notHinted hints coins) =
      coinValue (coins.filter isSpendable) := by
    rw [← numbered_fst]
    unfold hinted notHinted
    rw [← List.map_append]
    apply coinValue_perm
    apply List.Perm.map
    simpa using List.filter_append_perm (fun p : LeafData × Nat => UInt32.ofNat p.2 ∈ hints)
      (numbered coins)
  have hall : coinValue (coins.filter isSpendable ++ coins.filter fun c => !isSpendable c) =
      coinValue coins := coinValue_perm (List.filter_append_perm _ _)
  rw [coinValue_append] at hnumbered hall
  unfold lockedValue
  omega

end Hints

/-! ## Sessions -/

variable {W : Type} [AddCommGroup W] {H : SipHash W} {B : Bitcoin}

/-- A block that passed `process_block_swiftsync`, with its hints and its delta. -/
structure SyncedBlock (H : SipHash W) (B : Bitcoin) (params : ChainParams) (salt : SipHashKeys) where
  block : Block
  height : Nat
  hints : Finset UInt32
  delta : SwiftSyncDelta W
  processed : processBlockSwiftsync H B params block height hints salt = .ok delta

variable {params : ChainParams} {salt : SipHashKeys}

/-- The outpoints that the inputs after the coinbases spend. -/
def spentOutpoints (blocks : List (SyncedBlock H B params salt)) : Multiset OutPoint :=
  ↑(blocks.flatMap fun s => consumedOutpoints s.block.txdata)

/-- The spendable outputs that the hints do not call unspent, without those BIP30 made
unspendable. -/
def unhintedOutpoints (blocks : List (SyncedBlock H B params salt)) : Multiset OutPoint :=
  ↑(blocks.flatMap fun s =>
    (notHinted s.hints (countedCoins B s.block s.height)).map LeafData.prevout)

/-- The aggregator after the deltas were added in some order and grouping. -/
def totalAgg (g : Grouping (SwiftSyncDelta W)) : SwiftSyncAgg W :=
  g.eval 0 SwiftSyncDelta.aggregatorDelta (· + ·)

def totalSupply (g : Grouping (SwiftSyncDelta W)) : Amount :=
  g.eval Amount.ZERO SwiftSyncDelta.unspentAmount saturatingAmount

/-- The two checks of `handle_stop_height_reached`: the height at which it aborts, if it does. -/
def stopHeightAbort [DecidableEq W] (params : ChainParams) (stopHeight : Nat)
    (agg : SwiftSyncAgg W) (supply : Amount) : Option Nat :=
  if agg ≠ 0 then some stopHeight
  else if (maxSupplyAtHeight params stopHeight).sat < supply.sat then some stopHeight
  else none

theorem stopHeightAbort_eq_none [DecidableEq W] {stopHeight : Nat} {agg : SwiftSyncAgg W}
    {supply : Amount} : stopHeightAbort params stopHeight agg supply = none ↔
      agg = 0 ∧ supply.sat ≤ (maxSupplyAtHeight params stopHeight).sat := by
  by_cases hagg : agg = 0
  · simp [stopHeightAbort, hagg]
  · simp [stopHeightAbort, hagg]

theorem totalAgg_eq (hstream : H.Streams) {blocks : List (SyncedBlock H B params salt)}
    {g : Grouping (SwiftSyncDelta W)} (hg : g.leaves.Perm (blocks.map SyncedBlock.delta)) :
    totalAgg g = ((unhintedOutpoints blocks).map (hashOutpoint H salt)).sum -
      ((spentOutpoints blocks).map (hashOutpoint H salt)).sum := by
  have hsum : totalAgg g = (blocks.map fun s => s.delta.aggregatorDelta).sum := by
    unfold totalAgg
    rw [Grouping.eval_eq_sum, (hg.map _).sum_eq, List.map_map]
    rfl
  rw [hsum]
  unfold unhintedOutpoints spentOutpoints
  clear hg hsum
  induction blocks with
  | nil => simp
  | cons s blocks ih =>
    rw [List.map_cons, List.sum_cons, ih,
      (processBlockSwiftsync_delta H B hstream s.processed).2]
    simp only [List.flatMap_cons, ← Multiset.coe_add, Multiset.map_add, Multiset.sum_add,
      Multiset.map_coe, Multiset.sum_coe, List.map_map, Function.comp_def]
    abel

theorem totalAgg_eq_zero (hstream : H.Streams)
    (hfree : LinearIndependent ℤ (hashOutpoint H salt))
    {blocks : List (SyncedBlock H B params salt)} {g : Grouping (SwiftSyncDelta W)}
    (hg : g.leaves.Perm (blocks.map SyncedBlock.delta)) :
    totalAgg g = 0 ↔ spentOutpoints blocks = unhintedOutpoints blocks := by
  rw [totalAgg_eq hstream hg, sub_eq_zero, sum_map_eq_iff hfree]
  exact eq_comm

theorem totalSupply_le (hstream : H.Streams) {blocks : List (SyncedBlock H B params salt)}
    {g : Grouping (SwiftSyncDelta W)} (hg : g.leaves.Perm (blocks.map SyncedBlock.delta)) :
    (totalSupply g).sat ≤
      (blocks.map fun s => lockedValue s.hints (countedCoins B s.block s.height)).sum := by
  have hplus : ∀ a b, (saturatingAmount a b).sat ≤ a.sat + b.sat := by
    intro a b
    rw [saturatingAmount_sat]
    exact Nat.min_le_left _ _
  calc
    (totalSupply g).sat ≤ (g.leaves.map fun d => d.unspentAmount.sat).sum :=
      Grouping.eval_le_sum g Amount.ZERO_sat hplus
    _ = (blocks.map fun s => s.delta.unspentAmount.sat).sum := by
      rw [(hg.map _).sum_eq, List.map_map]
      rfl
    _ ≤ (blocks.map fun s => lockedValue s.hints (countedCoins B s.block s.height)).sum := by
      refine List.sum_le_sum ?_
      intro s _
      rw [(processBlockSwiftsync_delta H B hstream s.processed).1]
      exact Nat.min_le_left _ _

/-! ## Validated chains -/

section Validated

variable {K : Kernel} {ε : Type}

/-- What full validation checked of the blocks 1 to N, beside what each accepted block says. -/
structure FullyValidated (params : ChainParams) (chain : List (AcceptedBlock B K ε)) : Prop where
  heights : chain.map AcceptedBlock.height = List.range' 1 chain.length
  subsidy : ∀ a ∈ chain, a.subsidy = getSubsidy params a.height
  leaves : ∃ leaves, LeafRun chain leaves
  unspendable : ∀ a ∈ chain, containsUnspendableUtxo a.delHashes = false

/-- The two constants are the leaf hashes of the coins that BIP30 made unspendable. -/
def Bip30LeavesKnown (chain : List (AcceptedBlock B K ε)) : Prop :=
  ∀ a ∈ chain, isBip30Unspendable B a.block a.height = true →
    ∀ c ∈ blockCoins B a.height a.blockHash (a.block.txdata.take 1), isSpendable c = true →
      containsUnspendableUtxo [leafDataHash B c] = true

/-- The synced block and the accepted block are the same block at the same height. -/
def SameBlock (s : SyncedBlock H B params salt) (a : AcceptedBlock B K ε) : Prop :=
  s.block = a.block ∧ s.height = a.height

/-- A numbered output of a block is hinted exactly if it is unspent at the end of the chain. -/
def HintsExact (blocks : List (SyncedBlock H B params salt)) (chain : List (AcceptedBlock B K ε)) :
    Prop :=
  ∀ s ∈ blocks, ∀ p ∈ numbered (countedCoins B s.block s.height),
    UInt32.ofNat p.2 ∈ s.hints ↔ p.1 ∈ utxoSet chain

variable {chain : List (AcceptedBlock B K ε)}

section

variable (hval : FullyValidated params chain)

include hval

theorem FullyValidated.heights_nodup : (chain.map AcceptedBlock.height).Nodup := by
  rw [hval.heights]
  exact List.nodup_range'

theorem FullyValidated.height_le {a : AcceptedBlock B K ε} (ha : a ∈ chain) :
    a.height ≤ chain.length := by
  have hmem : a.height ∈ List.range' 1 chain.length := by
    rw [← hval.heights]
    exact List.mem_map_of_mem ha
  rw [List.mem_range'_1] at hmem
  omega

theorem bip30_mem_utxoSet (hlen : chain.length < 2 ^ 31)
    (hcoll : CollisionFree B (chainCoins chain)) (hknown : Bip30LeavesKnown chain)
    {a : AcceptedBlock B K ε} (ha : a ∈ chain) (hbip : isBip30Unspendable B a.block a.height = true)
    (hc : c ∈ blockCoins B a.height a.blockHash (a.block.txdata.take 1))
    (hspendable : isSpendable c = true) : c ∈ utxoSet chain := by
  rcases hval.leaves with ⟨leaves, hrun⟩
  have hheight := hval.height_le ha
  have hcoin : c ∈ a.coins := by
    rcases List.mem_flatMap.mp hc with ⟨t, ht, hct⟩
    exact List.mem_flatMap.mpr ⟨t, List.mem_of_mem_take ht, hct⟩
  have hcreated : c ∈ a.createdCoins := by
    refine List.mem_filter.mpr ⟨hcoin, ?_⟩
    have hfresh := a.coinbase_not_consumed (by omega) hc
    have hspendable' : isUnspendable c.utxo.scriptPubkey = false := by
      simpa [isSpendable] using hspendable
    simp [survives, hfresh, hspendable']
  have hall : c ∈ utxoSet chain + ↑(chain.flatMap AcceptedBlock.consumedCoins) := by
    rw [utxoSet_add_consumed (leafRun_consumed hrun hcoll)]
    exact List.mem_flatMap.mpr ⟨a, ha, hcreated⟩
  rcases Multiset.mem_add.mp hall with hleft | hconsumed
  · exact hleft
  · -- its leaf hash would be among the deletions, which `update_acc` rejects
    rcases List.mem_flatMap.mp hconsumed with ⟨a', ha', hc'⟩
    have hmem : leafDataHash B c ∈ a'.delHashes := by
      rw [a'.delHashes_eq.1]
      exact List.mem_map_of_mem hc'
    have hnone := hval.unspendable a' ha'
    have hhash := hknown a ha hbip c hc hspendable
    simp only [containsUnspendableUtxo, List.any_eq_false, List.any_cons, List.any_nil,
      Bool.or_false] at hnone hhash
    exact absurd hhash (hnone _ hmem)

theorem countedCoins_filter (hlen : chain.length < 2 ^ 31)
    (hcoll : CollisionFree B (chainCoins chain)) (hknown : Bip30LeavesKnown chain)
    {a : AcceptedBlock B K ε} (ha : a ∈ chain) :
    ((countedCoins B a.block a.height).filter isSpendable).filter (fun c => c ∉ utxoSet chain) =
      a.spendableCoins.filter fun c => c ∉ utxoSet chain := by
  have hsplit : a.coins = blockCoins B a.height a.blockHash (a.block.txdata.take 1) ++
      blockCoins B a.height a.blockHash (a.block.txdata.drop 1) := by
    unfold AcceptedBlock.coins blockCoins
    rw [← List.flatMap_append, List.take_append_drop]
  cases hbip : isBip30Unspendable B a.block a.height with
  | false =>
    simp only [countedCoins, hbip, Bool.false_eq_true, if_false]
    rfl
  | true =>
    have hnil : ((blockCoins B a.height a.blockHash (a.block.txdata.take 1)).filter
        isSpendable).filter (fun c => c ∉ utxoSet chain) = [] := by
      rw [List.filter_eq_nil_iff]
      intro c hc
      rcases List.mem_filter.mp hc with ⟨hmem, hspendable⟩
      simpa using bip30_mem_utxoSet hval hlen hcoll hknown ha hbip hmem hspendable
    unfold AcceptedBlock.spendableCoins
    rw [hsplit, List.filter_append, List.filter_append, hnil, List.nil_append]
    simp only [countedCoins, hbip, if_true]
    rfl

end

theorem coinValue_countedCoins_le (a : AcceptedBlock B K ε) :
    coinValue (countedCoins B a.block a.height) ≤ coinValue a.coins := by
  unfold countedCoins AcceptedBlock.coins
  cases isBip30Unspendable B a.block a.height with
  | false => rfl
  | true =>
    have hsplit : blockCoins B a.height a.blockHash a.block.txdata =
        blockCoins B a.height a.blockHash (a.block.txdata.take 1) ++
          blockCoins B a.height a.blockHash (a.block.txdata.drop 1) := by
      unfold blockCoins
      rw [← List.flatMap_append, List.take_append_drop]
    rw [hsplit, coinValue_append]
    exact Nat.le_add_left _ _

theorem flatMap_eq_of_forall₂ {α β γ : Type} {R : α → β → Prop} {f : α → List γ} {g : β → List γ}
    {xs : List α} {ys : List β} (h : List.Forall₂ R xs ys)
    (heq : ∀ x ∈ xs, ∀ y ∈ ys, R x y → f x = g y) : xs.flatMap f = ys.flatMap g := by
  induction h with
  | nil => rfl
  | cons hR _ ih =>
    rw [List.flatMap_cons, List.flatMap_cons, heq _ (by simp) _ (by simp) hR,
      ih fun x hx y hy => heq x (by simp [hx]) y (by simp [hy])]

/-- With exact hints, the coins that are not hinted are those that the chain moved. -/
theorem notHinted_eq_moved (hval : FullyValidated params chain) (hlen : chain.length < 2 ^ 31)
    (hcoll : CollisionFree B (chainCoins chain)) (hknown : Bip30LeavesKnown chain)
    {blocks : List (SyncedBlock H B params salt)} (hsame : List.Forall₂ SameBlock blocks chain)
    (hexact : HintsExact blocks chain) :
    (↑(blocks.flatMap fun s => notHinted s.hints (countedCoins B s.block s.height)) :
      Multiset LeafData) = ↑(chain.flatMap AcceptedBlock.movedCoins) := by
  rcases hval.leaves with ⟨leaves, hrun⟩
  have hblocks : blocks.flatMap (fun s => notHinted s.hints (countedCoins B s.block s.height)) =
      chain.flatMap fun a => a.spendableCoins.filter fun c => c ∉ utxoSet chain := by
    apply flatMap_eq_of_forall₂ hsame
    rintro s hs a ha ⟨hblock, hheight⟩
    rw [notHinted_of_exact (hexact s hs), hblock, hheight,
      countedCoins_filter hval hlen hcoll hknown ha]
  have hnodup : (chain.flatMap AcceptedBlock.spendableCoins).Nodup :=
    coins_chain_nodup hval.heights_nodup (fun a ha => (hval.height_le ha).trans_lt hlen)
      fun _ => isSpendable
  have hfilter := filter_notMem_of_add
    (spendableCoins_eq (leafRun_consumed hrun hcoll)) (Multiset.coe_nodup.mpr hnodup)
  rw [hblocks, ← hfilter, Multiset.filter_coe, List.filter_flatMap]

theorem sum_subsidy (hval : FullyValidated params chain) :
    (chain.map fun a => a.subsidy.sat).sum = (maxSupplyAtHeight params chain.length).sat := by
  have hmap : chain.map (fun a => a.subsidy.sat) =
      (List.range' 1 chain.length).map fun h => (getSubsidy params h).sat := by
    rw [← hval.heights, List.map_map]
    apply List.map_congr_left
    intro a ha
    simp [hval.subsidy a ha]
  rw [hmap, maxSupplyAtHeight_eq, List.range'_eq_map_range, List.map_map]
  simp only [Function.comp_def, Nat.add_comm 1]
  rfl

/-- What the blocks lock or leave is at most the subsidies: the rest was moved, and what was moved
was not hinted. -/
theorem lockedValue_le (hval : FullyValidated params chain) (hlen : chain.length < 2 ^ 31)
    (hcoll : CollisionFree B (chainCoins chain)) (hknown : Bip30LeavesKnown chain)
    {blocks : List (SyncedBlock H B params salt)} (hsame : List.Forall₂ SameBlock blocks chain)
    (hexact : HintsExact blocks chain) :
    (blocks.map fun s => lockedValue s.hints (countedCoins B s.block s.height)).sum ≤
      (chain.map fun a => a.subsidy.sat).sum := by
  have hsumValue : ∀ {α : Type} (f : α → List LeafData) (l : List α),
      coinValue (l.flatMap f) = (l.map fun x => coinValue (f x)).sum := by
    intro α f l
    induction l with
    | nil => rfl
    | cons x l ih => rw [List.flatMap_cons, coinValue_append, ih, List.map_cons, List.sum_cons]
  have hmoved := coinValue_perm (Multiset.coe_eq_coe.mp
    (notHinted_eq_moved hval hlen hcoll hknown hsame hexact))
  rw [hsumValue, hsumValue] at hmoved
  have hblocks : List.Forall₂ (· ≤ ·)
      (blocks.map fun s => lockedValue s.hints (countedCoins B s.block s.height) +
        coinValue (notHinted s.hints (countedCoins B s.block s.height)))
      (chain.map fun a => a.subsidy.sat + coinValue a.movedCoins) := by
    rw [List.forall₂_map_left_iff, List.forall₂_map_right_iff]
    refine hsame.imp ?_
    rintro s a ⟨hblock, hheight⟩
    rw [lockedValue_add, hblock, hheight]
    exact (coinValue_countedCoins_le a).trans a.coinValue_le
  have htotal := hblocks.sum_le_sum
  simp only [List.sum_map_add] at htotal
  omega

/-- **SwiftSync accepts a valid chain and only a balanced one.**  Whatever the hints, the order and
the grouping, the aggregator of blocks that passed is zero exactly if the spent outpoints are the
outputs not hinted unspent, and the final checks pass exactly if, beside that, the supply is within
its bound; and for a fully validated chain with exact hints they pass. -/
theorem swiftsync_accepts_valid_chain [DecidableEq W] (hstream : H.Streams)
    (hfree : LinearIndependent ℤ (hashOutpoint H salt))
    (blocks : List (SyncedBlock H B params salt))
    (g : Grouping (SwiftSyncDelta W)) (hg : g.leaves.Perm (blocks.map SyncedBlock.delta)) :
    (totalAgg g = 0 ↔ spentOutpoints blocks = unhintedOutpoints blocks) ∧
    (stopHeightAbort params blocks.length (totalAgg g) (totalSupply g) = none ↔
      spentOutpoints blocks = unhintedOutpoints blocks ∧
        (totalSupply g).sat ≤ (maxSupplyAtHeight params blocks.length).sat) ∧
    ∀ (K : Kernel) (ε : Type) (chain : List (AcceptedBlock B K ε)),
      FullyValidated params chain → chain.length < 2 ^ 31 →
      CollisionFree B (chainCoins chain) → Bip30LeavesKnown chain →
      List.Forall₂ SameBlock blocks chain → HintsExact blocks chain →
      totalAgg g = 0 ∧
        (totalSupply g).sat ≤ (maxSupplyAtHeight params blocks.length).sat ∧
        stopHeightAbort params blocks.length (totalAgg g) (totalSupply g) = none := by
  have hbalance := totalAgg_eq_zero hstream hfree hg
  refine ⟨hbalance, by rw [stopHeightAbort_eq_none, hbalance], ?_⟩
  intro K ε chain hval hlen hcoll hknown hsame hexact
  have hzero : totalAgg g = 0 := by
    rw [hbalance]
    have hcoins := congrArg (Multiset.map LeafData.prevout)
      (notHinted_eq_moved hval hlen hcoll hknown hsame hexact)
    have hspent : blocks.flatMap (fun s => consumedOutpoints s.block.txdata) =
        chain.flatMap fun a => consumedOutpoints a.block.txdata := by
      apply flatMap_eq_of_forall₂ hsame
      rintro s - a - ⟨hblock, -⟩
      rw [hblock]
    unfold spentOutpoints unhintedOutpoints
    rw [hspent]
    simp only [Multiset.map_coe, List.map_flatMap] at hcoins
    rw [hcoins]
    exact Multiset.coe_eq_coe.mpr
      (List.Perm.flatMap_left chain fun a _ => a.consumedOutpoints_perm)
  have hsupply : (totalSupply g).sat ≤ (maxSupplyAtHeight params blocks.length).sat :=
    calc
      (totalSupply g).sat
          ≤ (blocks.map fun s => lockedValue s.hints (countedCoins B s.block s.height)).sum :=
        totalSupply_le hstream hg
      _ ≤ (chain.map fun a => a.subsidy.sat).sum :=
        lockedValue_le hval hlen hcoll hknown hsame hexact
      _ = (maxSupplyAtHeight params blocks.length).sat := by
        rw [sum_subsidy hval, hsame.length_eq]
  exact ⟨hzero, hsupply, stopHeightAbort_eq_none.mpr ⟨hzero, hsupply⟩⟩

end Validated

/-! ### A session that spends the first coinbase -/

namespace Sample

open Udata.Sample Consensus.Sample Bitcoin

/-- Hashes that are formal symbols: the unit vector at the bytes that were fed in. -/
noncomputable def sip : SipHash (Bytes →₀ ℤ) where
  Engine := Bytes
  withKeys _ _ := []
  input e b := e ++ b
  finish e := Finsupp.single e 1

theorem sip_streams : sip.Streams := by
  intro e a b
  exact List.append_assoc e a b

def keys : SipHashKeys := ⟨1, 2, 3, 4⟩

theorem sip_free : LinearIndependent ℤ (hashOutpoint sip keys) := by
  have hinj : Function.Injective fun o : OutPoint => hashBytes 32 o.txid ++ leBytes o.vout := by
    intro o o' heq
    rcases List.append_inj heq (by simp [hashBytes_length]) with ⟨htxid, hvout⟩
    rcases o with ⟨txid, vout⟩
    rcases o' with ⟨txid', vout'⟩
    rw [show txid = txid' from hashBytes_injective (by decide) htxid,
      show vout = vout' from leBytes_injective hvout]
  apply LinearIndependent.of_comp (LinearMap.fst ℤ _ _)
  exact (Finsupp.linearIndependent_single_one ℤ Bytes).comp _ hinj

def regtest : ChainParams where
  params := ⟨500, 1351, 1251, true, true, 600, 2 ^ 255, 2016⟩
  genesis := ⟨header 0, []⟩
  subsidyHalvingInterval := .regtest
  powTargetTimespan := 1209600
  segwitActivationHeight := 0
  csvActivationHeight := 0
  exceptions := []
  enforceBip94 := false

/-- A coinbase that mints one coin and one unspendable output. -/
def mintTx (n : Nat) : Transaction :=
  { coinbaseTx with
    version := n
    output := [⟨Amount.fromSat 70, [0x51]⟩, ⟨Amount.fromSat 5, [0x6a]⟩] }

def mintBlock (n : Nat) : Block :=
  ⟨{ header 1 with merkleRoot := sample.computeTxid (mintTx n) }, [mintTx n]⟩

/-- Burns what it mints. -/
def idleTx : Transaction := { mintTx 2 with output := [⟨Amount.fromSat 5, [0x6a]⟩] }

def idleBlock : Block :=
  ⟨{ header 1 with merkleRoot := sample.computeTxid idleTx }, [idleTx]⟩

def mintCoin : OutPoint := ⟨sample.computeTxid (mintTx 1), 0⟩

def payBlock : Block :=
  ⟨{ header 1 with
      merkleRoot := sample.merkleNode (sample.computeTxid (mintTx 3))
        (sample.computeTxid (spend mintCoin 60)) }, [mintTx 3, spend mintCoin 60]⟩

/-- The first block after full validation. -/
def minting : AcceptedBlock sample kernel BlockchainError where
  block := mintBlock 1
  height := 1
  leaves := []
  fromLeaf := .utreexoLeaf
  getBlockHash _ := .ok (sample.blockHash (mintBlock 1).header)
  getMtp _ := .ok 0
  cutoff := .mtp 0
  subsidy := getSubsidy regtest 1
  verifyScript := true
  flags := 0
  delHashes := []
  utxos := ∅
  processed := rfl
  verified := by decide +kernel
  txidInjective := by
    unfold Bitcoin.TxidInjectiveOn
    decide +kernel
  outputCount := by decide +kernel

theorem idle_verified : ∀ i : Fin 99, Consensus.verifyBlockTransactions sample kernel (i + 2) (.mtp 0) ∅
    idleBlock.txdata (getSubsidy regtest (i + 2)) true 0 = .ok () := by
  decide +kernel

/-- The blocks until the coinbase of the first may be spent. -/
def idle (i : Fin 99) : AcceptedBlock sample kernel BlockchainError :=
  { minting with
    block := idleBlock
    height := i + 2
    subsidy := getSubsidy regtest (i + 2)
    processed := rfl
    verified := idle_verified i
    txidInjective := by
      unfold Bitcoin.TxidInjectiveOn
      decide +kernel
    outputCount := by decide +kernel }

def paying : AcceptedBlock sample kernel BlockchainError :=
  { minting with
    block := payBlock
    height := 101
    leaves := leaves
    subsidy := getSubsidy regtest 101
    delHashes := [leafDataHash sample (coinOf (sample.blockHash (mintBlock 1).header) mintCoin utxo)]
    utxos := Finmap.singleton mintCoin utxo
    processed := by decide +kernel
    verified := by decide +kernel
    txidInjective := by
      unfold Bitcoin.TxidInjectiveOn
      decide +kernel
    outputCount := by decide +kernel }

def chain : List (AcceptedBlock sample kernel BlockchainError) :=
  minting :: (List.finRange 99).map idle ++ [paying]

theorem leafRun_idle (l : List (Fin 99)) : LeafRun (minting :: l.map idle) ↑minting.adds := by
  have hadds : ∀ i, (idle i).adds = [] := by decide +kernel
  induction l using List.reverseRecOn with
  | nil => simpa using LeafRun.snoc minting .nil (by decide +kernel)
  | append_singleton l i ih =>
    have hdel : (idle i).delHashes = [] := rfl
    simpa [hadds, hdel] using ih.snoc (idle i) (Multiset.zero_le _)

theorem chain_validated : FullyValidated regtest chain where
  heights := by decide +kernel
  subsidy := by decide +kernel
  leaves := ⟨_, (leafRun_idle _).snoc paying (by decide +kernel)⟩
  unspendable := by decide +kernel

theorem chain_collisionFree : CollisionFree sample (chainCoins chain) := by
  unfold CollisionFree
  decide +kernel

theorem chain_bip30 : Bip30LeavesKnown chain := by
  have hnone : ∀ a ∈ chain, isBip30Unspendable sample a.block a.height = false := by decide +kernel
  intro a ha hbip
  rw [hnone a ha] at hbip
  cases hbip

/-- The outputs of the last block are unspent. -/
def lastHints (height : Nat) : Finset UInt32 := if height = 101 then {0, 1} else ∅

theorem chain_hints : ∀ a ∈ chain, ∀ p ∈ numbered (countedCoins sample a.block a.height),
    UInt32.ofNat p.2 ∈ lastHints a.height ↔ p.1 ∈ utxoSet chain := by
  decide +kernel

theorem chain_synced : ∀ a ∈ chain, (processBlockSwiftsync sip sample regtest a.block a.height
    (lastHints a.height) keys).isOk = true := by
  decide +kernel

theorem exists_synced {l : List (AcceptedBlock sample kernel BlockchainError)}
    (h : ∀ a ∈ l, (processBlockSwiftsync sip sample regtest a.block a.height
      (lastHints a.height) keys).isOk = true) :
    ∃ blocks : List (SyncedBlock sip sample regtest keys), List.Forall₂ SameBlock blocks l ∧
      ∀ s ∈ blocks, s.hints = lastHints s.height ∧ ∃ a ∈ l, SameBlock s a := by
  induction l with
  | nil => exact ⟨[], .nil, fun s hs => absurd hs List.not_mem_nil⟩
  | cons a l ih =>
    rcases ih fun a' ha' => h a' (List.mem_cons_of_mem _ ha') with ⟨blocks, hsame, hblocks⟩
    rcases Fallible.exists_of_isOk (h a List.mem_cons_self) with ⟨d, hd⟩
    refine ⟨⟨a.block, a.height, lastHints a.height, d, hd⟩ :: blocks, .cons ⟨rfl, rfl⟩ hsame, ?_⟩
    refine List.forall_mem_cons.mpr ⟨⟨rfl, a, List.mem_cons_self, rfl, rfl⟩, fun s hs => ?_⟩
    rcases hblocks s hs with ⟨hhints, a', ha', hsame'⟩
    exact ⟨hhints, a', List.mem_cons_of_mem _ ha', hsame'⟩

/-- The deltas are added from the last block to the first. -/
def backwards : List (SwiftSyncDelta (Bytes →₀ ℤ)) → Grouping (SwiftSyncDelta (Bytes →₀ ℤ))
  | [] => .zero
  | d :: ds => .add (backwards ds) (.single d)

theorem backwards_perm (ds : List (SwiftSyncDelta (Bytes →₀ ℤ))) : (backwards ds).leaves.Perm ds := by
  induction ds with
  | nil => exact .nil
  | cons d ds ih => exact (List.perm_append_singleton d _).trans (ih.cons d)

end Sample

open Sample in
/-- A coinbase is spent a hundred blocks later, the session passes, and it is balanced. -/
theorem swiftsync_accepts_valid_chain_sample :
    ∃ (blocks : List (SyncedBlock sip Bitcoin.sample regtest keys))
      (g : Grouping (SwiftSyncDelta (Bytes →₀ ℤ))),
      blocks.length = 101 ∧ g.leaves.Perm (blocks.map SyncedBlock.delta) ∧
        stopHeightAbort regtest 101 (totalAgg g) (totalSupply g) = none ∧
        mintCoin ∈ spentOutpoints blocks ∧ spentOutpoints blocks = unhintedOutpoints blocks := by
  rcases exists_synced chain_synced with ⟨blocks, hsame, hblocks⟩
  have hperm := backwards_perm (blocks.map SyncedBlock.delta)
  have hlength : blocks.length = 101 := hsame.length_eq.trans rfl
  have hexact : HintsExact blocks chain := by
    intro s hs
    rcases hblocks s hs with ⟨hhints, a, ha, hblock, hheight⟩
    rw [hhints, hblock, hheight]
    exact chain_hints a ha
  rcases swiftsync_accepts_valid_chain sip_streams sip_free blocks _ hperm with
    ⟨-, hfinal, hvalid⟩
  have hpass := (hvalid _ _ chain chain_validated (by decide) chain_collisionFree chain_bip30 hsame
    hexact).2.2
  have hspent : spentOutpoints blocks =
      ↑(chain.flatMap fun a => consumedOutpoints a.block.txdata) := by
    refine congrArg _ (flatMap_eq_of_forall₂ hsame ?_)
    rintro s - a - ⟨hblock, -⟩
    rw [hblock]
  refine ⟨blocks, _, hlength, hperm, hlength ▸ hpass, ?_, (hfinal.mp hpass).1⟩
  rw [hspent, Multiset.mem_coe]
  decide +kernel

end SwiftSync
end Floresta
