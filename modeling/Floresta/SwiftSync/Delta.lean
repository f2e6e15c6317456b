import Floresta.SwiftSync.Aggregator
import Floresta.Udata.Agreement

/-!
# Delta — what a block contributes to the aggregator

The delta of a block that passes is a sum over its coins: plus the hash of every numbered coin that
the hints do not call unspent, minus the hash of every consumed outpoint.  The amount it reports is
the value of the unspendable outputs and of the coins the hints call unspent, cut off at the largest
`u64`.
-/

namespace Floresta.SwiftSync

open Fallible Consensus Udata

variable {W : Type} [AddCommGroup W] (H : SipHash W) (B : Bitcoin) {salt : SipHashKeys}
  {out : OutputState} {block : Block} {tx : Transaction} {height : Nat} {st st' : SwiftState W}
variable {hints : Finset UInt32}

/-! ## Numbered coins -/

def isSpendable (c : LeafData) : Bool := !isUnspendable c.utxo.scriptPubkey

/-- The coins of a block that SwiftSync looks at: those of a coinbase that BIP30 made unspendable
are left out. -/
def countedCoins (block : Block) (height : Nat) : List LeafData :=
  blockCoins B height (B.blockHash block.header)
    (if isBip30Unspendable B block height then block.txdata.drop 1 else block.txdata)

/-- The spendable coins with their number in the block. -/
def numbered (coins : List LeafData) : List (LeafData × Nat) :=
  (coins.filter isSpendable).zipIdx

def notHinted (hints : Finset UInt32) (coins : List LeafData) : List LeafData :=
  ((numbered coins).filter fun p => UInt32.ofNat p.2 ∉ hints).map Prod.fst

def hinted (hints : Finset UInt32) (coins : List LeafData) : List LeafData :=
  ((numbered coins).filter fun p => UInt32.ofNat p.2 ∈ hints).map Prod.fst

def coinValue (coins : List LeafData) : Nat :=
  (coins.map fun c => c.utxo.value.sat).sum

/-- The value that a block locks away for good or leaves unspent. -/
def lockedValue (hints : Finset UInt32) (coins : List LeafData) : Nat :=
  coinValue (coins.filter fun c => !isSpendable c) + coinValue (hinted hints coins)

theorem coinValue_append (cs cs' : List LeafData) :
    coinValue (cs ++ cs') = coinValue cs + coinValue cs' := by
  simp [coinValue]

section Snoc

variable {hints : Finset UInt32} {coins : List LeafData} {c : LeafData}

theorem numbered_snoc_spendable (h : isSpendable c = true) :
    numbered (coins ++ [c]) = numbered coins ++ [(c, (coins.filter isSpendable).length)] := by
  simp [numbered, h, List.zipIdx_append]

theorem numbered_snoc_unspendable (h : isSpendable c = false) :
    numbered (coins ++ [c]) = numbered coins := by
  simp [numbered, h]

theorem notHinted_snoc :
    notHinted hints (coins ++ [c]) = notHinted hints coins ++
      if isSpendable c ∧ UInt32.ofNat (coins.filter isSpendable).length ∉ hints then [c]
      else [] := by
  by_cases h : isSpendable c = true
  · by_cases hh : UInt32.ofNat (coins.filter isSpendable).length ∈ hints <;>
      simp [notHinted, numbered_snoc_spendable h, h, hh]
  · have h' : isSpendable c = false := by simpa using h
    simp [notHinted, numbered_snoc_unspendable h', h']

theorem lockedValue_snoc :
    lockedValue hints (coins ++ [c]) = lockedValue hints coins +
      if isSpendable c ∧ UInt32.ofNat (coins.filter isSpendable).length ∉ hints then 0
      else c.utxo.value.sat := by
  by_cases h : isSpendable c = true
  · by_cases hh : UInt32.ofNat (coins.filter isSpendable).length ∈ hints <;>
      simp [lockedValue, hinted, numbered_snoc_spendable h, h, hh, coinValue, Nat.add_assoc]
  · have h' : isSpendable c = false := by simpa using h
    simp [lockedValue, hinted, numbered_snoc_unspendable h', h', coinValue]
    omega

end Snoc

/-! ## Saturated amounts -/

theorem saturatingAmount_sat (a b : Amount) :
    (saturatingAmount a b).sat = min (a.sat + b.sat) (2 ^ 64 - 1) := by
  unfold saturatingAmount Amount.checkedAdd
  by_cases h : a.sat + b.sat < 2 ^ 64
  · simp only [h, dif_pos, Option.getD_some]
    omega
  · have hmax : Amount.MAX.sat = 2 ^ 64 - 1 := by decide
    simp only [h, dif_neg, not_false_eq_true, Option.getD_none, hmax]
    omega

/-! ## Adding outpoints -/

omit [AddCommGroup W] in
theorem finalizeWithVout_eq (hstream : H.Streams) (salt : SipHashKeys) (txid : Txid)
    (vout : UInt32) :
    (TxidHashMidstate.new H salt txid).finalizeWithVout H vout =
      hashOutpoint H salt ⟨txid, vout⟩ := by
  simp [TxidHashMidstate.new, TxidHashMidstate.finalizeWithVout, hashOutpoint, sip64, hstream _ _ _]

theorem addOutputsToAgg_eq (hstream : H.Streams) (salt : SipHashKeys) (agg : SwiftSyncAgg W)
    (txid : Txid) (vouts : List UInt32) :
    addOutputsToAgg H salt agg txid vouts =
      agg + (vouts.map fun v => hashOutpoint H salt ⟨txid, v⟩).sum := by
  have hfold : ∀ (vs : List UInt32) (agg : SwiftSyncAgg W),
      vs.foldl (fun agg vout => addWithVout H agg (TxidHashMidstate.new H salt txid) vout) agg =
        agg + (vs.map fun v => hashOutpoint H salt ⟨txid, v⟩).sum := by
    intro vs
    induction vs with
    | nil => simp
    | cons v vs ih =>
      intro agg
      rw [List.foldl_cons, ih]
      simp [addWithVout, finalizeWithVout_eq H hstream, add_assoc]
  unfold addOutputsToAgg
  split
  · simp
  · simp [add]
  · exact hfold vouts agg

theorem remove_foldl_eq (salt : SipHashKeys) (inputs : List TxIn) (agg : SwiftSyncAgg W) :
    inputs.foldl (fun agg input => remove H salt agg input.previousOutput) agg =
      agg - (inputs.map fun i => hashOutpoint H salt i.previousOutput).sum := by
  induction inputs generalizing agg with
  | nil => simp
  | cons i inputs ih =>
    rw [List.foldl_cons, ih]
    simp [remove, sub_sub]

/-! ## The loops -/

/-- What the loops have done after the given coins and consumed outpoints. -/
structure DeltaInv (hints : Finset UInt32) (salt : SipHashKeys) (coins : List LeafData)
    (inputs : List OutPoint) (st : SwiftState W) : Prop where
  index : st.outputIndex = UInt32.ofNat (coins.filter isSpendable).length
  amount : st.unspentAmount.sat = min (lockedValue hints coins) (2 ^ 64 - 1)
  agg : st.agg = ((notHinted hints coins).map fun c => hashOutpoint H salt c.prevout).sum -
    (inputs.map (hashOutpoint H salt)).sum

def coinOfOutput (height : Nat) (blockHash : BlockHash) (tx : Transaction) (p : TxOut × Nat) :
    LeafData :=
  ⟨blockHash, ⟨B.computeTxid tx, UInt32.ofNat p.2⟩, headerCode height tx.isCoinbase, p.1⟩

/-- What the output loop has done after some outputs of the transaction. -/
structure OutputInv (hints : Finset UInt32) (txid : Txid) (before coins : List LeafData)
    (out : OutputState) : Prop where
  index : out.outputIndex = UInt32.ofNat (coins.filter isSpendable).length
  amount : out.unspentAmount.sat = min (lockedValue hints coins) (2 ^ 64 - 1)
  spent : (notHinted hints coins).map LeafData.prevout =
    (notHinted hints before).map LeafData.prevout ++
      out.spentVouts.map fun v => (⟨txid, v⟩ : OutPoint)

theorem swiftOutput_unspendable {p : TxOut × Nat} (hu : isUnspendable p.1.scriptPubkey = true) :
    swiftOutput hints out p =
      { out with unspentAmount := saturatingAmount out.unspentAmount p.1.value } := by
  simp [swiftOutput, hu]

theorem swiftOutput_hinted {p : TxOut × Nat}
    (hu : isUnspendable p.1.scriptPubkey = false) (hh : out.outputIndex ∈ hints) :
    swiftOutput hints out p =
      ⟨out.outputIndex + 1, saturatingAmount out.unspentAmount p.1.value, out.spentVouts⟩ := by
  simp [swiftOutput, hu, hh]

theorem swiftOutput_spent {p : TxOut × Nat}
    (hu : isUnspendable p.1.scriptPubkey = false) (hh : out.outputIndex ∉ hints) :
    swiftOutput hints out p =
      ⟨out.outputIndex + 1, out.unspentAmount, out.spentVouts ++ [UInt32.ofNat p.2]⟩ := by
  simp [swiftOutput, hu, hh]

theorem OutputInv.step {before coins : List LeafData}
    (hinv : OutputInv hints (B.computeTxid tx) before coins out) (height : Nat)
    (blockHash : BlockHash) (p : TxOut × Nat) :
    OutputInv hints (B.computeTxid tx) before (coins ++ [coinOfOutput B height blockHash tx p])
      (swiftOutput hints out p) := by
  have hamount := hinv.amount
  have hvalue : (coinOfOutput B height blockHash tx p).utxo.value = p.1.value := rfl
  have hspendable : isSpendable (coinOfOutput B height blockHash tx p) =
      !isUnspendable p.1.scriptPubkey := rfl
  cases hu : isUnspendable p.1.scriptPubkey with
  | true =>
    -- an unspendable output only adds to the amount
    have hs : isSpendable (coinOfOutput B height blockHash tx p) = false := by
      simp [hspendable, hu]
    rw [swiftOutput_unspendable hu]
    refine ⟨?_, ?_, ?_⟩
    · simpa [hs] using hinv.index
    · simp only [saturatingAmount_sat, hamount, lockedValue_snoc, hs, hvalue]
      simp only [Bool.false_eq_true, false_and, if_false]
      omega
    · simpa [notHinted_snoc, hs] using hinv.spent
  | false =>
    have hs : isSpendable (coinOfOutput B height blockHash tx p) = true := by
      simp [hspendable, hu]
    have hnext : out.outputIndex + 1 = UInt32.ofNat ((coins ++
        [coinOfOutput B height blockHash tx p]).filter isSpendable).length := by
      simp [hs, hinv.index, UInt32.ofNat_add]
    by_cases hh : out.outputIndex ∈ hints
    · have hh' : UInt32.ofNat (coins.filter isSpendable).length ∈ hints := hinv.index ▸ hh
      rw [swiftOutput_hinted hu hh]
      refine ⟨hnext, ?_, ?_⟩
      · simp only [saturatingAmount_sat, hamount, lockedValue_snoc, hs, hh', hvalue]
        simp only [not_true_eq_false, and_false, if_false]
        omega
      · simpa [notHinted_snoc, hs, hh'] using hinv.spent
    · have hh' : UInt32.ofNat (coins.filter isSpendable).length ∉ hints := hinv.index ▸ hh
      rw [swiftOutput_spent hu hh]
      refine ⟨hnext, ?_, ?_⟩
      · simpa [lockedValue_snoc, hs, hh'] using hamount
      · have hprev : (coinOfOutput B height blockHash tx p).prevout =
            ⟨B.computeTxid tx, UInt32.ofNat p.2⟩ := rfl
        simp [notHinted_snoc, hs, hh', hinv.spent, hprev]

theorem DeltaInv.outputs (hstream : H.Streams)
    {coins : List LeafData} {inputs : List OutPoint} {st : SwiftState W}
    (hinv : DeltaInv H hints salt coins inputs st) (height : Nat) (blockHash : BlockHash)
    (tx : Transaction) :
    DeltaInv H hints salt (coins ++ txCoins B height blockHash tx) inputs
      (swiftOutputs H hints salt (B.computeTxid tx) tx.output st) := by
  have hout : OutputInv hints (B.computeTxid tx) coins
      (coins ++ tx.output.zipIdx.map (coinOfOutput B height blockHash tx))
      (tx.output.zipIdx.foldl (swiftOutput hints) ⟨st.outputIndex, st.unspentAmount, []⟩) := by
    refine foldl_zipIdx_inv (I := fun done out => OutputInv hints (B.computeTxid tx) coins
      (coins ++ done.zipIdx.map (coinOfOutput B height blockHash tx)) out) tx.output ?_ ?_
    · intro done x out hdone
      have hnext := hdone.step B height blockHash (x, done.length)
      simpa [List.zipIdx_append] using hnext
    · exact ⟨by simpa using hinv.index, by simpa using hinv.amount, by simp⟩
  refine ⟨hout.index, hout.amount, ?_⟩
  have hsum := congrArg (fun os => (os.map (hashOutpoint H salt)).sum) hout.spent
  simp only [List.map_append, List.sum_append, List.map_map] at hsum
  simp only [swiftOutputs, addOutputsToAgg_eq H hstream, hinv.agg]
  rw [show (fun c : LeafData => hashOutpoint H salt c.prevout) =
    hashOutpoint H salt ∘ LeafData.prevout from rfl]
  rw [show txCoins B height blockHash tx =
    tx.output.zipIdx.map (coinOfOutput B height blockHash tx) from rfl, hsum]
  simp only [Function.comp_def, sub_add_eq_add_sub]

/-- The inputs whose outpoints a block removes, and the coins it adds, transaction by transaction. -/
theorem swiftTx_first {txid : Txid}
    (h : swiftTx H B height block hints salt st ((tx, txid), 0) = .ok st') :
    st' = if isBip30Unspendable B block height then st
      else swiftOutputs H hints salt txid tx.output st := by
  simp only [swiftTx, if_true, bind_eq_ok, require_eq_ok, pure_eq_ok] at h
  rcases h with ⟨-, -, -, -, -, -, -, -, rfl⟩
  rfl

theorem swiftTx_later {txid : Txid} {n : Nat} (hn : n ≠ 0)
    (h : swiftTx H B height block hints salt st ((tx, txid), n) = .ok st') :
    st' = swiftOutputs H hints salt txid tx.output { st with agg := st.agg -
      (tx.input.map fun i => hashOutpoint H salt i.previousOutput).sum } := by
  simp only [swiftTx, if_neg hn, bind_eq_ok, pure_eq_ok] at h
  rcases h with ⟨-, -, rfl⟩
  rw [remove_foldl_eq]

theorem DeltaInv.later (hstream : H.Streams) {coins : List LeafData} {inputs : List OutPoint}
    {n : Nat} (hn : n ≠ 0) (blockHash : BlockHash)
    (hinv : DeltaInv H hints salt coins inputs st)
    (h : swiftTx H B height block hints salt st ((tx, B.computeTxid tx), n) = .ok st') :
    DeltaInv H hints salt (coins ++ txCoins B height blockHash tx) (inputs ++ inputOutpoints tx)
      st' := by
  have hmid : DeltaInv H hints salt coins (inputs ++ inputOutpoints tx) { st with agg := st.agg -
      (tx.input.map fun i => hashOutpoint H salt i.previousOutput).sum } := by
    refine ⟨hinv.index, hinv.amount, ?_⟩
    simp [hinv.agg, inputOutpoints, sub_sub, Function.comp_def]
  rw [swiftTx_later H B hn h]
  exact hmid.outputs H B hstream height blockHash tx

theorem verifySwiftsync_delta (hstream : H.Streams) {agg : SwiftSyncAgg W} {amount : Amount}
    (h : verifyBlockTransactionsSwiftsync H B height block (block.txdata.map B.computeTxid) hints
      salt = .ok (agg, amount)) :
    amount.sat = min (lockedValue hints (countedCoins B block height)) (2 ^ 64 - 1) ∧
      agg = ((notHinted hints (countedCoins B block height)).map
          fun c => hashOutpoint H salt c.prevout).sum -
        ((consumedOutpoints block.txdata).map (hashOutpoint H salt)).sum := by
  simp only [verifyBlockTransactionsSwiftsync, bind_eq_ok, require_eq_ok, pure_eq_ok,
    Prod.mk.injEq] at h
  rcases h with ⟨-, hne, st, hloop, rfl, rfl⟩
  cases htxs : block.txdata with
  | nil => exact absurd htxs hne
  | cons coinbase rest =>
    have hzip : block.txdata.zip (block.txdata.map B.computeTxid) =
        (coinbase, B.computeTxid coinbase) :: rest.map fun t => (t, B.computeTxid t) := by
      rw [htxs, List.map_cons, List.zip_cons_cons, List.map_prod_left_eq_zip]
    rw [hzip, List.zipIdx_cons, List.foldlM_cons, bind_eq_ok] at hloop
    rcases hloop with ⟨st0, hfirst, hrest⟩
    have hstart : DeltaInv H hints salt [] [] (⟨0, Amount.ZERO, 0⟩ : SwiftState W) :=
      ⟨rfl, rfl, by simp [notHinted, numbered]⟩
    -- the coinbase: its outputs count unless BIP30 made them unspendable
    have hcoinbase : DeltaInv H hints salt
        (if isBip30Unspendable B block height then []
          else txCoins B height (B.blockHash block.header) coinbase) [] st0 := by
      rw [swiftTx_first H B hfirst]
      cases isBip30Unspendable B block height with
      | true => simpa using hstart
      | false => simpa using hstart.outputs H B hstream height (B.blockHash block.header) coinbase
    rw [List.zipIdx_map, List.foldlM_map] at hrest
    have hall := foldlM_zipIdx_inv (I := fun done st => DeltaInv H hints salt
      ((if isBip30Unspendable B block height then []
          else txCoins B height (B.blockHash block.header) coinbase) ++
        blockCoins B height (B.blockHash block.header) done)
      (done.flatMap inputOutpoints) st) 1 rest ?_ (by simpa [blockCoins] using hcoinbase) hrest
    · have hcoins : countedCoins B block height =
          (if isBip30Unspendable B block height then []
            else txCoins B height (B.blockHash block.header) coinbase) ++
          blockCoins B height (B.blockHash block.header) rest := by
        unfold countedCoins blockCoins
        cases isBip30Unspendable B block height <;> simp [htxs]
      rw [hcoins]
      exact ⟨hall.amount, hall.agg⟩
    · intro done tx more s s' _ hdone hstep
      have hn : 1 + done.length ≠ 0 := by omega
      have hnext := hdone.later H B hstream hn (B.blockHash block.header) hstep
      simpa [blockCoins] using hnext

theorem processBlockSwiftsync_delta (hstream : H.Streams) {params : ChainParams}
    {d : SwiftSyncDelta W}
    (h : processBlockSwiftsync H B params block height hints salt = .ok d) :
    d.unspentAmount.sat = min (lockedValue hints (countedCoins B block height)) (2 ^ 64 - 1) ∧
      d.aggregatorDelta = ((notHinted hints (countedCoins B block height)).map
          fun c => hashOutpoint H salt c.prevout).sum -
        ((consumedOutpoints block.txdata).map (hashOutpoint H salt)).sum := by
  simp only [processBlockSwiftsync, bind_eq_ok, pure_eq_ok] at h
  rcases h with ⟨txids, hcheck, ⟨agg, amount⟩, hverify, rfl⟩
  have htxids : txids = block.txdata.map B.computeTxid := checkBlock_txids B hcheck
  subst htxids
  exact verifySwiftsync_delta H B hstream hverify

end Floresta.SwiftSync
