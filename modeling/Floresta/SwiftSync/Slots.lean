import Floresta.Lib.Slots
import Floresta.SwiftSync.Balance

/-!
# Slots — SwiftSync ends with the accumulator of full validation

Three loops number the outputs of a block: the one that feeds the aggregator, the one that builds
the additions from hints, and the one that builds them without.  All three see the same list of
spendable outputs, each marked with whether it goes to the aggregator.  With exact hints the marked
outputs are those that full validation deletes later, and a leaf that is added as an empty slot and
one that is deleted later leave the same slot.
-/

namespace Floresta.SwiftSync

open Fallible Consensus Udata

variable (B : Bitcoin)

/-! ## The outputs of a block -/

/-- No input of the block spends the coin. -/
def unspentInside (block : Block) (c : LeafData) : Bool :=
  decide (c.prevout ∉ getInputOutpoints block.txdata)

/-- The spendable outputs of a block in order, each with whether it goes to the aggregator: those of
a coinbase that BIP30 made unspendable never do, of the others those that are not hinted. -/
def marks (block : Block) (height : Nat) (hints : Finset UInt32) : List (LeafData × Bool) :=
  (if isBip30Unspendable B block height then
    ((blockCoins B height (B.blockHash block.header) (block.txdata.take 1)).filter
      isSpendable).map fun c => (c, false)
  else []) ++
  (numbered (countedCoins B block height)).map fun p => (p.1, decide (UInt32.ofNat p.2 ∉ hints))

/-- An output that goes to the aggregator leaves its slot empty. -/
def slotOf (p : LeafData × Bool) : NodeHash :=
  if p.2 then .empty else leafNode B p.1

variable {B} {block : Block} {height : Nat} {hints : Finset UInt32}

theorem blockCoins_take_drop (blockHash : BlockHash) (txs : List Transaction) :
    blockCoins B height blockHash (txs.take 1) ++ blockCoins B height blockHash (txs.drop 1) =
      blockCoins B height blockHash txs := by
  unfold blockCoins
  rw [← List.flatMap_append, List.take_append_drop]

theorem marks_fst (hints : Finset UInt32) : (marks B block height hints).map Prod.fst =
    (blockCoins B height (B.blockHash block.header) block.txdata).filter isSpendable := by
  have hcounted : ((numbered (countedCoins B block height)).map fun p =>
      (p.1, decide (UInt32.ofNat p.2 ∉ hints))).map Prod.fst =
        (countedCoins B block height).filter isSpendable := by
    rw [List.map_map, ← numbered_fst]
    rfl
  unfold marks
  rw [List.map_append, hcounted]
  unfold countedCoins
  cases isBip30Unspendable B block height with
  | false => rfl
  | true =>
    rw [← blockCoins_take_drop _ block.txdata, List.filter_append]
    simp [Function.comp_def]

theorem marks_added : ((marks B block height hints).filter Prod.snd).map Prod.fst =
    notHinted hints (countedCoins B block height) := by
  have hnever : ((if isBip30Unspendable B block height then
      ((blockCoins B height (B.blockHash block.header) (block.txdata.take 1)).filter
        isSpendable).map fun c => (c, false) else []).filter Prod.snd :
      List (LeafData × Bool)) = [] := by
    cases isBip30Unspendable B block height <;> simp
  unfold marks notHinted
  rw [List.filter_append, hnever, List.nil_append, List.filter_map, List.map_map]
  rfl

/-! ## Additions without hints -/

theorem txAdds_coins (spent : Finset OutPoint) (blockHash : BlockHash) (tx : Transaction) :
    txAdds B spent height blockHash tx =
      (((txCoins B height blockHash tx).filter isSpendable).filter
        fun c => decide (c.prevout ∉ spent)).map (leafNode B) := by
  unfold txAdds txCoins
  rw [List.filter_map, List.filter_map, List.filter_filter, List.map_map, ← List.filterMap_eq_map,
    List.filterMap_filter]
  refine List.filterMap_congr ?_
  intro p _
  by_cases hu : isUnspendable p.1.scriptPubkey = true
  · simp [isSpendable, hu]
  · by_cases hs : (⟨B.computeTxid tx, UInt32.ofNat p.2⟩ : OutPoint) ∈ spent
    · simp [hs]
    · simp [isSpendable, hu, hs, leafNode, getLeafHashes_eq]

theorem getBlockAdds_marks : getBlockAdds B block height (B.blockHash block.header) =
    ((marks B block height hints).filter fun p => unspentInside block p.1).map
      fun p => leafNode B p.1 := by
  have hcoins : getBlockAdds B block height (B.blockHash block.header) =
      (((blockCoins B height (B.blockHash block.header) block.txdata).filter isSpendable).filter
        (unspentInside block)).map (leafNode B) := by
    unfold getBlockAdds blockCoins
    rw [List.filter_flatMap, List.filter_flatMap, List.map_flatMap]
    refine List.flatMap_congr ?_
    intro tx _
    exact txAdds_coins _ _ tx
  rw [hcoins, ← marks_fst hints, List.filter_map, List.map_map]
  rfl

/-! ## Additions from hints -/

section Hints

variable {spent : Finset OutPoint} {isCb isBip30 : Bool} {blockHash : BlockHash} {txid : Txid}
variable {st : HintState} {p : TxOut × Nat}

theorem hintOutput_unspendable (hu : isUnspendable p.1.scriptPubkey = true) :
    hintOutput B spent isCb isBip30 height blockHash hints txid st p = st := by
  simp [hintOutput, hu]

theorem hintOutput_spent (hu : isUnspendable p.1.scriptPubkey = false)
    (hs : (⟨txid, UInt32.ofNat p.2⟩ : OutPoint) ∈ spent) :
    hintOutput B spent isCb isBip30 height blockHash hints txid st p =
      { st with outputIndex := st.outputIndex + 1 } := by
  simp [hintOutput, hu, hs]

theorem hintOutput_bip30 (hu : isUnspendable p.1.scriptPubkey = false)
    (hs : (⟨txid, UInt32.ofNat p.2⟩ : OutPoint) ∉ spent) :
    hintOutput B spent isCb true height blockHash hints txid st p =
      ⟨st.outputIndex, st.adds ++ [.some (getLeafHashes B txid isCb (UInt32.ofNat p.2) p.1 height
        blockHash)]⟩ := by
  simp [hintOutput, hu, hs]

theorem hintOutput_numbered (hu : isUnspendable p.1.scriptPubkey = false)
    (hs : (⟨txid, UInt32.ofNat p.2⟩ : OutPoint) ∉ spent) :
    hintOutput B spent isCb false height blockHash hints txid st p =
      ⟨st.outputIndex + 1, st.adds ++ [if st.outputIndex ∈ hints then
        .some (getLeafHashes B txid isCb (UInt32.ofNat p.2) p.1 height blockHash) else .empty]⟩ := by
  simp [hintOutput, hu, hs]

/-- What the loops have done after the given numbered coins; `before` is what a coinbase that BIP30
made unspendable has added. -/
structure HintInv (B : Bitcoin) (hints : Finset UInt32) (spent : Finset OutPoint)
    (before : List NodeHash) (coins : List LeafData) (st : HintState) : Prop where
  index : st.outputIndex = UInt32.ofNat (coins.filter isSpendable).length
  adds : st.adds = before ++ ((numbered coins).filter fun p => decide (p.1.prevout ∉ spent)).map
    fun p => slotOf B (p.1, decide (UInt32.ofNat p.2 ∉ hints))

variable {before : List NodeHash} {coins : List LeafData}

section

variable (hinv : HintInv B hints spent before coins st) (height : Nat) (blockHash : BlockHash)
    (tx : Transaction)

include hinv

theorem HintInv.step (p : TxOut × Nat) :
    HintInv B hints spent before (coins ++ [coinOfOutput B height blockHash tx p])
      (hintOutput B spent tx.isCoinbase false height blockHash hints (B.computeTxid tx) st p) := by
  have hspendable : isSpendable (coinOfOutput B height blockHash tx p) =
      !isUnspendable p.1.scriptPubkey := rfl
  have hprev : (coinOfOutput B height blockHash tx p).prevout =
      ⟨B.computeTxid tx, UInt32.ofNat p.2⟩ := rfl
  cases hu : isUnspendable p.1.scriptPubkey with
  | true =>
    have hs : isSpendable (coinOfOutput B height blockHash tx p) = false := by
      simp [hspendable, hu]
    rw [hintOutput_unspendable hu]
    exact ⟨by simpa [hs] using hinv.index, by rw [numbered_snoc_unspendable hs, hinv.adds]⟩
  | false =>
    have hs : isSpendable (coinOfOutput B height blockHash tx p) = true := by
      simp [hspendable, hu]
    have hnext : st.outputIndex + 1 = UInt32.ofNat ((coins ++
        [coinOfOutput B height blockHash tx p]).filter isSpendable).length := by
      simp [hs, hinv.index, UInt32.ofNat_add]
    by_cases hin : (⟨B.computeTxid tx, UInt32.ofNat p.2⟩ : OutPoint) ∈ spent
    · -- a coin spent in the block has a number but no slot
      rw [hintOutput_spent hu hin]
      refine ⟨hnext, ?_⟩
      rw [hinv.adds, numbered_snoc_spendable hs]
      simp [hprev, hin]
    · rw [hintOutput_numbered hu hin]
      refine ⟨hnext, ?_⟩
      rw [numbered_snoc_spendable hs]
      simp only [List.filter_append, List.map_append, ← List.append_assoc, ← hinv.adds]
      by_cases hh : st.outputIndex ∈ hints
      · have hh' : UInt32.ofNat (coins.filter isSpendable).length ∈ hints := hinv.index ▸ hh
        simp [hin, hh, hh', slotOf, leafNode, getLeafHashes_eq, coinOfOutput]
      · have hh' : UInt32.ofNat (coins.filter isSpendable).length ∉ hints := hinv.index ▸ hh
        simp [hprev, hin, hh, hh', slotOf]

theorem HintInv.outputs :
    HintInv B hints spent before (coins ++ txCoins B height blockHash tx)
      (tx.output.zipIdx.foldl (hintOutput B spent tx.isCoinbase false height blockHash hints
        (B.computeTxid tx)) st) := by
  refine foldl_zipIdx_inv (I := fun done st => HintInv B hints spent before
    (coins ++ done.zipIdx.map (coinOfOutput B height blockHash tx)) st) tx.output ?_ ?_
  · intro done x out hdone
    have hnext := hdone.step height blockHash tx (x, done.length)
    simpa [List.zipIdx_append] using hnext
  · simpa using hinv

end

/-- The outputs of a coinbase that BIP30 made unspendable all get their leaf, and no number. -/
theorem bip30_outputs (hints : Finset UInt32) {height : Nat} {blockHash : BlockHash}
    {tx : Transaction} (hfresh : ∀ c ∈ txCoins B height blockHash tx, c.prevout ∉ spent) :
    HintInv B hints spent (((txCoins B height blockHash tx).filter isSpendable).map (leafNode B)) []
      (tx.output.zipIdx.foldl (hintOutput B spent tx.isCoinbase true height blockHash hints
        (B.computeTxid tx)) ⟨0, []⟩) := by
  have hall : ∀ (outs : List (TxOut × Nat)) (st : HintState),
      (∀ p ∈ outs, (coinOfOutput B height blockHash tx p).prevout ∉ spent) →
      outs.foldl (hintOutput B spent tx.isCoinbase true height blockHash hints (B.computeTxid tx))
        st = ⟨st.outputIndex, st.adds ++ ((outs.map (coinOfOutput B height blockHash tx)).filter
          isSpendable).map (leafNode B)⟩ := by
    intro outs
    induction outs with
    | nil => simp
    | cons p outs ih =>
      intro st hout
      rw [List.foldl_cons, ih _ fun q hq => hout q (List.mem_cons_of_mem _ hq)]
      have hp : (⟨B.computeTxid tx, UInt32.ofNat p.2⟩ : OutPoint) ∉ spent := hout p (by simp)
      cases hu : isUnspendable p.1.scriptPubkey with
      | true =>
        rw [hintOutput_unspendable hu]
        simp [isSpendable, coinOfOutput, hu]
      | false =>
        rw [hintOutput_bip30 hu hp]
        simp [isSpendable, coinOfOutput, hu, leafNode, getLeafHashes_eq]
  rw [hall _ _ fun p hp => hfresh _ (List.mem_map_of_mem hp)]
  refine ⟨rfl, ?_⟩
  simp only [numbered, List.filter_nil, List.zipIdx_nil, List.map_nil, List.nil_append,
    List.append_nil]
  rfl

def OnlyFirstCoinbase (block : Block) : Prop :=
  ∃ coinbase rest, block.txdata = coinbase :: rest ∧ coinbase.isCoinbase = true ∧
    ∀ t ∈ rest, t.isCoinbase = false

/-- No input of the block spends an output of its first transaction. -/
def OwnCoinbaseUnspent (B : Bitcoin) (block : Block) (height : Nat) : Prop :=
  ∀ c ∈ blockCoins B height (B.blockHash block.header) (block.txdata.take 1),
    unspentInside block c = true

/-- The transaction loop over transactions that BIP30 does not concern. -/
theorem HintInv.transactions (isBip30 : Transaction → Bool) {txs : List Transaction}
    (hnone : ∀ t ∈ txs, isBip30 t = false)
    (hinv : HintInv B hints spent before coins st) (height : Nat) (blockHash : BlockHash) :
    HintInv B hints spent before (coins ++ blockCoins B height blockHash txs)
      ((txs.map fun t => (t, B.computeTxid t)).foldl (fun (st : HintState) q =>
        q.1.output.zipIdx.foldl (hintOutput B spent q.1.isCoinbase (isBip30 q.1) height blockHash
          hints q.2) st) st) := by
  induction txs generalizing coins st with
  | nil => simpa [blockCoins] using hinv
  | cons t txs ih =>
    have hnext := ih (fun t' ht' => hnone t' (List.mem_cons_of_mem _ ht'))
      (hinv.outputs height blockHash t)
    simpa [blockCoins, hnone t (by simp)] using hnext

theorem getBlockAddsFromHints_marks
    (hbip : isBip30Unspendable B block height = true →
      OnlyFirstCoinbase block ∧ OwnCoinbaseUnspent B block height) :
    getBlockAddsFromHints B block (block.txdata.map B.computeTxid) height
        (B.blockHash block.header) hints =
      ((marks B block height hints).filter fun p => unspentInside block p.1).map (slotOf B) := by
  have hstart : HintInv B hints (getInputOutpoints block.txdata) [] [] ⟨0, []⟩ := ⟨rfl, rfl⟩
  unfold getBlockAddsFromHints marks
  simp only [← List.map_prod_left_eq_zip]
  cases hb : isBip30Unspendable B block height with
  | false =>
    have hall := hstart.transactions (fun t => t.isCoinbase && false)
      (fun t (_ : t ∈ block.txdata) => Bool.and_false _) height (B.blockHash block.header)
    rw [hall.adds]
    simp only [List.nil_append, Bool.false_eq_true, if_false, countedCoins, hb, List.filter_map,
      List.map_map]
    rfl
  | true =>
    rcases hbip hb with ⟨⟨coinbase, rest, htxs, hcb, hrest⟩, hfresh⟩
    have hcoins : blockCoins B height (B.blockHash block.header) (block.txdata.take 1) =
        txCoins B height (B.blockHash block.header) coinbase := by
      simp [htxs, blockCoins]
    have hkept : ∀ c ∈ txCoins B height (B.blockHash block.header) coinbase,
        unspentInside block c = true := fun c hc => hfresh c (hcoins ▸ hc)
    have hfirst := bip30_outputs hints fun c hc => of_decide_eq_true (hkept c hc)
    have hall := hfirst.transactions (fun t => t.isCoinbase && true)
      (fun t (ht : t ∈ rest) => by simp [hrest t ht]) height (B.blockHash block.header)
    have hlist : block.txdata.map (fun t => (t, B.computeTxid t)) =
        (coinbase, B.computeTxid coinbase) :: rest.map fun t => (t, B.computeTxid t) := by
      rw [htxs, List.map_cons]
    have hcounted : countedCoins B block height =
        [] ++ blockCoins B height (B.blockHash block.header) rest := by
      simp [countedCoins, hb, htxs]
    have hone : (coinbase.isCoinbase && true) = true := by rw [hcb, Bool.and_true]
    simp only [hlist, List.foldl_cons, hone]
    rw [hall.adds, ← hcounted, hcoins, if_pos trivial, List.filter_append, List.map_append]
    congr 1
    · have hself := List.filter_eq_self.mpr fun c (hc : c ∈ (txCoins B height
        (B.blockHash block.header) coinbase).filter isSpendable) =>
          hkept c (List.mem_filter.mp hc).1
      rw [List.filter_map, List.map_map]
      exact (congrArg (List.map (leafNode B)) hself).symm
    · rw [List.filter_map, List.map_map]
      rfl

/-- A slot from hints is that of the leaf or empty. -/
def OrEmpty (slot leaf : NodeHash) : Prop := slot = leaf ∨ slot = .empty

theorem hintOutput_orEmpty {tx : Transaction} {leaves : List NodeHash}
    (h : List.Forall₂ OrEmpty st.adds leaves) :
    List.Forall₂ OrEmpty
      (hintOutput B spent tx.isCoinbase isBip30 height blockHash hints (B.computeTxid tx) st p).adds
      (leaves ++ ([p].filterMap fun p : TxOut × Nat =>
        if isUnspendable p.1.scriptPubkey ∨
            (⟨B.computeTxid tx, UInt32.ofNat p.2⟩ : OutPoint) ∈ spent then none
        else some (NodeHash.some (getLeafHashes B (B.computeTxid tx) tx.isCoinbase
          (UInt32.ofNat p.2) p.1 height blockHash)))) := by
  cases hu : isUnspendable p.1.scriptPubkey with
  | true =>
    rw [hintOutput_unspendable hu]
    simpa [hu] using h
  | false =>
    by_cases hs : (⟨B.computeTxid tx, UInt32.ofNat p.2⟩ : OutPoint) ∈ spent
    · rw [hintOutput_spent hu hs]
      simpa [hs] using h
    · simp only [hintOutput, hu, hs, List.filterMap_cons, List.filterMap_nil, if_false,
        Bool.false_eq_true, or_self]
      refine List.rel_append h (.cons ?_ .nil)
      by_cases hh : isBip30 = true ∨ st.outputIndex ∈ hints
      · exact .inl (if_pos hh)
      · exact .inr (if_neg hh)

theorem txOutputs_orEmpty {tx : Transaction} {leaves : List NodeHash}
    (h : List.Forall₂ OrEmpty st.adds leaves) :
    List.Forall₂ OrEmpty (tx.output.zipIdx.foldl (hintOutput B spent tx.isCoinbase isBip30 height
      blockHash hints (B.computeTxid tx)) st).adds
      (leaves ++ txAdds B spent height blockHash tx) := by
  unfold txAdds
  generalize tx.output.zipIdx = outs
  induction outs generalizing st leaves with
  | nil => simpa using h
  | cons p outs ih =>
    rw [List.foldl_cons, ← List.singleton_append, List.filterMap_append, ← List.append_assoc]
    exact ih (hintOutput_orEmpty h)

/-- Whatever the hints, the additions from hints are those without, some of them emptied. -/
theorem getBlockAddsFromHints_orEmpty (block : Block) (height : Nat) (hints : Finset UInt32) :
    List.Forall₂ OrEmpty
      (getBlockAddsFromHints B block (block.txdata.map B.computeTxid) height
        (B.blockHash block.header) hints)
      (getBlockAdds B block height (B.blockHash block.header)) := by
  have hloop : ∀ (spent : Finset OutPoint) (isBip30 : Transaction → Bool) (txs : List Transaction)
      (st : HintState) (leaves : List NodeHash), List.Forall₂ OrEmpty st.adds leaves →
      List.Forall₂ OrEmpty ((txs.map fun t => (t, B.computeTxid t)).foldl
        (fun (st : HintState) q => q.1.output.zipIdx.foldl (hintOutput B spent q.1.isCoinbase
          (isBip30 q.1) height (B.blockHash block.header) hints q.2) st) st).adds
        (leaves ++ txs.flatMap (txAdds B spent height (B.blockHash block.header))) := by
    intro spent isBip30 txs
    induction txs with
    | nil =>
      intro st leaves h
      simpa using h
    | cons tx txs ih =>
      intro st leaves h
      rw [List.flatMap_cons, ← List.append_assoc]
      exact ih _ _ (txOutputs_orEmpty h)
  unfold getBlockAddsFromHints getBlockAdds
  rw [← List.map_prod_left_eq_zip]
  exact hloop _ (fun t => t.isCoinbase && isBip30Unspendable B block height) block.txdata ⟨0, []⟩ []
    .nil

end Hints

section Verified

variable {W : Type} [AddCommGroup W] {H : SipHash W}

theorem swiftTx_coinbase {unspent : Finset UInt32} {salt : SipHashKeys} {st st' : SwiftState W}
    {tx : Transaction} {txid : Txid} {n : Nat}
    (h : swiftTx H B height block unspent salt st ((tx, txid), n) = .ok st') :
    tx.isCoinbase = decide (n = 0) := by
  by_cases hn : n = 0
  · simp only [swiftTx, if_pos hn, bind_eq_ok, require_eq_ok] at h
    rcases h with ⟨-, hcb, -⟩
    simp [hcb, hn]
  · simp only [swiftTx, if_neg hn, bind_eq_ok] at h
    rcases h with ⟨v, hfree, -⟩
    have hnull := (checkTransactionContextFree_ok B hfree).2.1
    simp [not_isCoinbase_of_nonNull hnull, hn]

theorem onlyFirstCoinbase_of_verified {salt : SipHashKeys} {agg : SwiftSyncAgg W} {amount : Amount}
    (h : verifyBlockTransactionsSwiftsync H B height block (block.txdata.map B.computeTxid) hints
      salt = .ok (agg, amount)) : OnlyFirstCoinbase block := by
  simp only [verifyBlockTransactionsSwiftsync, bind_eq_ok, require_eq_ok] at h
  rcases h with ⟨-, hne, st, hloop, -⟩
  rw [← List.map_prod_left_eq_zip, List.zipIdx_map, List.foldlM_map] at hloop
  have hall := foldlM_zipIdx_inv (I := fun done _ => ∀ p ∈ done.zipIdx,
    p.1.isCoinbase = decide (p.2 = 0)) 0 block.txdata ?_ (by simp) hloop
  · cases htxs : block.txdata with
    | nil => exact absurd htxs hne
    | cons coinbase rest =>
      rw [htxs] at hall
      refine ⟨coinbase, rest, htxs, ?_, ?_⟩
      · simpa using hall (coinbase, 0) (by simp)
      · intro t ht
        rcases List.mem_iff_getElem?.mp ht with ⟨i, hi⟩
        have hmem : (t, i + 1) ∈ (coinbase :: rest).zipIdx := by
          rw [List.mem_zipIdx_iff_getElem?]
          simpa using hi
        simpa using hall (t, i + 1) hmem
  · intro done tx more s s' _ hdone hstep
    have htx := swiftTx_coinbase hstep
    rw [List.zipIdx_append]
    intro p hp
    rcases List.mem_append.mp hp with hp | hp
    · exact hdone p hp
    · have hlast : p = (tx, done.length) := by simpa using hp
      rw [hlast]
      simpa using htx

end Verified

/-! ## Accepted blocks -/

section Accepted

variable {K : Kernel} {ε : Type}

theorem onlyFirstCoinbase_of_accepted (a : AcceptedBlock B K ε) : OnlyFirstCoinbase a.block := by
  rcases a.blockInv with ⟨coinbase, rest, st, spent, htxs, hcb, hinv, -⟩
  exact ⟨coinbase, rest, htxs, hcb, fun t ht => not_isCoinbase_of_nonNull (hinv.nonNull t ht).2⟩

theorem unspentInside_iff (a : AcceptedBlock B K ε) {c : LeafData} (hc : c ∈ a.coins) :
    unspentInside a.block c = !decide (c.prevout ∈ consumedOutpoints a.block.txdata) := by
  rcases List.mem_flatMap.mp hc with ⟨t, ht, hct⟩
  rcases List.mem_map.mp hct with ⟨p, hp, rfl⟩
  have hmem := a.mem_getInputOutpoints ht (List.snd_lt_of_mem_zipIdx hp)
  simp only [unspentInside, hmem, decide_not]

theorem createdCoins_unspentInside (a : AcceptedBlock B K ε) :
    (a.coins.filter isSpendable).filter (unspentInside a.block) = a.createdCoins := by
  rw [List.filter_filter]
  refine List.filter_congr ?_
  intro c hc
  rw [unspentInside_iff a hc, Bool.and_comm]
  rfl

theorem ownCoinbaseUnspent_of_accepted (a : AcceptedBlock B K ε) (hheight : a.height + 100 < 2 ^ 32) :
    OwnCoinbaseUnspent B a.block a.height := by
  intro c hc
  have hcoin : c ∈ a.coins := by
    rcases List.mem_flatMap.mp hc with ⟨t, ht, hct⟩
    exact List.mem_flatMap.mpr ⟨t, List.mem_of_mem_take ht, hct⟩
  rw [unspentInside_iff a hcoin]
  simpa using a.coinbase_not_consumed hheight hc

/-- The slots of the coins of `coins`, of which those in `left` are left. -/
def leftSlots (B : Bitcoin) (left : Multiset LeafData) (coins : List LeafData) : List NodeHash :=
  Slots.view .empty (leafNode B) (· ∈ left) coins

/-- The hints of the blocks by height name the numbered outputs that are unspent at the end. -/
def ExactHints (hints : Nat → Finset UInt32) (chain : List (AcceptedBlock B K ε)) : Prop :=
  ∀ a ∈ chain, ∀ p ∈ numbered (countedCoins B a.block a.height),
    UInt32.ofNat p.2 ∈ hints a.height ↔ p.1 ∈ utxoSet chain

def addsFromHints (hints : Nat → Finset UInt32) (a : AcceptedBlock B K ε) : List NodeHash :=
  getBlockAddsFromHints B a.block (a.block.txdata.map B.computeTxid) a.height a.blockHash
    (hints a.height)

variable {params : ChainParams} {chain : List (AcceptedBlock B K ε)}

theorem addsFromHints_eq (hval : FullyValidated params chain) (hlen : chain.length < 2 ^ 31)
    (hcoll : CollisionFree B (chainCoins chain)) (hknown : Bip30LeavesKnown chain)
    {hints : Nat → Finset UInt32} (hexact : ExactHints hints chain) {a : AcceptedBlock B K ε}
    (ha : a ∈ chain) : addsFromHints hints a = leftSlots B (utxoSet chain) a.createdCoins := by
  have hheight := hval.height_le ha
  have hmarks := @getBlockAddsFromHints_marks B a.block a.height (hints a.height) fun _ =>
    ⟨onlyFirstCoinbase_of_accepted a, ownCoinbaseUnspent_of_accepted a (by omega)⟩
  -- a mark says whether the coin is gone at the end
  have hleft : ∀ p ∈ marks B a.block a.height (hints a.height),
      slotOf B p = if p.1 ∈ utxoSet chain then leafNode B p.1 else .empty := by
    intro p hp
    rcases List.mem_append.mp hp with hp | hp
    · by_cases hbip : isBip30Unspendable B a.block a.height = true
      · rw [if_pos hbip] at hp
        rcases List.mem_map.mp hp with ⟨c, hc, rfl⟩
        rcases List.mem_filter.mp hc with ⟨hmem, hspendable⟩
        rw [if_pos (bip30_mem_utxoSet hval hlen hcoll hknown ha hbip hmem hspendable)]
        rfl
      · rw [if_neg hbip] at hp
        cases hp
    · rcases List.mem_map.mp hp with ⟨q, hq, rfl⟩
      simp only [slotOf, hexact a ha q hq, decide_eq_true_eq, ite_not]
  calc
    addsFromHints hints a
        = ((marks B a.block a.height (hints a.height)).filter
            fun p => unspentInside a.block p.1).map (slotOf B) := hmarks
    _ = ((marks B a.block a.height (hints a.height)).filter fun p => unspentInside a.block p.1).map
          fun p => if p.1 ∈ utxoSet chain then leafNode B p.1 else .empty :=
      List.map_congr_left fun p hp => hleft p (List.mem_filter.mp hp).1
    _ = leftSlots B (utxoSet chain) ((((marks B a.block a.height (hints a.height)).map
          Prod.fst).filter (unspentInside a.block))) := by
      rw [leftSlots, Slots.view, List.filter_map, List.map_map]
      rfl
    _ = leftSlots B (utxoSet chain) a.createdCoins := by
      rw [marks_fst, ← createdCoins_unspentInside]
      rfl

end Accepted

/-! ## Accumulators -/

/-- A Stump is the list of the leaf slots ever added.  A deletion empties the slots that its targets
name, and additions alone always succeed. -/
structure SlotModel (R : Rustreexo) (emptyProof : R.Proof) where
  slots : R.Stump → List NodeHash
  new : slots R.new = []
  modify : ∀ {acc acc' : R.Stump} {adds dels : List NodeHash} {proof : R.Proof},
    R.modify acc adds dels proof = .ok acc' →
    ∃ targets : List Nat, targets.map (fun i => (slots acc)[i]?) = dels.map some ∧
      slots acc' = Slots.clear .empty targets (slots acc) ++ adds
  add : ∀ acc adds, ∃ acc', R.modify acc adds [] emptyProof = .ok acc'

section Accumulators

variable {K : Kernel} {ε : Type} {R : Rustreexo} {params : ChainParams}

/-- The accumulator of a fully validating node. -/
def foldUpdateAcc (R : Rustreexo) (run : List (AcceptedBlock B K ε × R.Proof)) :
    Except BlockchainError R.Stump :=
  run.foldlM (fun acc p => updateAcc B R acc p.1.block p.1.height p.2 p.1.delHashes) R.new

/-- The accumulator of SwiftSync. -/
def foldHintAdds (R : Rustreexo) (emptyProof : R.Proof) (hints : Nat → Finset UInt32)
    (chain : List (AcceptedBlock B K ε)) : Except String R.Stump :=
  chain.foldlM (fun acc a => R.modify acc (addsFromHints hints a) [] emptyProof) R.new

/-- The blocks 1 to N with their proofs, accepted by full validation. -/
structure ValidatedRun (R : Rustreexo) (params : ChainParams)
    (run : List (AcceptedBlock B K ε × R.Proof)) (acc : R.Stump) : Prop where
  heights : (run.map Prod.fst).map AcceptedBlock.height = List.range' 1 run.length
  subsidy : ∀ p ∈ run, p.1.subsidy = getSubsidy params p.1.height
  updated : foldUpdateAcc R run = .ok acc

theorem updateAcc_ok {acc acc' : R.Stump} {proof : R.Proof} {delHashes : List Hash256}
    (h : updateAcc B R acc block height proof delHashes = .ok acc') :
    containsUnspendableUtxo delHashes = false ∧
      R.modify acc (getBlockAdds B block height (B.blockHash block.header))
        (delHashes.map NodeHash.some) proof = .ok acc' := by
  simp only [updateAcc, bind_eq_ok, require_eq_ok] at h
  rcases h with ⟨-, hnone, hmodify⟩
  exact ⟨hnone, mapError_eq_ok.mp hmodify⟩

theorem consumedCoins_nodup (a : AcceptedBlock B K ε) : a.consumedCoins.Nodup := by
  have hprev : (a.consumedCoins.map LeafData.prevout).Nodup := by
    rw [a.delHashes_eq.2]
    exact a.external_nodup
  exact hprev.of_map

variable {emptyProof : R.Proof} (M : SlotModel R emptyProof)
include M

/-- One block: its deletions are coins that are left, and the slots go on showing what is left. -/
theorem updateAcc_slots {chain : List (AcceptedBlock B K ε)} {a : AcceptedBlock B K ε}
    {acc acc' : R.Stump} {proof : R.Proof}
    (hheights : ((chain ++ [a]).map AcceptedBlock.height).Nodup)
    (hbound : ∀ b ∈ chain ++ [a], b.height < 2 ^ 31)
    (hcoll : CollisionFree B (chainCoins (chain ++ [a])))
    (hslots : M.slots acc =
      leftSlots B (utxoSet chain) (chain.flatMap AcceptedBlock.createdCoins))
    (h : updateAcc B R acc a.block a.height proof a.delHashes = .ok acc') :
    (↑a.consumedCoins : Multiset LeafData) ≤ utxoSet chain ∧
      M.slots acc' = leftSlots B (utxoSet (chain ++ [a]))
        ((chain ++ [a]).flatMap AcceptedBlock.createdCoins) := by
  rcases M.modify (updateAcc_ok h).2 with ⟨targets, htargets, hnew⟩
  have hnodup : ((chain ++ [a]).flatMap AcceptedBlock.createdCoins).Nodup :=
    coins_chain_nodup hheights hbound fun a => survives a.block.txdata
  rw [List.flatMap_append, List.flatMap_singleton, List.nodup_append] at hnodup
  rcases hnodup with ⟨hold, -, hdisj⟩
  have hutxos : (utxoSet chain).Nodup := by
    refine utxoSet_nodup ?_ fun b hb => hbound b (by simp [hb])
    rw [List.map_append] at hheights
    exact hheights.of_append_left
  have hblank : ∀ c, NodeHash.empty ≠ leafNode B c := by
    intro c hc
    cases hc
  have hinj : ∀ c ∈ chain.flatMap AcceptedBlock.createdCoins, ∀ d ∈ a.consumedCoins,
      leafNode B c = leafNode B d → c = d := by
    intro c hc d hd heq
    rcases List.mem_flatMap.mp hc with ⟨b, hb, hcb⟩
    exact hcoll c (List.mem_flatMap.mpr ⟨b, by simp [hb], List.mem_append_right _ hcb⟩)
      d (List.mem_flatMap.mpr ⟨a, by simp, List.mem_append_left _ hd⟩) (NodeHash.some.inj heq)
  have hdead : targets.map (fun i => (leftSlots B (utxoSet chain)
      (chain.flatMap AcceptedBlock.createdCoins))[i]?) =
        a.consumedCoins.map fun d => some (leafNode B d) := by
    rw [← hslots, htargets, a.delHashes_eq.1, List.map_map, List.map_map]
    rfl
  constructor
  · rw [Multiset.le_iff_subset (Multiset.coe_nodup.mpr (consumedCoins_nodup a))]
    intro d hd
    rcases Slots.dead_live hblank hinj hdead hd with ⟨-, -, -, hlive⟩
    exact hlive
  · have hkept : Slots.clear .empty targets (M.slots acc) =
        leftSlots B (utxoSet (chain ++ [a])) (chain.flatMap AcceptedBlock.createdCoins) := by
      rw [hslots, leftSlots, Slots.clear_view hold hblank hinj hdead]
      refine Slots.view_congr ?_
      intro c hc
      rw [utxoSet_concat, Multiset.mem_add, Multiset.mem_sub_of_nodup hutxos, Multiset.mem_coe,
        Multiset.mem_coe]
      -- the block creates none of the older coins again
      exact (or_iff_left fun hc' => hdisj c hc c hc' rfl).symm
    have hcreated : getBlockAdds B a.block a.height (B.blockHash a.block.header) =
        leftSlots B (utxoSet (chain ++ [a])) a.createdCoins := by
      refine a.adds_eq.trans (List.map_congr_left ?_)
      intro c hc
      have hin : c ∈ utxoSet (chain ++ [a]) := by
        rw [utxoSet_concat]
        exact Multiset.mem_add.mpr (.inr hc)
      rw [if_pos hin]
      rfl
    rw [hnew, hkept, hcreated, List.flatMap_append, List.flatMap_singleton]
    exact (Slots.view_append _ _).symm

theorem foldUpdateAcc_slots {run : List (AcceptedBlock B K ε × R.Proof)} {acc : R.Stump}
    (hheights : ((run.map Prod.fst).map AcceptedBlock.height).Nodup)
    (hbound : ∀ a ∈ run.map Prod.fst, a.height < 2 ^ 31)
    (hcoll : CollisionFree B (chainCoins (run.map Prod.fst)))
    (h : foldUpdateAcc R run = .ok acc) :
    (∃ leaves, LeafRun (run.map Prod.fst) leaves) ∧
      (∀ p ∈ run, containsUnspendableUtxo p.1.delHashes = false) ∧
      M.slots acc = leftSlots B (utxoSet (run.map Prod.fst))
        ((run.map Prod.fst).flatMap AcceptedBlock.createdCoins) := by
  induction run using List.reverseRecOn generalizing acc with
  | nil =>
    cases h
    exact ⟨⟨0, .nil⟩, by simp, M.new⟩
  | append_singleton run p ih =>
    rcases p with ⟨a, proof⟩
    unfold foldUpdateAcc at h
    rw [List.foldlM_append, bind_eq_ok] at h
    rcases h with ⟨mid, hrun, hlast⟩
    rw [List.foldlM_cons, bind_eq_ok] at hlast
    rcases hlast with ⟨acc', hupdate, hdone⟩
    cases hdone
    simp only [List.map_append, List.map_cons, List.map_nil] at hheights hbound hcoll ⊢
    have hcoll' := hcoll.mono (chainCoins_concat_subset (run.map Prod.fst) a)
    rcases ih hheights.of_append_left (fun b hb => hbound b (List.mem_append_left _ hb)) hcoll'
      hrun with ⟨⟨leaves, hleaves⟩, hnone, hslots⟩
    rcases updateAcc_slots M (by simpa using hheights) hbound hcoll hslots hupdate with
      ⟨hle, hnew⟩
    refine ⟨⟨_, hleaves.snoc a ?_⟩, forall_mem_snoc hnone (updateAcc_ok hupdate).1, hnew⟩
    rw [leafRun_eq hleaves hcoll', a.delHashes_eq.1, List.map_map]
    exact Multiset.map_le_map hle

/-- SwiftSync only adds: its slots are those of the additions, one block after the other. -/
theorem foldHintAdds_slots (hints : Nat → Finset UInt32) (chain : List (AcceptedBlock B K ε)) :
    ∃ acc, foldHintAdds R emptyProof hints chain = .ok acc ∧
      M.slots acc = chain.flatMap (addsFromHints hints) := by
  induction chain using List.reverseRecOn with
  | nil => exact ⟨R.new, rfl, M.new⟩
  | append_singleton chain a ih =>
    rcases ih with ⟨mid, hmid, hslots⟩
    rcases M.add mid (addsFromHints hints a) with ⟨acc, hacc⟩
    refine ⟨acc, ?_, ?_⟩
    · unfold foldHintAdds at hmid ⊢
      rw [List.foldlM_append, bind_eq_ok]
      refine ⟨mid, hmid, ?_⟩
      rw [List.foldlM_cons, bind_eq_ok]
      exact ⟨acc, hacc, rfl⟩
    · rcases M.modify hacc with ⟨targets, htargets, hnew⟩
      have hnil : targets = [] := List.map_eq_nil_iff.mp htargets
      rw [hnew, hnil, Slots.clear_nil, hslots, List.flatMap_append, List.flatMap_singleton]

/-- **SwiftSync ends with the accumulator of full validation.**  Folding the additions from exact
hints over a validated chain gives the slots that the fold of `update_acc` gives.  And for every
block and every hint set the additions from hints are those without, some of them emptied; if the
block passes and does not spend its own coinbase, the emptied ones are exactly the outputs that go
to the aggregator and that the block does not spend itself. -/
theorem swiftsync_accumulator_eq {W : Type} [AddCommGroup W] {H : SipHash W} (hstream : H.Streams) :
    (∀ (K : Kernel) (ε : Type) (params : ChainParams) (run : List (AcceptedBlock B K ε × R.Proof))
      (acc : R.Stump) (hints : Nat → Finset UInt32), ValidatedRun R params run acc →
      run.length < 2 ^ 31 → CollisionFree B (chainCoins (run.map Prod.fst)) →
      Bip30LeavesKnown (run.map Prod.fst) → ExactHints hints (run.map Prod.fst) →
      ∃ acc', foldHintAdds R emptyProof hints (run.map Prod.fst) = .ok acc' ∧
        M.slots acc' = M.slots acc) ∧
    ∀ (block : Block) (height : Nat) (hints : Finset UInt32),
      (getBlockAddsFromHints B block (block.txdata.map B.computeTxid) height
        (B.blockHash block.header) hints).length =
        (getBlockAdds B block height (B.blockHash block.header)).length ∧
      List.Forall₂ OrEmpty
        (getBlockAddsFromHints B block (block.txdata.map B.computeTxid) height
          (B.blockHash block.header) hints)
        (getBlockAdds B block height (B.blockHash block.header)) ∧
      (OwnCoinbaseUnspent B block height → ∀ salt agg amount,
        verifyBlockTransactionsSwiftsync H B height block (block.txdata.map B.computeTxid) hints
          salt = .ok (agg, amount) →
        agg = (((marks B block height hints).filter Prod.snd).map
            fun p => hashOutpoint H salt p.1.prevout).sum -
          ((consumedOutpoints block.txdata).map (hashOutpoint H salt)).sum ∧
        (marks B block height hints).map Prod.fst =
          (blockCoins B height (B.blockHash block.header) block.txdata).filter isSpendable ∧
        getBlockAdds B block height (B.blockHash block.header) =
          ((marks B block height hints).filter fun p => unspentInside block p.1).map
            (fun p => leafNode B p.1) ∧
        getBlockAddsFromHints B block (block.txdata.map B.computeTxid) height
            (B.blockHash block.header) hints =
          ((marks B block height hints).filter fun p => unspentInside block p.1).map
            fun p => if p.2 then .empty else leafNode B p.1) := by
  constructor
  · intro K ε params run acc hints hrun hlen hcoll hknown hexact
    have hheights : ((run.map Prod.fst).map AcceptedBlock.height).Nodup := by
      rw [hrun.heights]
      exact List.nodup_range'
    have hbound : ∀ a ∈ run.map Prod.fst, a.height < 2 ^ 31 := by
      intro a ha
      have hmem := List.mem_map_of_mem (f := AcceptedBlock.height) ha
      rw [hrun.heights, List.mem_range'_1] at hmem
      omega
    rcases foldUpdateAcc_slots M hheights hbound hcoll hrun.updated with ⟨hleaves, hnone, hslots⟩
    have hval : FullyValidated params (run.map Prod.fst) := by
      refine ⟨?_, ?_, hleaves, ?_⟩
      · rw [hrun.heights, List.length_map]
      · intro a ha
        rcases List.mem_map.mp ha with ⟨p, hp, rfl⟩
        exact hrun.subsidy p hp
      · intro a ha
        rcases List.mem_map.mp ha with ⟨p, hp, rfl⟩
        exact hnone p hp
    rcases foldHintAdds_slots M hints (run.map Prod.fst) with ⟨acc', hfold, hadds⟩
    refine ⟨acc', hfold, ?_⟩
    calc
      M.slots acc' = (run.map Prod.fst).flatMap (addsFromHints hints) := hadds
      _ = (run.map Prod.fst).flatMap fun a =>
            leftSlots B (utxoSet (run.map Prod.fst)) a.createdCoins :=
        List.flatMap_congr fun a ha =>
          addsFromHints_eq hval (by simpa using hlen) hcoll hknown hexact ha
      _ = leftSlots B (utxoSet (run.map Prod.fst))
            ((run.map Prod.fst).flatMap AcceptedBlock.createdCoins) :=
        (Slots.view_flatMap _ _).symm
      _ = M.slots acc := hslots.symm
  · intro block height hints
    have hempty := getBlockAddsFromHints_orEmpty (B := B) block height hints
    refine ⟨hempty.length_eq, hempty, ?_⟩
    intro hfresh salt agg amount hverify
    refine ⟨?_, marks_fst hints, getBlockAdds_marks, ?_⟩
    · rw [(verifySwiftsync_delta H B hstream hverify).2, ← marks_added, List.map_map]
      rfl
    · exact getBlockAddsFromHints_marks fun _ =>
        ⟨onlyFirstCoinbase_of_verified hverify, hfresh⟩

end Accumulators

/-! ### The session that spends a coinbase, and a block that spends inside -/

namespace Sample

open Udata.Sample Consensus.Sample

/-- Empties the targets if they hold the deleted hashes, and appends the additions. -/
def slotModify (acc adds dels : List NodeHash) (targets : List Nat) :
    Except String (List NodeHash) := do
  require (targets.map (fun i => acc[i]?) = dels.map some) "invalid proof"
  pure (Slots.clear .empty targets acc ++ adds)

theorem slotModify_ok {acc acc' adds dels : List NodeHash} {targets : List Nat}
    (h : slotModify acc adds dels targets = .ok acc') :
    ∃ targets : List Nat, targets.map (fun i => acc[i]?) = dels.map some ∧
      acc' = Slots.clear .empty targets acc ++ adds := by
  simp only [slotModify, bind_eq_ok, require_eq_ok, pure_eq_ok] at h
  rcases h with ⟨-, htargets, rfl⟩
  exact ⟨targets, htargets, rfl⟩

/-- The list of slots itself; a proof is the list of its targets. -/
def slotStump : Rustreexo where
  Stump := List NodeHash
  Proof := List Nat
  new := []
  modify := slotModify
  serialize _ := []
  deserialize _ := .ok []

def slotModel : SlotModel slotStump ([] : List Nat) where
  slots := id
  new := rfl
  modify := slotModify_ok
  add acc adds := ⟨Slots.clear .empty [] acc ++ adds, rfl⟩

def validated : List (AcceptedBlock Bitcoin.sample kernel BlockchainError × slotStump.Proof) :=
  chain.map fun a => (a, if a.height = 101 then [0] else [])

end Sample

open Sample Bitcoin in
theorem swiftsync_accumulator_eq_sample :
    (∃ (acc : slotStump.Stump),
      ValidatedRun slotStump regtest validated acc ∧ (∃ p ∈ validated, p.1.delHashes ≠ []) ∧
      foldHintAdds slotStump ([] : List Nat) lastHints chain = .ok acc) ∧
    ∃ agg amount,
      verifyBlockTransactionsSwiftsync sip sample 101 Udata.Sample.secondBlock
        (Udata.Sample.secondBlock.txdata.map sample.computeTxid) {2} keys =
          .ok (agg, amount) ∧
      getBlockAddsFromHints sample Udata.Sample.secondBlock
        (Udata.Sample.secondBlock.txdata.map sample.computeTxid) 101
        (sample.blockHash Udata.Sample.secondBlock.header) {2} =
        ((marks sample Udata.Sample.secondBlock 101 {2}).filter
          fun p => unspentInside Udata.Sample.secondBlock p.1).map
            fun p => if p.2 then .empty else leafNode sample p.1 := by
  have hmain := swiftsync_accumulator_eq (B := sample) slotModel sip_streams
  constructor
  · have hok : (foldUpdateAcc slotStump validated).isOk = true := by decide +kernel
    rcases exists_of_isOk hok with ⟨acc, hres⟩
    have hrun : ValidatedRun slotStump regtest validated acc :=
      ⟨by decide +kernel, by decide +kernel, hres⟩
    have hchain : validated.map Prod.fst = chain := List.map_map .. ▸ List.map_id chain
    have hfacts := hmain.1 _ _ _ _ acc lastHints hrun (by decide)
    rw [hchain] at hfacts
    rcases hfacts chain_collisionFree chain_bip30 chain_hints with ⟨acc', hfold, hslots⟩
    have heq : acc' = acc := hslots
    exact ⟨acc, hrun, by decide +kernel, heq ▸ hfold⟩
  · have hok : (verifyBlockTransactionsSwiftsync sip sample 101
        Udata.Sample.secondBlock (Udata.Sample.secondBlock.txdata.map sample.computeTxid)
        {2} keys).isOk = true := by decide +kernel
    rcases exists_of_isOk hok with ⟨out, hres⟩
    have hfresh : OwnCoinbaseUnspent sample Udata.Sample.secondBlock 101 := by
      unfold OwnCoinbaseUnspent
      decide +kernel
    exact ⟨out.1, out.2, hres, ((hmain.2 Udata.Sample.secondBlock 101 {2}).2.2 hfresh _ _ _
      hres).2.2.2⟩

end Floresta.SwiftSync
