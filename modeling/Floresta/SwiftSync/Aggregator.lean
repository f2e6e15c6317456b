import Floresta.Consensus.Block
import Mathlib.Algebra.Group.Prod

/-!
# Aggregator — blocks under SwiftSync

`process_block_swiftsync` checks a block without its spent outputs and turns it into a delta of the
aggregator: every output that the hints do not call unspent is added, every input is removed.  The
aggregator is a pair of words under wrapping addition; the word type stays a parameter, a
commutative group of which `u64` is the instance that runs.
-/

namespace Floresta

open Fallible

/-- The streaming `SipHash24` of the `bitcoin_hashes` crate, with its output in `W`. -/
structure SipHash (W : Type) where
  Engine : Type
  withKeys : UInt64 → UInt64 → Engine
  input : Engine → Bytes → Engine
  /-- `from_engine_to_u64` -/
  finish : Engine → W

namespace SipHash

/-- Feeding two byte strings one after the other is feeding their concatenation. -/
def Streams {W : Type} (H : SipHash W) : Prop :=
  ∀ e a b, H.input (H.input e a) b = H.input e (a ++ b)

end SipHash

structure SipHashKeys where
  k0 : UInt64
  k1 : UInt64
  k2 : UInt64
  k3 : UInt64
  deriving DecidableEq, Repr

/-- The two limbs of the aggregator, added and subtracted limb by limb. -/
abbrev SwiftSyncAgg (W : Type) := W × W

namespace SwiftSync

variable {W : Type} [AddCommGroup W] (H : SipHash W)

/-! ## Hashing outpoints -/

def sip64 (k0 k1 : UInt64) (msg : Bytes) : W :=
  H.finish (H.input (H.withKeys k0 k1) msg)

def hashOutpoint (keys : SipHashKeys) (o : OutPoint) : W × W :=
  let bytes := hashBytes 32 o.txid ++ leBytes o.vout
  (sip64 H keys.k0 keys.k1 bytes, sip64 H keys.k2 keys.k3 bytes)

/-- The engines of both limbs after the txid. -/
structure TxidHashMidstate where
  base0 : H.Engine
  base1 : H.Engine

def TxidHashMidstate.new (keys : SipHashKeys) (txid : Txid) : TxidHashMidstate H :=
  ⟨H.input (H.withKeys keys.k0 keys.k1) (hashBytes 32 txid),
    H.input (H.withKeys keys.k2 keys.k3) (hashBytes 32 txid)⟩

def TxidHashMidstate.finalizeWithVout (m : TxidHashMidstate H) (vout : UInt32) : W × W :=
  (H.finish (H.input m.base0 (leBytes vout)), H.finish (H.input m.base1 (leBytes vout)))

def add (salt : SipHashKeys) (agg : SwiftSyncAgg W) (o : OutPoint) : SwiftSyncAgg W :=
  agg + hashOutpoint H salt o

def addWithVout (agg : SwiftSyncAgg W) (m : TxidHashMidstate H) (vout : UInt32) :
    SwiftSyncAgg W :=
  agg + m.finalizeWithVout H vout

def remove (salt : SipHashKeys) (agg : SwiftSyncAgg W) (o : OutPoint) : SwiftSyncAgg W :=
  agg - hashOutpoint H salt o

/-- One outpoint is hashed at once, several share the state after their txid. -/
def addOutputsToAgg (salt : SipHashKeys) (agg : SwiftSyncAgg W) (txid : Txid)
    (spentVouts : List UInt32) : SwiftSyncAgg W :=
  match spentVouts with
  | [] => agg
  | [vout] => add H salt agg ⟨txid, vout⟩
  | _ => spentVouts.foldl (fun agg vout =>
    addWithVout H agg (TxidHashMidstate.new H salt txid) vout) agg

/-! ## The transactions of a block -/

/-- `checked_add(..).unwrap_or(Amount::MAX)`. -/
def saturatingAmount (a b : Amount) : Amount := (a.checkedAdd b).getD Amount.MAX

structure OutputState where
  outputIndex : UInt32
  unspentAmount : Amount
  spentVouts : List UInt32

/-- The body of the output loop: unspendable outputs are not numbered. -/
def swiftOutput (unspentIndexes : Finset UInt32) (st : OutputState) (p : TxOut × Nat) :
    OutputState :=
  if Consensus.isUnspendable p.1.scriptPubkey then
    { st with unspentAmount := saturatingAmount st.unspentAmount p.1.value }
  else if st.outputIndex ∈ unspentIndexes then
    { st with
      unspentAmount := saturatingAmount st.unspentAmount p.1.value
      outputIndex := st.outputIndex + 1 }
  else
    { st with
      spentVouts := st.spentVouts ++ [UInt32.ofNat p.2]
      outputIndex := st.outputIndex + 1 }

structure SwiftState (W : Type) where
  outputIndex : UInt32
  unspentAmount : Amount
  agg : SwiftSyncAgg W

def swiftOutputs (unspentIndexes : Finset UInt32) (salt : SipHashKeys) (txid : Txid)
    (outputs : List TxOut) (st : SwiftState W) : SwiftState W :=
  let out := outputs.zipIdx.foldl (swiftOutput unspentIndexes)
    ⟨st.outputIndex, st.unspentAmount, []⟩
  ⟨out.outputIndex, out.unspentAmount, addOutputsToAgg H salt st.agg txid out.spentVouts⟩

variable (B : Bitcoin)

/-- The body of the transaction loop of `verify_block_transactions_swiftsync`. -/
def swiftTx (height : Nat) (block : Block) (unspentIndexes : Finset UInt32) (salt : SipHashKeys)
    (st : SwiftState W) (p : (Transaction × Txid) × Nat) :
    Except BlockchainError (SwiftState W) :=
  let ((tx, txid), n) := p
  if n = 0 then do
    require (tx.isCoinbase = true) (.blockValidation .firstTxIsNotCoinbase)
    Consensus.verifyCoinbase B tx
    let coinbaseTotal ← Consensus.totalOutValue tx
    require (coinbaseTotal.sat ≤ Amount.MAX_MONEY.sat) (.blockValidation .tooManyCoins)
    pure (if Consensus.isBip30Unspendable B block height then st
      else swiftOutputs H unspentIndexes salt txid tx.output st)
  else do
    let _ ← Consensus.checkTransactionContextFree B tx
    let agg := tx.input.foldl (fun agg input => remove H salt agg input.previousOutput) st.agg
    pure (swiftOutputs H unspentIndexes salt txid tx.output { st with agg := agg })

def verifyBlockTransactionsSwiftsync (height : Nat) (block : Block) (txids : List Txid)
    (unspentIndexes : Finset UInt32) (salt : SipHashKeys) :
    Except BlockchainError (SwiftSyncAgg W × Amount) := do
  require (block.txdata ≠ []) (.blockValidation .emptyBlock)
  let st ← (block.txdata.zip txids).zipIdx.foldlM
    (swiftTx H B height block unspentIndexes salt) ⟨0, Amount.ZERO, 0⟩
  pure (st.agg, st.unspentAmount)

/-! ## Additions from hints -/

structure HintState where
  outputIndex : UInt32
  adds : List NodeHash

/-- The body of the output loop of `get_block_adds_from_hints`. -/
def hintOutput (spent : Finset OutPoint) (isCb isBip30 : Bool) (height : Nat)
    (blockHash : BlockHash) (unspentIndexes : Finset UInt32) (txid : Txid) (st : HintState)
    (p : TxOut × Nat) : HintState :=
  let vout := UInt32.ofNat p.2
  if Consensus.isUnspendable p.1.scriptPubkey then st
  else if (⟨txid, vout⟩ : OutPoint) ∈ spent then { st with outputIndex := st.outputIndex + 1 }
  else
    let leaf := if isBip30 ∨ st.outputIndex ∈ unspentIndexes then
      NodeHash.some (Udata.getLeafHashes B txid isCb vout p.1 height blockHash) else .empty
    ⟨if isBip30 then st.outputIndex else st.outputIndex + 1, st.adds ++ [leaf]⟩

def getBlockAddsFromHints (block : Block) (txids : List Txid) (height : Nat)
    (blockHash : BlockHash) (unspentIndexes : Finset UInt32) : List NodeHash :=
  let spent := Udata.getInputOutpoints block.txdata
  ((block.txdata.zip txids).foldl (fun (st : HintState) (p : Transaction × Txid) =>
    p.1.output.zipIdx.foldl (hintOutput B spent p.1.isCoinbase
      (p.1.isCoinbase && Consensus.isBip30Unspendable B block height) height blockHash
      unspentIndexes p.2) st) ⟨0, []⟩).adds

/-! ## Blocks -/

structure SwiftSyncDelta (W : Type) where
  aggregatorDelta : SwiftSyncAgg W
  unspentAmount : Amount
  utreexoAdds : List NodeHash

def processBlockSwiftsync (params : ChainParams) (block : Block) (height : Nat)
    (unspentIndexes : Finset UInt32) (salt : SipHashKeys) :
    Except BlockchainError (SwiftSyncDelta W) := do
  let txids ← Consensus.checkBlock B params block height
  let adds := getBlockAddsFromHints B block txids height (B.blockHash block.header) unspentIndexes
  let (agg, amount) ← verifyBlockTransactionsSwiftsync H B height block txids unspentIndexes salt
  pure ⟨agg, amount, adds⟩

end SwiftSync

end Floresta
