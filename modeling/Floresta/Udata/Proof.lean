import Floresta.Udata.Leaf

/-!
# Proof — what a block adds to and deletes from the accumulator

`getBlockAdds` lists the leaf hashes of the outputs a block leaves behind; `processProof` pairs the
compact leaves of a Utreexo peer with the inputs that spend outputs of earlier blocks, in input
order, and returns their leaf hashes and the UTXO map for validation.
-/

namespace Floresta

open Fallible

/-- `BitcoinNodeHash`; an empty node stands for a leaf that is known to be spent. -/
inductive NodeHash
  | empty
  | some (hash : Hash256)
  deriving DecidableEq, Repr

namespace Udata

variable (B : Bitcoin)

/-! ## Additions -/

def getInputOutpoints (txdata : List Transaction) : Finset OutPoint :=
  (txdata.flatMap fun tx => tx.input.map TxIn.previousOutput).toFinset

def txAdds (spent : Finset OutPoint) (height : Nat) (blockHash : BlockHash) (tx : Transaction) :
    List NodeHash :=
  let txid := B.computeTxid tx
  tx.output.zipIdx.filterMap fun p =>
    let vout := UInt32.ofNat p.2
    if Consensus.isUnspendable p.1.scriptPubkey ∨ (⟨txid, vout⟩ : OutPoint) ∈ spent then none
    else some (.some (getLeafHashes B txid tx.isCoinbase vout p.1 height blockHash))

def getBlockAdds (block : Block) (height : Nat) (blockHash : BlockHash) : List NodeHash :=
  block.txdata.flatMap (txAdds B (getInputOutpoints block.txdata) height blockHash)

/-! ## Deletions -/

structure ProofState where
  leaves : List CompactLeafData
  delHashes : List Hash256
  utxos : UtxoMap

/-- The number of outputs of every transaction of the block, by txid; where two transactions share
a txid the later one counts, as collecting into a `HashMap` has it. -/
def sameBlockTransactions (txdata : List Transaction) : HashMap Txid Nat :=
  txdata.foldl (fun m tx => m.insert (B.computeTxid tx) tx.output.length) ∅

def isSameBlockOutput (counts : HashMap Txid Nat) (o : OutPoint) : Bool :=
  match counts.lookup o.txid with
  | some outputCount => o.vout.toNat < outputCount
  | none => false

section

variable {ε : Type} (fromLeaf : UtreexoLeafError → ε)
variable (getBlockHash : Nat → Except ε BlockHash) (getMtp : Nat → Except ε Nat)

def leafErr {α : Type} (leaf : CompactLeafData) (txid : Txid) (vin : Nat) :
    Except LeafErrorKind α → Except ε α
  | .ok a => .ok a
  | .error kind => .error (fromLeaf ⟨leaf, txid, vin, kind⟩)

/-- Rebuilds the output behind one leaf, with its deletion hash. -/
def processLeaf (tx : Transaction) (txid : Txid) (input : TxIn) (vin : Nat)
    (leaf : CompactLeafData) : Except ε (Hash256 × OutPoint × UtxoData) := do
  let creationHeight := (leaf.headerCode >>> 1).toNat
  let isCoinbase := leaf.headerCode &&& 1 != 0
  require (creationHeight ≠ GENESIS_HEIGHT) (fromLeaf ⟨leaf, txid, vin, .genesisCreationHeight⟩)
  let hash ← getBlockHash creationHeight
  let data ← leafErr fromLeaf leaf txid vin (reconstructLeafData B leaf input hash)
  let creationTime ← (if tx.isBip68Enabled && B.isTimeLocked input.sequence then
    getMtp (creationHeight - 1) else .ok 0)
  pure (leafDataHash B data, data.prevout, ⟨data.utxo, isCoinbase, creationHeight, creationTime⟩)

/-- The body of the input loop: an output of the same block needs no leaf, and an input for which
the leaves have run out is skipped. -/
def processInput (counts : HashMap Txid Nat) (tx : Transaction) (st : ProofState)
    (p : TxIn × Nat) : Except ε ProofState :=
  if isSameBlockOutput counts p.1.previousOutput then .ok st
  else
    match st.leaves with
    | [] => .ok st
    | leaf :: leaves => do
        let (delHash, prevout, utxo) ←
          processLeaf B fromLeaf getBlockHash getMtp tx (B.computeTxid tx) p.1 p.2 leaf
        pure ⟨leaves, st.delHashes ++ [delHash], st.utxos.insert prevout utxo⟩

def processTx (counts : HashMap Txid Nat) (st : ProofState) (tx : Transaction) :
    Except ε ProofState :=
  tx.input.zipIdx.foldlM (processInput B fromLeaf getBlockHash getMtp counts tx) st

def processProof (leaves : List CompactLeafData) (txdata : List Transaction) :
    Except ε (List Hash256 × UtxoMap) := do
  let counts := sameBlockTransactions B txdata
  let st ← (txdata.drop 1).foldlM (processTx B fromLeaf getBlockHash getMtp counts) ⟨leaves, [], ∅⟩
  pure (st.delHashes, st.utxos)

end

end Udata

end Floresta
