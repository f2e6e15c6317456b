import Floresta.Consensus.Transactions
import Floresta.Lib.Prog

/-!
# Mempool — the transactions that wait for a block

The pool of `floresta-mempool`.  A transaction is kept under a short id, a keyed hash of its txid,
together with the ids of the held transactions it spends from (`depends`) and of those that were
admitted after it and spend from it (`children`).
-/

namespace Floresta

open Fallible

abbrev ShortTxid := UInt64

structure MempoolTransaction where
  transaction : Transaction
  depends : List ShortTxid
  children : List ShortTxid
  deriving DecidableEq, Repr

structure Mempool where
  transactions : HashMap ShortTxid MempoolTransaction
  /-- bytes in use -/
  mempoolSize : Nat
  maxMempoolSize : Nat

inductive MempoolError
  | fullMempool
  | conflictingTransaction
  | duplicatedInputs
  | consensusValidation (e : BlockchainError)
  deriving DecidableEq, Repr

namespace Mempool

inductive Fault
  | error (e : MempoolError)
  /-- `unwrap` on an id that is not held -/
  | unwrap
  /-- the recursion did not end within the given number of calls -/
  | diverged
  deriving DecidableEq, Repr

/-- The functions of the `bitcoin` crate the pool calls, and the hasher it was created with. -/
structure Context where
  bitcoin : Bitcoin
  totalSize : Transaction → Nat
  /-- `Transaction::weight` in weight units -/
  weight : Transaction → Nat
  computeMerkleRoot : Block → Option Hash256
  hashOne : Txid → ShortTxid

namespace Context

variable (C : Context)

/-- The id a transaction is kept under. -/
def shortTxid (tx : Transaction) : ShortTxid := C.hashOne (C.bitcoin.computeTxid tx)

end Context

variable (C : Context)

def new (maxMempoolSize : Nat) : Mempool where
  transactions := ∅
  mempoolSize := 0
  maxMempoolSize := maxMempoolSize

/-! ## Admission -/

/-- A held transaction that spends from the creator of the outpoint, and is one of its children,
spends the outpoint. -/
def isAlreadySpent (pool : Mempool) (outpoint : OutPoint) : Bool :=
  match pool.transactions.lookup (C.hashOne outpoint.txid) with
  | none => false
  | some tx => tx.children.any fun child =>
    match pool.transactions.lookup child with
    | none => false
    | some childTx => childTx.transaction.input.any fun input =>
      input.previousOutput.txid = outpoint.txid && input.previousOutput.vout = outpoint.vout

def checkForConflicts (pool : Mempool) (transaction : Transaction) : Except MempoolError Unit := do
  let inputs := (transaction.input.map TxIn.previousOutput).toFinset
  require (inputs.card = transaction.input.length) .duplicatedInputs
  transaction.input.foldlM (fun _ input =>
    require (isAlreadySpent C pool input.previousOutput = false) .conflictingTransaction) ()

/-- The ids of the held transactions a transaction spends from, once for each such input. -/
def findMempoolDepends (pool : Mempool) (tx : Transaction) : List ShortTxid :=
  tx.input.filterMap fun input =>
    (pool.transactions.lookup (C.hashOne input.previousOutput.txid)).map fun _ =>
      C.hashOne input.previousOutput.txid

/-- Notes a child with a held transaction. -/
def pushChild (child depend : ShortTxid) : Prog Mempool Fault Unit := fun pool =>
  match pool.transactions.lookup depend with
  | none => (.error .unwrap, pool)
  | some tx =>
    let tx := { tx with children := tx.children ++ [child] }
    (.ok (), { pool with transactions := pool.transactions.insert depend tx })

def acceptToMempool (transaction : Transaction) : Prog Mempool Fault Unit := do
  let shortTxid := C.shortTxid transaction
  if ← Prog.read fun pool => decide (shortTxid ∈ pool.transactions) then
    pure ()
  else do
    let txSize := C.totalSize transaction
    let pool ← Prog.read id
    Prog.lift (require (pool.mempoolSize + txSize ≤ pool.maxMempoolSize) (.error .fullMempool))
    let _ ← Prog.lift ((Consensus.checkTransactionContextFree C.bitcoin transaction).mapError
      fun e => .error (.consensusValidation e))
    Prog.lift ((checkForConflicts C pool transaction).mapError Fault.error)
    let depends := findMempoolDepends C pool transaction
    depends.forM (pushChild shortTxid)
    Prog.modify fun pool =>
      { pool with
        transactions := pool.transactions.insert shortTxid ⟨transaction, depends, []⟩
        mempoolSize := pool.mempoolSize + txSize }

/-! ## Removal -/

/-- `depends.retain(|depend| *depend != short_txid)`. -/
def forget (shortTxid : ShortTxid) (tx : MempoolTransaction) : MempoolTransaction :=
  { tx with depends := tx.depends.filter fun depend => depend ≠ shortTxid }

/-- One round of the loop of `consume_block`. -/
def consumeTransaction (pool : Mempool) (tx : Transaction) : Mempool :=
  let shortTxid := C.shortTxid tx
  match pool.transactions.lookup shortTxid with
  | none => pool
  | some removed =>
    { pool with
      mempoolSize := pool.mempoolSize - C.totalSize removed.transaction
      transactions := removed.children.foldl (fun transactions child =>
        match transactions.lookup child with
        | some childTx => transactions.insert child (forget shortTxid childTx)
        | none => transactions) (pool.transactions.erase shortTxid) }

/-- Returns the txids of the block, with the pool that is left. -/
def consumeBlock (block : Block) (pool : Mempool) : List Txid × Mempool :=
  (block.txdata.map C.bitcoin.computeTxid, block.txdata.foldl (consumeTransaction C) pool)

/-! ## Block templates -/

/-- Adds a transaction to the list, its dependencies first; `fuel` bounds the depth of the
recursion. -/
def addTransactionToBlock (pool : Mempool) : Nat → List Transaction → ShortTxid →
    Except Fault (List Transaction)
  | 0, _, _ => .error .diverged
  | fuel + 1, blockTransactions, shortTxid =>
    match pool.transactions.lookup shortTxid with
    | none => .error .unwrap
    | some tx =>
      if tx.transaction ∈ blockTransactions then .ok blockTransactions
      else do
        let blockTransactions ←
          tx.depends.foldlM (addTransactionToBlock pool fuel) blockTransactions
        pure (blockTransactions ++ [tx.transaction])

/-- The loop of `get_block_template` over the entries that are left, with the size so far. -/
def selectTransactions (pool : Mempool) (fuel maxBlockWeight : Nat) :
    List MempoolTransaction → Nat → List Transaction → Except Fault (List Transaction)
  | [], _, txs => .ok txs
  | tx :: rest, size, txs =>
    let txSize := C.weight tx.transaction
    if maxBlockWeight < size + txSize then .ok txs
    else if tx.transaction ∈ txs then selectTransactions pool fuel maxBlockWeight rest size txs
    else do
      let txs ← addTransactionToBlock pool fuel txs (C.shortTxid tx.transaction)
      selectTransactions pool fuel maxBlockWeight rest (size + txSize) txs

/-- The fields of the header that the caller of `get_block_template` chooses. -/
structure Template where
  version : Int
  prevBlockhash : BlockHash
  time : Nat
  bits : UInt32
  maxBlockWeight : Nat

/-- An unsolved block; `values` are the entries of the pool in the order the map hands them out. -/
def getBlockTemplate (pool : Mempool) (values : List MempoolTransaction) (fuel : Nat)
    (t : Template) : Except Fault Block := do
  let txs ← selectTransactions C pool fuel t.maxBlockWeight values 0 []
  let block : Block := ⟨⟨t.version, t.prevBlockhash, 0, t.time, t.bits, 0⟩, txs⟩
  pure { block with header := { block.header with
    merkleRoot := (C.computeMerkleRoot block).getD 0 } }

end Mempool
end Floresta
