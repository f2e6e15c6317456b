import Floresta.Errors
import Floresta.Lib.Fallible

/-!
# Transactions — the block's transactions under the consensus rules

The transaction half of `consensus.rs` and the prevout-dependent counting of `sigops.rs`:
`verifyBlockTransactions` walks the block with a scratch UTXO map, from which every input removes
the output it spends and to which every transaction adds its own outputs once it has passed.
-/

namespace Floresta

open Fallible

/-- The script interpreter (`bitcoinkernel`), reached by `verify_input_scripts`.  Each field is a
call that may fail with a message. -/
structure Kernel where
  parseTransaction : Transaction → Except String Unit
  parseScriptPubkey : Script → Except String Unit
  precompute : Transaction → List TxOut → Except String Unit
  verify : Transaction → List TxOut → Nat → Nat → Except String Unit

structure UtxoData where
  txout : TxOut
  isCoinbase : Bool
  creationHeight : Nat
  creationTime : Nat
  deriving DecidableEq, Repr

abbrev UtxoMap := HashMap OutPoint UtxoData

def MAX_SCRIPT_SIZE : Nat := 10000
def MAX_BLOCK_SIGOPS_COST : Nat := 80000
def VERIFY_P2SH : Nat := 1
def VERIFY_WITNESS : Nat := 2 ^ 11
def WITNESS_SCALE_FACTOR : Nat := 4

def saturatingAdd (a b : Nat) : Nat := min (a + b) (2 ^ 64 - 1)

def saturatingMul (a b : Nat) : Nat := min (a * b) (2 ^ 64 - 1)

/-! ## Lock times -/

inductive LockTimeCutoff
  | headerTime (value : Nat)
  | mtp (value : Nat)
  deriving DecidableEq, Repr

namespace LockTimeCutoff

def value : LockTimeCutoff → Nat
  | .headerTime v => v
  | .mtp v => v

/-- Before CSV activation every relative lock counts as satisfied. -/
def relativeLocktimeSatisfied (cutoff : LockTimeCutoff) (lock : RelativeLockTime)
    (elapsedHeight creationTime : Nat) : Bool :=
  match cutoff with
  | .headerTime _ => true
  | .mtp value =>
    match lock with
    | .blocks blocks => blocks ≤ elapsedHeight
    | .time intervals => intervals ≤ (value - creationTime) / 512

end LockTimeCutoff

/-- `version as u32 >= 2`. -/
def Transaction.isBip68Enabled (tx : Transaction) : Bool :=
  2 ≤ (tx.version % 2 ^ 32).toNat

namespace Consensus

variable (B : Bitcoin) (K : Kernel)

def isFinalTransaction (tx : Transaction) (height : Nat) (cutoff : LockTimeCutoff) : Bool :=
  if tx.lockTime = .blocks 0 then true
  else
    let lockTimeReached : Bool :=
      match tx.lockTime with
      | .blocks lockHeight => lockHeight < height
      | .seconds lockTime => lockTime < cutoff.value
    lockTimeReached || tx.input.all fun i => i.sequence = 0xffffffff

/-! ## Signature operations -/

/-- One instruction of the accurate count: the running count and the last pushed number. -/
def countSigopsStep (st : Nat × Option Nat) : Instruction → Nat × Option Nat
  | .pushBytes _ => (st.1, none)
  | .op opcode =>
    if opcode = 0xac ∨ opcode = 0xad then (st.1 + 1, none)
    else if opcode = 0xae ∨ opcode = 0xaf then (st.1 + st.2.getD 20, none)
    else if 0x51 ≤ opcode ∧ opcode ≤ 0x60 then (st.1, some (opcode.toNat - 0x50))
    else (st.1, none)

/-- The instructions before the first parsing error (`map_while(Result::ok)`). -/
def parsedInstructions : List (Except String Instruction) → List Instruction
  | .ok i :: rest => i :: parsedInstructions rest
  | _ => []

def countSigopsAccurate (script : Script) : Nat :=
  ((parsedInstructions (B.instructions script)).foldl countSigopsStep (0, none)).1

def pushedRedeemScript (scriptSig : Script) : Option Script :=
  if B.isPushOnly scriptSig then
    match (B.instructions scriptSig).getLast? with
    | some (.ok (.pushBytes bytes)) => some bytes
    | _ => none
  else none

def p2shSigopCost (input : TxIn) (prevout : Script) : Nat :=
  if Script.isP2sh prevout then
    match pushedRedeemScript B input.scriptSig with
    | some redeem => saturatingMul (countSigopsAccurate B redeem) WITNESS_SCALE_FACTOR
    | none => 0
  else 0

/-- The witness program an input runs: the output script itself, or the one it wraps in P2SH. -/
def witnessProgram (input : TxIn) (prevout : Script) : Option Script :=
  if Script.isWitnessProgram prevout then some prevout
  else if Script.isP2sh prevout then pushedRedeemScript B input.scriptSig
  else none

def witnessSigopCost (input : TxIn) (prevout : Script) : Nat :=
  match witnessProgram B input prevout with
  | none => 0
  | some program =>
    if Script.isP2wpkh program then 1
    else if Script.isP2wsh program then
      match input.witness.getLast? with
      | some script => countSigopsAccurate B script
      | none => 0
    else 0

def inputSigopCost (utxos : UtxoMap) (flags : Nat) (cost : Nat) (input : TxIn) : Nat :=
  match utxos.lookup input.previousOutput with
  | none => cost
  | some prevout =>
    let cost := if flags &&& VERIFY_P2SH ≠ 0 then
      saturatingAdd cost (p2shSigopCost B input prevout.txout.scriptPubkey) else cost
    if flags &&& VERIFY_WITNESS ≠ 0 then
      saturatingAdd cost (witnessSigopCost B input prevout.txout.scriptPubkey) else cost

def sigopCost (tx : Transaction) (utxos : UtxoMap) (flags : Nat) : Nat :=
  let cost := B.totalSigopCost tx
  if tx.isCoinbase ∨ flags &&& (VERIFY_P2SH ||| VERIFY_WITNESS) = 0 then cost
  else tx.input.foldl (inputSigopCost B utxos flags) cost

/-! ## Context-free checks -/

/-- Scripts over the size limit or starting with `OP_RETURN` can never be spent. -/
def isUnspendable (script : Script) : Bool :=
  MAX_SCRIPT_SIZE < script.length || Script.isOpReturn script

def validateScriptSize (script : Script) (txid : Txid) : Except BlockchainError Unit :=
  if isUnspendable script then txErr txid .scriptError else .ok ()

def addOutValue (value : Amount) (out : TxOut) : Except BlockchainError Amount :=
  okOr (value.checkedAdd out.value) (.blockValidation .tooManyCoins)

def totalOutValue (tx : Transaction) : Except BlockchainError Amount :=
  tx.output.foldlM addOutValue Amount.ZERO

/-- The `HashSet` walk of `has_duplicate_inputs`. -/
def hasDuplicateFrom (seen : Finset OutPoint) : List TxIn → Bool
  | [] => false
  | i :: rest =>
    if i.previousOutput ∈ seen then true
    else hasDuplicateFrom (insert i.previousOutput seen) rest

def hasDuplicateInputs : List TxIn → Bool
  | [_] => false
  | [a, b] => a.previousOutput = b.previousOutput
  | inputs => hasDuplicateFrom ∅ inputs

def checkInputContextFree (txid : Txid) (input : TxIn) : Except BlockchainError Unit := do
  require (input.previousOutput.isNull = false) (.transactionError ⟨txid, .nullPrevOut⟩)
  validateScriptSize input.scriptSig txid

def checkTransactionContextFree (tx : Transaction) : Except BlockchainError Amount := do
  let txid := B.computeTxid tx
  require (tx.input ≠ []) (.transactionError ⟨txid, .emptyInputs⟩)
  require (tx.output ≠ []) (.transactionError ⟨txid, .emptyOutputs⟩)
  tx.input.foldlM (fun _ input => checkInputContextFree txid input) ()
  require (hasDuplicateInputs tx.input = false) (.transactionError ⟨txid, .duplicateInput⟩)
  let outValue ← totalOutValue tx
  require (outValue.sat ≤ Amount.MAX_MONEY.sat) (.blockValidation .tooManyCoins)
  pure outValue

def verifyCoinbase (tx : Transaction) : Except BlockchainError Unit :=
  let txid := B.computeTxid tx
  match tx.input with
  | [input] => do
      require (input.previousOutput.isNull = true)
        (.transactionError ⟨txid, .invalidCoinbase "Invalid Coinbase PrevOut"⟩)
      require (2 ≤ input.scriptSig.length ∧ input.scriptSig.length ≤ 100)
        (.transactionError ⟨txid, .invalidCoinbase "Invalid ScriptSig size"⟩)
  | _ => txErr txid (.invalidCoinbase "Coinbase must have 1 input")

/-! ## Spending -/

def takeUtxo (input : TxIn) (utxos : UtxoMap) (txid : Txid) :
    Except BlockchainError (UtxoData × UtxoMap) :=
  match utxos.lookup input.previousOutput with
  | some utxo => .ok (utxo, utxos.erase input.previousOutput)
  | none => txErr txid (.utxoNotFound input.previousOutput)

structure SpendState where
  utxos : UtxoMap
  inValue : Amount
  spentUtxos : List UtxoData

/-- The maturity check, on `u32`: the sum wraps in a release build. -/
def coinbaseMatured (utxo : UtxoData) (height : Nat) : Bool :=
  !(utxo.isCoinbase && height < (utxo.creationHeight + 100) % 2 ^ 32)

def relativeLockMatured (tx : Transaction) (input : TxIn) (utxo : UtxoData) (height : Nat)
    (cutoff : LockTimeCutoff) : Bool :=
  if tx.isBip68Enabled then
    match B.toRelativeLockTime input.sequence with
    | some lock =>
      cutoff.relativeLocktimeSatisfied lock (height - utxo.creationHeight) utxo.creationTime
    | none => true
  else true

/-- The body of the input loop of `verify_transaction`. -/
def spendInput (tx : Transaction) (height : Nat) (cutoff : LockTimeCutoff) (st : SpendState)
    (input : TxIn) : Except BlockchainError SpendState := do
  let txid := B.computeTxid tx
  let (utxo, utxos) ← takeUtxo input st.utxos txid
  require (coinbaseMatured utxo height) (.transactionError ⟨txid, .coinbaseNotMatured⟩)
  require (relativeLockMatured B tx input utxo height cutoff)
    (.transactionError ⟨txid, .badRelativeLockTime⟩)
  validateScriptSize utxo.txout.scriptPubkey txid
  let inValue ← okOr (st.inValue.checkedAdd utxo.txout.value) (.blockValidation .tooManyCoins)
  pure ⟨utxos, inValue, st.spentUtxos ++ [utxo]⟩

def kernelErr {α : Type} (txid : Txid) : Except String α → Except BlockchainError α
  | .ok a => .ok a
  | .error e => txErr txid (.scriptValidationError e)

def verifyInputScripts (tx : Transaction) (spentUtxos : List UtxoData) (flags : Nat) :
    Except BlockchainError Unit := do
  let txid := B.computeTxid tx
  let prevouts := spentUtxos.map UtxoData.txout
  kernelErr txid (K.parseTransaction tx)
  prevouts.foldlM (fun _ txout => do
    require (txout.value.sat < 2 ^ 63) (.transactionError ⟨txid, .tooManyCoins⟩)
    kernelErr txid (K.parseScriptPubkey txout.scriptPubkey)) ()
  kernelErr txid (K.precompute tx prevouts)
  prevouts.zipIdx.foldlM (fun _ p => kernelErr txid (K.verify tx prevouts p.2 flags)) ()

/-- Returns the map without the spent outputs, and the values that came in and went out. -/
def verifyTransaction (tx : Transaction) (utxos : UtxoMap) (height : Nat)
    (cutoff : LockTimeCutoff) (verifyScript : Bool) (flags : Nat) :
    Except BlockchainError (UtxoMap × Amount × Amount) := do
  let txid := B.computeTxid tx
  let outValue ← checkTransactionContextFree B tx
  let st ← tx.input.foldlM (spendInput B tx height cutoff) ⟨utxos, Amount.ZERO, []⟩
  require (st.inValue.sat ≤ Amount.MAX_MONEY.sat) (.blockValidation .tooManyCoins)
  require (outValue.sat ≤ st.inValue.sat) (.transactionError ⟨txid, .notEnoughMoney⟩)
  (if verifyScript then verifyInputScripts B K tx st.spentUtxos flags else .ok ())
  pure (st.utxos, st.inValue, outValue)

/-! ## The block -/

structure BlockState where
  utxos : UtxoMap
  fee : Amount
  sigopCost : Nat

def insertOutputs (txid : Txid) (isCoinbase : Bool) (height : Nat) (cutoff : LockTimeCutoff)
    (utxos : UtxoMap) (outputs : List TxOut) : UtxoMap :=
  outputs.zipIdx.foldl (fun utxos p =>
    utxos.insert ⟨txid, UInt32.ofNat p.2⟩ ⟨p.1, isCoinbase, height, cutoff.value⟩) utxos

/-- The coinbase branch or the spending branch of the transaction loop; returns the map and fee. -/
def verifyNth (height : Nat) (cutoff : LockTimeCutoff) (verifyScript : Bool) (flags : Nat)
    (st : BlockState) (tx : Transaction) (n : Nat) : Except BlockchainError (UtxoMap × Amount) :=
  if n = 0 then do
    require (tx.isCoinbase = true) (.blockValidation .firstTxIsNotCoinbase)
    verifyCoinbase B tx
    pure (st.utxos, st.fee)
  else do
    let (utxos, inValue, outValue) ←
      verifyTransaction B K tx st.utxos height cutoff verifyScript flags
    let fee ← okOr (st.fee.checkedAdd (inValue.sub outValue)) (.blockValidation .tooManyCoins)
    pure (utxos, fee)

/-- The body of the transaction loop of `verify_block_transactions`. -/
def verifyBlockStep (height : Nat) (cutoff : LockTimeCutoff) (verifyScript : Bool) (flags : Nat)
    (st : BlockState) (p : Transaction × Nat) : Except BlockchainError BlockState := do
  let (tx, n) := p
  require (isFinalTransaction tx height cutoff) (.blockValidation .nonFinalTransaction)
  let cost := saturatingAdd st.sigopCost (sigopCost B tx st.utxos flags)
  require (cost ≤ MAX_BLOCK_SIGOPS_COST) (.blockValidation .tooManySigops)
  let (utxos, fee) ← verifyNth B K height cutoff verifyScript flags st tx n
  pure ⟨insertOutputs (B.computeTxid tx) (n = 0) height cutoff utxos tx.output, fee, cost⟩

def verifyBlockTransactions (height : Nat) (cutoff : LockTimeCutoff) (utxos : UtxoMap)
    (txs : List Transaction) (subsidy : Amount) (verifyScript : Bool) (flags : Nat) :
    Except BlockchainError Unit :=
  match txs with
  | [] => blockErr .emptyBlock
  | coinbase :: _ => do
      let st ← txs.zipIdx.foldlM (verifyBlockStep B K height cutoff verifyScript flags)
        ⟨utxos, Amount.ZERO, 0⟩
      let allowedReward ← okOr (st.fee.checkedAdd subsidy) (.blockValidation .tooManyCoins)
      let coinbaseTotal ← totalOutValue coinbase
      require (coinbaseTotal.sat ≤ allowedReward.sat) (.blockValidation .badCoinbaseOutValue)

end Consensus

end Floresta
