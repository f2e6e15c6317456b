import Floresta.Primitives

/-!
# Errors — what block and header processing can fail with

The error types of `floresta-chain`, with the data they carry.  An error of a crate outside the
repository is kept as its message.
-/

namespace Floresta

/-! ## Compact leaf data

The leaves a Utreexo peer sends are part of the error that reports a bad one. -/

/-- A scriptPubKey, or the way to rebuild it from the input that spends it. -/
inductive ScriptPubKeyKind
  | other (script : Bytes)
  | pubKeyHash
  | witnessV0PubKeyHash
  | scriptHash
  | witnessV0ScriptHash
  deriving DecidableEq, Repr

structure CompactLeafData where
  headerCode : UInt32
  amount : UInt64
  spkTy : ScriptPubKeyKind
  deriving DecidableEq, Repr

inductive LeafErrorKind
  | emptyStack
  | invalidInstruction (e : String)
  | notPushBytes
  | genesisCreationHeight
  deriving DecidableEq, Repr

structure UtreexoLeafError where
  leaf : CompactLeafData
  txid : Txid
  vin : Nat
  kind : LeafErrorKind
  deriving DecidableEq, Repr

/-! ## Validation errors -/

inductive BlockValidationErrors
  | blockDoesntExtendTip
  | invalidCoinbase (msg : String)
  | utxoNotFound (outpoint : OutPoint)
  | scriptValidationError (msg : String)
  | nullPrevOut
  | emptyInputs
  | emptyOutputs
  | scriptError
  | blockTooBig
  | tooManySigops
  | tooManyCoins
  | notEnoughPow
  | badDiffBits
  | badVersion
  | badMerkleRoot
  | badWitnessCommitment
  | notEnoughMoney
  | firstTxIsNotCoinbase
  | badCoinbaseOutValue
  | emptyBlock
  | blockExtendsAnOrphanChain
  | badBip34
  | invalidUtreexoProof
  | coinbaseNotMatured
  | nonFinalTransaction
  | unspendableUTXO
  | bip94TimeWarp
  | duplicateInput
  | badRelativeLockTime
  deriving DecidableEq, Repr

structure TransactionError where
  txid : Txid
  error : BlockValidationErrors
  deriving DecidableEq, Repr

inductive BlockExtError
  | badMerkleRoot
  | badWitnessCommitment
  | blockTooBig
  | tooManySigops
  deriving DecidableEq, Repr

/-! ## Storage errors -/

/-- `FlatChainstoreError`; the failures of the file system itself are kept as their message. -/
inductive FlatChainstoreError
  | io (msg : String)
  | headerNotFound
  | fullIndex
  | oversizedIndex
  | unsupportedSchema (version : Nat)
  | poisonedLock
  | badMagic (magic : Nat)
  | oversizedAccumulator
  | invalidMetadataPointer
  | corruptedDatabase
  | invalidValidationIndex
  deriving DecidableEq, Repr

inductive BlockchainError
  | blockNotPresent
  | orphanOrInvalidBlock
  | blockValidation (e : BlockValidationErrors)
  | transactionError (e : TransactionError)
  | invalidUtreexoProof
  | accumulatorError (e : String)
  | utreexoLeaf (e : UtreexoLeafError)
  | database (e : FlatChainstoreError)
  | chainNotInitialized
  | invalidTip (msg : String)
  | badValidationIndex
  | operationOverflow
  deriving DecidableEq, Repr

/-- `From<BlockExtError> for BlockValidationErrors`. -/
def BlockExtError.toValidationError : BlockExtError → BlockValidationErrors
  | .badMerkleRoot => .badMerkleRoot
  | .badWitnessCommitment => .badWitnessCommitment
  | .blockTooBig => .blockTooBig
  | .tooManySigops => .tooManySigops

/-- `tx_err!` raised through `?`. -/
def txErr {α : Type} (txid : Txid) (e : BlockValidationErrors) : Except BlockchainError α :=
  .error (.transactionError ⟨txid, e⟩)

/-- A `BlockValidationErrors` raised through `?`. -/
def blockErr {α : Type} (e : BlockValidationErrors) : Except BlockchainError α :=
  .error (.blockValidation e)

end Floresta
