import Floresta.Lib.Ordered
import Floresta.Lib.Prog
import Floresta.Wallet.Merkle

/-!
# AddressCache — the watch-only wallet

The cache of `floresta-watch-only`: the addresses it tracks, with their balances, unspent outputs
and transactions, an index of all unspent outputs, and the key-value database it writes to.
Functions that may panic return `Except Panic`; deriving addresses keeps what it cached before an
error, so it is a `Prog`.
-/

namespace Floresta

open Fallible

namespace Wallet

/-! ## Descriptors -/

inductive WatchOnlyError
  | databaseError
  | duplicateDescriptor (descriptor : String)
  | invalidDescriptor (error : String)
  deriving DecidableEq, Repr

/-- The functions of the `miniscript` crate that `descriptor/mod.rs` calls. -/
structure Miniscript where
  Descriptor : Type
  hasWildcard : String → Except String Bool
  /-- parses a descriptor, checks it and splits it into its paths -/
  parseAndSplit : String → Except String (List Descriptor)
  /-- the script of `Descriptor::at_derivation_index` -/
  scriptAt : Descriptor → Nat → Except String Script

namespace Miniscript

variable (M : Miniscript)

/-- The range `index..index + quantity` of 32-bit indexes, whose end wraps around. -/
def deriveAddressesFromParsedDescriptor (descriptor : M.Descriptor) (index quantity : Nat) :
    Except String (List Script) :=
  (List.range' index ((index + quantity) % 2 ^ 32 - index)).mapM (M.scriptAt descriptor)

def deriveAddressesFromDescriptor (descriptor : String) (index quantity : Nat) :
    Except String (List Script) := do
  let descriptors ← M.parseAndSplit descriptor
  let addresses ← descriptors.mapM fun desc =>
    deriveAddressesFromParsedDescriptor M desc index quantity
  pure addresses.flatten

end Miniscript

def DERIVATION_COUNT : Nat := 100

/-- How close to the horizon a paid address may be before another batch is derived. -/
def GAP_LIMIT : Nat := 20

def INDEX_INITIAL : Nat := 0

/-! ## Cached data -/

structure CachedTransaction where
  tx : Transaction
  height : Nat
  merkleBlock : Option MerkleProof
  hash : Txid
  position : Nat
  deriving DecidableEq, Repr

/-- A transaction as `cache_transaction` stores it. -/
def CachedTransaction.record (B : Bitcoin) (tx : Transaction) (height : Nat)
    (merkleBlock : MerkleProof) (position : Nat) : CachedTransaction where
  tx := tx
  height := height
  merkleBlock := some merkleBlock
  hash := B.computeTxid tx
  position := position

/-- The order of cached transactions: by height, then by position, then by hash. -/
def CachedTransaction.Le (a b : CachedTransaction) : Prop :=
  a.height < b.height ∨ a.height = b.height ∧
    (a.position < b.position ∨ a.position = b.position ∧ a.hash.toNat ≤ b.hash.toNat)

instance : DecidableRel CachedTransaction.Le := fun _ _ => inferInstanceAs (Decidable (_ ∨ _))

structure CachedAddress where
  scriptHash : Hash256
  /-- a `u64` -/
  balance : Nat
  script : Script
  transactions : List Txid
  utxos : List OutPoint
  deriving DecidableEq, Repr

/-- `Stats`, the field that is maintained. -/
structure Stats where
  derivationIndex : UInt32
  deriving DecidableEq, Repr

def CachedAddress.new (hash : Hash256) (script : Script) : CachedAddress where
  scriptHash := hash
  balance := 0
  script := script
  transactions := []
  utxos := []

/-- `KvDatabase`: a bucket of addresses, one of transactions, the descriptors and the stats. -/
structure KvDatabase where
  addresses : HashMap Hash256 CachedAddress
  transactions : HashMap Txid CachedTransaction
  descriptors : List String
  stats : Option Stats

namespace KvDatabase

def empty : KvDatabase := ⟨∅, ∅, [], none⟩

/-- The addresses in the order of their keys. -/
def load (db : KvDatabase) : List CachedAddress :=
  (Ordered.ordered BitVec.toNat (fun _ _ => BitVec.eq_of_toNat_eq) db.addresses.keys).filterMap
    db.addresses.lookup

def save (db : KvDatabase) (address : CachedAddress) : KvDatabase :=
  { db with addresses := db.addresses.insert address.scriptHash address }

def update (db : KvDatabase) (address : CachedAddress) : KvDatabase :=
  db.save address

def saveDescriptor (db : KvDatabase) (descriptor : String) : KvDatabase :=
  { db with descriptors := db.descriptors ++ [descriptor] }

def getTransaction (db : KvDatabase) (txid : Txid) : Option CachedTransaction :=
  db.transactions.lookup txid

def saveTransaction (B : Bitcoin) (db : KvDatabase) (tx : CachedTransaction) : KvDatabase :=
  { db with transactions := db.transactions.insert (B.computeTxid tx.tx) tx }

def saveStats (db : KvDatabase) (stats : Stats) : KvDatabase :=
  { db with stats := some stats }

end KvDatabase

structure AddressCacheInner where
  database : KvDatabase
  addressMap : HashMap Hash256 CachedAddress
  scriptSet : Finset Hash256
  utxoIndex : HashMap OutPoint Hash256
  derivedIndex : HashMap Hash256 Nat

/-! ## Script hashes -/

def reverseBytes (hash : Hash256) : Hash256 :=
  BitVec.ofNat 256 ((List.range 32).foldl (fun acc i => acc * 256 + hash.toNat / 256 ^ i % 256) 0)

/-- Electrum's script hash. -/
def getSpkHash (B : Bitcoin) (spk : Script) : Hash256 := reverseBytes (B.sha256 spk)

namespace AddressCacheInner

variable (B : Bitcoin) (M : Miniscript)

/-! ## Tracking addresses -/

def cacheAddress (s : AddressCacheInner) (scriptPk : Script) : AddressCacheInner :=
  let hash := getSpkHash B scriptPk
  if hash ∈ s.addressMap then s
  else
    let newAddress := CachedAddress.new hash scriptPk
    { s with
      database := s.database.save newAddress
      addressMap := s.addressMap.insert hash newAddress
      scriptSet := insert hash s.scriptSet }

def setDerivedIndex (s : AddressCacheInner) (hash : Hash256) (index : Nat) : AddressCacheInner :=
  { s with derivedIndex := s.derivedIndex.insert hash index }

/-- Caches the scripts of a descriptor without a wildcard. -/
def cacheFixed (scripts : List Script) : Prog AddressCacheInner String Unit :=
  scripts.forM fun script => Prog.modify fun s => s.cacheAddress B script

/-- Caches a batch of scripts with their derivation indexes: each path yields `count` of them. -/
def cacheDerived (start count : Nat) (scripts : List Script) :
    Prog AddressCacheInner String Unit :=
  scripts.zipIdx.forM fun (script, position) => do
    Prog.modify fun s => s.setDerivedIndex (getSpkHash B script) (start + position % count)
    Prog.modify fun s => s.cacheAddress B script

def deriveDescriptor (start count : Nat) (derived : List Script) (descriptor : String) :
    Prog AddressCacheInner String (List Script) := do
  let wildcard ← Prog.lift (M.hasWildcard descriptor)
  if wildcard then
    let scripts ← Prog.lift (M.deriveAddressesFromDescriptor descriptor start count)
    cacheDerived B start count scripts
    pure (derived ++ scripts)
  else
    let scripts ← Prog.lift (M.deriveAddressesFromDescriptor descriptor INDEX_INITIAL 1)
    cacheFixed B scripts
    pure (derived ++ scripts)

def deriveRange (descriptors : List String) (start count : Nat) :
    Prog AddressCacheInner String (List Script) :=
  descriptors.foldlM (deriveDescriptor B M start count) []

/-- An error of `derive_range` as the wallet reports it. -/
def deriveRangeOrFail (descriptors : List String) (start count : Nat) :
    Prog AddressCacheInner WatchOnlyError (List Script) :=
  Prog.zoom id (fun s _ => s) .invalidDescriptor (deriveRange B M descriptors start count)

def getStats : Prog AddressCacheInner WatchOnlyError Stats := do
  Prog.lift (okOr (← Prog.read fun s => s.database.stats) .databaseError)

def saveStats (stats : Stats) : Prog AddressCacheInner WatchOnlyError Unit :=
  Prog.modify fun s => { s with database := s.database.saveStats stats }

def deriveAddresses : Prog AddressCacheInner WatchOnlyError Unit := do
  let stats ← getStats
  let descriptors ← Prog.read fun s => s.database.descriptors
  let _ ← deriveRangeOrFail B M descriptors stats.derivationIndex.toNat DERIVATION_COUNT
  saveStats { stats with derivationIndex := stats.derivationIndex + .ofNat DERIVATION_COUNT }

/-- Derives another batch when `hash` is a derived address close to the horizon; an error is only
logged. -/
def maybeDeriveAddresses (s : AddressCacheInner) (hash : Hash256) :
    Except Panic AddressCacheInner :=
  match s.derivedIndex.lookup hash with
  | none => .ok s
  | some index => do
      let stats ← okOr s.database.stats .unwrap
      if stats.derivationIndex.toNat ≤ (index + GAP_LIMIT) % 2 ^ 32 then
        pure (deriveAddresses B M s).2
      else pure s

/-- The part of `push_descriptor` behind the lock. -/
def pushDescriptor (descriptor : String) :
    Prog AddressCacheInner WatchOnlyError (List Script) := do
  let cached ← Prog.read fun s => decide (descriptor ∈ s.database.descriptors)
  if cached then Prog.fail (.duplicateDescriptor descriptor)
  else
    let stats ← getStats
    let horizon := max stats.derivationIndex.toNat DERIVATION_COUNT
    let scripts ← deriveRangeOrFail B M [descriptor] INDEX_INITIAL horizon
    Prog.modify fun s => { s with database := s.database.saveDescriptor descriptor }
    saveStats { stats with derivationIndex := .ofNat horizon }
    pure scripts

/-! ## Opening a database -/

def insertLoaded (s : AddressCacheInner) (address : CachedAddress) : AddressCacheInner :=
  { s with
    addressMap := s.addressMap.insert address.scriptHash address
    scriptSet := insert address.scriptHash s.scriptSet
    utxoIndex := address.utxos.foldl (fun index utxo => index.insert utxo address.scriptHash)
      s.utxoIndex }

/-- Derives again what the stored descriptors had been derived to. -/
def rederive (s : AddressCacheInner) : Except Panic AddressCacheInner :=
  if s.database.descriptors = [] then .ok s
  else do
    let stats ← okOr s.database.stats (.expect "Could not load stats")
    -- wallets of older versions have a first batch and an index of 0
    let (stats, s) :=
      if stats.derivationIndex.toNat < DERIVATION_COUNT then
        let stats : Stats := ⟨.ofNat DERIVATION_COUNT⟩
        (stats, { s with database := s.database.saveStats stats })
      else (stats, s)
    match deriveRange B M s.database.descriptors INDEX_INITIAL stats.derivationIndex.toNat s with
    | (.ok _, s') => .ok s'
    | (.error _, _) => .error (.expect "Stored descriptors are valid")

def new (database : KvDatabase) : Except Panic AddressCacheInner :=
  let database := if database.stats.isNone then database.saveStats ⟨0⟩ else database
  rederive B M (database.load.foldl insertLoaded
    { database := database, addressMap := ∅, scriptSet := ∅, utxoIndex := ∅, derivedIndex := ∅ })

/-! ## Caching a transaction -/

def getTransaction (s : AddressCacheInner) (txid : Txid) : Option CachedTransaction :=
  s.database.getTransaction txid

/-- Lists the transaction on the address and writes the address back, unless it is listed. -/
def noteTransaction (s : AddressCacheInner) (hash : Hash256) (address : CachedAddress)
    (txid : Txid) : AddressCacheInner :=
  if txid ∈ address.transactions then
    { s with addressMap := s.addressMap.insert hash address }
  else
    let address := { address with transactions := address.transactions ++ [txid] }
    { s with
      addressMap := s.addressMap.insert hash address
      database := s.database.update address }

def saveMempoolTx (s : AddressCacheInner) (hash : Hash256)
    (transactionToCache : CachedTransaction) : AddressCacheInner :=
  match s.addressMap.lookup hash with
  | none => s
  | some address => s.noteTransaction hash address transactionToCache.hash

/-- Takes the output that an input spends from the address and from the index. -/
def spendUtxo (address : CachedAddress) (utxoIndex : HashMap OutPoint Hash256)
    (transaction : Transaction) (value index : Nat) :
    Except Panic (CachedAddress × HashMap OutPoint Hash256) := do
  require (value ≤ address.balance) .assert
  let input ← okOr transaction.input[index]?
    (.expect "Malformed call, index is bigger than the output vector")
  let address := { address with balance := address.balance - value }
  if input.previousOutput ∈ address.utxos then
    pure ({ address with utxos := address.utxos.erase input.previousOutput },
      utxoIndex.erase input.previousOutput)
  else pure (address, utxoIndex)

def outPoint (transaction : Transaction) (index : Nat) : OutPoint :=
  ⟨B.computeTxid transaction, UInt32.ofNat index⟩

def addUtxo (address : CachedAddress) (utxoIndex : HashMap OutPoint Hash256)
    (transaction : Transaction) (value index : Nat) (hash : Hash256) :
    CachedAddress × HashMap OutPoint Hash256 :=
  let utxo := outPoint B transaction index
  ({ address with
      utxos := address.utxos ++ [utxo]
      balance := (address.balance + value) % 2 ^ 64 },
    utxoIndex.insert utxo hash)

def saveNonMempoolTx (s : AddressCacheInner) (transaction : Transaction) (isSpend : Bool)
    (value index : Nat) (hash : Hash256) (transactionToCache : CachedTransaction) :
    Except Panic AddressCacheInner :=
  match s.addressMap.lookup hash with
  | none => .ok s
  | some address => do
      let (address, utxoIndex) ←
        if isSpend then spendUtxo address s.utxoIndex transaction value index
        else pure (addUtxo B address s.utxoIndex transaction value index hash)
      pure ({ s with utxoIndex := utxoIndex }.noteTransaction hash address transactionToCache.hash)

def followAddress (s : AddressCacheInner) (transaction : Transaction) (index : Nat)
    (hash : Hash256) : Except Panic AddressCacheInner :=
  if hash ∈ s.addressMap then .ok s
  else do
    let out ← okOr transaction.output[index]? .indexOutOfBounds
    let newAddress := CachedAddress.new hash out.scriptPubkey
    pure { s with
      database := s.database.save newAddress
      addressMap := s.addressMap.insert hash newAddress
      scriptSet := insert hash s.scriptSet }

def cacheTransaction (s : AddressCacheInner) (transaction : Transaction) (height value : Nat)
    (merkleBlock : MerkleProof) (position index : Nat) (isSpend : Bool) (hash : Hash256) :
    Except Panic AddressCacheInner := do
  let transactionToCache := CachedTransaction.record B transaction height merkleBlock position
  let s := { s with database := s.database.saveTransaction B transactionToCache }
  let s ← s.followAddress transaction index hash
  let s ← s.maybeDeriveAddresses B M hash
  if 0 < height then
    s.saveNonMempoolTx B transaction isSpend value index hash transactionToCache
  else pure (s.saveMempoolTx hash transactionToCache)

/-! ## Blocks -/

/-- Where a transaction stands: its block, the height of the block, and its position there. -/
structure Place where
  block : Block
  height : Nat
  position : Nat

/-- An input of the loop of `block_process`: does it spend one of our utxos? -/
def processInput (place : Place) (transaction : Transaction) (s : AddressCacheInner)
    (input : TxIn × Nat) : Except Panic AddressCacheInner :=
  match s.utxoIndex.lookup input.1.previousOutput with
  | none => .ok s
  | some hash => do
      let script ← okOr (s.addressMap.lookup hash)
        (.expect "Can't cache a utxo for a address we don't have")
      let tx ← okOr (s.getTransaction input.1.previousOutput.txid)
        (.expect "We cached a utxo for a transaction we don't have")
      let utxo ← okOr tx.tx.output[input.1.previousOutput.vout.toNat]?
        (.expect "Did we cache an invalid utxo?")
      let merkleBlock ← MerkleProof.fromBlock B place.block place.position
      s.cacheTransaction B M transaction place.height utxo.value.sat merkleBlock place.position
        input.2 true script.scriptHash

/-- An output of the loop of `block_process`: is one of our addresses the recipient? -/
def processOutput (place : Place) (transaction : Transaction) (s : AddressCacheInner)
    (output : TxOut × Nat) : Except Panic AddressCacheInner :=
  let hash := getSpkHash B output.1.scriptPubkey
  if hash ∈ s.scriptSet then do
    let merkleBlock ← MerkleProof.fromBlock B place.block place.position
    s.cacheTransaction B M transaction place.height output.1.value.sat merkleBlock place.position
      output.2 false hash
  else .ok s

/-- An output of the loop of `block_process`, with the outputs found so far. -/
def collectOutput (place : Place) (transaction : Transaction)
    (st : AddressCacheInner × List (Transaction × TxOut)) (output : TxOut × Nat) :
    Except Panic (AddressCacheInner × List (Transaction × TxOut)) := do
  let s ← processOutput B M place transaction st.1 output
  if getSpkHash B output.1.scriptPubkey ∈ st.1.scriptSet then
    pure (s, st.2 ++ [(transaction, output.1)])
  else pure (s, st.2)

def processTransaction (block : Block) (height : Nat)
    (st : AddressCacheInner × List (Transaction × TxOut)) (transaction : Transaction × Nat) :
    Except Panic (AddressCacheInner × List (Transaction × TxOut)) := do
  let place : Place := ⟨block, height, transaction.2⟩
  let s ← transaction.1.input.zipIdx.foldlM (processInput B M place transaction.1) st.1
  transaction.1.output.zipIdx.foldlM (collectOutput B M place transaction.1) (s, st.2)

/-- Looks for transactions of ours in a block, and returns the outputs that pay us. -/
def blockProcess (s : AddressCacheInner) (block : Block) (height : Nat) :
    Except Panic (AddressCacheInner × List (Transaction × TxOut)) :=
  block.txdata.zipIdx.foldlM (processTransaction B M block height) (s, [])

/-! ## The mempool -/

/-- The inputs that spend our utxos, with the outputs they spend. -/
def findSpend (s : AddressCacheInner) (transaction : Transaction) :
    Except Panic (List (Nat × TxOut)) :=
  transaction.input.zipIdx.foldlM (fun spends input =>
    if input.1.previousOutput ∈ s.utxoIndex then do
      let prevTx ← okOr (s.getTransaction input.1.previousOutput.txid) .unwrap
      let out ← okOr prevTx.tx.output[input.1.previousOutput.vout.toNat]? .indexOutOfBounds
      pure (spends ++ [(input.2, out)])
    else pure spends) []

/-- Caches the transaction for the address of an output, unconfirmed. -/
def cacheUnconfirmed (transaction : Transaction) (s : AddressCacheInner) (coin : Nat × TxOut) :
    Except Panic AddressCacheInner := do
  let script ← okOr (s.addressMap.lookup (getSpkHash B coin.2.scriptPubkey)) .unwrap
  s.cacheTransaction B M transaction 0 coin.2.value.sat MerkleProof.default 0 coin.1 true
    script.scriptHash

def cacheUnconfirmedOutput (transaction : Transaction)
    (st : AddressCacheInner × List (Nat × TxOut)) (output : TxOut × Nat) :
    Except Panic (AddressCacheInner × List (Nat × TxOut)) :=
  if getSpkHash B output.1.scriptPubkey ∈ st.1.scriptSet then do
    let s ← cacheUnconfirmed B M transaction st.1 (output.2, output.1)
    pure (s, st.2 ++ [(output.2, output.1)])
  else .ok st

def cacheMempoolTransaction (s : AddressCacheInner) (transaction : Transaction) :
    Except Panic (AddressCacheInner × List TxOut) := do
  let coins ← s.findSpend transaction
  let s ← coins.foldlM (cacheUnconfirmed B M transaction) s
  let (s, coins) ← transaction.output.zipIdx.foldlM (cacheUnconfirmedOutput B M transaction)
    (s, coins)
  pure (s, coins.map Prod.snd)

/-! ## Reading -/

/-- All transactions of an address: the confirmed ones in their order, then the others. -/
def getAddressHistory (s : AddressCacheInner) (scriptHash : Hash256) :
    Option (List CachedTransaction) :=
  (s.addressMap.lookup scriptHash).map fun cachedScript =>
    let transactions := cachedScript.transactions.filterMap s.getTransaction
    (transactions.filter fun tx => tx.height ≠ 0).insertionSort CachedTransaction.Le ++
      transactions.filter fun tx => tx.height = 0

def getAddressBalance (s : AddressCacheInner) (scriptHash : Hash256) : Option Nat :=
  (s.addressMap.lookup scriptHash).map CachedAddress.balance

def isAddressCached (s : AddressCacheInner) (scriptHash : Hash256) : Bool :=
  decide (scriptHash ∈ s.addressMap)

def getMerkleProof (s : AddressCacheInner) (txid : Txid) : Option MerkleProof :=
  (s.getTransaction txid).bind fun tx => tx.merkleBlock

def getHeight (s : AddressCacheInner) (txid : Txid) : Option Nat :=
  (s.getTransaction txid).map fun tx => tx.height

def getPosition (s : AddressCacheInner) (txid : Txid) : Option Nat :=
  (s.getTransaction txid).map fun tx => tx.position

end AddressCacheInner

end Wallet

end Floresta
