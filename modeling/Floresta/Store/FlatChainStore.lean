import Floresta.Errors
import Floresta.Lib.Lru
import Floresta.Lib.Prog

/-!
# FlatChainStore — headers, block index and accumulators on disk

The model of `flat_chain_store.rs`.  Headers of the best chain stand in a file at the position of
their height, all others in a second file in the order they came.  An open-addressing table maps a
block hash to a tagged position in one of the two, a cache keeps the headers used last, and the
accumulators are appended to a file of their own.  A memory-mapped file is a function from positions
to records that starts out zeroed.
-/

namespace Floresta

/-! ## Stored headers -/

/-- A header with its validation state and, where it is known, its height. -/
inductive DiskBlockHeader
  | fullyValid (header : BlockHeader) (height : Nat)
  | assumedValid (header : BlockHeader) (height : Nat)
  | orphan (header : BlockHeader)
  | headersOnly (header : BlockHeader) (height : Nat)
  | inFork (header : BlockHeader) (height : Nat)
  | invalidChain (header : BlockHeader)
  deriving DecidableEq, Repr

namespace DiskBlockHeader

def header : DiskBlockHeader → BlockHeader
  | fullyValid h _ | assumedValid h _ | orphan h | headersOnly h _ | inFork h _ | invalidChain h => h

def height : DiskBlockHeader → Option Nat
  | inFork _ n | fullyValid _ n | headersOnly _ n | assumedValid _ n => some n
  | orphan _ | invalidChain _ => none

def tryHeight (d : DiskBlockHeader) : Except BlockchainError Nat :=
  match d.height with
  | some n => .ok n
  | none => .error .orphanOrInvalidBlock

/-- The states of best-chain headers, which `save_header` writes at the position of their height. -/
def isActive : DiskBlockHeader → Bool
  | fullyValid _ _ | headersOnly _ _ | assumedValid _ _ => true
  | inFork _ _ | orphan _ | invalidChain _ => false

def blockHash (B : Bitcoin) (d : DiskBlockHeader) : BlockHash := B.blockHash d.header

end DiskBlockHeader

structure BestChain where
  bestBlock : BlockHash
  depth : Nat
  validationIndex : BlockHash
  alternativeTips : List BlockHash
  deriving DecidableEq, Repr

inductive ChainStoreWarning
  | headerStorageFull
  | blockIndexFull
  deriving DecidableEq, Repr

def MAX_ACCUMULATOR_SIZE : Nat := 2056

/-! ## Positions -/

/-- A tagged 32-bit position: the most significant bit tells the fork file from the headers file. -/
structure Index where
  fork : Bool
  pos : Nat
  deriving DecidableEq, Repr

namespace Index

def FORK_BIT : Nat := 0x80000000

def new (index : Nat) : Except FlatChainstoreError Index :=
  if FORK_BIT ≤ index then .error .oversizedIndex else .ok ⟨false, index⟩

def newFork (index : Nat) : Except FlatChainstoreError Index :=
  if FORK_BIT ≤ index then .error .oversizedIndex else .ok ⟨true, index⟩

def isMainChain (i : Index) : Bool := !i.fork

/-- Not yet written, or the position of the genesis header. -/
def isEmpty (i : Index) : Bool := !i.fork && i.pos == 0

end Index

/-! ## Files -/

/-- A stored header with its hash, and where its accumulator is. -/
structure HashedDiskHeader where
  header : DiskBlockHeader
  hash : BlockHash
  accPos : Nat
  accLen : Nat
  deriving DecidableEq, Repr

/-- Memory that was not written yet. -/
def HashedDiskHeader.zeroed : HashedDiskHeader := ⟨.fullyValid ⟨0, 0, 0, 0, 0, 0⟩ 0, 0, 0, 0⟩

structure Metadata where
  bestBlock : BlockHash
  depth : Nat
  validationIndex : BlockHash
  forkCount : Nat
  headersFileSize : Nat
  forkFileSize : Nat
  blockIndexOccupancy : Nat
  indexCapacity : Nat

structure FlatChainStore where
  headers : Nat → HashedDiskHeader
  metadata : Metadata
  indexMap : Nat → Index
  indexSize : Nat
  forkHeaders : Nat → HashedDiskHeader
  accumulatorFile : Bytes
  cache : Lru BlockHash DiskBlockHeader
  pendingWarnings : List ChainStoreWarning

structure FlatChainStoreConfig where
  blockIndexSize : Option Nat
  headersFileSize : Option Nat
  cacheSize : Option Nat
  forkFileSize : Option Nat

/-- A bucket of the index: free, or in use by the header that was looked for. -/
inductive IndexBucket
  | empty (ptr : Nat)
  | occupied (ptr : Nat) (header : DiskBlockHeader)
  deriving DecidableEq, Repr

/-! ## Block index -/

/-- The Jenkins hash of the bytes of a block hash. -/
def indexHashFn (blockHash : BlockHash) : UInt32 :=
  let mixed := (List.range 32).foldl (fun (hash : UInt32) i =>
    let hash := hash + UInt32.ofNat (blockHash.toNat / 256 ^ i % 256)
    let hash := hash + (hash <<< 10)
    hash ^^^ (hash >>> 6)) 0xffff
  let hash := mixed + (mixed <<< 3)
  let hash := hash ^^^ (hash >>> 11)
  hash + (hash <<< 15)

namespace FlatChainStore

def truncateToPow2 (n : Nat) : Nat :=
  if n = 0 then 0
  else
    let n := n - 1
    let n := n ||| (n >>> 1)
    let n := n ||| (n >>> 2)
    let n := n ||| (n >>> 4)
    let n := n ||| (n >>> 8)
    let n := n ||| (n >>> 16)
    n + 1

def createChainStore (config : FlatChainStoreConfig) : FlatChainStore :=
  let indexSize := truncateToPow2 (config.blockIndexSize.getD 10000000)
  { headers := fun _ => HashedDiskHeader.zeroed
    metadata :=
      { bestBlock := 0
        depth := 0
        validationIndex := 0
        forkCount := 0
        headersFileSize := truncateToPow2 (config.headersFileSize.getD 10000000)
        forkFileSize := truncateToPow2 (config.forkFileSize.getD 10000)
        blockIndexOccupancy := 0
        indexCapacity := indexSize }
    indexMap := fun _ => ⟨false, 0⟩
    indexSize := indexSize
    forkHeaders := fun _ => HashedDiskHeader.zeroed
    accumulatorFile := []
    -- a size of zero is replaced by the default
    cache := Lru.empty (match config.cacheSize with
      | some (n + 1) => n + 1
      | _ => 1000)
    pendingWarnings := [] }

variable (s : FlatChainStore)

/-- The number of records in the file of a position. -/
def slotCount (i : Index) : Nat :=
  if i.isMainChain then s.metadata.headersFileSize else s.metadata.forkFileSize

def slot (i : Index) : HashedDiskHeader :=
  if i.isMainChain then s.headers i.pos else s.forkHeaders i.pos

def setSlot (i : Index) (record : HashedDiskHeader) : FlatChainStore :=
  if i.isMainChain then { s with headers := Function.update s.headers i.pos record }
  else { s with forkHeaders := Function.update s.forkHeaders i.pos record }

/-- A record that was written before. -/
def getDiskHeader (i : Index) : Except FlatChainstoreError HashedDiskHeader :=
  if s.slotCount i ≤ i.pos then .error .fullIndex
  else if (s.slot i).hash = 0 then .error .headerNotFound
  else .ok (s.slot i)

/-- The bounds check of `get_disk_header_mut`, whose record may be unwritten. -/
def getDiskHeaderMut (i : Index) : Except FlatChainstoreError HashedDiskHeader :=
  if s.slotCount i ≤ i.pos then .error .fullIndex else .ok (s.slot i)

/-- The probing loop of `hash_map_find_pos`, with the number of rounds that are left. -/
def probe (blockHash : BlockHash) : Nat → Nat → Except FlatChainstoreError IndexBucket
  | 0, _ => .error .fullIndex
  | rounds + 1, hash => do
      let ptr := hash &&& (s.indexSize - 1)
      let candidate := s.indexMap ptr
      let fileHeader ← s.getDiskHeader candidate
      if fileHeader.hash = blockHash then pure (.occupied ptr fileHeader.header)
      else if candidate.isEmpty then pure (.empty ptr)
      else probe blockHash rounds ((hash + 1) % 2 ^ 64)

def hashMapFindPos (blockHash : BlockHash) : Except FlatChainstoreError IndexBucket :=
  s.probe blockHash s.indexSize (indexHashFn blockHash).toNat

/-- Writes the position of a hash; the flag says whether the bucket was free. -/
def setIndexForHash (hash : BlockHash) (index : Index) :
    Except FlatChainstoreError (Bool × FlatChainStore) := do
  match ← s.hashMapFindPos hash with
  | .empty ptr => pure (true, { s with indexMap := Function.update s.indexMap ptr index })
  | .occupied ptr _ => pure (false, { s with indexMap := Function.update s.indexMap ptr index })

def getHeaderByHash (hash : BlockHash) : Except FlatChainstoreError (Option DiskBlockHeader) := do
  match ← s.hashMapFindPos hash with
  | .empty _ => pure none
  | .occupied _ header => pure (some header)

end FlatChainStore

/-! ## Operations -/

abbrev StoreM := Prog FlatChainStore FlatChainstoreError

namespace FlatChainStore

variable (B : Bitcoin)

def addIndexEntry (hash : BlockHash) (index : Index) : StoreM Unit := fun s =>
  let nextOccupancy := s.metadata.blockIndexOccupancy + 1
  if s.metadata.indexCapacity ≤ nextOccupancy then (.error .fullIndex, s)
  else
    match s.setIndexForHash hash index with
    | .error e => (.error e, s)
    | .ok (true, s') =>
      (.ok (), { s' with
        metadata := { s'.metadata with blockIndexOccupancy := nextOccupancy } })
    | .ok (false, s') => (.ok (), s')

/-- Only called for best-chain headers, which have a height. -/
def writeHeaderToStorage (header : DiskBlockHeader) : StoreM Unit := do
  let index ← Prog.lift (Index.new (header.height.getD 0))
  let s ← Prog.read id
  let _ ← Prog.lift (s.getDiskHeaderMut index)
  Prog.modify (setSlot · index ⟨header, header.blockHash B, 0, 0⟩)

def saveForkBlock (header : DiskBlockHeader) : StoreM Unit := do
  let s ← Prog.read id
  let index ← Prog.lift (Index.newFork s.metadata.forkCount)
  let _ ← Prog.lift (s.getDiskHeaderMut index)
  Prog.modify (setSlot · index ⟨header, header.blockHash B, 0, 0⟩)
  addIndexEntry (header.blockHash B) index
  Prog.modify fun s =>
    { s with metadata := { s.metadata with forkCount := s.metadata.forkCount + 1 } }

def tryPushWarning (warning : ChainStoreWarning) : StoreM Unit :=
  Prog.modify fun s =>
    if warning ∈ s.pendingWarnings then s
    else { s with pendingWarnings := s.pendingWarnings ++ [warning] }

/-- Runs an operation and records a warning if the store was full. -/
def warningIfFull (warning : ChainStoreWarning) (m : StoreM Unit) : StoreM Unit := do
  let result ← Prog.attempt m
  match result with
  | .error .fullIndex => tryPushWarning warning
  | _ => pure ()
  Prog.lift result

def saveHeader (header : DiskBlockHeader) : StoreM Unit := do
  Prog.modify fun s => { s with cache := s.cache.put (header.blockHash B) header }
  warningIfFull .headerStorageFull
    (if header.isActive then writeHeaderToStorage B header else saveForkBlock B header)

def updateBlockIndex (height : Nat) (hash : BlockHash) : StoreM Unit := do
  let index ← Prog.lift (Index.new height)
  warningIfFull .blockIndexFull (addIndexEntry hash index)

/-- Looks into the cache first, and fills it. -/
def getHeader (hash : BlockHash) : StoreM (Option DiskBlockHeader) := fun s =>
  match s.cache.get hash with
  | (some header, cache) => (.ok (some header), { s with cache := cache })
  | (none, cache) =>
    match s.getHeaderByHash hash with
    | .error e => (.error e, { s with cache := cache })
    | .ok none => (.ok none, { s with cache := cache })
    | .ok (some header) => (.ok (some header), { s with cache := cache.put hash header })

/-- A record that was not written yet is no error. -/
def recordAt (height : Nat) : StoreM (Option HashedDiskHeader) := fun s =>
  match Index.new height with
  | .error e => (.error e, s)
  | .ok index =>
    match s.getDiskHeader index with
    | .ok record => (.ok (some record), s)
    | .error .headerNotFound => (.ok none, s)
    | .error e => (.error e, s)

def getHeaderByHeight (height : Nat) : StoreM (Option DiskBlockHeader) := do
  let record ← recordAt height
  pure (record.map HashedDiskHeader.header)

def getBlockHash (height : Nat) : StoreM (Option BlockHash) := do
  let record ← recordAt height
  pure (record.map HashedDiskHeader.hash)

def saveHeight (bestBlock : BestChain) : StoreM Unit :=
  Prog.modify fun s =>
    { s with
      metadata := { s.metadata with
        bestBlock := bestBlock.bestBlock
        depth := bestBlock.depth
        validationIndex := bestBlock.validationIndex } }

/-! ## Accumulators -/

/-- `File::set_len`: cuts the file off, or fills it up with zeros. -/
def setLen (file : Bytes) (len : Nat) : Bytes :=
  file.take len ++ List.replicate (len - file.length) 0

/-- The height of the last validated block, which has to be known if the block is. -/
def validationHeight : Option DiskBlockHeader → Except FlatChainstoreError Nat
  | none => .ok 0
  | some header =>
    match header.height with
    | some n => .ok n
    | none => .error .invalidValidationIndex

/-- The end of `save_roots_for_block`: the roots go to the end of the file, their position to the
record of the block. -/
def appendRoots (roots : Bytes) (index : Index) : StoreM Unit := do
  let s ← Prog.read id
  let pos := s.accumulatorFile.length
  (if MAX_ACCUMULATOR_SIZE < roots.length then Prog.fail .oversizedAccumulator else pure ())
  let record ← Prog.lift (s.getDiskHeaderMut index)
  (if record.hash = 0 then Prog.fail .headerNotFound else pure ())
  Prog.modify fun s =>
    let s := s.setSlot index
      { record with accPos := pos % 2 ^ 32, accLen := roots.length % 2 ^ 32 }
    { s with accumulatorFile := s.accumulatorFile ++ roots }

def saveRootsForBlock (roots : Bytes) (height : Nat) : StoreM Unit := do
  let index ← Prog.lift (Index.new height)
  let metadata ← Prog.read metadata
  let header ← getHeader metadata.validationIndex
  let validationIndex ← Prog.lift (validationHeight header)
  (if height ≤ validationIndex then do
    -- this is probably a reorg: the file is cut off at the previous block
    let s ← Prog.read id
    let record ← Prog.lift (s.getDiskHeader index)
    Prog.modify fun s => { s with accumulatorFile := setLen s.accumulatorFile record.accPos }
   else pure ())
  appendRoots roots index

def loadRootsForBlock (height : Nat) : StoreM (Option Bytes) := do
  let index ← Prog.lift (Index.new height)
  let s ← Prog.read id
  let record ← Prog.lift (s.getDiskHeader index)
  (if record.accLen = 0 then pure none
   else if record.accPos + record.accLen ≤ s.accumulatorFile.length then
     pure (some ((s.accumulatorFile.drop record.accPos).take record.accLen))
   else Prog.fail (.io "failed to fill whole buffer"))

end FlatChainStore

end Floresta
