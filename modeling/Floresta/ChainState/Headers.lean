import Floresta.Consensus.Header
import Floresta.Store.FlatChainStore

/-!
# Headers — the header half of the chain state

The model of `chain_state.rs` up to `accept_header`: what a new header is checked against, how a
branch is walked back to the genesis block, and the reorganisation that replaces the best chain by a
branch with more work.  The `while` loops that follow `prev_blockhash` get as many rounds as the
files hold records; a walk that needs more of them is a circle, which the fault `diverged` stands
for.
-/

namespace Floresta

open Fallible

/-! ## State -/

/-- The crates a chain state calls, and the parameters of its network. -/
structure ChainContext where
  bitcoin : Bitcoin
  pow : ProofOfWork
  rustreexo : Rustreexo
  kernel : Kernel
  parameters : ChainParams

namespace ChainContext

variable (C : ChainContext)

def blockHash (header : BlockHeader) : BlockHash := C.bitcoin.blockHash header

def genesisHeader : BlockHeader := C.parameters.genesis.header

def genesisHash : BlockHash := C.blockHash C.genesisHeader

end ChainContext

inductive IBDState
  | headersSync
  | swiftSync (processedBlocks totalBlocks : Nat)
  | proofSync
  | done
  deriving DecidableEq, Repr

structure ChainStateInner (C : ChainContext) where
  acc : C.rustreexo.Stump
  chainstore : FlatChainStore
  bestBlock : BestChain
  ibd : IBDState
  assumeValid : Option BlockHash

/-- How a call on the chain state can fail: with an error of its own, in an endless loop or in a
panic. -/
inductive Fault
  | error (e : BlockchainError)
  | diverged
  | panicked (msg : String)
  deriving DecidableEq, Repr

abbrev ChainM (C : ChainContext) := Prog (ChainStateInner C) Fault

namespace ChainState

variable {C : ChainContext}

def raise {α : Type} (e : BlockchainError) : ChainM C α := Prog.fail (.error e)

/-- A check that does not read the state. -/
def check {α : Type} (x : Except BlockchainError α) : ChainM C α := Prog.lift (x.mapError .error)

/-- An operation of the store, whose errors are database errors here. -/
def store {α : Type} (m : StoreM α) : ChainM C α :=
  Prog.zoom ChainStateInner.chainstore (fun store s => { s with chainstore := store })
    (fun e => .error (.database e)) m

/-- A loop over the ancestors of a header. -/
def walk {α β : Type} (body : α → ChainM C (α ⊕ β)) (a : α) : ChainM C β := fun s =>
  Prog.loop .diverged body
    (s.chainstore.metadata.headersFileSize + s.chainstore.metadata.forkFileSize + 3) a s

/-! ## Reading -/

def getDiskBlockHeader (hash : BlockHash) : ChainM C DiskBlockHeader := do
  match ← store (FlatChainStore.getHeader hash) with
  | some header => pure header
  | none => raise .blockNotPresent

def getBlockHeader (hash : BlockHash) : ChainM C BlockHeader := do
  let header ← getDiskBlockHeader hash
  pure header.header

def getBlockHeight (hash : BlockHash) : ChainM C (Option Nat) := do
  let header ← getDiskBlockHeader hash
  pure header.height

def getBlockHash (height : Nat) : ChainM C BlockHash := do
  match ← store (FlatChainStore.getBlockHash height) with
  | some hash => pure hash
  | none => raise .blockNotPresent

def getHeaderByHeight (height : Nat) : ChainM C DiskBlockHeader := do
  match ← store (FlatChainStore.getHeaderByHeight height) with
  | some header => pure header
  | none => raise .blockNotPresent

def getBestBlock : ChainM C (Nat × BlockHash) :=
  Prog.read fun s => (s.bestBlock.depth, s.bestBlock.bestBlock)

def isGenesis (C : ChainContext) (header : BlockHeader) : Bool :=
  C.blockHash header = C.genesisHash

def getAncestor (header : BlockHeader) : ChainM C DiskBlockHeader :=
  getDiskBlockHeader header.prevBlockhash

/-- The accumulator that was stored for a height, parsed. -/
def getRootsForBlock (height : Nat) : ChainM C (Option C.rustreexo.Stump) := do
  match ← store (FlatChainStore.loadRootsForBlock height) with
  | none => pure none
  | some bytes =>
    let acc ← check ((C.rustreexo.deserialize bytes).mapError .accumulatorError)
    pure (some acc)

/-- The height of the last validated block, which can only be fully valid. -/
def getValidationIndex : ChainM C Nat := do
  let best ← Prog.read ChainStateInner.bestBlock
  match ← getDiskBlockHeader best.validationIndex with
  | .fullyValid _ height => pure height
  | _ => raise .badValidationIndex

/-! ## Writing -/

def updateHeader (header : DiskBlockHeader) : ChainM C Unit :=
  store (FlatChainStore.saveHeader C.bitcoin header)

def updateHeaderAndIndex (header : DiskBlockHeader) (hash : BlockHash) (height : Nat) :
    ChainM C Unit := do
  store (FlatChainStore.saveHeader C.bitcoin header)
  store (FlatChainStore.updateBlockIndex height hash)

/-! ## Required work -/

def DIFFCHANGE_INTERVAL : Nat := 2016

/-- The ancestor of a header at a height.  The height index is used if the header is on it. -/
def getAncestorAtHeight (header : BlockHeader) (headerHeight targetHeight : Nat) :
    ChainM C BlockHeader := do
  let indexed ← Prog.attempt (getBlockHash headerHeight)
  (if indexed = .ok (C.blockHash header) then do
    let ancestor ← getHeaderByHeight targetHeight
    pure ancestor.header
   else
    (List.range (headerHeight - targetHeight)).foldlM (fun ancestor _ => do
      let parent ← getAncestor ancestor
      pure parent.header) header)

/-- The last ancestor that was not mined under the minimum-difficulty rule of the test networks. -/
def lastRealDifficulty (header : BlockHeader) (height : Nat) : ChainM C BlockHeader :=
  Prog.loop .diverged (fun (p : BlockHeader × Nat) => do
    if p.2 % 2016 ≠ 0 ∧
        p.1.bits = C.pow.toCompactLossy C.parameters.params.maxAttainableTarget then
      let parent ← getAncestor p.1
      pure (.inl (parent.header, p.2 - 1))
    else pure (.inr p.1)) (height + 1) (header, height)

def getNextRequiredWork (lastBlock : BlockHeader) (nextHeight : Nat) (nextHeader : BlockHeader) :
    ChainM C Nat := do
  let params := C.parameters.params
  if nextHeight % 2016 ≠ 0 then
    if !params.allowMinDifficultyBlocks then pure (C.pow.target lastBlock.bits)
    else if lastBlock.time + params.powTargetSpacing * 2 < nextHeader.time then
      pure params.maxAttainableTarget
    else do
      let header ← lastRealDifficulty lastBlock (nextHeight - 1)
      pure (C.pow.target header.bits)
  else if !params.noPowRetargeting then do
    let firstBlock ← getAncestorAtHeight lastBlock (nextHeight - 1)
      (nextHeight - DIFFCHANGE_INTERVAL)
    let target := Consensus.calcNextWorkRequired C.pow C.parameters lastBlock firstBlock
    pure (if target < params.maxAttainableTarget then target else params.maxAttainableTarget)
  else pure (C.pow.target lastBlock.bits)

def checkBip94Block (block : BlockHeader) (height : Nat) : ChainM C Unit := do
  let window := C.parameters.params.minerConfirmationWindow
  if !C.parameters.enforceBip94 ∨ height % window ≠ 0 then pure ()
  else do
    let prevHeader ← getAncestor block
    check (Consensus.checkBip94Time block prevHeader.header)

def validateHeader (blockHeader : BlockHeader) : ChainM C BlockHash := do
  let blockHash ← check (okOr (Consensus.validatePow C.bitcoin C.pow blockHeader)
    (.blockValidation .notEnoughPow))
  let prevBlock ← getAncestor blockHeader
  let prevHeight ← check (okOr prevBlock.height (.blockValidation .blockExtendsAnOrphanChain))
  let height := prevHeight + 1
  let expectedTarget ← getNextRequiredWork prevBlock.header height blockHeader
  check (require (blockHeader.bits = C.pow.toCompactLossy expectedTarget)
    (.blockValidation .badDiffBits))
  checkBip94Block blockHeader height
  check (require (Consensus.minHeaderVersion C.parameters.params height ≤ blockHeader.version)
    (.blockValidation .badVersion))
  pure blockHash

/-! ## Work of a branch -/

/-- The work of one epoch of the best chain: all its blocks have the target of the first one. -/
def epochWork (blockHeight start : Nat) : ChainM C Nat := do
  let epochEnd := min (start + 2015) blockHeight
  let hash ← getBlockHash start
  let header ← getBlockHeader hash
  check (okOr (Consensus.multiplyWorkByU32 (C.pow.work header.bits) (epochEnd - start + 1))
    .operationOverflow)

/-- The cumulative work of a best-chain header, one lookup for each epoch. -/
def getBranchWork (header : BlockHeader) : ChainM C Nat := do
  let height ← getBlockHeight (C.blockHash header)
  let blockHeight ← check (okOr height .blockNotPresent)
  (List.range (blockHeight / 2016 + 1)).foldlM (fun total epoch => do
    let work ← epochWork blockHeight (2016 * epoch)
    pure (Consensus.addWork total work)) 0

def getWork (tip : BlockHash) : ChainM C Nat := do
  let header ← getBlockHeader tip
  getBranchWork header

/-- The cumulative work of a fork header, block by block down to the fork point. -/
def getForkWork (newTip : BlockHeader) (forkPoint : BlockHash) : ChainM C Nat := do
  let work ← getWork forkPoint
  walk (fun (p : BlockHeader × Nat) => do
    if C.blockHash p.1 ≠ forkPoint then
      let parent ← getAncestor p.1
      pure (.inl (parent.header, Consensus.addWork p.2 (C.pow.work p.1.bits)))
    else pure (.inr p.2)) (newTip, work)

/-! ## Walks to the genesis block -/

def orphanMessage (hash : BlockHash) : String :=
  let hex := hash.toHex
  s!"Block {hex} doesn't have a known ancestor (i.e an orphan block)"

def invalidMessage (hash : BlockHash) : String :=
  let hex := hash.toHex
  s!"Block {hex} is invalid"

def invalidChainMessage (hash : BlockHash) : String :=
  let hex := hash.toHex
  s!"Block {hex} is in an invalid chain"

def missingMessage (hash : BlockHash) : String :=
  let hex := hash.toHex
  s!"Block {hex} isn't in our storage"

def checkBranch (branchTip : BlockHeader) : ChainM C Unit :=
  walk (fun header => do
    if isGenesis C header then pure (.inr ())
    else
      match ← getAncestor header with
      | .orphan block => raise (.invalidTip (orphanMessage (C.blockHash block)))
      | ancestor => pure (.inl ancestor.header)) branchTip

def getChainDepth (branchTip : BlockHeader) : ChainM C Nat :=
  walk (fun (p : BlockHeader × Nat) => do
    if isGenesis C p.1 then pure (.inr p.2)
    else
      let ancestor ← getAncestor p.1
      pure (.inl (ancestor.header, p.2 + 1))) (branchTip, 0)

/-- Where a branch forks out of the best chain. -/
def findForkPoint (header : BlockHeader) : ChainM C BlockHeader := do
  let parent ← getAncestor header
  walk (fun header => do
    if isGenesis C header then raise (.invalidTip "Couldn't find a fork point")
    else
      match ← store (FlatChainStore.getHeader (C.blockHash header)) with
      | some (.headersOnly block _) | some (.fullyValid block _) | some (.assumedValid block _) =>
        pure (.inr block)
      | some (.inFork block _) =>
        let ancestor ← getAncestor block
        pure (.inl ancestor.header)
      | some (.orphan block) => raise (.invalidTip (orphanMessage (C.blockHash block)))
      | some (.invalidChain block) => raise (.invalidTip (invalidMessage (C.blockHash block)))
      | none => raise (.invalidTip (missingMessage (C.blockHash header)))) parent.header

def getLastValidBlock (header : BlockHeader) : ChainM C BlockHash :=
  walk (fun header => do
    if isGenesis C header then pure (.inr (C.blockHash header))
    else
      let ancestor ← getAncestor header
      match ancestor with
      | .fullyValid _ _ | .assumedValid _ _ => pure (.inr (C.blockHash ancestor.header))
      | .orphan block => raise (.invalidTip (orphanMessage (C.blockHash block)))
      | .headersOnly _ _ | .inFork _ _ => pure (.inl ancestor.header)
      | .invalidChain block =>
        raise (.invalidTip (invalidChainMessage (C.blockHash block)))) header

/-! ## Reorganisation -/

/-- The accumulator to validate from after a reorganisation; the one of genesis is empty. -/
def reorgAcc (validationIndex : BlockHash) : ChainM C C.rustreexo.Stump := do
  let found ← getBlockHeight validationIndex
  let height ← check (okOr found .blockNotPresent)
  if height = 0 then pure C.rustreexo.new
  else do
    let roots ← getRootsForBlock height
    check (okOr roots .badValidationIndex)

/-- Moves the blocks of the old branch to the fork file, the tip first. -/
def markChainAsInactive (oldTip : BlockHeader) (forkPoint : BlockHash) : ChainM C Unit := do
  let height ← getChainDepth oldTip
  walk (fun (p : BlockHeader × Nat) => do
    if !isGenesis C p.1 ∧ C.blockHash p.1 ≠ forkPoint then
      updateHeader (.inFork p.1 p.2)
      let ancestor ← getAncestor p.1
      pure (.inl (ancestor.header, p.2 - 1))
    else pure (.inr ())) (oldTip, height)

/-- Writes the blocks of the new branch at their heights, the tip first. -/
def markChainAsActive (newTip : BlockHeader) (forkPoint : BlockHash) : ChainM C Unit := do
  let height ← getChainDepth newTip
  walk (fun (p : BlockHeader × Nat) => do
    if !isGenesis C p.1 ∧ C.blockHash p.1 ≠ forkPoint then
      updateHeaderAndIndex (.headersOnly p.1 p.2) (C.blockHash p.1) p.2
      let ancestor ← getAncestor p.1
      pure (.inl (ancestor.header, p.2 - 1))
    else pure (.inr ())) (newTip, height)

def changeActiveChain (newTip : BlockHeader) (lastValid : BlockHash) (depth : Nat)
    (acc : C.rustreexo.Stump) : ChainM C Unit :=
  Prog.modify fun s => { s with
    bestBlock := { s.bestBlock with
      bestBlock := C.blockHash newTip, validationIndex := lastValid, depth := depth }
    acc := acc }

def reorg (newTip : BlockHeader) : ChainM C Unit := do
  let best ← getBestBlock
  let currentBestBlock ← getBlockHeader best.2
  let forkPoint ← findForkPoint newTip
  let validationIndex ← getLastValidBlock newTip
  let depth ← getChainDepth newTip
  let acc ← reorgAcc validationIndex
  markChainAsInactive currentBestBlock (C.blockHash forkPoint)
  markChainAsActive newTip (C.blockHash forkPoint)
  changeActiveChain newTip validationIndex depth acc

/-- Records the tip of a branch in place of its parent. -/
def pushAltTip (branchTip : BlockHeader) : ChainM C Unit := do
  let ancestor ← Prog.attempt (getAncestor branchTip)
  let parent ← (match ancestor with
    | .ok parent => pure (some (C.blockHash parent.header))
    | .error (.error .blockNotPresent) => pure none
    | .error e => Prog.fail e : ChainM C (Option BlockHash))
  Prog.modify fun s =>
    let tips := match parent with
      | some hash => s.bestBlock.alternativeTips.erase hash
      | none => s.bestBlock.alternativeTips
    { s with bestBlock := { s.bestBlock with
        alternativeTips := tips ++ [C.blockHash branchTip] } }

/-- A header off the best chain: its branch takes over if it has more work, and is recorded if
not. -/
def maybeReorg (branchTip : BlockHeader) : ChainM C Unit := do
  let best ← getBestBlock
  let currentTip ← getBlockHeader best.2
  checkBranch branchTip
  let forkPoint ← findForkPoint branchTip
  let currentWork ← getBranchWork currentTip
  let newWork ← getForkWork branchTip (C.blockHash forkPoint)
  if currentWork < newWork then reorg branchTip
  else do
    pushAltTip branchTip
    let parent ← getAncestor branchTip
    let parentHeight ← check parent.tryHeight
    updateHeader (.inFork branchTip (parentHeight + 1))

/-! ## Reindexing -/

/-- Rebuilds the best chain from the height index; the loop stops at the first height without a
best-chain header. -/
def findBestChain : ChainM C BestChain := do
  let genesis ← Prog.attempt (store (FlatChainStore.getBlockHash 0))
  let genesis ← (match genesis with
    | .ok (some hash) => pure hash
    | .ok none => Prog.fail (.panicked "expected genesis block, found None")
    | .error _ => Prog.fail (.panicked "TODO handle chainstore error") : ChainM C BlockHash)
  walk (fun (chain : BestChain) => do
    let nextHeight := chain.depth + 1
    match ← Prog.attempt (store (FlatChainStore.getBlockHash nextHeight)) with
    | .ok (some hash) =>
      match ← Prog.attempt (getDiskBlockHeader hash) with
      | .ok (.fullyValid _ height) =>
        if height = nextHeight then
          pure (.inl { chain with
            bestBlock := hash, depth := nextHeight, validationIndex := hash })
        else Prog.fail (.panicked "assertion failed: height == next_height")
      | .ok (.headersOnly _ height) | .ok (.assumedValid _ height) =>
        if height = nextHeight then
          pure (.inl { chain with bestBlock := hash, depth := nextHeight })
        else Prog.fail (.panicked "assertion failed: height == next_height")
      | _ => pure (.inr chain)
    | _ => pure (.inr chain)) ⟨genesis, 0, genesis, []⟩

/-- The last height, at or below the given one, that has an accumulator. -/
def findLastRoots : Nat → ChainM C (Option (Nat × C.rustreexo.Stump))
  | 0 => pure none
  | height + 1 => do
      match ← getRootsForBlock (height + 1) with
      | some acc => pure (some (height + 1, acc))
      | none => findLastRoots height

def reindexChain : ChainM C Unit := do
  let bestChain ← findBestChain
  let height ← getBlockHeight bestChain.validationIndex
  let validationIndexHeight := height.getD 0
  match ← findLastRoots validationIndexHeight with
  | some (lastAccHeight, acc) =>
    -- blocks above the last accumulator have to be validated again
    (List.range (validationIndexHeight - lastAccHeight)).forM fun i => do
      let header ← getHeaderByHeight (lastAccHeight + 1 + i)
      updateHeader (.headersOnly header.header (lastAccHeight + 1 + i))
    let lastAccHeader ← getHeaderByHeight lastAccHeight
    Prog.modify fun s => { s with
      acc := acc
      bestBlock := { bestChain with
        validationIndex := C.blockHash lastAccHeader.header } }
  | none => Prog.modify fun s => { s with bestBlock := bestChain }

def maybeReindex : DiskBlockHeader → ChainM C Unit
  | .headersOnly _ height => do
      let best ← getBestBlock
      if best.1 < height then reindexChain else pure ()
  | _ => pure ()

/-! ## Accepting headers -/

def acceptHeader (header : BlockHeader) : ChainM C Unit := do
  match ← Prog.attempt (getDiskBlockHeader (C.blockHash header)) with
  | .error (.error (.database e)) => raise (.database e)
  | .ok found => maybeReindex found
  | .error _ =>
    let best ← getBestBlock
    let blockHash ← validateHeader header
    if header.prevBlockhash = best.2 then
      let height := best.1 + 1
      Prog.modify fun s => { s with
        bestBlock := { s.bestBlock with bestBlock := blockHash, depth := height } }
      updateHeaderAndIndex (.headersOnly header height) blockHash height
    else maybeReorg header

/-- `ChainState::new` on a store; an error while saving the genesis block is a panic. -/
def new (C : ChainContext) (chainstore : FlatChainStore) (assumeValid : Option BlockHash) :
    Except Fault (ChainStateInner C) :=
  let genesis := DiskBlockHeader.fullyValid C.genesisHeader 0
  match FlatChainStore.saveHeader C.bitcoin genesis chainstore with
  | (.error _, _) => .error (.panicked "Error while saving genesis")
  | (.ok _, chainstore) =>
    match FlatChainStore.updateBlockIndex 0 C.genesisHash chainstore with
    | (.error _, _) => .error (.panicked "Error updating index")
    | (.ok _, chainstore) =>
      .ok
        { acc := C.rustreexo.new
          chainstore := chainstore
          bestBlock := ⟨C.genesisHash, 0, C.genesisHash, []⟩
          ibd := .headersSync
          assumeValid := assumeValid }

end ChainState

/-! ## A small interpretation

A network without retargeting in which the work of a header is its `bits`, and accumulators that are
byte strings. -/

namespace ChainContext
namespace Sample

def pow : ProofOfWork where
  target bits := 2 ^ 255 + bits.toNat
  toCompactLossy target := UInt32.ofNat (target - 2 ^ 255)
  work bits := bits.toNat
  fromNextWorkRequired bits _ _ := bits

def rustreexo : Rustreexo where
  Stump := Bytes
  Proof := Unit
  new := []
  modify acc adds _ _ := .ok (acc ++ [UInt8.ofNat adds.length])
  serialize acc := UInt8.ofNat acc.length :: acc
  deserialize
    | [] => .error "unexpected end of file"
    | _ :: acc => .ok acc

def kernel : Kernel where
  parseTransaction _ := .ok ()
  parseScriptPubkey _ := .ok ()
  precompute _ _ := .ok ()
  verify _ _ _ _ := .ok ()

def parameters : ChainParams where
  params := ⟨500, 1351, 1251, false, true, 600, 2 ^ 256 - 1, 2016⟩
  genesis := ⟨⟨1, 0, 0, 1000, 1, 0⟩, []⟩
  subsidyHalvingInterval := .regtest
  powTargetTimespan := 1209600
  segwitActivationHeight := 0
  csvActivationHeight := 500
  exceptions := []
  enforceBip94 := false

end Sample

def sample : ChainContext :=
  ⟨Bitcoin.sample, Sample.pow, Sample.rustreexo, Sample.kernel, Sample.parameters⟩

namespace Sample

/-- A store with few records, and a cache smaller than a chain. -/
def config : FlatChainStoreConfig := ⟨some 16, some 16, some 2, some 8⟩

def child (parent : BlockHeader) (nonce : UInt32) : BlockHeader :=
  ⟨1, sample.blockHash parent, 0, parent.time + 600, 1, nonce⟩

end Sample
end ChainContext

end Floresta
