import Floresta.ChainState.Headers

/-!
# Blocks — the block half of the chain state

The model of `connect_block`, `invalidate_block`, `switch_chain`, `flush` and the functions that mark
blocks as valid in `chain_state.rs`, with the validation that connects a block to the last validated
one.  Subscribers are not modelled: they are
told about a block after everything else is done.
-/

namespace Floresta

open Fallible

/-! ## Script flags -/

def VERIFY_DERSIG : Nat := 2 ^ 2
def VERIFY_NULLDUMMY : Nat := 2 ^ 4
def VERIFY_CHECKLOCKTIMEVERIFY : Nat := 2 ^ 9
def VERIFY_CHECKSEQUENCEVERIFY : Nat := 2 ^ 10
def VERIFY_TAPROOT : Nat := 2 ^ 17

namespace ChainParams

/-- The flags of a block; a few historical blocks have flags of their own. -/
def getValidationFlags (params : ChainParams) (height : Nat) (hash : BlockHash) : Nat :=
  match params.exceptions.lookup hash with
  | some flags => flags
  | none =>
    let flags := VERIFY_P2SH ||| VERIFY_WITNESS ||| VERIFY_TAPROOT
    let flags := if params.params.bip65Height ≤ height then
      flags ||| VERIFY_CHECKLOCKTIMEVERIFY else flags
    let flags := if params.params.bip66Height ≤ height then flags ||| VERIFY_DERSIG else flags
    let flags := if params.csvActivationHeight ≤ height then
      flags ||| VERIFY_CHECKSEQUENCEVERIFY else flags
    if params.segwitActivationHeight ≤ height then flags ||| VERIFY_NULLDUMMY else flags

end ChainParams

namespace ChainState

variable {C : ChainContext}

/-! ## Times -/

def medianTimePast (header : BlockHeader) : ChainM C Nat :=
  Consensus.medianTimePastWith (fun header => do
    let parent ← getAncestor header
    pure parent.header) header

def previousMedianTimePast (header : BlockHeader) : ChainM C Nat := do
  let previous ← getAncestor header
  medianTimePast previous.header

def getMtpByHeight (height : Nat) : ChainM C Nat := do
  let header ← getHeaderByHeight height
  medianTimePast header.header

/-- Lock times are compared with the header's own time before BIP113, and with the median time of
the blocks before it from then on. -/
def blockLockTimeCutoff (height : Nat) (header : BlockHeader) : ChainM C LockTimeCutoff :=
  if C.parameters.csvActivationHeight ≤ height then do
    let time ← previousMedianTimePast header
    pure (.mtp time)
  else pure (.headerTime header.time)

/-! ## Validation -/

/-- Scripts are skipped up to the assume-valid block, if it is on the best chain. -/
def verifyScript (height : Nat) : ChainM C Bool := do
  match ← Prog.read ChainStateInner.assumeValid with
  | none => pure true
  | some hash =>
    match ← store (FlatChainStore.getHeader hash) with
    | some (.headersOnly _ assumeHeight) | some (.fullyValid _ assumeHeight) =>
      pure (assumeHeight < height)
    | _ => pure true

def validateBlockNoAcc (block : Block) (height : Nat) (inputs : UtxoMap) : ChainM C Unit := do
  let _ ← check (Consensus.checkBlock C.bitcoin C.parameters block height)
  let subsidy := Consensus.getSubsidy C.parameters height
  let cutoff ← blockLockTimeCutoff height block.header
  let flags := C.parameters.getValidationFlags height (C.blockHash block.header)
  let verify ← verifyScript height
  check (Consensus.verifyBlockTransactions C.bitcoin C.kernel height cutoff inputs block.txdata
    subsidy verify flags)

/-- The height at which a block can be connected now. -/
def connectableHeight (hash : BlockHash) : ChainM C Nat := do
  match ← getDiskBlockHeader hash with
  | .fullyValid _ height =>
    let validationIndex ← getValidationIndex
    check (require (height = validationIndex) (.blockValidation .blockDoesntExtendTip))
    pure height
  | .headersOnly _ height =>
    let validationIndex ← getValidationIndex
    check (require (height = validationIndex + 1) (.blockValidation .blockDoesntExtendTip))
    pure height
  | .orphan _ | .assumedValid _ _ | .inFork _ _ | .invalidChain _ =>
    raise (.blockValidation .blockExtendsAnOrphanChain)

/-- Stores the block as validated, with its accumulator. -/
def updateView (height : Nat) (header : BlockHeader) (acc : C.rustreexo.Stump) : ChainM C Unit := do
  updateHeaderAndIndex (.fullyValid header height) (C.blockHash header) height
  store (FlatChainStore.saveRootsForBlock (C.rustreexo.serialize acc) height)
  Prog.modify fun s => { s with
    acc := acc
    bestBlock := { s.bestBlock with validationIndex := C.blockHash header } }

def isInIbd : ChainM C Bool := Prog.read fun s => s.ibd ≠ .done

def flush : ChainM C Unit := do
  let best ← Prog.read ChainStateInner.bestBlock
  store (FlatChainStore.saveHeight best)

def connectBlock (block : Block) (proof : C.rustreexo.Proof) (inputs : UtxoMap)
    (delHashes : List Hash256) : ChainM C Nat := do
  let height ← connectableHeight (C.blockHash block.header)
  let acc ← Prog.read ChainStateInner.acc
  let acc ← check (Consensus.updateAcc C.bitcoin C.rustreexo acc block height proof delHashes)
  validateBlockNoAcc block height inputs
  updateView height block.header acc
  let ibd ← isInIbd
  (if !ibd ∨ height % 100000 = 0 then flush else pure ())
  pure height

/-! ## Invalid blocks -/

/-- Marks the best chain from a block on as invalid, and goes back to the block before it. -/
def invalidateBlock (block : BlockHash) : ChainM C Unit := do
  let header ← getDiskBlockHeader block
  let height ← check header.tryHeight
  let best ← getBestBlock
  (List.range (best.1 + 1 - height)).forM fun i => do
    let hash ← getBlockHash (height + i)
    let header ← getBlockHeader hash
    updateHeader (.invalidChain header)
  let header ← getBlockHeader block
  let parent ← getAncestor header
  Prog.modify fun s => { s with
    bestBlock := { s.bestBlock with
      bestBlock := C.blockHash parent.header, depth := height - 1 } }

/-! ## Blocks that are taken as valid -/

def markBlockAsValid (block : BlockHash) : ChainM C Unit := do
  let header ← getDiskBlockHeader block
  let height ← check header.tryHeight
  updateHeader (.fullyValid header.header height)

/-- Marks a block and its ancestors as valid, and takes the accumulator after it. -/
def markChainAsAssumed (acc : C.rustreexo.Stump) (assumedHash : BlockHash) : ChainM C Bool := do
  let assumedHeader ← getDiskBlockHeader assumedHash
  walk (fun ((header, hash) : DiskBlockHeader × BlockHash) =>
    if isGenesis C header.header then pure (.inr ())
    else do
      let height ← check header.tryHeight
      updateHeaderAndIndex (.fullyValid header.header height) hash height
      let header ← getAncestor header.header
      pure (.inl (header, C.blockHash header.header))) (assumedHeader, assumedHash)
  let height ← check assumedHeader.tryHeight
  updateView height assumedHeader.header acc
  flush
  pure true

/-! ## Forks -/

def getForkPoint (block : BlockHash) : ChainM C BlockHash := do
  let header ← getBlockHeader block
  let forkPoint ← findForkPoint header
  pure (C.blockHash forkPoint)

def switchChain (newTip : BlockHash) : ChainM C Unit := do
  let newTip ← getBlockHeader newTip
  reorg newTip

def updateIbd (ibd : IBDState) : ChainM C Unit := Prog.modify fun s => { s with ibd := ibd }

end ChainState

end Floresta
