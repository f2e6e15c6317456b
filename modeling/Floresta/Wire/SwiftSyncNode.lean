import Floresta.SwiftSync.Balance
import Floresta.Wire.ChainSelector

/-!
# SwiftSyncNode — downloading and processing the blocks of a SwiftSync session

The part of `swift_sync_ctx.rs`, with what it uses of `blocks.rs` and `peer_man.rs`, that moves the
blocks of a session: heights are requested in order, blocks arrive from peers and wait in memory,
workers process them, and the result of a worker is added to the aggregator, to the supply and to
the updates of the accumulator.

What the node does not decide itself is given per turn of its main loop by an `Env`: the clock, the
peer that a request goes to and whether its channel is open, the answers of the chain backend, and
the order in which a hash map is walked.
-/

namespace Floresta.Wire

inductive InflightRequests
  | headers
  | utreexoState (peer : PeerId)
  | blocks (hash : BlockHash)
  | connect (peer : PeerId)
  | getFilters
  | utreexoProof (hash : BlockHash)
  | getAddresses
  deriving DecidableEq, Repr

inductive ConnectionKind
  | outboundFullRelay
  | manual
  | feeler
  | addrFetch
  | blockRelayOnly
  | extra
  deriving DecidableEq, Repr

def ConnectionKind.isManual (kind : ConnectionKind) : Bool := kind = .manual

def ConnectionKind.isShortLived (kind : ConnectionKind) : Bool :=
  kind = .feeler || kind = .addrFetch

inductive PeerStatus
  | awaiting
  | ready
  | banned
  deriving DecidableEq, Repr

structure LocalPeerView where
  kind : ConnectionKind
  state : PeerStatus
  banscore : Nat
  deriving DecidableEq, Repr

inductive LoopControl
  | continue
  | break
  deriving DecidableEq, Repr

namespace SwiftSyncNode

open Fallible SwiftSync

/-- A block that waits for a worker, or is with one since the given time. -/
structure InflightBlock where
  peer : PeerId
  block : Block
  processingSince : Option Nat

/-- A task that runs `process_block_swiftsync` on a block. -/
structure Worker where
  blockHash : BlockHash
  blockHeight : Nat
  block : Block
  unspentIndexes : Finset UInt32

/-- What stays the same during a session. -/
structure Context (W : Type) where
  sipHash : SipHash W
  bitcoin : Bitcoin
  params : ChainParams
  salt : SipHashKeys
  stopHeight : Nat
  maxWorkers : Nat
  maxBanscore : Nat
  /-- the best chain, which the session reads only while nothing has been invalidated -/
  hashAt : Nat → Option BlockHash
  hashAt_inj : ∀ {h h' : Nat} {hash : BlockHash},
    hashAt h = some hash → hashAt h' = some hash → h = h'

/-- What the node finds around it during a turn of its loop. -/
structure Env {W : Type} (X : Context W) (Stump : Type) where
  now : Nat
  killed : Bool
  assumeStale : Bool
  /-- the peer that the `n`-th request of the session goes to -/
  choosePeer : Nat → Option PeerId
  channelOpen : Nat → Bool
  getBlockHash : Nat → Except BlockchainError BlockHash
  getBlockHash_eq : ∀ {h : Nat} {hash : BlockHash}, getBlockHash h = .ok hash →
    X.hashAt h = some hash
  getBlockHeight : BlockHash → Except BlockchainError (Option Nat)
  getBlockHeight_eq : ∀ {h : Nat} {hash : BlockHash}, getBlockHeight hash = .ok (some h) →
    X.hashAt h = some hash
  getBlockLocator : Except BlockchainError Unit
  markChainAsAssumed : Except BlockchainError Unit
  hasUtreexoPeers : Bool
  hasCompactFiltersPeer : Bool
  /-- the height of the filter store, if there is one -/
  filtersHeight : Option (Except WireError Nat)
  /-- what the stump updater has reported -/
  stumpDone : Option Stump
  blockOrder : Finset BlockHash → List BlockHash
  blockOrder_nodup : ∀ s, (blockOrder s).Nodup
  mem_blockOrder : ∀ {s : Finset BlockHash} {hash : BlockHash}, hash ∈ blockOrder s ↔ hash ∈ s
  requestOrder : Finset InflightRequests → List InflightRequests
  requestOrder_nodup : ∀ s, (requestOrder s).Nodup
  mem_requestOrder : ∀ {s : Finset InflightRequests} {req : InflightRequests},
    req ∈ requestOrder s ↔ req ∈ s

structure Node (W Stump : Type) where
  peers : HashMap PeerId LocalPeerView
  inflight : HashMap InflightRequests (PeerId × Nat)
  blocks : HashMap BlockHash InflightBlock
  /-- the tasks whose result has not been handled -/
  workers : List Worker
  hints : Nat → Option (Finset UInt32)
  lastBlockRequest : Nat
  agg : SwiftSyncAgg W
  supply : Amount
  processedBlocks : Nat
  abortHeight : Option Nat
  /-- what was sent to the stump updater -/
  updates : List (Nat × List NodeHash)
  invalidated : List BlockHash
  /-- the accumulator and tip that the chain was told to assume -/
  assumed : Option (Stump × BlockHash)
  /-- requests that were sent or failed to be sent -/
  sends : Nat

abbrev NodeM (W Stump : Type) := Prog (Node W Stump) Fault

def BLOCKS_PER_GETDATA : Nat := 5
def MAX_CONCURRENT_GETDATA : Nat := 40
def REQUEST_TIMEOUT : Nat := 2 * 60
def CONNECTION_TIMEOUT : Nat := 10

section

variable {W Stump : Type}

def raise {α : Type} (e : WireError) : NodeM W Stump α := Prog.fail (.error e)

def panicking {α : Type} : NodeM W Stump α := Prog.fail .panic

def chain {α : Type} (x : Except BlockchainError α) : NodeM W Stump α :=
  Prog.lift (x.mapError fun e => .error (.blockchain e))

/-- `try_and_log!`: an error is logged, a panic is not caught. -/
def tryAndLog (m : NodeM W Stump Unit) : NodeM W Stump Unit := do
  match ← Prog.attempt m with
  | .error (.error _) => pure ()
  | .error fault => Prog.fail fault
  | .ok () => pure ()

def Node.wasAborted (s : Node W Stump) : Bool := s.abortHeight.isSome

def isBlocks : InflightRequests → Bool
  | .blocks _ => true
  | _ => false

def isConnect : InflightRequests → Bool
  | .connect _ => true
  | _ => false

def Node.unprocessedBlocks (s : Node W Stump) : Nat :=
  s.blocks.keys.card + (s.inflight.keys.filter fun req => isBlocks req).card

def Node.canRequestMoreBlocks (s : Node W Stump) : Bool :=
  s.unprocessedBlocks + BLOCKS_PER_GETDATA ≤ BLOCKS_PER_GETDATA * MAX_CONCURRENT_GETDATA

end

variable {W Stump : Type} {X : Context W} (env : Env X Stump)

/-! ## Requests -/

/-- Picks a peer that is ready and puts the request on its channel. -/
def sendToFastPeer : NodeM W Stump PeerId := do
  let s ← Prog.read id
  Prog.modify fun s => { s with sends := s.sends + 1 }
  match env.choosePeer s.sends with
  | none => raise .noPeersAvailable
  | some peer =>
    match s.peers.lookup peer with
    | some ⟨_, .ready, _⟩ => if env.channelOpen s.sends then pure peer else raise .channelSend
    | _ => raise .noPeersAvailable

/-- A peer that has not completed its handshake gets nothing. -/
def sendToPeer (peer : PeerId) : NodeM W Stump Unit := do
  let s ← Prog.read id
  match s.peers.lookup peer with
  | some view =>
    if view.state = .awaiting then pure ()
    else do
      Prog.modify fun s => { s with sends := s.sends + 1 }
      if env.channelOpen s.sends then pure () else raise .channelSend
  | none => pure ()

def Node.shouldRequest (s : Node W Stump) (hash : BlockHash) : Bool :=
  !(decide (.blocks hash ∈ s.inflight) || decide (hash ∈ s.blocks))

def insertRequest (req : InflightRequests) (peer : PeerId) : NodeM W Stump Unit :=
  Prog.modify fun s => { s with inflight := s.inflight.insert req (peer, env.now) }

def requestBlocks (hashes : List BlockHash) : NodeM W Stump Unit := do
  let hashes ← Prog.read fun s => hashes.filter s.shouldRequest
  if hashes = [] then pure ()
  else do
    let peer ← sendToFastPeer env
    hashes.forM fun hash => insertRequest env (.blocks hash) peer

/-- The loop of `refill_block_requests` over at most `n` further heights. -/
def nextBlocks : Nat → List BlockHash → NodeM W Stump (List BlockHash)
  | 0, hashes => pure hashes
  | n + 1, hashes => do
      let nextHeight ← Prog.read fun s => s.lastBlockRequest + 1
      if X.stopHeight < nextHeight then pure hashes
      else
        match env.getBlockHash nextHeight with
        | .error _ => pure hashes
        | .ok hash => do
            Prog.modify fun s => { s with lastBlockRequest := nextHeight }
            nextBlocks n (hashes ++ [hash])

def refillBlockRequests : NodeM W Stump Unit := do
  let s ← Prog.read id
  if !s.canRequestMoreBlocks || s.wasAborted then pure ()
  else do
    let hashes ← nextBlocks env BLOCKS_PER_GETDATA []
    match ← Prog.attempt (requestBlocks env hashes) with
    | .ok () => pure ()
    -- the same heights are tried again the next time
    | .error (.error _) => Prog.modify fun s' => { s' with lastBlockRequest := s.lastBlockRequest }
    | .error fault => Prog.fail fault

def redoInflightRequest (req : InflightRequests) : NodeM W Stump Unit := do
  match req with
  | .utreexoProof hash => do
      let s ← Prog.read id
      if !env.hasUtreexoPeers || !decide (hash ∈ s.blocks) || decide (req ∈ s.inflight) then pure ()
      else do
        let peer ← sendToFastPeer env
        insertRequest env req peer
  | .blocks hash => requestBlocks env [hash]
  | .headers => do
      chain env.getBlockLocator
      let peer ← sendToFastPeer env
      insertRequest env .headers peer
  | .utreexoState _ => do
      let peer ← sendToFastPeer env
      insertRequest env (.utreexoState peer) peer
  | .getFilters =>
    if !env.hasCompactFiltersPeer then pure ()
    else
      match env.filtersHeight with
      | none => pure ()
      | some height => do
          let _ ← Prog.lift (height.mapError .error)
          let peer ← sendToFastPeer env
          insertRequest env .getFilters peer
  | .connect _ | .getAddresses => pure ()

/-! ## Peers -/

/-- Sends the request again; if that fails it stays with the given peer and time. -/
def retry (retryError : Option WireError) (req : InflightRequests) (value : PeerId × Nat) :
    NodeM W Stump (Option WireError) := do
  match ← Prog.attempt (redoInflightRequest env req) with
  | .ok () => pure retryError
  | .error (.error e) => do
      Prog.modify fun s => { s with inflight := s.inflight.insert req value }
      pure (some e)
  | .error fault => Prog.fail fault

def eraseRequest (req : InflightRequests) : NodeM W Stump Unit :=
  Prog.modify fun s => { s with inflight := s.inflight.erase req }

/-- `retry_error.map_or(Ok(()), Err)` -/
def finishRetries : Option WireError → NodeM W Stump Unit
  | none => pure ()
  | some e => raise e

def Node.requestsOf (s : Node W Stump) (peer : PeerId) :
    List (InflightRequests × (PeerId × Nat)) :=
  (env.requestOrder s.inflight.keys).filterMap fun req =>
    match s.inflight.lookup req with
    | some value => if value.1 = peer then some (req, value) else none
    | none => none

def handleDisconnection (peer : PeerId) : NodeM W Stump Unit := do
  Prog.modify fun s => { s with peers := s.peers.erase peer }
  let inflight ← Prog.read fun s => s.requestsOf env peer
  let retryError ← inflight.foldlM (fun retryError entry => do
    eraseRequest entry.1
    retry env retryError entry.1 entry.2) none
  finishRetries retryError

/-- The ban is noted when the connection ends. -/
def disconnectAndBan (peer : PeerId) : NodeM W Stump Unit := do
  let s ← Prog.read id
  match s.peers.lookup peer with
  | some view =>
    if view.kind.isManual then pure ()
    else do
      Prog.modify fun s =>
        { s with peers := s.peers.insert peer { view with state := .banned } }
      sendToPeer env peer
  | none => sendToPeer env peer

def increaseBanscore (peer : PeerId) (factor : Nat) : NodeM W Stump Unit := do
  let s ← Prog.read id
  match s.peers.lookup peer with
  | none => pure ()
  | some view =>
    if view.kind.isManual then pure ()
    else do
      let banscore := view.banscore + factor
      Prog.modify fun s =>
        { s with peers := s.peers.insert peer { view with banscore := banscore } }
      if X.maxBanscore ≤ banscore || view.kind = .extra then disconnectAndBan env peer
      else pure ()

def timedOut (req : InflightRequests) (time : Nat) : Bool :=
  match req with
  | .connect _ => CONNECTION_TIMEOUT < env.now - time || REQUEST_TIMEOUT < env.now - time
  | _ => REQUEST_TIMEOUT < env.now - time

/-- The disconnection of a peer that did not answer; its error is kept. -/
def disconnectUnresponsive (retryError : Option WireError) (peer : PeerId) :
    NodeM W Stump (Option WireError) := do
  let _ ← Prog.attempt (sendToPeer env peer)
  match ← Prog.attempt (handleDisconnection env peer) with
  | .ok () => pure retryError
  | .error (.error e) => pure (some e)
  | .error fault => Prog.fail fault

/-- The body of the loop of `check_for_timeout`. -/
def handleTimeout (retryError : Option WireError) (req : InflightRequests) :
    NodeM W Stump (Option WireError) := do
  let s ← Prog.read id
  match s.inflight.lookup req with
  | none => pure retryError
  | some (peer, time) =>
    -- an earlier round may have sent it again
    if !timedOut env req time then pure retryError
    else do
      eraseRequest req
      match s.peers.lookup peer with
      | none => retry env retryError req (peer, time)
      | some view =>
        if req = .getAddresses && !view.kind.isShortLived then pure retryError
        else if !view.kind.isManual || isConnect req then do
          let retryError ← disconnectUnresponsive env retryError peer
          retry env retryError req (peer, time)
        else retry env retryError req (peer, time)

def checkForTimeout : NodeM W Stump Unit := do
  let timedOutRequests ← Prog.read fun s =>
    (env.requestOrder s.inflight.keys).filter fun req =>
      match s.inflight.lookup req with
      | some value => timedOut env req value.2
      | none => false
  let retryError ← timedOutRequests.foldlM (handleTimeout env) none
  finishRetries retryError

/-! ## Workers -/

/-- Hands the block to a new worker unless one has it. -/
def startProcessingSwiftsync (hash : BlockHash) (height : Nat) : NodeM W Stump Unit := do
  let s ← Prog.read id
  match s.blocks.lookup hash with
  | none => raise .blockNotFound
  | some entry =>
    if entry.processingSince.isSome then pure ()
    else
      match s.hints height with
      | none => panicking
      | some unspentIndexes => Prog.modify fun s => { s with
          blocks := s.blocks.insert hash { entry with processingSince := some env.now }
          workers := s.workers ++ [⟨hash, height, entry.block, unspentIndexes⟩] }

/-- Whether a block is there and waits for a worker. -/
def Node.waits (s : Node W Stump) (hash : BlockHash) : Bool :=
  match s.blocks.lookup hash with
  | some entry => entry.processingSince.isNone
  | none => false

def Node.processing (s : Node W Stump) : Nat :=
  (s.blocks.keys.filter fun hash => !s.waits hash).card

def pumpSwiftsync : NodeM W Stump Unit := do
  let s ← Prog.read id
  if s.wasAborted then pure ()
  else
    let free := X.maxWorkers - s.processing
    if free = 0 then pure ()
    else
      (((env.blockOrder s.blocks.keys).filter s.waits).take free).forM fun hash => do
        match ← chain (env.getBlockHeight hash) with
        | none => raise (.blockchain .orphanOrInvalidBlock)
        | some height => startProcessingSwiftsync env hash height

def blockValidationErr : BlockchainError → Option BlockValidationErrors
  | .transactionError e => some e.error
  | .blockValidation e => some e
  | .accumulatorError _ | .invalidUtreexoProof | .utreexoLeaf _ => some .invalidUtreexoProof
  | _ => none

def banForBlock (peer : PeerId) : NodeM W Stump Unit := do
  disconnectAndBan env peer
  raise .peerMisbehaving

def handleInvalidBlock (e : BlockchainError) (header : BlockHeader) (height : Nat) (peer : PeerId) :
    NodeM W Stump Unit := do
  let hash := X.bitcoin.blockHash header
  match blockValidationErr e with
  | none => pure ()
  | some .badMerkleRoot | some .badWitnessCommitment => do
      -- the right block may still be valid, so it is asked for again
      insertRequest env (.blocks hash) peer
      banForBlock env peer
  | some .invalidUtreexoProof => banForBlock env peer
  | some .blockExtendsAnOrphanChain | some .blockDoesntExtendTip => pure ()
  | some _ => do
      Prog.modify fun s => { s with
        abortHeight := some height
        invalidated := s.invalidated ++ [hash] }
      banForBlock env peer

def assertThat (p : Prop) [Decidable p] : NodeM W Stump Unit := if p then pure () else panicking

/-- What a valid block adds to the session. -/
def Node.contribute (s : Node W Stump) (height : Nat) (delta : SwiftSyncDelta W)
    [AddCommGroup W] : Node W Stump :=
  { s with
    agg := s.agg + delta.aggregatorDelta
    supply := saturatingAmount s.supply delta.unspentAmount
    updates := s.updates ++ [(height, delta.utreexoAdds)]
    hints := Function.update s.hints height none }

def handleWorkerNotification [AddCommGroup W]
    (result : Except BlockchainError (SwiftSyncDelta W)) (hash : BlockHash) (height : Nat) :
    NodeM W Stump Unit := do
  let s ← Prog.read id
  if s.wasAborted then pure ()
  else
    match s.blocks.lookup hash with
    | none => raise .blockNotFound
    | some block => do
        Prog.modify fun s => { s with blocks := s.blocks.erase hash }
        match result with
        | .ok delta => do
            Prog.modify fun s => s.contribute height delta
            assertThat (block.processingSince.isSome = true)
            assertThat (s.processedBlocks < X.stopHeight)
            Prog.modify fun s => { s with processedBlocks := s.processedBlocks + 1 }
            refillBlockRequests env
        | .error e => handleInvalidBlock env e block.block.header height block.peer

/-! ## The main loop -/

inductive PeerMessage
  | block (block : Block)
  | disconnected
  | utreexoProof
  | utreexoState
  | other

def handleBlock (peer : PeerId) (block : Block) : NodeM W Stump Unit := do
  let hash := X.bitcoin.blockHash block.header
  let s ← Prog.read id
  if hash ∈ s.blocks then pure ()
  else if .blocks hash ∉ s.inflight then increaseBanscore env peer 5
  else do
    Prog.modify fun s => { s with
      inflight := s.inflight.erase (.blocks hash)
      blocks := s.blocks.insert hash ⟨peer, block, none⟩ }
    pumpSwiftsync env
    refillBlockRequests env

/-- Replies of peers that are gone are ignored. -/
def handlePeerMessage (peer : PeerId) (message : PeerMessage) : NodeM W Stump Unit := do
  let s ← Prog.read id
  match message with
  | .disconnected => tryAndLog (handleDisconnection env peer)
  | .block block => if peer ∈ s.peers then handleBlock env peer block else pure ()
  | .utreexoProof | .utreexoState =>
    if peer ∈ s.peers then increaseBanscore env peer 5 else pure ()
  | .other => pure ()

/-- The `i`-th running task has ended and its notification is handled. -/
def handleWorker [AddCommGroup W] (i : Nat) : NodeM W Stump Unit := do
  let s ← Prog.read id
  match s.workers[i]? with
  | none => pure ()
  | some worker => do
      Prog.modify fun s => { s with workers := s.workers.eraseIdx i }
      handleWorkerNotification env
        (processBlockSwiftsync X.sipHash X.bitcoin X.params worker.block worker.blockHeight
          worker.unspentIndexes X.salt) worker.blockHash worker.blockHeight
      pumpSwiftsync env

def swiftSyncFinished : NodeM W Stump (Option Stump) :=
  Prog.read fun s =>
    if s.lastBlockRequest ≠ X.stopHeight || s.unprocessedBlocks ≠ 0 then none else env.stumpDone

def handleStopHeightReached [AddCommGroup W] [DecidableEq W] (finalAcc : Stump) :
    NodeM W Stump Unit := do
  let s ← Prog.read id
  match stopHeightAbort X.params X.stopHeight s.agg s.supply with
  | some height => Prog.modify fun s => { s with abortHeight := some height }
  | none => do
      let tipHash ← chain (env.getBlockHash X.stopHeight)
      chain env.markChainAsAssumed
      Prog.modify fun s => { s with assumed := some (finalAcc, tipHash) }

def maintenanceTick [AddCommGroup W] [DecidableEq W] : NodeM W Stump LoopControl := do
  let s ← Prog.read id
  if env.killed || s.wasAborted then pure .break
  else
    match ← swiftSyncFinished env with
    | some finalAcc => do
        handleStopHeightReached env finalAcc
        pure .break
    | none => do
        tryAndLog (checkForTimeout env)
        if env.assumeStale then pure .continue
        else do
          tryAndLog (pumpSwiftsync env)
          refillBlockRequests env
          pure .continue

/-- Requests of other kinds come and go. -/
def setRequest (req : InflightRequests) (value : Option (PeerId × Nat)) : NodeM W Stump Unit :=
  if isBlocks req then pure ()
  else Prog.modify fun s => { s with
    inflight := match value with
      | some value => s.inflight.insert req value
      | none => s.inflight.erase req }

/-- What wakes the loop: its ticker, a message of a peer, a task that has ended; and what the parts
that are not modelled do in between, which is to open connections, to complete handshakes and to
change requests for other things than blocks. -/
inductive Event
  | tick
  | message (peer : PeerId) (message : PeerMessage)
  | worker (i : Nat)
  | peer (peer : PeerId) (view : LocalPeerView)
  | request (req : InflightRequests) (value : Option (PeerId × Nat))

def turn [AddCommGroup W] [DecidableEq W] : Event → NodeM W Stump LoopControl
  | .tick => maintenanceTick env
  | .message peer message => do
      tryAndLog (handlePeerMessage env peer message)
      pure .continue
  | .worker i => do
      tryAndLog (handleWorker env i)
      pure .continue
  | .peer peer view => do
      Prog.modify fun s => { s with peers := s.peers.insert peer view }
      pure .continue
  | .request req value => do
      setRequest req value
      pure .continue

/-- How `run` sets the session up. -/
structure Started (X : Context W) (s : Node W Stump) [AddCommGroup W] : Prop where
  noRequests : ∀ hash, .blocks hash ∉ s.inflight
  blocks : s.blocks = ∅
  workers : s.workers = []
  hints : ∀ h, 1 ≤ h → h ≤ X.stopHeight → s.hints h ≠ none
  lastBlockRequest : s.lastBlockRequest = 0
  agg : s.agg = 0
  supply : s.supply = Amount.ZERO
  processedBlocks : s.processedBlocks = 0
  abortHeight : s.abortHeight = none
  updates : s.updates = []
  assumed : s.assumed = none

/-- The states of a session, with whether its loop goes on.  A turn that fails ends it. -/
inductive Reachable [AddCommGroup W] [DecidableEq W] (X : Context W) :
    LoopControl → Node W Stump → Prop
  | start {s : Node W Stump} (h : Started X s) : Reachable X .continue s
  | turn {s s' : Node W Stump} {control : LoopControl} (h : Reachable X .continue s)
      (env : Env X Stump) (event : Event) (hturn : turn env event s = (.ok control, s')) :
      Reachable X control s'
  | failed {s s' : Node W Stump} {fault : Fault} (h : Reachable X .continue s)
      (env : Env X Stump) (event : Event) (hturn : turn env event s = (.error fault, s')) :
      Reachable X .break s'

end SwiftSyncNode
end Floresta.Wire
