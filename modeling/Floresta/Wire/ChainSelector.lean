import Mathlib.Data.List.Sort
import Floresta.Consensus.Block
import Floresta.Lib.Prog

/-!
# ChainSelector — asking peers for the accumulator of a block

The part of `chain_selector_ctx.rs` that runs the cut-and-choose protocol: the node asks its archive
peers for their accumulator of a block, and where two of them answer differently it looks for the
last block they agree on, replays the next one itself and so learns who lies.

What the peers do is a parameter: for the requests that were sent so far it gives the notifications
that arrive before the node sends another one.
-/

namespace Floresta

open Fallible

namespace Wire

abbrev PeerId := Nat

/-- The errors of the wire crate that the modelled functions return. -/
inductive WireError
  | blockchain (e : BlockchainError)
  | channelSend
  | noPeersAvailable
  | peerMisbehaving
  | peerTimeout
  | blockNotFound
  | compactBlockFiltersError
  deriving DecidableEq, Repr

/-- How a call can end without a result: an error, a panic (an overflow, an `unwrap` or a failed
assertion), or a loop that does not end. -/
inductive Fault
  | error (e : WireError)
  | panic
  | diverged
  deriving DecidableEq, Repr

inductive NodeRequest
  | getBlock (hash : BlockHash)
  | getBlockProof (hash : BlockHash)
  | getUtreexoState (hash : BlockHash) (height : Nat)
  | shutdown
  deriving DecidableEq, Repr

structure UtreexoProof (R : Rustreexo) where
  leafData : List CompactLeafData
  proof : R.Proof

inductive PeerMessages (R : Rustreexo)
  | block (block : Block)
  | utreexoProof (proof : UtreexoProof R)
  | utreexoState (state : Bytes)
  | other

/-- What `node_rx` yields: a message of a peer, or `none` for another notification or a timeout. -/
abbrev Notification (R : Rustreexo) := Option (PeerId × PeerMessages R)

structure InflightBlock (R : Rustreexo) where
  peer : PeerId
  block : Block
  auxData : UtreexoProof R

inductive PeerCheck
  | oneLying (peer : PeerId)
  | bothLying
  | unresponsivePeer (peer : PeerId)
  | bothUnresponsivePeers
  deriving DecidableEq, Repr

/-- What the node runs on: the chain it follows, its peers and the accumulator crate. -/
structure Context where
  bitcoin : Bitcoin
  rustreexo : Rustreexo
  [stumpEq : DecidableEq rustreexo.Stump]
  /-- `Stump { leaves, roots }` -/
  stump : Nat → List Bytes → rustreexo.Stump
  bestBlock : Nat × BlockHash
  getBlockHash : Nat → Except BlockchainError BlockHash
  getMtpByHeight : Nat → Except BlockchainError Nat
  peerIds : List PeerId
  isArchive : PeerId → Bool
  isManual : PeerId → Bool
  /-- whether requests of other kinds are in flight -/
  otherRequests : Bool
  /-- the notifications after the requests sent so far -/
  receive : List (PeerId × NodeRequest) → List (Notification rustreexo)

attribute [instance] Context.stumpEq

def Context.archivePeers (X : Context) : List PeerId := X.peerIds.filter X.isArchive

/-- What the node changes: the requests it sent and the peers it banned.  The pairs of peers it
compared are kept for the statements about them. -/
structure Node where
  sent : List (PeerId × NodeRequest)
  banned : List PeerId
  compared : List (PeerId × PeerId)
  deriving DecidableEq, Repr

abbrev NodeM := Prog Node Fault

def raise {α : Type} (e : WireError) : NodeM α := Prog.fail (.error e)

def panicking {α : Type} : NodeM α := Prog.fail .panic

def chain {α : Type} (x : Except BlockchainError α) : NodeM α :=
  Prog.lift (x.mapError fun e => .error (.blockchain e))

def unwrap {α ε : Type} (x : Except ε α) : NodeM α := Prog.lift (x.mapError fun _ => .panic)

def addU32 (a b : Nat) : NodeM Nat := if a + b < 2 ^ 32 then pure (a + b) else panicking

def subU32 (a b : Nat) : NodeM Nat := if b ≤ a then pure (a - b) else panicking

def sendToPeer (peer : PeerId) (request : NodeRequest) : NodeM Unit :=
  Prog.modify fun s => { s with sent := s.sent ++ [(peer, request)] }

variable (X : Context)

/-- Manual connections are exempt. -/
def disconnectAndBan (peer : PeerId) : NodeM Unit := do
  if X.isManual peer then pure ()
  else do
    Prog.modify fun s => { s with banned := s.banned ++ [peer] }
    sendToPeer peer .shutdown

def received : NodeM (List (Notification X.rustreexo)) := Prog.read fun s => X.receive s.sent

/-! ## Accumulators on the wire -/

def countOnes (n : Nat) : Nat := (List.range 64).countP n.testBit

def fromLeBytes (bytes : Bytes) : Nat := bytes.foldr (fun b n => b.toNat + 256 * n) 0

def chunks (bytes : Bytes) : List Bytes :=
  (List.range (bytes.length / 32)).map fun i => (bytes.drop (32 * i)).take 32

def parseAcc (acc : Bytes) : Except WireError X.rustreexo.Stump :=
  if acc = [] then .ok X.rustreexo.new
  else if acc.length < 8 then .error .peerMisbehaving
  else
    let leaves := fromLeBytes (acc.take 8)
    let rootsBytes := acc.drop 8
    if rootsBytes.length ≠ countOnes leaves * 32 then .error .peerMisbehaving
    else .ok (X.stump leaves (chunks rootsBytes))

def parse (acc : Bytes) : NodeM X.rustreexo.Stump := Prog.lift ((parseAcc X acc).mapError .error)

/-- Asks two peers for their accumulator of a block; the next two notifications are looked at. -/
def grabBothPeersVersion (peer1 peer2 : PeerId) (hash : BlockHash) (height : Nat) :
    NodeM (Option Bytes × Option Bytes) := do
  sendToPeer peer1 (.getUtreexoState hash height)
  sendToPeer peer2 (.getUtreexoState hash height)
  let notifications ← received X
  pure ((notifications.take 2).foldl (fun versions notification =>
    match notification with
    | some (peer, .utreexoState state) =>
      if peer = peer1 then (some state, versions.2)
      else if peer = peer2 then (versions.1, some state)
      else versions
    | _ => versions) (none, none))

/-! ## A block and its proof -/

def isMutated (block : Block) : Bool :=
  (Consensus.checkMerkleRoot X.bitcoin block).isNone ||
    !X.bitcoin.checkWitnessCommitment block

/-- The notifications of `get_block_and_proof` until its deadline. -/
def awaitBlockAndProof (peer : PeerId) (hash : BlockHash) :
    Option Block → List (Notification X.rustreexo) → NodeM (InflightBlock X.rustreexo)
  | _, [] => raise .peerTimeout
  | block, none :: rest => awaitBlockAndProof peer hash block rest
  | block, some (id, message) :: rest =>
    if id ≠ peer then awaitBlockAndProof peer hash block rest
    else
      match message with
      | .block recvBlock => do
          if X.bitcoin.blockHash recvBlock.header ≠ hash || isMutated X recvBlock then do
            disconnectAndBan X peer
            raise .peerMisbehaving
          else do
            sendToPeer peer (.getBlockProof hash)
            awaitBlockAndProof peer hash (some recvBlock) rest
      | .utreexoProof proof =>
        match block with
        | none => do
            disconnectAndBan X peer
            raise .peerMisbehaving
        | some block => pure ⟨peer, block, proof⟩
      | _ => awaitBlockAndProof peer hash block rest

def getBlockAndProof (peer : PeerId) (hash : BlockHash) : NodeM (InflightBlock X.rustreexo) := do
  sendToPeer peer (.getBlock hash)
  let notifications ← received X
  awaitBlockAndProof X peer hash none notifications

/-- Replays a block on an accumulator. -/
def updateAcc (acc : X.rustreexo.Stump) (block : Block) (proof : X.rustreexo.Proof)
    (leafData : List CompactLeafData) (height : Nat) :
    Except BlockchainError X.rustreexo.Stump := do
  let (delHashes, _) ← Udata.processProof X.bitcoin .utreexoLeaf X.getBlockHash X.getMtpByHeight
    leafData block.txdata
  Consensus.updateAcc X.bitcoin X.rustreexo acc block height proof delHashes

/-! ## Cut and choose -/

/-- Goes to a newer block, or to an older one. -/
def moveHeight (newer : Bool) (height step : Nat) : NodeM Nat :=
  if newer then addU32 height step else subU32 height step

/-- One round of the search by halving: the height asked, its hash and the height asked before.  It
ends with a verdict about unresponsive peers, or with the block it landed on. -/
def narrow (peer1 peer2 : PeerId) :
    Nat × BlockHash × Nat → NodeM (Nat × BlockHash × Nat ⊕ (PeerCheck ⊕ Nat × BlockHash))
  | (height, hash, prevHeight) => do
      match ← grabBothPeersVersion X peer1 peer2 hash height with
      | (some acc1, some acc2) =>
        let interval := max height prevHeight - min height prevHeight
        if interval < 5 then pure (.inr (.inr (height, hash)))
        else do
          let next ← moveHeight (acc1 = acc2) height (interval / 2)
          let nextHash ← unwrap (X.getBlockHash next)
          pure (.inl (next, nextHash, height))
      | (none, some _) => pure (.inr (.inl (.unresponsivePeer peer1)))
      | (some _, none) => pure (.inr (.inl (.unresponsivePeer peer2)))
      | (none, none) => pure (.inr (.inl .bothUnresponsivePeers))

/-- The last block the peers agree on, if this is known now; 0 if not. -/
def forkPoint (agree same : Bool) (height : Nat) : NodeM Nat :=
  match agree, same with
  | true, false => subU32 height 1
  | false, true => pure height
  | _, _ => pure 0

/-- One round of the scan: upwards if the peers agreed on the block landed on, downwards if not. -/
def scan (agree : Bool) (peer1 peer2 : PeerId) :
    Nat × BlockHash → NodeM (Nat × BlockHash ⊕ Nat)
  | (height, hash) => do
      let (acc1, acc2) ← grabBothPeersVersion X peer1 peer2 hash height
      let fork ← forkPoint agree (acc1 = acc2) height
      if fork ≠ 0 then pure (.inr fork)
      else do
        let next ← moveHeight agree height 1
        let nextHash ← chain (X.getBlockHash next)
        pure (.inl (next, nextHash))

/-- Scans from the block that the halving landed on.  The height moves before the first round, the
hash does not. -/
def scanFrom (agree : Bool) (peer1 peer2 : PeerId) (height : Nat) (hash : BlockHash) :
    NodeM Nat := do
  let next ← moveHeight agree height 1
  Prog.loop .diverged (scan X agree peer1 peer2) (X.bestBlock.1 + 2) (next, hash)

/-- Both answers, or what the missing ones say about the peers. -/
def bothAnswers (peer1 peer2 : PeerId) :
    Option Bytes × Option Bytes → PeerCheck ⊕ Bytes × Bytes
  | (some acc1, some acc2) => .inr (acc1, acc2)
  | (none, some _) => .inl (.unresponsivePeer peer1)
  | (some _, none) => .inl (.unresponsivePeer peer2)
  | (none, none) => .inl .bothUnresponsivePeers

/-- Compares the two answers for the block after the fork point with the replay of that block. -/
def judge (peer1 peer2 : PeerId) (fork : Nat) (agreed : X.rustreexo.Stump) : NodeM PeerCheck := do
  let next ← addU32 fork 1
  let hash ← chain (X.getBlockHash next)
  match bothAnswers peer1 peer2 (← grabBothPeersVersion X peer1 peer2 hash next) with
  | .inl verdict => pure verdict
  | .inr (bytes1, bytes2) => do
      match ← Prog.attempt (getBlockAndProof X peer1 hash) with
      | .error (.error .peerTimeout) => pure (.unresponsivePeer peer1)
      | .error fault => Prog.fail fault
      | .ok inflight => do
          let acc ← chain (updateAcc X agreed inflight.block inflight.auxData.proof
            inflight.auxData.leafData next)
          let acc1 ← parse X bytes1
          let acc2 ← parse X bytes2
          if acc1 ≠ acc ∧ acc2 ≠ acc then pure .bothLying
          else if acc1 ≠ acc then pure (.oneLying peer1)
          else pure (.oneLying peer2)

def scanAndJudge (peer1 peer2 : PeerId) (height : Nat) (hash : BlockHash) : NodeM PeerCheck := do
  let (acc1, acc2) ← grabBothPeersVersion X peer1 peer2 hash height
  let fork ← scanFrom X (acc1 = acc2) peer1 peer2 height hash
  let forkHash ← chain (X.getBlockHash fork)
  match ← grabBothPeersVersion X peer1 peer2 forkHash fork with
  | (some bytes, _) => do judge X peer1 peer2 fork (← parse X bytes)
  | (none, some bytes) => do judge X peer1 peer2 fork (← parse X bytes)
  | (none, none) => pure .bothUnresponsivePeers

def findWhoIsLying (peer1 peer2 : PeerId) : NodeM PeerCheck := do
  match ← Prog.loop .diverged (narrow X peer1 peer2) (X.bestBlock.1 + 1)
    (X.bestBlock.1, X.bestBlock.2, 0) with
  | .inl verdict => pure verdict
  | .inr (height, hash) => scanAndJudge X peer1 peer2 height hash

/-! ## The accumulator of a block -/

inductive FindAccResult
  | found (acc : Bytes)
  | keepLooking (accs : List (PeerId × Bytes))
  deriving DecidableEq, Repr

/-- Waits until no request is in flight: every peer has answered, or the requests have expired and
no more notifications are looked at. -/
def awaitStates (inflight : List PeerId) (accs : List (PeerId × Bytes)) :
    List (Notification X.rustreexo) → List (PeerId × Bytes)
  | [] => accs
  | notification :: rest =>
    if inflight = [] ∧ ¬ X.otherRequests then accs
    else
      match notification with
      | some (peer, .utreexoState state) =>
        awaitStates (inflight.erase peer) (accs ++ [(peer, state)]) rest
      | _ => awaitStates inflight accs rest

/-- A single answer, or one that everybody gives, is taken as it is. -/
def compareStates (peerAccs : List (PeerId × Bytes)) : FindAccResult :=
  match peerAccs with
  | [(_, acc)] => .found acc
  | _ =>
    match (peerAccs.map Prod.snd).dedup with
    | [acc] => .found acc
    | _ => .keepLooking peerAccs

def findAccumulatorForBlockStep (hash : BlockHash) (height : Nat) : NodeM FindAccResult := do
  X.archivePeers.forM fun peer => sendToPeer peer (.getUtreexoState hash height)
  if X.archivePeers = [] ∧ ¬ X.otherRequests then raise .noPeersAvailable
  else pure (compareStates (awaitStates X X.archivePeers [] (← received X)))

/-- The order of `(PeerId, Vec<u8>)`. -/
def CandidateLe (a b : PeerId × Bytes) : Prop := a.1 < b.1 ∨ (a.1 = b.1 ∧ a.2 ≤ b.2)

instance : DecidableRel CandidateLe := fun a b =>
  inferInstanceAs (Decidable (a.1 < b.1 ∨ (a.1 = b.1 ∧ a.2 ≤ b.2)))

def checkWindow (check : PeerId → PeerId → NodeM PeerCheck) (invalidAccs : List Bytes)
    (window : (PeerId × Bytes) × (PeerId × Bytes)) : NodeM (List Bytes) := do
  let ((peer1, acc1), (peer2, acc2)) := window
  if acc1 ∈ invalidAccs ∨ acc2 ∈ invalidAccs then pure invalidAccs
  else do
    Prog.modify fun s => { s with compared := s.compared ++ [(peer1, peer2)] }
    match ← check peer1 peer2 with
    | .oneLying liar => do
        disconnectAndBan X liar
        pure (invalidAccs ++ [if liar = peer1 then acc1 else acc2])
    | .unresponsivePeer deadPeer => do
        disconnectAndBan X deadPeer
        pure invalidAccs
    | .bothUnresponsivePeers => do
        disconnectAndBan X peer1
        disconnectAndBan X peer2
        pure invalidAccs
    | .bothLying => do
        disconnectAndBan X peer1
        disconnectAndBan X peer2
        pure (invalidAccs ++ [acc1, acc2])

/-- Compares neighbours and takes the candidate that is left over; the code asserts that there is
one. -/
def selectAmong (check : PeerId → PeerId → NodeM PeerCheck)
    (candidateAccs : List (PeerId × Bytes)) : NodeM X.rustreexo.Stump := do
  let invalidAccs ← (candidateAccs.zip candidateAccs.tail).foldlM (checkWindow X check) []
  match candidateAccs.filter (·.2 ∉ invalidAccs) with
  | [(_, acc)] => parse X acc
  | _ => panicking

/-- `find_accumulator_for_block`, with the comparison of two peers as a parameter. -/
def findAccumulatorWith (check : PeerId → PeerId → NodeM PeerCheck) (height : Nat)
    (hash : BlockHash) : NodeM X.rustreexo.Stump := do
  match ← Prog.attempt (findAccumulatorForBlockStep X hash height) with
  | .ok (.found acc) => parse X acc
  | .ok (.keepLooking accs) => selectAmong X check (accs.insertionSort CandidateLe).eraseReps
  | .error _ => selectAmong X check []

def findAccumulatorForBlock (height : Nat) (hash : BlockHash) : NodeM X.rustreexo.Stump :=
  findAccumulatorWith X (findWhoIsLying X) height hash

end Wire
end Floresta
