import Floresta.Udata.Proof

/-!
# Block — checks and amounts of whole blocks

The block half of `consensus.rs`, with `merkle.rs` and the block extensions: the merkle root with
its mutation check, the structural checks, BIP34, the subsidy and the supply it adds up to, and the
update of the accumulator.
-/

namespace Floresta

open Fallible

/-! ## Parameters -/

inductive SubsidyHalvingInterval
  | bitcoin
  | regtest
  deriving DecidableEq, Repr

def SubsidyHalvingInterval.get : SubsidyHalvingInterval → Nat
  | .bitcoin => 210000
  | .regtest => 150

/-- `bitcoin::Params`, the fields the node reads. -/
structure Params where
  bip34Height : Nat
  bip65Height : Nat
  bip66Height : Nat
  allowMinDifficultyBlocks : Bool
  noPowRetargeting : Bool
  powTargetSpacing : Nat
  maxAttainableTarget : Nat
  minerConfirmationWindow : Nat
  deriving DecidableEq, Repr

structure ChainParams where
  params : Params
  genesis : Block
  subsidyHalvingInterval : SubsidyHalvingInterval
  powTargetTimespan : Nat
  segwitActivationHeight : Nat
  csvActivationHeight : Nat
  exceptions : List (BlockHash × Nat)
  enforceBip94 : Bool

structure Rustreexo where
  Stump : Type
  Proof : Type
  new : Stump
  /-- adds the new leaves and removes the proven ones -/
  modify : Stump → List NodeHash → List NodeHash → Proof → Except String Stump
  serialize : Stump → Bytes
  deserialize : Bytes → Except String Stump

namespace Consensus

variable (B : Bitcoin)

/-! ## Merkle root -/

/-- The parents of a level; an unpaired last hash is paired with itself. -/
def reduceLevel : List Hash256 → List Hash256
  | [] => []
  | [l] => [B.merkleNode l l]
  | l :: r :: rest => B.merkleNode l r :: reduceLevel rest

/-- Whether two real siblings of the level are equal. -/
def levelMutated : List Hash256 → Bool
  | l :: r :: rest => l = r || levelMutated rest
  | _ => false

/-- The loop of `calculate_root`; the fuel bounds the number of levels. -/
def rootLoop : Nat → List Hash256 → Bool → Hash256 × Bool
  | _, [], mutated => (0, mutated)
  | _, [root], mutated => (root, mutated)
  | 0, l :: _, mutated => (l, mutated)
  | fuel + 1, level, mutated =>
    rootLoop fuel (reduceLevel B level) (mutated || levelMutated level)

def calculateRoot (txids : List Txid) : Option (Hash256 × Bool) :=
  match txids with
  | [] => none
  | _ => some (rootLoop B txids.length txids false)

def checkMerkleRoot (block : Block) : Option (List Txid) :=
  let txids := block.txdata.map B.computeTxid
  let (root, mutated) := (calculateRoot B txids).getD (0, false)
  if !mutated ∧ block.header.merkleRoot = root then some txids else none

/-! ## Structural checks -/

def MAX_BLOCK_WEIGHT : Nat := 4000000

def checkBlockStructure (block : Block) : Except BlockExtError (List Txid) := do
  let txids ← okOr (checkMerkleRoot B block) .badMerkleRoot
  require (B.checkWitnessCommitment block = true) .badWitnessCommitment
  require (B.weight block ≤ MAX_BLOCK_WEIGHT) .blockTooBig
  require ((block.txdata.map B.totalSigopCost).sum ≤ MAX_BLOCK_SIGOPS_COST) .tooManySigops
  pure txids

def getBip34Height (block : Block) : Option Nat := do
  let coinbase ← block.txdata.head?
  let input ← coinbase.input.head?
  let push ← (B.instructionsMinimal input.scriptSig).head?
  match push with
  | .ok (.pushBytes b) =>
    match B.readScriptint b with
    | .ok h => some (h % 2 ^ 32).toNat
    | .error _ => none
  | .ok (.op opcode) =>
    if 0x51 ≤ opcode ∧ opcode ≤ 0x60 then some (opcode.toNat - 0x50) else none
  | .error _ => none

def checkBip34 (params : ChainParams) (block : Block) (height : Nat) :
    Except BlockchainError Unit :=
  require (¬ (params.params.bip34Height ≤ height ∧ getBip34Height B block ≠ some height))
    (.blockValidation .badBip34)

def checkBlock (params : ChainParams) (block : Block) (height : Nat) :
    Except BlockchainError (List Txid) := do
  let txids ← (checkBlockStructure B block).mapError fun e => .blockValidation e.toValidationError
  checkBip34 B params block height
  pure txids

theorem checkBlock_txids {params : ChainParams} {block : Block} {height : Nat}
    {txids : List Txid} (h : checkBlock B params block height = .ok txids) :
    txids = block.txdata.map B.computeTxid := by
  simp only [checkBlock, bind_eq_ok, pure_eq_ok] at h
  rcases h with ⟨txids', hstruct, -, -, rfl⟩
  cases hs : checkBlockStructure B block with
  | error e => simp [hs, Except.mapError] at hstruct
  | ok ids =>
    have hids : ids = txids' := by simpa [hs, Except.mapError] using hstruct
    simp only [checkBlockStructure, bind_eq_ok, okOr_eq_ok, require_eq_ok, pure_eq_ok] at hs
    rcases hs with ⟨ids', hroot, -, -, -, -, -, -, rfl⟩
    simp only [checkMerkleRoot] at hroot
    split at hroot
    · rw [← hids]
      exact (Option.some.inj hroot).symm
    · cases hroot

theorem checkBlock_error {params : ChainParams} {block : Block} {height : Nat} {e : BlockchainError}
    (h : checkBlock B params block height = .error e) : ∃ v, e = .blockValidation v := by
  unfold checkBlock at h
  cases hs : checkBlockStructure B block with
  | error e' =>
    rw [hs] at h
    exact ⟨_, (Except.error.inj h).symm⟩
  | ok txids =>
    rw [hs] at h
    unfold checkBip34 require at h
    split at h
    · cases h
    · exact ⟨_, (Except.error.inj h).symm⟩

/-! ## Unspendable coinbases -/

def BIP30_BLOCK_91722 : BlockHash :=
  0x00000000000271a2dc26e7667f8419f2e15416dc6955e5a6c6cdf3f2574dd08e

def BIP30_BLOCK_91812 : BlockHash :=
  0x00000000000af0aed4792b1acee3d966af36cf5def14935db8de83d6f9306f2f

/-- The coinbase of the block was overwritten by a later one with the same txid. -/
def isBip30Unspendable (block : Block) (height : Nat) : Bool :=
  if height = 91722 then B.blockHash block.header = BIP30_BLOCK_91722
  else if height = 91812 then B.blockHash block.header = BIP30_BLOCK_91812
  else false

def UNSPENDABLE_BIP30_UTXO_91722 : Hash256 :=
  0xe32f0257032151e92bce65fc7cf77c9f556818361f5d4c56b410b48307afb384

def UNSPENDABLE_BIP30_UTXO_91812 : Hash256 :=
  0xd85a29d01fd585b943e39ec3833040a57acc8e1ffeb0d6183ad3bbcef74b6bbc

def containsUnspendableUtxo (delHashes : List Hash256) : Bool :=
  delHashes.any fun hash =>
    hash = UNSPENDABLE_BIP30_UTXO_91722 || hash = UNSPENDABLE_BIP30_UTXO_91812

/-- Checks the deletions against the unspendable leaves and updates the accumulator. -/
def updateAcc (R : Rustreexo) (acc : R.Stump) (block : Block) (height : Nat) (proof : R.Proof)
    (delHashes : List Hash256) : Except BlockchainError R.Stump := do
  require (containsUnspendableUtxo delHashes = false) (.blockValidation .unspendableUTXO)
  let adds := Udata.getBlockAdds B block height (B.blockHash block.header)
  (R.modify acc adds (delHashes.map NodeHash.some) proof).mapError .accumulatorError

/-! ## Subsidy and supply -/

def MAX_SUBSIDY_HALVINGS : Nat := 64

def getSubsidy (params : ChainParams) (height : Nat) : Amount :=
  let halvings := height / params.subsidyHalvingInterval.get
  if MAX_SUBSIDY_HALVINGS ≤ halvings then Amount.ZERO
  else Amount.fromSat ((50 * Amount.ONE_BTC.sat) >>> halvings)

/-- The loop over the full epochs of `max_supply_at_height`, on `u64`. -/
def epochSupply (params : ChainParams) (epochs : Nat) : Nat :=
  (List.range epochs).foldl (fun total epoch =>
    (total + params.subsidyHalvingInterval.get *
      (getSubsidy params (params.subsidyHalvingInterval.get * epoch)).sat) % 2 ^ 64) 0

/-- The supply created up to a height, without the unspendable genesis subsidy. -/
def maxSupplyAtHeight (params : ChainParams) (height : Nat) : Amount :=
  let blocksPerEpoch := params.subsidyHalvingInterval.get
  let blockCount := height + 1
  let fullEpochs := blockCount / blocksPerEpoch
  let remBlocks := blockCount % blocksPerEpoch
  let total := epochSupply params (min fullEpochs MAX_SUBSIDY_HALVINGS)
  let total := if fullEpochs < MAX_SUBSIDY_HALVINGS then
    (total + remBlocks * (getSubsidy params (blocksPerEpoch * fullEpochs)).sat) % 2 ^ 64 else total
  Amount.fromSat (total - (getSubsidy params 0).sat)

end Consensus

end Floresta
