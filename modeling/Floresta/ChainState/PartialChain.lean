import Floresta.ChainState.SavedRoots

/-!
# PartialChain — backfilling in the background

The model of `partial_chain.rs`: a chain that has its headers from the start, and connects the
blocks of an interval to an accumulator of its own.  It is made by `get_partial_chain` from the
headers of the best chain.
-/

namespace Floresta

open Fallible

variable {final n : Nat} {header : BlockHeader}

structure PartialChainStateInner (C : ChainContext) where
  currentAcc : C.rustreexo.Stump
  /-- the headers from the genesis block to the last block of the interval -/
  blocks : List BlockHeader
  currentHeight : Nat
  finalHeight : Nat
  /-- the error that shows the chain to be invalid -/
  error : Option BlockValidationErrors
  assumeValid : Bool

abbrev PartialChainM (C : ChainContext) := Prog (PartialChainStateInner C) Fault

namespace PartialChainStateInner

variable {C : ChainContext}

def getBlock (s : PartialChainStateInner C) (height : Nat) : Option BlockHeader :=
  if s.blocks.length % 2 ^ 32 ≤ height then none else s.blocks[height]?

/-- The header below a height, on `u32`. -/
def getAncestor (s : PartialChainStateInner C) (height : Nat) : Except Fault BlockHeader :=
  okOr (s.getBlock ((height + (2 ^ 32 - 1)) % 2 ^ 32)) (.error .blockNotPresent)

/-- The closure of `median_time_past`, with the height it counts down. -/
def previousHeader (s : PartialChainStateInner C) (_ : BlockHeader) :
    StateT Nat (Except Fault) BlockHeader := fun height =>
  match height with
  | 0 => .error (.panicked "height 0 must be genesis and short-circuit MTP computation")
  | height + 1 => do
      let header ← okOr (s.getBlock height) (.error .blockNotPresent)
      pure (header, height)

def medianTimePast (s : PartialChainStateInner C) (height : Nat) : Except Fault Nat := do
  let header ← okOr (s.getBlock height) (.error .blockNotPresent)
  let (time, _) ← Consensus.medianTimePastWith s.previousHeader header height
  pure time

def previousMedianTimePast (s : PartialChainStateInner C) (height : Nat) : Except Fault Nat :=
  s.medianTimePast (height - 1)

def blockLockTimeCutoff (s : PartialChainStateInner C) (height : Nat) (header : BlockHeader) :
    Except Fault LockTimeCutoff :=
  if C.parameters.csvActivationHeight ≤ height then do
    let time ← s.previousMedianTimePast height
    pure (.mtp time)
  else pure (.headerTime header.time)

/-- What is checked before the transactions are verified. -/
def checkBeforeTransactions (s : PartialChainStateInner C) (block : Block) (height : Nat) :
    Except Fault LockTimeCutoff := do
  let _ ← (Consensus.checkBlock C.bitcoin C.parameters block height).mapError .error
  let previous ← s.getAncestor height
  require (block.header.prevBlockhash = C.blockHash previous)
    (.error (.blockValidation .blockExtendsAnOrphanChain))
  s.blockLockTimeCutoff height block.header

def validateBlock (s : PartialChainStateInner C) (block : Block) (height : Nat) (inputs : UtxoMap) :
    Except Fault Unit := do
  let cutoff ← s.checkBeforeTransactions block height
  let subsidy := Consensus.getSubsidy C.parameters height
  let verifyScript := s.assumeValid
  let flags := C.parameters.getValidationFlags height (C.blockHash block.header)
  (Consensus.verifyBlockTransactions C.bitcoin C.kernel height cutoff inputs block.txdata subsidy
    verifyScript flags).mapError .error

/-- An error that a mutated copy of a valid block can cause. -/
def mayBeMutated (e : BlockValidationErrors) : Bool :=
  e = .badMerkleRoot ∨ e = .badWitnessCommitment

/-- The second half of `process_block`: the accumulator of the block, and the new state. -/
def updateState (block : Block) (height : Nat) (proof : C.rustreexo.Proof)
    (delHashes : List Hash256) : PartialChainM C Nat := fun s =>
  match Consensus.updateAcc C.bitcoin C.rustreexo s.currentAcc block height proof delHashes with
  | .error _ =>
    (.error (.error .invalidUtreexoProof), { s with error := some .invalidUtreexoProof })
  | .ok acc => (.ok height, { s with currentHeight := height, currentAcc := acc })

/-- Of the errors of the validation, only those of the block end the call (and a panic). -/
def processBlock (block : Block) (proof : C.rustreexo.Proof) (inputs : UtxoMap)
    (delHashes : List Hash256) : PartialChainM C Nat := fun s =>
  let height := (s.currentHeight + 1) % 2 ^ 32
  match s.validateBlock block height inputs with
  | .error (.error (.blockValidation e)) =>
    (.error (.error (.blockValidation e)),
      if mayBeMutated e then s else { s with error := some e })
  | .error (.panicked msg) => (.error (.panicked msg), s)
  | .error .diverged => (.error .diverged, s)
  | .error (.error _) => updateState block height proof delHashes s
  | .ok () => updateState block height proof delHashes s

def connectBlock (block : Block) (proof : C.rustreexo.Proof) (inputs : UtxoMap)
    (delHashes : List Hash256) : PartialChainM C Nat :=
  processBlock block proof inputs delHashes

def listValidBlocks (s : PartialChainStateInner C) : List BlockHeader :=
  s.blocks.take s.currentHeight

def hasInvalidBlocks (s : PartialChainStateInner C) : Bool := s.error.isSome

end PartialChainStateInner

namespace ChainState

variable {C : ChainContext}

def expect {α : Type} (msg : String) (m : ChainM C α) : ChainM C α := do
  match ← m.attempt with
  | .ok a => pure a
  | .error _ => Prog.fail (.panicked msg)

/-- The header that `get_partial_chain` takes at a height. -/
def headerAt (height : Nat) : ChainM C BlockHeader := do
  let hash ← expect "Block should be present" (getBlockHash height)
  let header ← expect "Block should be present" (getDiskBlockHeader hash)
  pure header.header

def getPartialChain (initialHeight finalHeight : Nat) (acc : C.rustreexo.Stump) :
    ChainM C (PartialChainStateInner C) := do
  let blocks ← (List.range (finalHeight + 1)).mapM headerAt
  pure ⟨acc, blocks, initialHeight, finalHeight, none, false⟩

/-! ## The headers of both chains -/

open Prog FlatChainStore

structure SameHeaders (s : ChainStateInner C) (p : PartialChainStateInner C) : Prop where
  length : p.blocks.length = p.finalHeight + 1
  onChain : ∀ n header, p.blocks[n]? = some header →
    ∃ d, OnChain s.view (C.blockHash header) d n ∧ d.header = header

variable {k : Nat} {s : ChainStateInner C} {p : PartialChainStateInner C}

theorem SameHeaders.getBlock (h : SameHeaders s p) (hinv : ChainInv k s)
    (hn : n ≤ p.finalHeight) : ∃ header, p.blocks[n]? = some header ∧ p.getBlock n = some header := by
  have hlen := h.length
  -- the last header has a height that the store can index
  have hlast : p.finalHeight < 2 ^ 31 := by
    have hget : p.blocks[p.finalHeight]? = some (p.blocks[p.finalHeight]) :=
      List.getElem?_eq_getElem (by omega)
    rcases h.onChain _ _ hget with ⟨d, hd, -⟩
    rcases view_active hinv.store.core hd.entry hd.active with ⟨m, hm, -, hindex, -, -⟩
    have hnm := hd.height_eq hm
    omega
  have hget : p.blocks[n]? = some (p.blocks[n]) := List.getElem?_eq_getElem (by omega)
  refine ⟨_, hget, ?_⟩
  unfold PartialChainStateInner.getBlock
  rw [if_neg (by omega), hget]

theorem SameHeaders.parent (h : SameHeaders s p) (hinv : ChainInv k s)
    {previous : BlockHeader} (hheader : p.blocks[n + 1]? = some header)
    (hprevious : p.blocks[n]? = some previous) : header.prevBlockhash = C.blockHash previous := by
  rcases h.onChain _ _ hheader with ⟨d, hd, rfl⟩
  rcases h.onChain _ _ hprevious with ⟨e, he, -⟩
  have hne : C.blockHash d.header ≠ C.genesisHash := by
    intro heq
    rcases hd.branch hinv.tree with ⟨hbranch, -⟩
    cases hbranch with
    | child hg =>
      simp [isGenesis, heq] at hg
  rcases hinv.settled.parent hd hne with ⟨q, m, hq, hm⟩
  have hmn : m = n := by omega
  subst hmn
  exact hinv.settled.unique hq he

theorem within_expect {α : Type} {S : ChainStateInner C → Prop} {E : Fault → Prop} {msg : String}
    {m : ChainM C α} {P : α → Prop} (hm : Within S (fun _ => False) m P) :
    Within S E (expect msg m) P := by
  intro s0 hs0
  unfold expect
  rw [wp_bind, wp_attempt]
  refine wp_mono (hm s0 hs0) ?_
  rintro (e | a) s' ⟨hs', hout⟩
  · exact hout.elim
  · exact ⟨hs', hout⟩

theorem getPartialChain_spec (hinv : ChainInv k s) (initial : Nat)
    (hfinal : final ≤ s.bestBlock.depth) (acc : C.rustreexo.Stump) :
    ∃ p, (getPartialChain initial final acc s).1 = .ok p ∧ SameHeaders s p ∧
      p = ⟨acc, p.blocks, initial, final, none, false⟩ := by
  have hblocks : Within (Quiet k s) (fun _ => False)
      ((List.range (final + 1)).mapM headerAt : ChainM C _)
      (List.Forall₂ (fun n header => ∃ d, OnChain s.view (C.blockHash header) d n ∧
        d.header = header) (List.range (final + 1))) := by
    refine Within.mapM _ fun n hn => ?_
    have hle : n ≤ s.bestBlock.depth := by
      have hlt := List.mem_range.mp hn
      omega
    rcases hinv.onChain_at hle with ⟨x, d, hd⟩
    refine Within.bind_eq (within_expect (within_getBlockHash_onChain hd)) <|
      Within.bind_eq (within_expect (within_getDiskBlockHeader_stored hd.entry)) <|
      Within.pure ⟨d, ?_, rfl⟩
    rw [hinv.tree.hash _ _ hd.entry]
    exact hd
  have hcall := hblocks s (Quiet.refl hinv.store)
  unfold getPartialChain
  rw [bind_apply]
  unfold wp at hcall
  generalize ((List.range (final + 1)).mapM headerAt : ChainM C _) s = run at hcall ⊢
  rcases run with ⟨e | blocks, s'⟩
  · exact hcall.2.elim
  · have hall : List.Forall₂ _ (List.range (final + 1)) blocks := hcall.2
    refine ⟨_, rfl, ⟨?_, ?_⟩, rfl⟩
    · change blocks.length = final + 1
      rw [← hall.length_eq, List.length_range]
    · intro n header hheader
      have hn : n < final + 1 := by
        have hlt := (List.getElem?_eq_some_iff.mp hheader).1
        rwa [← hall.length_eq, List.length_range] at hlt
      have hget := List.forall₂_iff_get.mp hall
      rcases List.getElem?_eq_some_iff.mp hheader with ⟨hlt, rfl⟩
      have hn' := hget.2 n (by simpa using hn) hlt
      simpa using hn'

section

variable (h : SameHeaders s p) (hinv : ChainInv k s)

include h hinv

/-- A header of the best chain is the one that the partial chain has at its height. -/
theorem SameHeaders.getElem? {x : BlockHash} {d : DiskBlockHeader}
    (hd : OnChain s.view x d n) (hn : n ≤ p.finalHeight) :
    p.blocks[n]? = some d.header := by
  rcases h.getBlock hinv hn with ⟨header, hheader, -⟩
  rcases h.onChain _ _ hheader with ⟨e, he, rfl⟩
  have hhash := hinv.settled.unique he hd
  rw [hhash] at he
  rw [hheader, (he.heights_eq hd).1]

theorem SameHeaders.genesis (hheader : p.blocks[0]? = some header) : header = C.genesisHeader := by
  rcases h.onChain _ _ hheader with ⟨d, hd, rfl⟩
  cases (hd.branch hinv.tree).1 with
  | genesis hg =>
    have hhash : C.blockHash d.header = C.genesisHash := by simpa [isGenesis] using hg
    have hentry := hd.entry
    rw [hhash, hinv.tree.genesis] at hentry
    rw [← Option.some.inj hentry]
    rfl

/-! ## The median time -/

theorem SameHeaders.collectTimes (hroot : C.genesisHeader.prevBlockhash = 0) (n : Nat) {m : Nat}
    (hheader : p.blocks[m]? = some header) (hm : m ≤ p.finalHeight) :
    ∃ times, Within (Quiet k s) (fun _ => False) (Consensus.collectTimes (fun header => do
        let parent ← getAncestor header
        pure parent.header) n header : ChainM C _) (· = times) ∧
      ∃ m', Consensus.collectTimes p.previousHeader n header m = .ok (times, m') := by
  induction n generalizing m header with
  | zero => exact ⟨[], Within.pure rfl, m, rfl⟩
  | succ n ih =>
    unfold Consensus.collectTimes
    by_cases hstop : n = 0 ∨ header.prevBlockhash = 0
    · refine ⟨[header.time], ?_, m, ?_⟩
      · rw [if_pos hstop]
        exact Within.pure rfl
      · rw [if_pos hstop]
        rfl
    · -- the header is not the first one, whose parent hash is zero
      cases m with
      | zero =>
        have hfirst := h.genesis hinv hheader
        rw [hfirst] at hstop
        exact absurd (.inr hroot) hstop
      | succ m =>
        rcases h.getBlock hinv (Nat.le_of_succ_le hm) with ⟨previous, hprevious, hget⟩
        rcases h.onChain _ _ hprevious with ⟨d, hd, rfl⟩
        rcases ih hprevious (Nat.le_of_succ_le hm) with ⟨times, hmain, m', hwindow⟩
        refine ⟨header.time :: times, ?_, m', ?_⟩
        · rw [if_neg hstop]
          have hentry : s.view header.prevBlockhash = some d := by
            rw [h.parent hinv hheader hprevious]
            exact hd.entry
          exact Within.bind_eq (Within.bind_eq (within_getDiskBlockHeader_stored hentry)
            (Within.pure rfl)) (Within.bind_eq hmain (Within.pure rfl))
        · rw [if_neg hstop]
          have hclosure : p.previousHeader header (m + 1) = .ok (d.header, m) := by
            simp only [PartialChainStateInner.previousHeader, hget]
            rfl
          change (p.previousHeader header (m + 1)).bind _ = _
          rw [hclosure]
          change (Consensus.collectTimes p.previousHeader n d.header m).bind _ = _
          rw [hwindow]
          rfl

theorem SameHeaders.blockLockTimeCutoff (hroot : C.genesisHeader.prevBlockhash = 0) {m : Nat}
    (hheader : p.blocks[m + 1]? = some header) (hm : m + 1 ≤ p.finalHeight) :
    ∃ cutoff, Within (Quiet k s) (fun _ => False)
        (ChainState.blockLockTimeCutoff (m + 1) header : ChainM C _) (· = cutoff) ∧
      p.blockLockTimeCutoff (m + 1) header = .ok cutoff := by
  unfold ChainState.blockLockTimeCutoff PartialChainStateInner.blockLockTimeCutoff
  by_cases hcsv : C.parameters.csvActivationHeight ≤ m + 1
  · rcases h.getBlock hinv (Nat.le_of_succ_le hm) with ⟨previous, hprevious, hget⟩
    rcases h.onChain _ _ hprevious with ⟨d, hd, rfl⟩
    rcases h.collectTimes hinv hroot Consensus.MEDIAN_TIME_PAST_BLOCK_COUNT hprevious
      (Nat.le_of_succ_le hm) with ⟨times, hmain, m', hwindow⟩
    have hentry : s.view header.prevBlockhash = some d := by
      rw [h.parent hinv hheader hprevious]
      exact hd.entry
    refine ⟨.mtp ((times.insertionSort (· ≤ ·)).getD (times.length / 2) 0), ?_, ?_⟩
    · rw [if_pos hcsv]
      exact Within.bind_eq (Within.bind_eq (within_getDiskBlockHeader_stored hentry)
        (Within.bind_eq hmain (Within.pure rfl))) (Within.pure rfl)
    · rw [if_pos hcsv]
      have hmedian : Consensus.medianTimePastWith p.previousHeader d.header m =
          .ok ((times.insertionSort (· ≤ ·)).getD (times.length / 2) 0, m') := by
        change (Consensus.collectTimes p.previousHeader _ d.header m).bind _ = _
        rw [hwindow]
        rfl
      simp only [PartialChainStateInner.previousMedianTimePast,
        PartialChainStateInner.medianTimePast, Nat.add_sub_cancel, hget]
      change (Consensus.medianTimePastWith p.previousHeader d.header m >>= _) >>= _ = _
      rw [hmedian]
      rfl
  · refine ⟨.headerTime header.time, ?_, ?_⟩
    · rw [if_neg hcsv]
      exact Within.pure rfl
    · rw [if_neg hcsv]
      rfl

end

/-! ## Two ways to connect a block -/

/-- What `connect_block` does before the transactions are verified: the height of the block, its
accumulator, the time that lock times are compared with, and whether scripts are verified. -/
def connectBeforeTransactions (block : Block) (proof : C.rustreexo.Proof)
    (delHashes : List Hash256) : ChainM C (Nat × C.rustreexo.Stump × LockTimeCutoff × Bool) := do
  let height ← connectableHeight (C.blockHash block.header)
  let acc ← Prog.read ChainStateInner.acc
  let acc ← check (Consensus.updateAcc C.bitcoin C.rustreexo acc block height proof delHashes)
  let _ ← check (Consensus.checkBlock C.bitcoin C.parameters block height)
  let cutoff ← ChainState.blockLockTimeCutoff height block.header
  let verify ← verifyScript height
  pure (height, acc, cutoff, verify)

theorem connectBlock_eq (block : Block) (proof : C.rustreexo.Proof) (inputs : UtxoMap)
    (delHashes : List Hash256) :
    (connectBlock block proof inputs delHashes : ChainM C Nat) =
      (do
        let (height, acc, cutoff, verify) ← connectBeforeTransactions block proof delHashes
        check (Consensus.verifyBlockTransactions C.bitcoin C.kernel height cutoff inputs
          block.txdata (Consensus.getSubsidy C.parameters height) verify
          (C.parameters.getValidationFlags height (C.blockHash block.header)))
        updateView height block.header acc
        let ibd ← isInIbd
        (if !ibd ∨ height % 100000 = 0 then flush else pure ())
        pure height) := by
  unfold connectBlock connectBeforeTransactions validateBlockNoAcc
  simp only [Prog.bind_assoc]
  rfl

/-- The `verify_script` that `ChainState::connect_block` passes to `verify_block_transactions`, if
it gets there. -/
def passedVerifyScript (s : ChainStateInner C) (block : Block) (proof : C.rustreexo.Proof)
    (delHashes : List Hash256) : Option Bool :=
  match (connectBeforeTransactions block proof delHashes s).1 with
  | .ok (_, _, _, verify) => some verify
  | .error _ => none

/-- The one that `PartialChainState::connect_block` passes. -/
def partialPassedVerifyScript (p : PartialChainStateInner C) (block : Block) : Option Bool :=
  match p.checkBeforeTransactions block ((p.currentHeight + 1) % 2 ^ 32) with
  | .ok _ => some p.assumeValid
  | .error _ => none

/-- The partial chain treats a block as the main chain does. -/
structure Agree (s : ChainStateInner C) (p : PartialChainStateInner C) (block : Block)
    (proof : C.rustreexo.Proof) (inputs : UtxoMap) (delHashes : List Hash256) : Prop where
  accepts : (∃ n, (PartialChainStateInner.connectBlock block proof inputs delHashes p).1 = .ok n) ↔
    ∃ n, (connectBlock block proof inputs delHashes s).1 = .ok n
  acc : ∀ n m, (PartialChainStateInner.connectBlock block proof inputs delHashes p).1 = .ok n →
    (connectBlock block proof inputs delHashes s).1 = .ok m →
    (PartialChainStateInner.connectBlock block proof inputs delHashes p).2.currentAcc =
      (connectBlock block proof inputs delHashes s).2.acc
  verifyScript : ∀ v v', partialPassedVerifyScript p block = some v →
    passedVerifyScript s block proof delHashes = some v' → v = v'
  unchanged :
    (∃ e, (PartialChainStateInner.connectBlock block proof inputs delHashes p).1 = .error e) ∨
      (∃ e, (connectBlock block proof inputs delHashes s).1 = .error e) →
    (PartialChainStateInner.connectBlock block proof inputs delHashes p).2.currentHeight =
        p.currentHeight ∧
      (PartialChainStateInner.connectBlock block proof inputs delHashes p).2.currentAcc =
        p.currentAcc

/-- The block is the next one of both chains, which have the same headers and the same accumulator;
neither of them assumes scripts to be valid. -/
structure NextBlock (s : ChainStateInner C) (p : PartialChainStateInner C) (header : BlockHeader) :
    Prop where
  headers : SameHeaders s p
  acc : p.currentAcc = s.acc
  inside : p.currentHeight + 1 ≤ p.finalHeight
  block : p.blocks[p.currentHeight + 1]? = some header
  entry : s.view (C.blockHash header) = some (.headersOnly header (p.currentHeight + 1))
  validated : ∃ h, s.view s.bestBlock.validationIndex = some (.fullyValid h p.currentHeight)
  assumeValid : s.assumeValid = none
  partialAssumeValid : p.assumeValid = false

section Next

variable {block : Block} {proof : C.rustreexo.Proof} {delHashes : List Hash256}

section

variable (h : NextBlock s p block.header)

include h

theorem NextBlock.within_connectableHeight :
    Within (Quiet k s) (fun _ => False) (connectableHeight (C.blockHash block.header) : ChainM C _)
      (· = p.currentHeight + 1) := by
  rcases h.validated with ⟨h0, hindex⟩
  refine Within.bind_eq (within_getDiskBlockHeader_stored h.entry) ?_
  refine Within.bind_eq (a := p.currentHeight) ?_ ?_
  · exact Within.bind_eq (Within.read fun _ hs => hs.bestBlock)
      (Within.bind_eq (within_getDiskBlockHeader_stored hindex) (Within.pure rfl))
  · refine Within.bind (P := fun _ => True) ?_ fun _ _ => Within.pure rfl
    have hnext : require (p.currentHeight + 1 = p.currentHeight + 1)
        (BlockchainError.blockValidation .blockDoesntExtendTip) = .ok () :=
      require_eq_ok.mpr rfl
    rw [hnext]
    exact Within.lift trivial

/-- A block that passes the checks before it gets to its transactions, and its scripts are to be
verified. -/
theorem NextBlock.reaches (hinv : ChainInv k s) (hroot : C.genesisHeader.prevBlockhash = 0)
    {acc : C.rustreexo.Stump} {txids : List Txid}
    (hacc : Consensus.updateAcc C.bitcoin C.rustreexo p.currentAcc block (p.currentHeight + 1) proof
      delHashes = .ok acc)
    (hcheck : Consensus.checkBlock C.bitcoin C.parameters block (p.currentHeight + 1) = .ok txids) :
    passedVerifyScript s block proof delHashes = some true := by
  rcases h.headers.blockLockTimeCutoff hinv hroot h.block h.inside with ⟨cutoff, hcutoff, -⟩
  have hwithin : Within (Quiet k s) (fun _ => False)
      (connectBeforeTransactions block proof delHashes : ChainM C _)
      (· = (p.currentHeight + 1, acc, cutoff, true)) := by
    refine Within.bind_eq h.within_connectableHeight <|
      Within.bind_eq (Within.read fun s' hs => hs.acc.trans h.acc.symm) <|
      Within.bind_eq (a := acc) ?_ <| Within.bind (P := fun _ => True) ?_ fun _ _ =>
      Within.bind_eq hcutoff <| Within.bind_eq (a := true) ?_ <| Within.pure rfl
    · rw [hacc]
      exact Within.lift rfl
    · rw [hcheck]
      exact Within.lift trivial
    · refine Within.bind_eq (a := none) (Within.read fun s' hs => ?_) (Within.pure rfl)
      rw [hs.same]
      exact h.assumeValid
  rcases hwithin s (Quiet.refl hinv.store) with ⟨-, hout⟩
  unfold passedVerifyScript
  cases hrun : (connectBeforeTransactions block proof delHashes s).1 with
  | error e =>
    rw [hrun] at hout
    exact hout.elim
  | ok r =>
    rw [hrun] at hout
    have hr : r = (p.currentHeight + 1, acc, cutoff, true) := hout
    rw [hr]

/-- A block whose proof or whose own checks fail is rejected before its transactions are verified. -/
theorem NextBlock.rejects (hinv : ChainInv k s) (inputs : UtxoMap)
    (hfails : (∃ e, Consensus.updateAcc C.bitcoin C.rustreexo p.currentAcc block (p.currentHeight +
      1) proof delHashes = .error e) ∨ ∃ e, Consensus.checkBlock C.bitcoin C.parameters block
      (p.currentHeight + 1) = .error e) :
    passedVerifyScript s block proof delHashes = none ∧
      ∃ e, (connectBlock block proof inputs delHashes s).1 = .error e := by
  have hwithin : Within (Quiet k s) (fun _ => True)
      (connectBeforeTransactions block proof delHashes : ChainM C _) fun _ => False := by
    refine Within.bind_eq h.within_connectableHeight.weaken <|
      Within.bind_eq (Within.read fun s' hs => hs.acc.trans h.acc.symm) ?_
    rcases hfails with ⟨e, he⟩ | ⟨e, he⟩
    · refine Within.bind (P := fun _ => False) ?_ fun _ hfalse => hfalse.elim
      rw [he]
      exact Within.lift trivial
    · refine Within.bind (P := fun _ => True) ?_ fun _ _ => ?_
      · cases Consensus.updateAcc C.bitcoin C.rustreexo p.currentAcc block
          (p.currentHeight + 1) proof delHashes <;> exact Within.lift trivial
      · refine Within.bind (P := fun _ => False) ?_ fun _ hfalse => hfalse.elim
        rw [he]
        exact Within.lift trivial
  rcases hwithin s (Quiet.refl hinv.store) with ⟨-, hout⟩
  unfold passedVerifyScript
  rw [connectBlock_eq, bind_apply]
  rcases hrun : connectBeforeTransactions block proof delHashes s with ⟨e | r, s'⟩
  · exact ⟨rfl, e, rfl⟩
  · rw [hrun] at hout
    exact hout.elim

/-! ### The partial chain -/

theorem NextBlock.height (hinv : ChainInv k s) :
    (p.currentHeight + 1) % 2 ^ 32 = p.currentHeight + 1 := by
  have hactive : OnChain s.view (C.blockHash block.header)
      (.headersOnly block.header (p.currentHeight + 1)) (p.currentHeight + 1) := ⟨h.entry, rfl, rfl⟩
  rcases view_active hinv.store.core hactive.entry rfl with ⟨m, hm, -, hindex, -, -⟩
  have hnm : p.currentHeight + 1 = m := Option.some.inj hm
  exact Nat.mod_eq_of_lt (by omega)

theorem NextBlock.checkBeforeTransactions (hinv : ChainInv k s)
    (hroot : C.genesisHeader.prevBlockhash = 0) {txids : List Txid}
    (hcheck : Consensus.checkBlock C.bitcoin C.parameters block (p.currentHeight + 1) = .ok txids) :
    ∃ cutoff, p.checkBeforeTransactions block (p.currentHeight + 1) = .ok cutoff := by
  rcases h.headers.blockLockTimeCutoff hinv hroot h.block h.inside with ⟨cutoff, -, hcutoff⟩
  rcases h.headers.getBlock hinv (Nat.le_of_succ_le h.inside) with ⟨previous, hprevious, hget⟩
  have hbelow : (p.currentHeight + 1 + (2 ^ 32 - 1)) % 2 ^ 32 = p.currentHeight := by
    have hheight := h.height hinv
    omega
  refine ⟨cutoff, ?_⟩
  unfold PartialChainStateInner.checkBeforeTransactions
  simp only [bind_eq_ok]
  refine ⟨txids, by rw [hcheck]; rfl, previous, ?_, (), ?_, hcutoff⟩
  · unfold PartialChainStateInner.getAncestor
    rw [hbelow, hget]
    rfl
  · exact require_eq_ok.mpr (h.headers.parent hinv h.block hprevious)

end

theorem processBlock_cases (p : PartialChainStateInner C) (block : Block)
    (proof : C.rustreexo.Proof) (inputs : UtxoMap) (delHashes : List Hash256)
    (hn : n = (p.currentHeight + 1) % 2 ^ 32) :
    (∃ fault error, PartialChainStateInner.processBlock block proof inputs delHashes p =
      (.error fault, { p with error := error })) ∨
    (∀ e, p.validateBlock block n inputs ≠ .error (.error (.blockValidation e))) ∧
      PartialChainStateInner.processBlock block proof inputs delHashes p =
        PartialChainStateInner.updateState block n proof delHashes p := by
  subst hn
  unfold PartialChainStateInner.processBlock
  dsimp only
  cases p.validateBlock block ((p.currentHeight + 1) % 2 ^ 32) inputs with
  | ok u => exact .inr ⟨nofun, rfl⟩
  | error fault =>
    cases fault with
    | diverged => exact .inl ⟨.diverged, p.error, rfl⟩
    | panicked msg => exact .inl ⟨.panicked msg, p.error, rfl⟩
    | error e =>
      cases e with
      | blockValidation e =>
        refine .inl ⟨.error (.blockValidation e),
          if PartialChainStateInner.mayBeMutated e then p.error else some e, ?_⟩
        dsimp only
        split <;> rfl
      | _ => exact .inr ⟨nofun, rfl⟩

theorem updateState_cases (p : PartialChainStateInner C) (block : Block) (n : Nat)
    (proof : C.rustreexo.Proof) (delHashes : List Hash256) :
    (∃ fault error, PartialChainStateInner.updateState block n proof delHashes p =
      (.error fault, { p with error := error })) ∨
    ∃ acc, Consensus.updateAcc C.bitcoin C.rustreexo p.currentAcc block n proof delHashes =
        .ok acc ∧
      PartialChainStateInner.updateState block n proof delHashes p =
        (.ok n, { p with currentHeight := n, currentAcc := acc }) := by
  unfold PartialChainStateInner.updateState
  cases Consensus.updateAcc C.bitcoin C.rustreexo p.currentAcc block n proof delHashes with
  | error e => exact .inl ⟨_, _, rfl⟩
  | ok acc => exact .inr ⟨acc, rfl, rfl⟩

/-- A call fails and moves nothing, or it advances by one block: the validation ended in no error of
the block, and the proof is right. -/
theorem partialConnectBlock_cases (p : PartialChainStateInner C) (block : Block)
    (proof : C.rustreexo.Proof) (inputs : UtxoMap) (delHashes : List Hash256)
    (hn : n = (p.currentHeight + 1) % 2 ^ 32) :
    (∃ fault error, PartialChainStateInner.connectBlock block proof inputs delHashes p =
      (.error fault, { p with error := error })) ∨
    (∀ e, p.validateBlock block n inputs ≠ .error (.error (.blockValidation e))) ∧
      ∃ acc, Consensus.updateAcc C.bitcoin C.rustreexo p.currentAcc block n proof delHashes =
          .ok acc ∧
        PartialChainStateInner.connectBlock block proof inputs delHashes p =
          (.ok n, { p with currentHeight := n, currentAcc := acc }) := by
  rcases processBlock_cases p block proof inputs delHashes hn with hfails | ⟨hvalid, hprocess⟩
  · exact .inl hfails
  · rcases updateState_cases p block n proof delHashes with ⟨fault, error, hstate⟩ |
      ⟨acc, hacc, hstate⟩
    · exact .inl ⟨fault, error, hprocess.trans hstate⟩
    · exact .inr ⟨hvalid, acc, hacc, hprocess.trans hstate⟩

/-- The checks that both chains make before they look at the transactions. -/
theorem NextBlock.partial_rejects (h : NextBlock s p block.header) (hinv : ChainInv k s)
    (inputs : UtxoMap)
    (hfails : (∃ e, Consensus.updateAcc C.bitcoin C.rustreexo p.currentAcc block
        (p.currentHeight + 1) proof delHashes = .error e) ∨
      ∃ e, Consensus.checkBlock C.bitcoin C.parameters block (p.currentHeight + 1) = .error e) :
    ∃ fault error, PartialChainStateInner.connectBlock block proof inputs delHashes p =
      (.error fault, { p with error := error }) := by
  rcases partialConnectBlock_cases p block proof inputs delHashes (h.height hinv).symm with
    hcall | ⟨hvalid, acc, hacc, -⟩
  · exact hcall
  · rcases hfails with ⟨e, he⟩ | ⟨e, he⟩
    · rw [he] at hacc
      cases hacc
    · rcases Consensus.checkBlock_error _ he with ⟨v, rfl⟩
      refine absurd ?_ (hvalid v)
      unfold PartialChainStateInner.validateBlock PartialChainStateInner.checkBeforeTransactions
      rw [he]
      rfl

end Next

theorem NextBlock.of_getPartialChain (hinv : ChainInv k s) {h0 : BlockHeader}
    (hentry : s.view (C.blockHash header) = some (.headersOnly header (n + 1)))
    (hvalidated : s.view s.bestBlock.validationIndex = some (.fullyValid h0 n))
    (hassume : s.assumeValid = none) (hinside : n + 1 ≤ final)
    (hfinal : final ≤ s.bestBlock.depth) :
    ∃ p, (getPartialChain n final s.acc s).1 = .ok p ∧ NextBlock s p header := by
  rcases getPartialChain_spec hinv n hfinal s.acc with ⟨p, hp, hheaders, heq⟩
  have hheight : p.currentHeight = n := by rw [heq]
  have hlast : p.finalHeight = final := by rw [heq]
  have hd : OnChain s.view (C.blockHash header) (.headersOnly header (n + 1)) (n + 1) :=
    ⟨hentry, rfl, rfl⟩
  refine ⟨p, hp, hheaders, by rw [heq], ?_, ?_, ?_, ⟨h0, ?_⟩, hassume, by rw [heq]⟩
  · rw [hheight, hlast]
    exact hinside
  · rw [hheight]
    exact hheaders.getElem? hinv hd (hlast ▸ hinside)
  · rw [hheight]
    exact hentry
  · rw [hheight]
    exact hvalidated

/-- In every state of a run, the partial chain treats the next block as the main chain does exactly
if the block fails before its transactions are looked at.  Otherwise one of them is told to verify
the scripts and the other one is not. -/
theorem partialChain_agrees_iff {config : FlatChainStoreConfig} {start : ChainStateInner C}
    (hroot : C.genesisHeader.prevBlockhash = 0) (hnew : Created config start)
    (hreach : Reaches start s)
    {block : Block} (hnext : NextBlock s p block.header) (proof : C.rustreexo.Proof)
    (inputs : UtxoMap) (delHashes : List Hash256) :
    Agree s p block proof inputs delHashes ↔
      (∃ e, Consensus.updateAcc C.bitcoin C.rustreexo p.currentAcc block (p.currentHeight + 1) proof
          delHashes = .error e) ∨
        ∃ e, Consensus.checkBlock C.bitcoin C.parameters block (p.currentHeight + 1) = .error e := by
  have hinv := hreach.inv (new_inv hnew.isNew)
  constructor
  · intro hagree
    cases hacc : Consensus.updateAcc C.bitcoin C.rustreexo p.currentAcc block (p.currentHeight + 1)
      proof delHashes with
    | error e => exact .inl ⟨e, rfl⟩
    | ok acc =>
      cases hcheck : Consensus.checkBlock C.bitcoin C.parameters block (p.currentHeight + 1) with
      | error e => exact .inr ⟨e, rfl⟩
      | ok txids =>
        -- both get to the transactions, with different flags
        have hmain := hnext.reaches hinv hroot hacc hcheck
        have hwindow : partialPassedVerifyScript p block = some false := by
          rcases hnext.checkBeforeTransactions hinv hroot hcheck with ⟨cutoff, hcutoff⟩
          unfold partialPassedVerifyScript
          rw [hnext.height hinv, hcutoff, hnext.partialAssumeValid]
        cases hagree.verifyScript _ _ hwindow hmain
  · intro hfails
    rcases hnext.rejects hinv inputs hfails with ⟨hpassed, e, hmain⟩
    rcases hnext.partial_rejects hinv inputs hfails with ⟨fault, error, hwindow⟩
    refine ⟨?_, ?_, ?_, ?_⟩
    · rw [hwindow, hmain]
      constructor <;> rintro ⟨n, hn⟩ <;> cases hn
    · intro n m hn
      rw [hwindow] at hn
      cases hn
    · intro v v' _ hv'
      rw [hpassed] at hv'
      cases hv'
    · intro _
      rw [hwindow]
      exact ⟨rfl, rfl⟩

/-! ### A block that steals -/

namespace Sample

open ChainContext ChainContext.Sample

/-- Spends an output that nobody has made. -/
def theft : Transaction :=
  ⟨2, .blocks 0, [⟨⟨7, 0⟩, [], 0xffffffff, []⟩], [⟨Amount.fromSat 10, [0x51]⟩]⟩

def stealing : Block :=
  ⟨{ child sample.genesisHeader 0 with
      merkleRoot := Bitcoin.sample.merkleNode (Bitcoin.sample.computeTxid (coinbase 1))
        (Bitcoin.sample.computeTxid theft) },
    [coinbase 1, theft]⟩

/-- The header of the first block, with other transactions. -/
def garbled : Block := ⟨block₁.header, [coinbase 2]⟩

/-- The chain with one header, and a partial chain for its block. -/
def fromPartial (header : BlockHeader)
    (test : ChainStateInner sample → PartialChainStateInner sample →
      Bool) : Bool :=
  fromNew sample config fun start =>
    let s := (acceptHeader header start).2
    match (getPartialChain 0 1 s.acc s).1 with
    | .ok p => decide (readyOnTip start header ∧ s.bestBlock.depth = 1 ∧ s.assumeValid = none ∧
        s.view (sample.blockHash header) = some (.headersOnly header 1) ∧
        s.view s.bestBlock.validationIndex = some (.fullyValid sample.genesisHeader 0)) && test s p
    | .error _ => false

theorem fromPartial_eq_true
    {test : ChainStateInner sample → PartialChainStateInner sample → Bool}
    (h : fromPartial header test = true) :
    ∃ start s p, new sample (createChainStore config) none =
        .ok start ∧ s = (acceptHeader header start).2 ∧ Reaches start s ∧
      (getPartialChain 0 1 s.acc s).1 = .ok p ∧ NextBlock s p header ∧ test s p = true := by
  rcases fromNew_eq_true h with ⟨start, hnew, hwindow⟩
  dsimp only at hwindow
  split at hwindow
  · rename_i p hp
    rcases Bool.and_eq_true_iff.mp hwindow with ⟨hone, htest⟩
    rcases of_decide_eq_true hone with ⟨hready, hdepth1, hassume, hentry, hvalidated⟩
    have hreach : Reaches start (acceptHeader header start).2 :=
      .single (.call (.acceptHeader header) (acceptReady_of_onTip hready))
    have hinv := hreach.inv (new_inv (Sample.created hnew).isNew)
    rcases NextBlock.of_getPartialChain hinv hentry hvalidated hassume (Nat.le_refl 1)
      (Nat.le_of_eq hdepth1.symm) with ⟨q, hq, hnext⟩
    have hpq : p = q := Except.ok.inj (hp.symm.trans hq)
    exact ⟨start, _, p, hnew, rfl, hreach, hp, hpq ▸ hnext, htest⟩
  · cases hwindow

end Sample

open Sample ChainContext in
/-- Both chains reject other transactions under the header of the first block. -/
theorem partialChain_agrees_garbled :
    ∃ start s p, new sample (createChainStore Sample.config) none =
        .ok start ∧ s = (acceptHeader garbled.header start).2 ∧
      (getPartialChain 0 1 s.acc s).1 = .ok p ∧ Agree s p garbled () ∅ [] := by
  have hrun : fromPartial garbled.header (fun _ p => decide (p.currentHeight = 0)) = true := by
    decide +kernel
  rcases fromPartial_eq_true hrun with ⟨start, s, p, hnew, hs, hreach, hp, hnext, htest⟩
  refine ⟨start, s, p, hnew, hs, hp, ?_⟩
  refine (partialChain_agrees_iff (by decide +kernel) (created hnew) hreach hnext () ∅
    []).mpr (.inr ⟨.blockValidation .badMerkleRoot, ?_⟩)
  rw [of_decide_eq_true htest]
  decide +kernel

open Sample ChainContext in
/-- The main chain rejects a block that spends an output that does not exist; the partial chain
connects it, and finds no invalid block. -/
theorem partialChain_connects_theft :
    ∃ start s p, new sample (createChainStore Sample.config) none =
        .ok start ∧ s = (acceptHeader stealing.header start).2 ∧
      (getPartialChain 0 1 s.acc s).1 = .ok p ∧ NextBlock s p stealing.header ∧
      (connectBlock stealing () ∅ [] s).1 = .error (.error (.transactionError
        ⟨Bitcoin.sample.computeTxid theft, .utxoNotFound ⟨7, 0⟩⟩)) ∧
      (PartialChainStateInner.connectBlock stealing () ∅ [] p).1 = .ok 1 ∧
      (PartialChainStateInner.connectBlock stealing () ∅ [] p).2.currentHeight = 1 ∧
      (PartialChainStateInner.connectBlock stealing () ∅ [] p).2.hasInvalidBlocks = false ∧
      passedVerifyScript s stealing () [] = some true ∧
      partialPassedVerifyScript p stealing = some false ∧
      ¬ Agree s p stealing () ∅ [] := by
  have hrun : fromPartial stealing.header (fun s p => decide (
      (connectBlock stealing () ∅ [] s).1 = .error (.error (.transactionError
        ⟨Bitcoin.sample.computeTxid theft, .utxoNotFound ⟨7, 0⟩⟩)) ∧
      (PartialChainStateInner.connectBlock stealing () ∅ [] p).1 = .ok 1 ∧
      (PartialChainStateInner.connectBlock stealing () ∅ [] p).2.currentHeight = 1 ∧
      (PartialChainStateInner.connectBlock stealing () ∅ [] p).2.hasInvalidBlocks = false ∧
      passedVerifyScript s stealing () [] = some true ∧
      partialPassedVerifyScript p stealing = some false)) = true := by decide +kernel
  rcases fromPartial_eq_true hrun with ⟨start, s, p, hnew, hs, -, hp, hnext, htest⟩
  rcases of_decide_eq_true htest with ⟨hmain, hwindow, hheight, hclean, hpassed, hskipped⟩
  refine ⟨start, s, p, hnew, hs, hp, hnext, hmain, hwindow, hheight, hclean, hpassed, hskipped, ?_⟩
  intro hagree
  cases hagree.verifyScript _ _ hskipped hpassed

/-! ## Runs of a partial chain -/

structure PartialCall (C : ChainContext) where
  block : Block
  proof : C.rustreexo.Proof
  inputs : UtxoMap
  delHashes : List Hash256

namespace PartialCall

def run (call : PartialCall C) (p : PartialChainStateInner C) : PartialChainStateInner C :=
  (PartialChainStateInner.connectBlock call.block call.proof call.inputs call.delHashes p).2

/-- The height that a call advances to, with the header of its block. -/
def advance (call : PartialCall C) (p : PartialChainStateInner C) : List (Nat × BlockHeader) :=
  if (call.run p).currentHeight = p.currentHeight then []
  else [((call.run p).currentHeight, call.block.header)]

theorem run_cases (call : PartialCall C) (p : PartialChainStateInner C) :
    (∃ error, call.run p = { p with error := error }) ∨
    ∃ acc, call.run p =
      { p with currentHeight := (p.currentHeight + 1) % 2 ^ 32, currentAcc := acc } := by
  unfold run
  rcases partialConnectBlock_cases p call.block call.proof call.inputs call.delHashes rfl with
    ⟨fault, error, hcall⟩ | ⟨-, acc, -, hcall⟩
  · rw [hcall]
    exact .inl ⟨error, rfl⟩
  · rw [hcall]
    exact .inr ⟨acc, rfl⟩

end PartialCall

/-- Calls with arbitrary blocks, and the advances they make. -/
inductive PartialRun (start : PartialChainStateInner C) :
    List (Nat × BlockHeader) → PartialChainStateInner C → Prop
  | start : PartialRun start [] start
  | step {log : List (Nat × BlockHeader)} {p : PartialChainStateInner C} (call : PartialCall C) :
      PartialRun start log p → PartialRun start (log ++ call.advance p) (call.run p)

theorem getPartialChain_eq {initial : Nat} {acc : C.rustreexo.Stump}
    (h : (getPartialChain initial final acc s).1 = .ok p) :
    p.blocks.length = final + 1 ∧ p = ⟨acc, p.blocks, initial, final, none, false⟩ := by
  have hblocks : Within (fun _ => True) (fun _ => True)
      ((List.range (final + 1)).mapM headerAt : ChainM C _)
      (List.Forall₂ (fun _ _ => True) (List.range (final + 1))) := by
    refine Within.mapM _ fun n _ s' _ => ⟨trivial, ?_⟩
    cases (headerAt n s').1 <;> exact trivial
  have hcall := hblocks s trivial
  unfold getPartialChain at h
  rw [bind_apply] at h
  unfold wp at hcall
  generalize ((List.range (final + 1)).mapM headerAt : ChainM C _) s = run at hcall h
  rcases run with ⟨e | blocks, s'⟩
  · cases h
  · have hall : List.Forall₂ _ (List.range (final + 1)) blocks := hcall.2
    have hp : ⟨acc, blocks, initial, final, none, false⟩ = p := Except.ok.inj h
    subst hp
    exact ⟨by rw [← hall.length_eq, List.length_range], rfl⟩

/-- No call changes the headers or the end. -/
theorem PartialRun.fixed {start : PartialChainStateInner C} {log : List (Nat × BlockHeader)}
    (h : PartialRun start log p) : p.blocks = start.blocks ∧ p.finalHeight = start.finalHeight := by
  induction h with
  | start => exact ⟨rfl, rfl⟩
  | @step _ p call _ ih =>
    rcases call.run_cases p with ⟨error, hrun⟩ | ⟨acc, hrun⟩
    all_goals
      rw [hrun]
      exact ih

/-- The chain is within its end, has advanced with the headers of its heights, and lists the blocks
up to its height as valid. -/
structure Progress (log : List (Nat × BlockHeader)) (p : PartialChainStateInner C) : Prop where
  bound : p.currentHeight ≤ p.finalHeight
  advances : ∀ a ∈ log, p.blocks[a.1]? = some a.2
  listed : p.listValidBlocks = p.blocks.take (p.currentHeight + 1)

/-- A partial chain is never in this state, whatever blocks it is given: within its end it has the
header of its height, and lists those below it only. -/
theorem partialChain_progress {initial final : Nat} {acc : C.rustreexo.Stump}
    {start : PartialChainStateInner C} (hstart : (getPartialChain initial final acc s).1 = .ok start)
    {log : List (Nat × BlockHeader)} (hrun : PartialRun start log p) :
    (p.currentHeight ≤ p.finalHeight → p.currentHeight < p.blocks.length ∧
      p.listValidBlocks = p.blocks.take p.currentHeight) ∧ ¬ Progress log p := by
  rcases getPartialChain_eq hstart with ⟨hlen, heq⟩
  have hfirst : start.finalHeight = final := by rw [heq]
  have hlong : p.currentHeight ≤ p.finalHeight → p.currentHeight < p.blocks.length := by
    rw [hrun.fixed.1, hrun.fixed.2, hlen, hfirst]
    exact Nat.lt_succ_of_le
  refine ⟨fun hbound => ⟨hlong hbound, rfl⟩, fun h => ?_⟩
  have hlength := congrArg List.length h.listed
  have hinside := hlong h.bound
  unfold PartialChainStateInner.listValidBlocks at hlength
  rw [List.length_take, List.length_take] at hlength
  omega

def Sample.give (block : Block) : PartialCall ChainContext.sample := ⟨block, (), ∅, []⟩

open Sample ChainContext in
/-- The partial chain of one header is given its block, and lists one header of two. -/
theorem partialChain_progress_first :
    ∃ start s p q log, new sample (createChainStore Sample.config) none =
        .ok start ∧ s = (acceptHeader block₁.header start).2 ∧
      (getPartialChain 0 1 s.acc s).1 = .ok p ∧ PartialRun p log q ∧ log ≠ [] ∧
      q.currentHeight ≤ q.finalHeight ∧ ¬ Progress log q := by
  have hrun : fromPartial block₁.header (fun _ p => decide (
      (give block₁).advance p ≠ [] ∧
      ((give block₁).run p).currentHeight ≤ ((give block₁).run p).finalHeight)) = true := by
    decide +kernel
  rcases fromPartial_eq_true hrun with ⟨start, s, p, hnew, hs, -, hp, -, htest⟩
  rcases of_decide_eq_true htest with ⟨hadvance, hbound⟩
  have hq : PartialRun p _ _ := .step (give block₁) .start
  exact ⟨start, s, p, _, _, hnew, hs, hp, hq, hadvance, hbound, (partialChain_progress hp hq).2⟩

open Sample ChainContext in
/-- A partial chain that ends at the height 1.  After its block it lists the genesis header only;
it goes on to the height 3 with blocks above its end, the last of which has another parent; and
it takes a block at the height 1 whose header is not the one it has there. -/
theorem partialChain_passes_end :
    ∃ start s p, new sample (createChainStore Sample.config) none =
        .ok start ∧ s = (acceptHeader block₁.header start).2 ∧
      (getPartialChain 0 1 s.acc s).1 = .ok p ∧ p.finalHeight = 1 ∧
      p.blocks = [sample.genesisHeader, block₁.header] ∧
      ((give block₁).run p).currentHeight = 1 ∧
      ((give block₁).run p).listValidBlocks = [sample.genesisHeader] ∧
      ((give block₁).run ((give block₂).run ((give block₁).run p))).currentHeight = 3 ∧
      ((give stealing).run p).currentHeight = 1 ∧
      stealing.header ≠ block₁.header := by
  have hrun : fromPartial block₁.header (fun _ p => decide (p.finalHeight = 1 ∧
      p.blocks = [sample.genesisHeader, block₁.header] ∧
      ((give block₁).run p).currentHeight = 1 ∧
      ((give block₁).run p).listValidBlocks = [sample.genesisHeader] ∧
      ((give block₁).run ((give block₂).run ((give block₁).run p))).currentHeight = 3 ∧
      ((give stealing).run p).currentHeight = 1 ∧
      stealing.header ≠ block₁.header)) = true := by decide +kernel
  rcases fromPartial_eq_true hrun with ⟨start, s, p, hnew, hs, -, hp, -, htest⟩
  exact ⟨start, s, p, hnew, hs, hp, of_decide_eq_true htest⟩

end ChainState
end Floresta
