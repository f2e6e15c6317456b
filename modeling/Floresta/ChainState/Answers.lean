import Floresta.ChainState.Branches

/-!
# Answers — what is read does not depend on the cache

Two states that differ in the cache only get the same answers: a program that reads is uniform over
them.  A check that a call makes in the middle of its work therefore answers what it answers before
the call.
-/

namespace Floresta.ChainState

open Prog FlatChainStore

variable {C : ChainContext} {k : Nat} {s0 : ChainStateInner C}

/-! ## Store operations -/

theorem recordAt_sameFiles {store store' : FlatChainStore} (h : SameFiles store store')
    (height : Nat) : (recordAt height store').1 = (recordAt height store).1 := by
  unfold recordAt
  cases Index.new height with
  | error e => rfl
  | ok index =>
    have hget : store'.getDiskHeader index = store.getDiskHeader index := by
      rw [h]
      rfl
    simp only [hget]
    cases store.getDiskHeader index with
    | ok record => rfl
    | error e => cases e <;> rfl

theorem map_sameFiles {α β : Type} {m : StoreM α} {store store' : FlatChainStore} (f : α → β)
    (h : (m store').1 = (m store).1) :
    ((do let a ← m; pure (f a) : StoreM β) store').1 =
      ((do let a ← m; pure (f a) : StoreM β) store).1 := by
  have hmap : ∀ st, ((do let a ← m; pure (f a) : StoreM β) st).1 = (m st).1.map f := by
    intro st
    rw [bind_apply]
    rcases m st with ⟨e | a, st'⟩ <;> rfl
  rw [hmap, hmap, h]

/-- The roots of a height are read from the record of the height and the accumulator file. -/
theorem loadRootsForBlock_congr {store store' : FlatChainStore}
    (hheaders : store'.headers = store.headers)
    (hfile : store'.accumulatorFile = store.accumulatorFile)
    (hsize : store'.metadata.headersFileSize = store.metadata.headersFileSize) (height : Nat) :
    (loadRootsForBlock height store').1 = (loadRootsForBlock height store).1 := by
  unfold loadRootsForBlock
  rw [bind_apply, bind_apply]
  by_cases hindex : 2 ^ 31 ≤ height
  · have hnew : Index.new height = .error _ := if_pos hindex
    rw [hnew]
    rfl
  · have hnew : Index.new height = .ok ⟨false, height⟩ := if_neg hindex
    have hget : store'.getDiskHeader ⟨false, height⟩ = store.getDiskHeader ⟨false, height⟩ := by
      simp [getDiskHeader, slotCount, slot, Index.isMainChain, hheaders, hsize]
    simp only [hnew, Prog.lift, bind_apply, Prog.read, hget, hfile, id]
    cases store.getDiskHeader ⟨false, height⟩ with
    | error e => rfl
    | ok record =>
      simp only
      split
      · rfl
      · split <;> rfl

theorem loadRootsForBlock_sameFiles {store store' : FlatChainStore} (h : SameFiles store store')
    (height : Nat) : (loadRootsForBlock height store').1 = (loadRootsForBlock height store).1 := by
  refine loadRootsForBlock_congr ?_ ?_ ?_ height <;> rw [h]

/-- An operation that returns the store as it was, and looks at the files only. -/
theorem uniform_stateless {α : Type} {m : StoreM α} (hm : ∀ store, (m store).2 = store)
    (hfiles : ∀ {store store'}, SameFiles store store' → (m store').1 = (m store).1) :
    Uniform (Quiet k s0) (store m : ChainM C α) := by
  refine ⟨((m s0.chainstore).1.mapError fun e => .error (.database e)), fun s hs => ?_⟩
  unfold store
  rw [wp_zoom]
  refine ⟨?_, ?_⟩
  · rw [hfiles hs.files]
  · rw [hm s.chainstore]
    exact hs

theorem uniform_walk {α β : Type} {body : α → ChainM C (α ⊕ β)}
    (hbody : ∀ a, Uniform (Quiet k s0) (body a)) (a : α) :
    Uniform (Quiet k s0) (walk body a) := by
  rcases Uniform.loop Fault.diverged hbody (walkRounds s0) a with ⟨r, hr⟩
  refine ⟨r, fun s hs => ?_⟩
  have hloop := hr s hs
  rw [← hs.walkRounds_eq] at hloop
  exact hloop

/-! ## Lookups -/

theorem uniform_getHeader (hash : BlockHash) :
    Uniform (Quiet k s0) (store (FlatChainStore.getHeader hash) : ChainM C _) :=
  .of_within (within_getHeader hash)

theorem uniform_getDiskBlockHeader (hash : BlockHash) :
    Uniform (Quiet k s0) (getDiskBlockHeader hash : ChainM C _) := by
  refine (uniform_getHeader hash).bind fun found => ?_
  cases found with
  | none => exact .fail _
  | some d => exact .pure d

theorem uniform_getBlockHeader (hash : BlockHash) :
    Uniform (Quiet k s0) (getBlockHeader hash : ChainM C _) :=
  (uniform_getDiskBlockHeader hash).bind fun _ => .pure _

theorem uniform_getBlockHeight (hash : BlockHash) :
    Uniform (Quiet k s0) (getBlockHeight hash : ChainM C _) :=
  (uniform_getDiskBlockHeader hash).bind fun _ => .pure _

theorem uniform_getBlockHash (height : Nat) :
    Uniform (Quiet k s0) (getBlockHash height : ChainM C _) := by
  refine (uniform_stateless (getBlockHash_state height)
    fun h => map_sameFiles _ (recordAt_sameFiles h height)).bind fun found => ?_
  cases found with
  | none => exact .fail _
  | some hash => exact .pure hash

theorem uniform_getHeaderByHeight (height : Nat) :
    Uniform (Quiet k s0) (getHeaderByHeight height : ChainM C _) := by
  refine (uniform_stateless (getHeaderByHeight_state height)
    fun h => map_sameFiles _ (recordAt_sameFiles h height)).bind fun found => ?_
  cases found with
  | none => exact .fail _
  | some d => exact .pure d

theorem uniform_getBestBlock : Uniform (Quiet k s0) (getBestBlock : ChainM C _) := by
  refine .read (a := (s0.bestBlock.depth, s0.bestBlock.bestBlock)) fun s hs => ?_
  rw [hs.bestBlock]

theorem uniform_getRootsForBlock (height : Nat) :
    Uniform (Quiet k s0) (getRootsForBlock height : ChainM C _) := by
  refine (uniform_stateless (loadRootsForBlock_state height)
    fun h => loadRootsForBlock_sameFiles h height).bind fun found => ?_
  cases found with
  | none => exact .pure none
  | some bytes => exact (Uniform.lift _).bind fun _ => .pure _

/-! ## Checking a header -/

theorem uniform_getAncestorAtHeight (header : BlockHeader) (headerHeight targetHeight : Nat) :
    Uniform (Quiet k s0) (getAncestorAtHeight header headerHeight targetHeight : ChainM C _) := by
  refine (uniform_getBlockHash headerHeight).attempt.bind fun _ => .ite ?_ ?_
  · exact (uniform_getHeaderByHeight targetHeight).bind fun _ => .pure _
  · refine .foldlM (fun ancestor _ => ?_) _ _
    exact (uniform_getDiskBlockHeader _).bind fun _ => .pure _

theorem uniform_getNextRequiredWork (lastBlock : BlockHeader) (nextHeight : Nat)
    (nextHeader : BlockHeader) :
    Uniform (Quiet k s0) (getNextRequiredWork lastBlock nextHeight nextHeader : ChainM C _) := by
  have hreal : Uniform (Quiet k s0) (lastRealDifficulty lastBlock (nextHeight - 1) : ChainM C _) :=
    .loop _ (fun _ => .ite ((uniform_getDiskBlockHeader _).bind fun _ => .pure _) (.pure _)) _ _
  refine .ite (.ite (.pure _) (.ite (.pure _) ?_)) (.ite ?_ (.pure _))
  · exact hreal.bind fun _ => .pure _
  · exact (uniform_getAncestorAtHeight _ _ _).bind fun _ => .pure _

section

variable (header : BlockHeader)

theorem uniform_validateHeader : Uniform (Quiet k s0) (validateHeader header : ChainM C _) := by
  refine (Uniform.lift _).bind fun _ => ?_
  refine (uniform_getDiskBlockHeader _).bind fun prev => ?_
  refine (Uniform.lift _).bind fun n => ?_
  refine (uniform_getNextRequiredWork _ _ _).bind fun _ => ?_
  refine (Uniform.lift _).bind fun _ => ?_
  have hbip94 : Uniform (Quiet k s0) (checkBip94Block header (n + 1) : ChainM C _) :=
    .ite (.pure _) ((uniform_getDiskBlockHeader _).bind fun _ => .lift _)
  refine hbip94.bind fun _ => ?_
  exact (Uniform.lift _).bind fun _ => .pure _

/-! ## Walking a branch -/

theorem uniform_checkBranch : Uniform (Quiet k s0) (checkBranch header : ChainM C _) := by
  refine uniform_walk (fun _ => .ite (.pure _) ?_) _
  refine (uniform_getDiskBlockHeader _).bind fun d => ?_
  cases d with
  | orphan _ => exact .fail _
  | fullyValid _ _ => exact .pure _
  | assumedValid _ _ => exact .pure _
  | headersOnly _ _ => exact .pure _
  | inFork _ _ => exact .pure _
  | invalidChain _ => exact .pure _

theorem uniform_getChainDepth : Uniform (Quiet k s0) (getChainDepth header : ChainM C _) :=
  uniform_walk (fun _ => .ite (.pure _) ((uniform_getDiskBlockHeader _).bind fun _ => .pure _)) _

theorem uniform_findForkPoint : Uniform (Quiet k s0) (findForkPoint header : ChainM C _) := by
  refine (uniform_getDiskBlockHeader _).bind fun _ => uniform_walk (fun _ => .ite (.fail _) ?_) _
  refine (uniform_getHeader _).bind fun found => ?_
  rcases found with _ | d
  · exact .fail _
  · cases d with
    | fullyValid _ _ => exact .pure _
    | assumedValid _ _ => exact .pure _
    | headersOnly _ _ => exact .pure _
    | inFork _ _ => exact (uniform_getDiskBlockHeader _).bind fun _ => .pure _
    | orphan _ => exact .fail _
    | invalidChain _ => exact .fail _

theorem uniform_getLastValidBlock :
    Uniform (Quiet k s0) (getLastValidBlock header : ChainM C _) := by
  refine uniform_walk (fun _ => .ite (.pure _) ?_) _
  refine (uniform_getDiskBlockHeader _).bind fun d => ?_
  cases d with
  | fullyValid _ _ => exact .pure _
  | assumedValid _ _ => exact .pure _
  | headersOnly _ _ => exact .pure _
  | inFork _ _ => exact .pure _
  | orphan _ => exact .fail _
  | invalidChain _ => exact .fail _

theorem uniform_getBranchWork : Uniform (Quiet k s0) (getBranchWork header : ChainM C _) := by
  have hepoch : ∀ height start,
      Uniform (Quiet k s0) (epochWork height start : ChainM C _) := fun height start =>
    (uniform_getBlockHash start).bind fun _ => (uniform_getBlockHeader _).bind fun _ => .lift _
  refine (uniform_getBlockHeight _).bind fun _ => (Uniform.lift _).bind fun height => ?_
  exact .foldlM (fun _ _ => (hepoch height _).bind fun _ => .pure _) _ _

theorem uniform_getForkWork (forkPoint : BlockHash) :
    Uniform (Quiet k s0) (getForkWork header forkPoint : ChainM C _) := by
  have hwork : Uniform (Quiet k s0) (getWork forkPoint : ChainM C _) :=
    (uniform_getBlockHeader _).bind uniform_getBranchWork
  refine hwork.bind fun _ => uniform_walk (fun _ => .ite ?_ (.pure _)) _
  exact (uniform_getDiskBlockHeader _).bind fun _ => .pure _

end

theorem uniform_reorgAcc (hash : BlockHash) :
    Uniform (Quiet k s0) (reorgAcc hash : ChainM C _) := by
  refine (uniform_getBlockHeight _).bind fun _ => (Uniform.lift _).bind fun height => ?_
  exact .ite (.pure _) ((uniform_getRootsForBlock _).bind fun _ => .lift _)

/-! ## The two halves of a reorganisation that read -/

/-- The works that `maybe_reorg` compares: the one of the best chain and the one of the branch. -/
def comparedWork (branchTip : BlockHeader) : ChainM C (Nat × Nat) := do
  let best ← getBestBlock
  let currentTip ← getBlockHeader best.2
  checkBranch branchTip
  let forkPoint ← findForkPoint branchTip
  let currentWork ← getBranchWork currentTip
  let newWork ← getForkWork branchTip (C.blockHash forkPoint)
  pure (currentWork, newWork)

/-- What `reorg` looks up before it writes. -/
structure ReorgPlan (C : ChainContext) where
  currentBestBlock : BlockHeader
  forkPoint : BlockHeader
  validationIndex : BlockHash
  depth : Nat
  acc : C.rustreexo.Stump

def reorgPlan (newTip : BlockHeader) : ChainM C (ReorgPlan C) := do
  let best ← getBestBlock
  let currentBestBlock ← getBlockHeader best.2
  let forkPoint ← findForkPoint newTip
  let validationIndex ← getLastValidBlock newTip
  let depth ← getChainDepth newTip
  let acc ← reorgAcc validationIndex
  pure ⟨currentBestBlock, forkPoint, validationIndex, depth, acc⟩

theorem maybeReorg_eq (branchTip : BlockHeader) :
    (maybeReorg branchTip : ChainM C Unit) = (do
      let works ← comparedWork branchTip
      if works.1 < works.2 then reorg branchTip
      else do
        pushAltTip branchTip
        let parent ← getAncestor branchTip
        let parentHeight ← check parent.tryHeight
        updateHeader (.inFork branchTip (parentHeight + 1))) := by
  simp only [maybeReorg, comparedWork, bind_assoc, pure_bind]

theorem reorg_eq (newTip : BlockHeader) :
    (reorg newTip : ChainM C Unit) = (do
      let plan ← reorgPlan newTip
      markChainAsInactive plan.currentBestBlock (C.blockHash plan.forkPoint)
      markChainAsActive newTip (C.blockHash plan.forkPoint)
      changeActiveChain newTip plan.validationIndex plan.depth plan.acc) := by
  simp only [reorg, reorgPlan, bind_assoc, pure_bind]

theorem uniform_comparedWork (branchTip : BlockHeader) :
    Uniform (Quiet k s0) (comparedWork branchTip : ChainM C _) := by
  refine uniform_getBestBlock.bind fun _ => (uniform_getBlockHeader _).bind fun _ => ?_
  refine (uniform_checkBranch _).bind fun _ => (uniform_findForkPoint _).bind fun _ => ?_
  exact (uniform_getBranchWork _).bind fun _ => (uniform_getForkWork _ _).bind fun _ => .pure _

theorem uniform_reorgPlan (newTip : BlockHeader) :
    Uniform (Quiet k s0) (reorgPlan newTip : ChainM C _) := by
  refine uniform_getBestBlock.bind fun _ => (uniform_getBlockHeader _).bind fun _ => ?_
  refine (uniform_findForkPoint _).bind fun _ => (uniform_getLastValidBlock _).bind fun _ => ?_
  exact (uniform_getChainDepth _).bind fun _ => (uniform_reorgAcc _).bind fun _ => .pure _

end Floresta.ChainState
