import Floresta.ChainState.Headers
import Floresta.Store.Operations

/-!
# Reading — programs that leave the chain alone

Checking a header and walking a branch only read the store: apart from its cache, the state stays
what it was.  `Quiet s₀` is the set of the states that differ from `s₀` in no other way, and the
rules of `Prog.Within` carry it through each program.
-/

namespace Floresta

variable {C : ChainContext}

/-- The stored headers. -/
abbrev ChainStateInner.view (s : ChainStateInner C) : BlockHash → Option DiskBlockHeader :=
  s.chainstore.view

namespace ChainState

open Prog FlatChainStore

/-- The state differs from the first one in the cache only, which is in order. -/
structure Quiet (k : Nat) (s₀ s : ChainStateInner C) : Prop where
  same : s = { s₀ with chainstore := s.chainstore }
  files : SameFiles s₀.chainstore s.chainstore
  inv : StoreInv C.bitcoin C.genesisHash k s.chainstore

/-- An error of the chain state itself: no endless loop and no panic. -/
def Proper (e : Fault) : Prop := ∃ b, e = .error b

variable {k : Nat} {s₀ s : ChainStateInner C}

namespace Quiet

theorem refl (hinv : StoreInv C.bitcoin C.genesisHash k s.chainstore) : Quiet k s s :=
  ⟨rfl, SameFiles.refl _, hinv⟩

section

variable (h : Quiet k s₀ s)

include h

theorem view : s.view = s₀.view := h.files.view

theorem metadata : s.chainstore.metadata = s₀.chainstore.metadata := by
  rw [h.files]

theorem headers : s.chainstore.headers = s₀.chainstore.headers := by
  rw [h.files]

theorem accumulatorFile : s.chainstore.accumulatorFile = s₀.chainstore.accumulatorFile := by
  rw [h.files]

theorem forkHeaders : s.chainstore.forkHeaders = s₀.chainstore.forkHeaders := by
  rw [h.files]

theorem bestBlock : s.bestBlock = s₀.bestBlock := by rw [h.same]

theorem acc : s.acc = s₀.acc := by rw [h.same]

theorem withStore {store' : FlatChainStore} (hfiles : SameFiles s.chainstore store')
    (hinv : StoreInv C.bitcoin C.genesisHash k store') :
    Quiet k s₀ { s with chainstore := store' } := by
  refine ⟨?_, h.files.trans hfiles, hinv⟩
  rw [h.same]

end

end Quiet

/-! ## Store operations -/

theorem getHeader_fst (hinv : StoreInv C.bitcoin C.genesisHash k s.chainstore)
    (hash : BlockHash) : (FlatChainStore.getHeader hash s.chainstore).1 = .ok (s.view hash) :=
  (getHeader_spec hinv hash).1

/-- Looking a header up in a store that is in order does not fail. -/
theorem within_getHeader {E : Fault → Prop} (hash : BlockHash) :
    Within (Quiet k s₀) E (store (FlatChainStore.getHeader hash) : ChainM C _)
      (· = s₀.view hash) := by
  intro s hs
  unfold store
  rw [wp_zoom]
  refine wp_mono (getHeader_spec hs.inv hash) ?_
  rintro r store' ⟨rfl, hfiles, hinv⟩
  exact ⟨hs.withStore hfiles hinv, congrFun hs.view hash⟩

theorem within_stateless {α : Type} {m : StoreM α} (hm : ∀ store, (m store).2 = store) :
    Within (Quiet k s₀) Proper (store m : ChainM C α) fun _ => True := by
  intro s hs
  unfold store
  rw [wp_zoom]
  have hquiet : Quiet k s₀ { s with chainstore := (m s.chainstore).2 } := by
    rw [hm s.chainstore]
    exact hs
  refine ⟨hquiet, ?_⟩
  cases (m s.chainstore).1 with
  | error e => exact ⟨_, rfl⟩
  | ok a => exact trivial

theorem recordAt_state (height : Nat) (store : FlatChainStore) : (recordAt height store).2 = store := by
  unfold recordAt
  cases Index.new height with
  | error e => rfl
  | ok index =>
    cases hget : store.getDiskHeader index with
    | ok record => simp only [hget]
    | error e => cases e <;> simp only [hget]

theorem map_state {α β : Type} {m : StoreM α} {store : FlatChainStore} (f : α → β)
    (h : (m store).2 = store) : ((do let a ← m; pure (f a) : StoreM β) store).2 = store := by
  change wp (do let a ← m; pure (f a) : StoreM β) (fun _ store' => store' = store) store
  rw [wp_bind]
  unfold wp
  rcases hrun : m store with ⟨_ | a, store'⟩ <;> rw [hrun] at h <;> exact h

theorem getBlockHash_state (height : Nat) (store : FlatChainStore) :
    (FlatChainStore.getBlockHash height store).2 = store :=
  map_state _ (recordAt_state height store)

theorem getHeaderByHeight_state (height : Nat) (store : FlatChainStore) :
    (FlatChainStore.getHeaderByHeight height store).2 = store :=
  map_state _ (recordAt_state height store)

theorem loadRootsForBlock_state (height : Nat) (store : FlatChainStore) :
    (loadRootsForBlock height store).2 = store := by
  change wp (loadRootsForBlock height) (fun _ store' => store' = store) store
  unfold loadRootsForBlock
  rw [wp_bind, wp_lift]
  cases Index.new height with
  | error e => rfl
  | ok index =>
    simp only [andThen_ok, wp_bind, wp_read, wp_lift, id]
    cases store.getDiskHeader index with
    | error e => rfl
    | ok record =>
      rw [andThen_ok]
      split
      · rfl
      · split <;> rfl

/-! ## Lookups -/

theorem within_check {α : Type} {x : Except BlockchainError α} {P : α → Prop}
    (h : ∀ a, x = .ok a → P a) : Within (Quiet k s₀) Proper (check x : ChainM C α) P := by
  cases x with
  | error e => exact Within.lift ⟨e, rfl⟩
  | ok a => exact Within.lift (h a rfl)

theorem tryHeight_eq_ok {d : DiskBlockHeader} {n : Nat} (h : d.tryHeight = .ok n) :
    d.height = some n := by
  unfold DiskBlockHeader.tryHeight at h
  split at h
  · rename_i m hm
    rw [hm, Except.ok.inj h]
  · cases h

section

variable {d : DiskBlockHeader} {n : Nat} {α : Type} {f : Nat → ChainM C α}
  {Q : Except Fault α → ChainStateInner C → Prop}

theorem wp_height (h : d.height = some n) :
    wp (check d.tryHeight >>= f) Q s ↔ wp (f n) Q s := by
  unfold DiskBlockHeader.tryHeight
  rw [h, wp_bind]
  exact Iff.rfl

theorem wp_no_height (h : d.height = none) :
    wp (check d.tryHeight >>= f) Q s ↔ Q (.error (.error .orphanOrInvalidBlock)) s := by
  unfold DiskBlockHeader.tryHeight
  rw [h, wp_bind]
  exact Iff.rfl

end

theorem within_raise {α : Type} {P : α → Prop} (e : BlockchainError) :
    Within (Quiet k s₀) Proper (raise e : ChainM C α) P := Within.fail ⟨e, rfl⟩

theorem within_getDiskBlockHeader (hash : BlockHash) :
    Within (Quiet k s₀) Proper (getDiskBlockHeader hash : ChainM C _)
      fun d => s₀.view hash = some d := by
  refine Within.bind_eq (within_getHeader hash) ?_
  cases hview : s₀.view hash with
  | none => exact within_raise _
  | some d => exact Within.pure rfl

theorem within_getDiskBlockHeader_stored {E : Fault → Prop} {hash : BlockHash}
    {d : DiskBlockHeader} (hd : s₀.view hash = some d) :
    Within (Quiet k s₀) E (getDiskBlockHeader hash : ChainM C _) (· = d) := by
  refine Within.bind_eq (within_getHeader hash) ?_
  rw [hd]
  exact Within.pure rfl

theorem within_getBlockHeader_stored {E : Fault → Prop} {hash : BlockHash} {d : DiskBlockHeader}
    (hd : s₀.view hash = some d) :
    Within (Quiet k s₀) E (getBlockHeader hash : ChainM C _) (· = d.header) :=
  Within.bind_eq (within_getDiskBlockHeader_stored hd) (Within.pure rfl)

theorem getDiskBlockHeader_missing {hash : BlockHash} (hs : Quiet k s₀ s)
    (hd : s₀.view hash = none) :
    wp (getDiskBlockHeader hash : ChainM C _)
      (fun r s' => r = .error (.error .blockNotPresent) ∧ Quiet k s₀ s') s := by
  unfold getDiskBlockHeader
  rw [wp_bind]
  refine (within_getHeader hash).yields hs fun s' hs' => ?_
  rw [hd]
  exact ⟨rfl, hs'⟩

theorem within_getBlockHeader (hash : BlockHash) :
    Within (Quiet k s₀) Proper (getBlockHeader hash : ChainM C _)
      fun header => ∃ d, s₀.view hash = some d ∧ d.header = header :=
  Within.bind (within_getDiskBlockHeader hash) fun d hd => Within.pure ⟨d, hd, rfl⟩

theorem within_getBlockHeight (hash : BlockHash) :
    Within (Quiet k s₀) Proper (getBlockHeight hash : ChainM C _)
      fun height => ∃ d, s₀.view hash = some d ∧ d.height = height :=
  Within.bind (within_getDiskBlockHeader hash) fun d hd => Within.pure ⟨d, hd, rfl⟩

theorem within_getBlockHash (height : Nat) :
    Within (Quiet k s₀) Proper (getBlockHash height : ChainM C _) fun _ => True := by
  refine Within.bind (within_stateless (getBlockHash_state height)) fun found _ => ?_
  cases found with
  | none => exact within_raise _
  | some hash => exact Within.pure trivial

theorem within_getHeaderByHeight (height : Nat) :
    Within (Quiet k s₀) Proper (getHeaderByHeight height : ChainM C _) fun _ => True := by
  refine Within.bind (within_stateless (getHeaderByHeight_state height)) fun found _ => ?_
  cases found with
  | none => exact within_raise _
  | some hash => exact Within.pure trivial

theorem within_getBestBlock {E : Fault → Prop} :
    Within (Quiet k s₀) E (getBestBlock : ChainM C _)
      (· = (s₀.bestBlock.depth, s₀.bestBlock.bestBlock)) := by
  refine Within.read fun s hs => ?_
  rw [hs.bestBlock]

theorem within_getRootsForBlock (height : Nat) :
    Within (Quiet k s₀) Proper (getRootsForBlock height : ChainM C _) fun _ => True := by
  refine Within.bind (within_stateless (loadRootsForBlock_state height)) fun found _ => ?_
  cases found with
  | none => exact Within.pure trivial
  | some bytes => exact Within.bind (within_check fun _ _ => trivial) fun _ _ => Within.pure trivial

/-! ## Checking a header -/

theorem within_getAncestorAtHeight (header : BlockHeader) (headerHeight targetHeight : Nat) :
    Within (Quiet k s₀) Proper (getAncestorAtHeight header headerHeight targetHeight : ChainM C _)
      fun _ => True := by
  refine Within.bind (within_getBlockHash headerHeight).attempt fun indexed _ => ?_
  refine Within.ite (fun _ => ?_) fun _ => ?_
  · exact Within.bind (within_getHeaderByHeight targetHeight) fun _ _ => Within.pure trivial
  · refine Within.foldlM (fun ancestor _ _ => ?_) _ trivial
    exact Within.bind (within_getDiskBlockHeader _) fun _ _ => Within.pure trivial

theorem within_lastRealDifficulty (header : BlockHeader) (height : Nat) :
    Within (Quiet k s₀) Proper (lastRealDifficulty header height : ChainM C _) fun _ => True := by
  refine Within.loop (P := fun n p => p.2 = n) (fun n p hn => ?_) rfl (Nat.lt_succ_self height)
  refine Within.ite (fun hcond => ?_) fun _ => Within.pure trivial
  -- a multiple of 2016 ends the loop, so the height is not zero
  have hpos : p.2 ≠ 0 := by
    intro hzero
    exact hcond.1 (by rw [hzero])
  have hless : p.2 - 1 < n := hn ▸ Nat.sub_lt (Nat.pos_of_ne_zero hpos) Nat.one_pos
  exact Within.bind (within_getDiskBlockHeader _) fun parent _ => Within.pure ⟨_, hless, rfl⟩

theorem within_getNextRequiredWork (lastBlock : BlockHeader) (nextHeight : Nat)
    (nextHeader : BlockHeader) :
    Within (Quiet k s₀) Proper (getNextRequiredWork lastBlock nextHeight nextHeader : ChainM C _)
      fun _ => True := by
  refine Within.ite (fun _ => Within.ite (fun _ => Within.pure trivial) fun _ =>
    Within.ite (fun _ => Within.pure trivial) fun _ => ?_) fun _ =>
    Within.ite (fun _ => ?_) fun _ => Within.pure trivial
  · exact Within.bind (within_lastRealDifficulty _ _) fun _ _ => Within.pure trivial
  · exact Within.bind (within_getAncestorAtHeight _ _ _) fun _ _ => Within.pure trivial

theorem within_checkBip94Block (block : BlockHeader) (height : Nat) :
    Within (Quiet k s₀) Proper (checkBip94Block block height : ChainM C _) fun _ => True := by
  refine Within.ite (fun _ => Within.pure trivial) fun _ => ?_
  exact Within.bind (within_getDiskBlockHeader _) fun _ _ => within_check fun _ _ => trivial

/-- A header that passes the checks extends a stored header of known height, and has the bits of the
target that is required after it. -/
theorem within_validateHeader_target (header : BlockHeader) {T : DiskBlockHeader → Nat → Nat → Prop}
    (htarget : ∀ d n, s₀.view header.prevBlockhash = some d →
      Within (Quiet k s₀) Proper (getNextRequiredWork d.header (n + 1) header : ChainM C _) (T d n)) :
    Within (Quiet k s₀) Proper (validateHeader header : ChainM C _)
      fun hash => hash = C.blockHash header ∧ ∃ d n target,
        s₀.view header.prevBlockhash = some d ∧ d.height = some n ∧ T d n target ∧
        header.bits = C.pow.toCompactLossy target := by
  have hpow : ∀ hash, Fallible.okOr (Consensus.validatePow C.bitcoin C.pow header)
      (BlockchainError.blockValidation .notEnoughPow) = .ok hash → hash = C.blockHash header := by
    intro hash h
    rw [Fallible.okOr_eq_ok] at h
    simp only [Consensus.validatePow] at h
    split at h
    · exact (Option.some.inj h).symm
    · cases h
  refine Within.bind (within_check hpow) fun hash hhash => ?_
  refine Within.bind (within_getDiskBlockHeader _) fun d hd => ?_
  refine Within.bind (within_check fun _ h => Fallible.okOr_eq_ok.mp h) fun n hn => ?_
  refine Within.bind (htarget d n hd) fun target hT => ?_
  refine Within.bind (within_check fun _ h => Fallible.require_eq_ok.mp h) fun _ hbits => ?_
  refine Within.bind (within_checkBip94Block _ _) fun _ _ => ?_
  refine Within.bind (within_check fun _ _ => trivial) fun _ _ => ?_
  exact Within.pure ⟨hhash, d, n, target, hd, hn, hT, hbits⟩

theorem within_validateHeader (header : BlockHeader) :
    Within (Quiet k s₀) Proper (validateHeader header : ChainM C _)
      fun hash => hash = C.blockHash header ∧
        ∃ d n, s₀.view header.prevBlockhash = some d ∧ d.height = some n := by
  refine (within_validateHeader_target header fun d n _ => within_getNextRequiredWork _ _ _).mono ?_
  rintro hash ⟨hhash, d, n, target, hd, hn, -⟩
  exact ⟨hhash, d, n, hd, hn⟩

end ChainState

end Floresta
