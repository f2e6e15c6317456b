import Floresta.ChainState.BestChain

/-!
# Reorg — what a reorganisation writes

`mark_chain_as_inactive` takes the old branch off the best chain and `mark_chain_as_active` puts the
new one on it, both from the tip down to the fork point.  Everything at or below the fork point
stays as it is.  A write can fail in one way only: the store has no room for it.
-/

namespace Floresta.ChainState

open Prog FlatChainStore

variable {C : ChainContext} {k : Nat} {x : BlockHeader} {n : Nat} {newTip : BlockHeader}

/-! ## Single writes -/

def FullFault (fault : Fault) : Prop := ∃ e, fault = .error (.database e) ∧ IsFull e

/-- A header was saved, and nothing but the store changed. -/
structure Wrote (k : Nat) (s : ChainStateInner C) (d : DiskBlockHeader) (s' : ChainStateInner C) :
    Prop where
  same : s' = { s with chainstore := s'.chainstore }
  saved : Saved C.bitcoin C.genesisHash k s.chainstore d s'.chainstore

theorem Wrote.view {s s' : ChainStateInner C} {d : DiskBlockHeader} (h : Wrote k s d s') :
    s'.view = Function.update s.view (C.blockHash d.header) (some d) := h.saved.view

/-- A header that was stored before has its entry in the index. -/
theorem Wrote.occupancy {s s' : ChainStateInner C} {d e : DiskBlockHeader} (h : Wrote k s d s')
    (he : s.view (C.blockHash d.header) = some e) :
    s'.chainstore.metadata.blockIndexOccupancy = s.chainstore.metadata.blockIndexOccupancy := by
  have hknown : (s.view (d.blockHash C.bitcoin)).isSome = true :=
    Option.isSome_iff_exists.mpr ⟨e, he⟩
  exact h.saved.frame.occupancy.trans (congrArg _ (if_pos hknown))

/-- Both writes of a best-chain header are one operation of the store. -/
theorem updateHeaderAndIndex_eq (d : DiskBlockHeader) (hash : BlockHash) (h : Nat) :
    (updateHeaderAndIndex d hash h : ChainM C Unit) = store (saveIndexed C.bitcoin d hash h) := by
  unfold updateHeaderAndIndex saveIndexed store
  refine zoom_bind ?_ ?_ _ _
  · exact fun _ _ => rfl
  · exact fun _ _ _ => rfl

variable {s : ChainStateInner C} {d : DiskBlockHeader}

theorem blockHash_ne_genesis (hg : isGenesis C d.header = false) :
    d.blockHash C.bitcoin ≠ C.genesisHash := by
  intro heq
  simp [isGenesis, ChainContext.blockHash, ← heq, DiskBlockHeader.blockHash] at hg

theorem updateHeader_spec (hinv : StoreInv C.bitcoin C.genesisHash k s.chainstore)
    (hinactive : d.isActive = false) (hg : isGenesis C d.header = false)
    (hzero : C.blockHash d.header ≠ 0) :
    wp (updateHeader d) (fun r s' =>
      (r = .ok () ∧ Wrote k s d s' ∧ ForkRoom s.chainstore ∧
        s'.chainstore.headers = s.chainstore.headers ∧
        s'.chainstore.metadata.forkCount = s.chainstore.metadata.forkCount + 1 ∧
        s'.chainstore.forkHeaders = Function.update s.chainstore.forkHeaders
          s.chainstore.metadata.forkCount ⟨d, C.blockHash d.header, 0, 0⟩) ∨
      ∃ fault, r = .error fault ∧ FullFault fault ∧ ¬ ForkRoom s.chainstore) s := by
  have hne := blockHash_ne_genesis hg
  unfold updateHeader store
  rw [wp_zoom]
  by_cases hroom : ForkRoom s.chainstore
  · refine wp_mono (saveHeader_fork hinv hinactive hne hzero hroom) ?_
    rintro r store' ⟨rfl, hsaved, hheaders, hcount⟩
    exact .inl ⟨rfl, ⟨rfl, hsaved⟩, hroom, hheaders, hcount⟩
  · refine wp_mono (saveHeader_fork_full hinv hinactive hne hzero hroom) ?_
    rintro r store' ⟨e, rfl, hfull⟩
    exact .inr ⟨_, rfl, ⟨e, rfl, hfull⟩, hroom⟩

theorem updateHeaderAndIndex_spec (hinv : StoreInv C.bitcoin C.genesisHash k s.chainstore)
    (hactive : d.isActive = true) (hheight : d.height = some n) (hpos : n ≠ 0)
    (hg : isGenesis C d.header = false) (hzero : C.blockHash d.header ≠ 0)
    (hunused : ∀ {x e}, OnChain s.view x e n → x = C.blockHash d.header) :
    wp (updateHeaderAndIndex d (C.blockHash d.header) n) (fun r s' =>
      (r = .ok () ∧ Wrote k s d s' ∧ ActiveRoom s.chainstore n ∧
        s'.chainstore.headers = Function.update s.chainstore.headers n
          ⟨d, C.blockHash d.header, 0, 0⟩ ∧
        s'.chainstore.metadata.forkCount = s.chainstore.metadata.forkCount ∧
        s'.chainstore.forkHeaders = s.chainstore.forkHeaders) ∨
      ∃ fault, r = .error fault ∧ FullFault fault ∧ ¬ ActiveRoom s.chainstore n) s := by
  have hne := blockHash_ne_genesis hg
  have hfree : ∀ x e, s.view x = some e → e.isActive = true → e.height = some n →
      x = d.blockHash C.bitcoin := fun x e hx hact hn => hunused ⟨hx, hact, hn⟩
  rw [updateHeaderAndIndex_eq]
  unfold store
  rw [wp_zoom]
  by_cases hroom : ActiveRoom s.chainstore n
  · refine wp_mono (saveIndexed_spec hinv hactive hheight hpos hne hzero hfree hroom) ?_
    rintro r store' ⟨rfl, hsaved, hheaders, hcount⟩
    exact .inl ⟨rfl, ⟨rfl, hsaved⟩, hroom, hheaders, hcount⟩
  · refine wp_mono (saveIndexed_full hinv hactive hheight hpos hne hzero hfree hroom) ?_
    rintro r store' ⟨e, rfl, hfull⟩
    exact .inr ⟨_, rfl, ⟨e, rfl, hfull⟩, hroom⟩

/-- A header of the best chain is stored again at its height, without an entry of the index. -/
theorem updateHeader_again {e : DiskBlockHeader}
    (hinv : StoreInv C.bitcoin C.genesisHash k s.chainstore)
    (he : OnChain s.view (C.blockHash d.header) e n)
    (hactive : d.isActive = true) (hheight : d.height = some n) (hpos : n ≠ 0)
    (hg : isGenesis C d.header = false)
    (hunused : ∀ {x e}, OnChain s.view x e n → x = C.blockHash d.header) :
    wp (updateHeader d) (fun _ s' => Wrote k s d s' ∧
      s'.chainstore.metadata.forkCount = s.chainstore.metadata.forkCount) s := by
  unfold updateHeader store
  rw [wp_zoom]
  refine wp_mono (saveHeader_again hinv hactive hheight hpos (blockHash_ne_genesis hg)
    (view_ne_zero hinv.core he.entry) (fun x e' hx hact hn => hunused ⟨hx, hact, hn⟩) he.entry
    he.active he.height) ?_
  rintro r store' ⟨-, hsaved, hcount⟩
  exact ⟨⟨rfl, hsaved⟩, hcount⟩

/-! ## Sequences of writes above a height -/

/-- The second state results from the first by writing headers of some kind above the height
`f`. -/
@[mk_iff]
structure Marked (k f : Nat) (kind : DiskBlockHeader → Prop) (s₁ s : ChainStateInner C) :
    Prop where
  same : s = { s₁ with chainstore := s.chainstore }
  store : StoreInv C.bitcoin C.genesisHash k s.chainstore
  headersFileSize : s.chainstore.metadata.headersFileSize = s₁.chainstore.metadata.headersFileSize
  forkFileSize : s.chainstore.metadata.forkFileSize = s₁.chainstore.metadata.forkFileSize
  indexCapacity : s.chainstore.metadata.indexCapacity = s₁.chainstore.metadata.indexCapacity
  validationIndex : s.chainstore.metadata.validationIndex = s₁.chainstore.metadata.validationIndex
  accumulatorFile : s.chainstore.accumulatorFile = s₁.chainstore.accumulatorFile
  forks : s.chainstore.metadata.forkCount ≤ s.chainstore.metadata.forkFileSize
  tree : Tree C s.view (s.chainstore.metadata.headersFileSize + s.chainstore.metadata.forkCount)
  keeps : Keeps s₁.view s.view
  change : ∀ x d, s.view x = some d → s₁.view x = some d ∨ kind d
  stay : ∀ {x d n}, OnChain s₁.view x d n → n ≤ f → s.view x = some d
  lower : ∀ n ≤ f, s.chainstore.headers n = s₁.chainstore.headers n

/-- What a reorganisation writes: fork headers, and best-chain headers that are not validated. -/
def Moved (f : Nat) (d : DiskBlockHeader) : Prop :=
  (∃ h n, d = .inFork h n) ∨ ∃ h n, d = .headersOnly h n ∧ f < n

namespace Marked

variable {f : Nat} {kind : DiskBlockHeader → Prop} {s₁ s' : ChainStateInner C}

theorem refl (h : ChainInv k s) (f : Nat) (kind : DiskBlockHeader → Prop) :
    Marked k f kind s s where
  same := rfl
  store := h.store
  headersFileSize := rfl
  forkFileSize := rfl
  indexCapacity := rfl
  validationIndex := rfl
  accumulatorFile := rfl
  forks := h.forks
  tree := h.tree
  keeps := fun _ d hd => ⟨d, hd, rfl⟩
  change := fun _ _ hd => .inl hd
  stay := fun hx _ => hx.entry
  lower := fun _ _ => rfl

theorem of_quiet (h : Marked k f kind s s') (hs : Quiet k s₁ s) : Marked k f kind s₁ s' := by
  have hsame : s' = { s₁ with chainstore := s'.chainstore } := by rw [h.same, hs.same]
  rw [marked_iff, hs.view, hs.metadata, hs.headers, hs.accumulatorFile] at h
  exact (marked_iff ..).mpr ⟨hsame, h.2⟩

theorem quiet (h : Marked k f kind s₁ s) (hs : Quiet k s s') : Marked k f kind s₁ s' := by
  rw [marked_iff, hs.view, hs.metadata, hs.headers, hs.accumulatorFile]
  exact ⟨by rw [hs.same, h.same], hs.inv, ((marked_iff ..).mp h).2.2⟩

theorem above_of_branch (h : Marked k f kind s₁ s)
    (hkeep : ∀ e, s.view (C.blockHash x) = some e → x = e.header)
    (hbranch : Branch C s.view x n) (hf : f < n) {e : DiskBlockHeader} {m : Nat}
    (he : OnChain s.view (C.blockHash x) e m) : f < m := by
  rcases h.tree.rooted _ _ he.entry with ⟨m', -, hbranch', hheight'⟩
  rw [← hkeep e he.entry] at hbranch'
  rw [hheight' m he.height, hbranch'.unique hbranch]
  exact hf

theorem write (h : Marked k f kind s₁ s) (hw : Wrote k s d s')
    (hkeep : ∀ e, s.view (C.blockHash d.header) = some e → d.header = e.header)
    (hg : isGenesis C d.header = false) (hbranch : Branch C s.view d.header n)
    (hheight : ∀ m, d.height = some m → m = n)
    (habove : ∀ {e m}, OnChain s.view (C.blockHash d.header) e m → f < m)
    (hkind : kind d)
    (hcount : s.chainstore.metadata.forkCount ≤ s'.chainstore.metadata.forkCount)
    (hforks : s'.chainstore.metadata.forkCount ≤ s.chainstore.metadata.forkFileSize)
    (hn : n ≤ s.chainstore.metadata.headersFileSize + s'.chainstore.metadata.forkCount)
    (hlower : ∀ m ≤ f, s'.chainstore.headers m = s.chainstore.headers m) :
    Marked k f kind s₁ s' := by
  have hview := hw.view
  have hframe := hw.saved.frame
  refine ⟨?_, hw.saved.inv, ?_, ?_, ?_, ?_, ?_, ?_, ?_, ?_, ?_, ?_, ?_⟩
  · rw [hw.same, h.same]
  · rw [hframe.headersFileSize, h.headersFileSize]
  · rw [hframe.forkFileSize, h.forkFileSize]
  · rw [hframe.indexCapacity, h.indexCapacity]
  · rw [hframe.validationIndex, h.validationIndex]
  · rw [hframe.accumulatorFile, h.accumulatorFile]
  · rw [hframe.forkFileSize]
    exact hforks
  · rw [hview, hframe.headersFileSize]
    exact h.tree.update hkeep hg hbranch hheight (Nat.add_le_add_left hcount _) hn
  · rw [hview]
    exact h.keeps.trans (Keeps.update hkeep)
  · intro x e hx
    rw [hview] at hx
    by_cases heq : x = C.blockHash d.header
    · rw [heq, Function.update_self] at hx
      cases hx
      exact .inr hkind
    · rw [Function.update_of_ne heq] at hx
      exact h.change x e hx
  · intro x e m hx hm
    have hentry := h.stay hx hm
    have hne : x ≠ C.blockHash d.header := by
      rintro rfl
      have hlt := habove ⟨hentry, hx.active, hx.height⟩
      omega
    rw [hview, Function.update_of_ne hne]
    exact hentry
  · intro m hm
    rw [hlower m hm, h.lower m hm]

end Marked

/-! ## The marking loops -/

/-- A sequence of writes ends in `P`, or fails because the store had not the room it needed. -/
def Writes (room : Prop) (P : ChainStateInner C → Prop) (r : Except Fault Unit)
    (s' : ChainStateInner C) : Prop :=
  (r = .ok () ∧ P s') ∨ ∃ fault, r = .error fault ∧ FullFault fault ∧ ¬ room

theorem wp_walk {α β : Type} {body : α → ChainM C (α ⊕ β)}
    {Q : Except Fault β → ChainStateInner C → Prop}
    (Inv : Nat → α → ChainStateInner C → Prop)
    (hstep : ∀ n a s, Inv n a s → wp (body a) (roundPost Inv Q n) s) {a : α}
    (hinv : Inv n a s) (hn : n < walkRounds s) : wp (walk body a) Q s :=
  wp_loop Inv hstep hinv hn

/-- The room a reorganisation needs: in the fork file for the old branch, in the headers file for
the new one, and in the index for its tip and one more entry. -/
@[mk_iff]
structure ReorgRoom (s : ChainStateInner C) (f tip : Nat) : Prop where
  forks : s.chainstore.metadata.forkCount + (s.bestBlock.depth - f) ≤
    s.chainstore.metadata.forkFileSize
  forkIndex : s.chainstore.metadata.forkCount + (s.bestBlock.depth - f) ≤ 2 ^ 31
  bucket : s.chainstore.metadata.blockIndexOccupancy + 2 < s.chainstore.metadata.indexCapacity
  inside : tip < s.chainstore.metadata.headersFileSize
  index : tip < 2 ^ 31

/-- The old branch is off the best chain above its header `x` at the height `n`. -/
structure Deactivating (k f : Nat) (s₁ : ChainStateInner C) (n : Nat) (x : BlockHeader)
    (s : ChainStateInner C) : Prop where
  above : f ≤ n
  marked : Marked k f (Moved f) s₁ s
  settled : Settled C s.view n
  tip : ∃ d, OnChain s.view (C.blockHash x) d n ∧ d.header = x
  domain : ∀ y, s₁.view y = none → s.view y = none
  invalid : KeepsInvalid s₁.view s.view
  forkCount : s.chainstore.metadata.forkCount + n =
    s₁.chainstore.metadata.forkCount + s₁.bestBlock.depth
  occupancy : s.chainstore.metadata.blockIndexOccupancy =
    s₁.chainstore.metadata.blockIndexOccupancy
  headers : s.chainstore.headers = s₁.chainstore.headers

section Marking

variable {f tip : Nat} {s₁ : ChainStateInner C} {fp : BlockHeader} {dfp : DiskBlockHeader}

theorem Marked.forkPoint (h : Marked k f (Moved f) s₁ s)
    (hfp : OnChain s₁.view (C.blockHash fp) dfp f) :
    OnChain s.view (C.blockHash fp) dfp f :=
  ⟨h.stay hfp (Nat.le_refl f), hfp.active, hfp.height⟩

theorem OnChain.branch {V : HeaderMap} {bound : Nat} (t : Tree C V bound) {x : BlockHash}
    {d : DiskBlockHeader} (hd : OnChain V x d n) :
    Branch C V d.header n ∧ n ≤ bound := by
  rcases t.rooted _ _ hd.entry with ⟨m, hm, hbranch, hheight⟩
  rw [hheight n hd.height]
  exact ⟨hbranch, hm⟩

theorem wp_parent {e : DiskBlockHeader}
    {Q : Except Fault ((BlockHeader × Nat) ⊕ Unit) → ChainStateInner C → Prop}
    (he : s.view x.prevBlockhash = some e)
    (hinv : StoreInv C.bitcoin C.genesisHash k s.chainstore)
    (hQ : ∀ s', Quiet k s s' → Q (.ok (.inl (e.header, n))) s') :
    wp (do
      let ancestor ← getAncestor x
      pure (.inl (ancestor.header, n)) : ChainM C ((BlockHeader × Nat) ⊕ Unit)) Q s := by
  rw [wp_bind]
  exact (within_getDiskBlockHeader_stored he).yields (Quiet.refl hinv) hQ

theorem deactivate_round (tip : Nat) (h : Deactivating k f s₁ n x s)
    (hlt : f < n) :
    wp (do
      updateHeader (.inFork x n)
      let ancestor ← getAncestor x
      pure (.inl (ancestor.header, n - 1)) : ChainM C ((BlockHeader × Nat) ⊕ Unit))
      (fun r s' => (∃ y, r = .ok (.inl (y, n - 1)) ∧ Deactivating k f s₁ (n - 1) y s') ∨
        ∃ fault, r = .error fault ∧ FullFault fault ∧ ¬ ReorgRoom s₁ f tip) s := by
  rcases h with ⟨habove, hm, hsettled, ⟨d, htip, rfl⟩, hdomain, hinvalid, hcount, hocc, hsame⟩
  rcases Nat.exists_eq_succ_of_ne_zero (Nat.ne_of_gt (Nat.zero_lt_of_lt hlt)) with ⟨m, rfl⟩
  have hg := onChain_notGenesis hm.tree htip (Nat.succ_ne_zero m)
  have hzero : C.blockHash d.header ≠ 0 := view_ne_zero hm.store.core htip.entry
  rcases htip.branch hm.tree with ⟨hbranch, hbound⟩
  have hng : C.blockHash d.header ≠ C.genesisHash := by
    intro heq
    simp [isGenesis, heq] at hg
  rcases hsettled.parent htip hng with ⟨e, m', hparent, hm'⟩
  rw [wp_bind]
  refine wp_mono (updateHeader_spec (d := .inFork d.header (m + 1)) hm.store rfl hg hzero) ?_
  rintro r s' (⟨rfl, hw, hroom, hheaders, hforks, -⟩ | ⟨fault, rfl, hfull, hnoroom⟩)
  · have hview : s'.view = Function.update s.view (C.blockHash d.header)
        (some (.inFork d.header (m + 1))) := hw.view
    have hkeep : ∀ e', s.view (C.blockHash d.header) = some e' → d.header = e'.header := by
      intro e' he'
      have hde : d = e' := htip.entry_eq he'
      rw [← hde]
    have hmarked : Marked k f (Moved f) s₁ s' := by
      refine hm.write hw hkeep hg hbranch (fun _ h => (Option.some.inj h).symm)
        (hm.above_of_branch hkeep hbranch hlt)
        (.inl ⟨_, _, rfl⟩) ?_ ?_ ?_ ?_
      · omega
      · have hinside := hroom.inside
        omega
      · omega
      · exact fun _ _ => by rw [hheaders]
    have hne : d.header.prevBlockhash ≠ C.blockHash d.header := by
      intro heq
      have hheight := ((heq ▸ hparent).heights_eq htip).2
      omega
    have hparent' : OnChain s'.view d.header.prevBlockhash e m' := by
      rw [hview]
      exact hparent.update_ne hne _
    have hsettled' : Settled C s'.view m := by
      rw [hview]
      exact hsettled.removeTip hm.tree htip rfl
    have hocc' := hw.occupancy htip.entry
    rw [andThen_ok]
    refine wp_parent hparent'.entry hw.saved.inv fun s'' hq => .inl ⟨_, rfl, ⟨Nat.le_of_lt_succ hlt,
      hmarked.quiet hq, ?_, ⟨e, ?_, rfl⟩, ?_, ?_, ?_, ?_, ?_⟩⟩
    · rw [hq.view]
      exact hsettled'
    · have hm'' : m' = m := by omega
      rw [hq.view, hmarked.tree.hash _ _ hparent'.entry]
      exact hm'' ▸ hparent'
    · intro y hy
      have hy' : y ≠ C.blockHash d.header := by
        rintro rfl
        have hentry := htip.entry
        rw [hdomain _ hy] at hentry
        cases hentry
      rw [hq.view, hview, Function.update_of_ne hy']
      exact hdomain y hy
    · intro y h hy
      rw [hq.view, hview]
      exact KeepsInvalid.update htip.notInvalid _ y h (hinvalid y h hy)
    · rw [hq.metadata, hforks]
      omega
    · rw [hq.metadata, hocc', hocc]
    · rw [hq.headers, hheaders, hsame]
  · refine .inr ⟨fault, rfl, hfull, ?_⟩
    -- the round is one of the writes the room was counted for
    intro hroom
    refine hnoroom ⟨?_, ?_, ?_⟩
    · have hroom' := hroom.forks
      rw [hm.forkFileSize]
      omega
    · have hroom' := hroom.forkIndex
      omega
    · have hroom' := hroom.bucket
      rw [hm.indexCapacity]
      omega

theorem markChainAsInactive_spec (hinv : ChainInv k s₁)
    (hfp : OnChain s₁.view (C.blockHash fp) dfp f) (hf : f ≠ 0) {d : DiskBlockHeader}
    (hbest : OnChain s₁.view (C.blockHash d.header) d s₁.bestBlock.depth) :
    wp (markChainAsInactive d.header (C.blockHash fp)) (Writes (ReorgRoom s₁ f tip) fun s' =>
      Marked k f (Moved f) s₁ s' ∧ Settled C s'.view f ∧
        (∀ y, s₁.view y = none → s'.view y = none) ∧
        KeepsInvalid s₁.view s'.view ∧
        s'.chainstore.metadata.blockIndexOccupancy =
          s₁.chainstore.metadata.blockIndexOccupancy ∧
        s'.chainstore.headers = s₁.chainstore.headers) s₁ := by
  have hbound := hinv.bound_lt
  rcases hbest.branch hinv.tree with ⟨hbranch, hdepth⟩
  unfold markChainAsInactive
  rw [wp_bind]
  refine (within_getChainDepth hbranch (by omega)).yields (Quiet.refl hinv.store) fun s hq => ?_
  rw [andThen_ok]
  refine wp_walk (fun n p s => p.2 = n ∧ Deactivating k f s₁ n p.1 s) ?_
    ⟨rfl, hinv.settled.capped hfp, (Marked.refl hinv f _).quiet hq, ?_, ⟨d, ?_, rfl⟩, ?_, ?_, ?_,
      ?_, hq.headers⟩ ?_
  · rintro n ⟨x, count⟩ s ⟨rfl, h⟩
    have hfp' := h.marked.forkPoint hfp
    rcases h.tip with ⟨e, htip, rfl⟩
    by_cases hcond : (!isGenesis C e.header) = true ∧ C.blockHash e.header ≠ C.blockHash fp
    · rw [if_pos hcond]
      -- the only header at the height of the fork point is the fork point
      have hne : f ≠ count := by
        rintro rfl
        exact hcond.2 (h.settled.unique htip hfp')
      have hlt : f < count := Nat.lt_of_le_of_ne h.above hne
      refine wp_mono (deactivate_round tip h hlt) ?_
      rintro r s' (⟨y, rfl, h'⟩ | ⟨fault, rfl, hfull, hroom⟩)
      · exact ⟨count - 1, by show count - 1 < count; omega, rfl, h'⟩
      · exact .inr ⟨fault, rfl, hfull, hroom⟩
    · rw [if_neg hcond]
      have hcount : count = f := by
        by_contra hne
        have hpos : count ≠ 0 := by
          have habove : f ≤ count := h.above
          omega
        have hg := onChain_notGenesis h.marked.tree htip hpos
        refine hcond ⟨by rw [hg]; rfl, ?_⟩
        intro heq
        exact hne ((heq ▸ htip).heights_eq hfp').2
      subst hcount
      exact .inl ⟨rfl, h.marked, h.settled, h.domain, h.invalid, h.occupancy, h.headers⟩
  · rw [hq.view]
    exact hinv.settled
  · rw [hq.view]
    exact hbest
  · rw [hq.view]
    exact fun _ hy => hy
  · rw [hq.view]
    exact fun _ _ hy => hy
  · rw [hq.metadata]
  · rw [hq.metadata]
  · have hrounds := hq.walkRounds_eq
    omega

/-- The new branch is on the best chain above its header `x` at the height `n`. -/
@[mk_iff]
structure Activating (k f tip : Nat) (s₁ : ChainStateInner C) (fp newTip : BlockHeader) (n : Nat)
    (x : BlockHeader) (s : ChainStateInner C) : Prop where
  above : f ≤ n
  below : n ≤ tip
  marked : Marked k f (Moved f) s₁ s
  gapped : Gapped C s.view f n tip (C.blockHash x)
  branch : Branch C s.view x n
  path : Above s.view fp x (n - f)
  header : ∀ d, s.view (C.blockHash x) = some d → d.header = x
  nonzero : C.blockHash x ≠ 0
  occupancy : s.chainstore.metadata.blockIndexOccupancy +
    (if (s.view (C.blockHash x)).isSome then 0 else 1) ≤
      s₁.chainstore.metadata.blockIndexOccupancy + 1
  fresh : ∀ {y d j}, OnChain s.view y d j → f < j → ∃ h, d = .headersOnly h j
  known : x = newTip ∨ ∃ d, s.view (C.blockHash x) = some d
  domain : ∀ y, s₁.view y = none → y ≠ C.blockHash newTip → s.view y = none
  invalid : ∀ y h, s₁.view y = some (.invalidChain h) →
    s.view y = some (.invalidChain h) ∨ ∃ d j, OnChain s.view y d j ∧ f < j
  done : (n = tip ∧ x = newTip) ∨ ∃ d, OnChain s.view (C.blockHash newTip) d tip ∧ d.header = newTip
  upper : ∀ m, tip < m → s.chainstore.headers m = s₁.chainstore.headers m

theorem Activating.quiet {s' : ChainStateInner C} (h : Activating k f tip s₁ fp newTip n x s)
    (hq : Quiet k s s') : Activating k f tip s₁ fp newTip n x s' := by
  rw [activating_iff, hq.view, hq.metadata, hq.headers]
  exact ⟨h.above, h.below, h.marked.quiet hq, ((activating_iff ..).mp h).2.2.2⟩

theorem Branch.notGenesis {V : HeaderMap} (h : Branch C V x (n + 1)) :
    isGenesis C x = false := by
  cases h with
  | child hg _ _ => exact hg

theorem Activating.step {m : Nat} {e : DiskBlockHeader} {s' : ChainStateInner C}
    (h : Activating k f tip s₁ fp newTip (m + 1) x s) (hfm : f ≤ m)
    (he : s.view x.prevBlockhash = some e)
    (hrest : Above s.view fp e.header (m - f))
    (hbranch : Branch C s.view e.header m) (hw : Wrote k s (.headersOnly x (m + 1)) s')
    (hinside : m + 1 < s.chainstore.metadata.headersFileSize)
    (hheaders : s'.chainstore.headers = Function.update s.chainstore.headers (m + 1)
      ⟨.headersOnly x (m + 1), C.blockHash x, 0, 0⟩)
    (hforks : s'.chainstore.metadata.forkCount = s.chainstore.metadata.forkCount) :
    Activating k f tip s₁ fp newTip m e.header s' := by
  have hm := h.marked
  have hlt : f < m + 1 := Nat.lt_succ_of_le hfm
  have hview : s'.view = Function.update s.view (C.blockHash x)
      (some (.headersOnly x (m + 1))) := hw.view
  have hkeep : ∀ d, s.view (C.blockHash x) = some d → x = d.header :=
    fun d hd => (h.header d hd).symm
  have hkeeps : Keeps s.view s'.view := by
    rw [hview]
    exact Keeps.update hkeep
  -- an entry of the header itself stands at the length of its branch, which is in the gap
  have hown : ∀ {d j}, OnChain s.view (C.blockHash x) d j → j = m + 1 := by
    intro d j hd
    rcases hd.branch hm.tree with ⟨hbranch, -⟩
    rw [h.header d hd.entry] at hbranch
    exact hbranch.unique h.branch
  have hmarked : Marked k f (Moved f) s₁ s' := by
    refine hm.write hw hkeep h.branch.notGenesis h.branch (fun _ h => (Option.some.inj h).symm)
      (hm.above_of_branch hkeep h.branch hlt) (.inr ⟨_, _, rfl, hlt⟩) (Nat.le_of_eq hforks.symm)
      (hforks ▸ hm.forks) (by omega) ?_
    intro j hj
    have hj' : j ≠ m + 1 := by omega
    rw [hheaders, Function.update_of_ne hj']
  have hne : x.prevBlockhash ≠ C.blockHash x := by
    intro heq
    rw [heq] at he
    rw [h.header e he] at hbranch
    have hlen := hbranch.unique h.branch
    omega
  have he' : s'.view x.prevBlockhash = some e := by
    rw [hview, Function.update_of_ne hne]
    exact he
  have hhash := hmarked.tree.hash _ _ he'
  refine ⟨hfm, Nat.le_of_succ_le h.below, hmarked, ?_, hbranch.keeps hkeeps, hrest.keeps hkeeps, ?_,
    ?_, ?_, ?_, ?_, ?_, ?_, .inr ?_, ?_⟩
  · rw [hview, hhash]
    exact h.gapped.extend (e := .headersOnly x (m + 1)) hfm h.below rfl rfl hown
  · intro d hd
    rw [hhash, he'] at hd
    cases hd
    rfl
  · rw [hhash]
    exact view_ne_zero hw.saved.inv.core he'
  · rw [hhash, he']
    exact Nat.le_trans (Nat.le_of_eq hw.saved.frame.occupancy) h.occupancy
  · intro y d j hy hj
    rw [hview] at hy
    rcases hy.of_update_active rfl with ⟨-, rfl, rfl⟩ | ⟨-, hold⟩
    · exact ⟨x, rfl⟩
    · exact h.fresh hold hj
  · rw [hhash]
    exact .inr ⟨_, he'⟩
  · intro y hy hne'
    have hold := h.domain y hy hne'
    -- the header of the round is the new tip, or was stored before
    have hyx : y ≠ C.blockHash x := by
      rintro rfl
      rcases h.known with rfl | ⟨d, hd⟩
      · exact hne' rfl
      · rw [hold] at hd
        cases hd
    rw [hview, Function.update_of_ne hyx]
    exact hold
  · intro y block hy
    rw [hview]
    by_cases hyx : y = C.blockHash x
    · subst hyx
      exact .inr ⟨_, m + 1, ⟨Function.update_self .., rfl, rfl⟩, hlt⟩
    · rcases h.invalid y block hy with hold | ⟨d, j, hd, hj⟩
      · exact .inl (by rw [Function.update_of_ne hyx, hold])
      · exact .inr ⟨d, j, hd.update_ne hyx _, hj⟩
  · rw [hview]
    by_cases hx : C.blockHash newTip = C.blockHash x
    · rcases h.done with ⟨rfl, rfl⟩ | ⟨d, hd, hdn⟩
      · exact ⟨_, ⟨by rw [Function.update_self], rfl, rfl⟩, rfl⟩
      · have htop := hown (hx ▸ hd)
        have hxn : x = newTip := (h.header d (hx ▸ hd.entry)).symm.trans hdn
        exact ⟨.headersOnly x (m + 1), ⟨by rw [hx, Function.update_self], rfl, by rw [htop]; rfl⟩,
          hxn⟩
    · rcases h.done with ⟨-, rfl⟩ | ⟨d, hd, hdn⟩
      · exact absurd rfl hx
      · exact ⟨d, hd.update_ne hx _, hdn⟩
  · intro i hi
    have hbelow := h.below
    have hne' : i ≠ m + 1 := by omega
    rw [hheaders, Function.update_of_ne hne']
    exact h.upper i hi

theorem activate_round
    (h : Activating k f tip s₁ fp newTip n x s) (hlt : f < n) :
    wp (do
      updateHeaderAndIndex (.headersOnly x n) (C.blockHash x) n
      let ancestor ← getAncestor x
      pure (.inl (ancestor.header, n - 1)) : ChainM C ((BlockHeader × Nat) ⊕ Unit))
      (fun r s' => (∃ y, r = .ok (.inl (y, n - 1)) ∧
          Activating k f tip s₁ fp newTip (n - 1) y s') ∨
        ∃ fault, r = .error fault ∧ FullFault fault ∧ ¬ ReorgRoom s₁ f tip) s := by
  rcases Nat.exists_eq_succ_of_ne_zero (Nat.ne_of_gt (Nat.zero_lt_of_lt hlt)) with ⟨m, rfl⟩
  have hm := h.marked
  have hfm : f ≤ m := Nat.le_of_lt_succ hlt
  have hunused : ∀ {y e}, OnChain s.view y e (m + 1) → y = C.blockHash x := by
    intro y e hy
    have hrange := h.gapped.range hy
    omega
  have hpath : ∃ e, s.view x.prevBlockhash = some e ∧ Above s.view fp e.header (m - f) := by
    have hsucc : m + 1 - f = m - f + 1 := by omega
    have hpath := h.path
    rw [Nat.succ_eq_add_one, hsucc] at hpath
    cases hpath with
    | child he hrest => exact ⟨_, he, hrest⟩
  rcases hpath with ⟨e, he, hrest⟩
  rcases h.branch.parent h.branch.notGenesis he with ⟨m', -, hm', hbranch'⟩
  have hmm : m' = m := by omega
  subst hmm
  rw [wp_bind]
  refine wp_mono (updateHeaderAndIndex_spec (d := .headersOnly x (m' + 1)) hm.store rfl rfl
    (Nat.succ_ne_zero m') h.branch.notGenesis h.nonzero hunused) ?_
  rintro r s' (⟨rfl, hw, hroom, hheaders, hforks, -⟩ | ⟨fault, rfl, hfull, hnoroom⟩)
  · have h' := h.step hfm he hrest hbranch' hw hroom.inside hheaders hforks
    have hkeeps : Keeps s.view s'.view := by
      rw [hw.view]
      exact Keeps.update fun d hd => (h.header d hd).symm
    rcases hkeeps _ e he with ⟨e', he', hheader⟩
    rw [andThen_ok]
    refine wp_parent he' hw.saved.inv fun s'' hq => .inl ⟨_, rfl, ?_⟩
    rw [hheader]
    exact h'.quiet hq
  · refine .inr ⟨fault, rfl, hfull, ?_⟩
    intro hroom
    have hbelow := h.below
    refine hnoroom ⟨?_, ?_, ?_⟩
    · have hroom' := hroom.inside
      rw [hm.headersFileSize]
      omega
    · have hroom' := hroom.index
      omega
    · have hroom' := hroom.bucket
      have hocc := h.occupancy
      rw [hm.indexCapacity]
      omega

theorem markChainAsActive_spec (hfp : OnChain s₁.view (C.blockHash fp) dfp f)
    (hdfp : dfp.header = fp) (hlt : f < tip)
    (h : Activating k f tip s₁ fp newTip tip newTip s) (hbound : tip < walkRounds s) :
    wp (markChainAsActive newTip (C.blockHash fp)) (Writes (ReorgRoom s₁ f tip) fun s' =>
      Marked k f (Moved f) s₁ s' ∧ Settled C s'.view tip ∧
        (∀ {y d j}, OnChain s'.view y d j → f < j → ∃ h, d = .headersOnly h j) ∧
        (∀ y, s₁.view y = none → y ≠ C.blockHash newTip →
          s'.view y = none) ∧
        (∀ y h, s₁.view y = some (.invalidChain h) → s'.view y = some (.invalidChain h) ∨
            ∃ d j, OnChain s'.view y d j ∧ f < j) ∧
        (∃ d, OnChain s'.view (C.blockHash newTip) d tip ∧ d.header = newTip) ∧
        ∀ m, tip < m → s'.chainstore.headers m = s₁.chainstore.headers m) s := by
  unfold markChainAsActive
  rw [wp_bind]
  refine (within_getChainDepth h.branch hbound).yields (Quiet.refl h.marked.store) fun s' hq => ?_
  rw [andThen_ok]
  refine wp_walk (fun n p s => p.2 = n ∧ Activating k f tip s₁ fp newTip n p.1 s) ?_
    ⟨rfl, ?_⟩ ?_
  · rintro n ⟨x, count⟩ s ⟨rfl, h⟩
    have hfp' := h.marked.forkPoint hfp
    by_cases hcond : (!isGenesis C x) = true ∧ C.blockHash x ≠ C.blockHash fp
    · rw [if_pos hcond]
      have hne : f ≠ count := by
        rintro rfl
        have hpath := h.path
        rw [Nat.sub_self] at hpath
        cases hpath
        exact hcond.2 rfl
      refine wp_mono (activate_round h (Nat.lt_of_le_of_ne h.above hne)) ?_
      rintro r s' (⟨y, rfl, h'⟩ | ⟨fault, rfl, hfull, hroom⟩)
      · have hle : f ≤ count := h.above
        exact ⟨count - 1, by show count - 1 < count; omega, rfl, h'⟩
      · exact .inr ⟨fault, rfl, hfull, hroom⟩
    · rw [if_neg hcond]
      have hcount : count = f := by
        by_contra hne
        have hle : f ≤ count := h.above
        rcases Nat.exists_eq_succ_of_ne_zero (n := count) (by omega) with ⟨m, rfl⟩
        refine hcond ⟨by rw [h.branch.notGenesis]; rfl, ?_⟩
        -- the fork point has a branch of another length
        intro heq
        have hx : dfp.header = x := h.header dfp (heq ▸ hfp'.entry)
        have hbranch := (hfp'.branch h.marked.tree).1
        rw [hx] at hbranch
        exact hne (h.branch.unique hbranch)
      subst hcount
      have hpath := h.path
      rw [Nat.sub_self] at hpath
      cases hpath
      have hsettled := h.gapped.close h.below hfp'
      rcases h.done with ⟨hdone, -⟩ | hdone
      · exact absurd hdone (Nat.ne_of_lt hlt)
      · exact .inl ⟨rfl, h.marked, hsettled, h.fresh, h.domain, h.invalid, hdone, h.upper⟩
  · exact h.quiet hq
  · rw [hq.walkRounds_eq]
    exact hbound

end Marking

end Floresta.ChainState
