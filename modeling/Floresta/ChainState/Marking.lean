import Floresta.ChainState.Connect

/-!
# Marking — blocks that are taken as valid

`mark_block_as_valid` and `mark_chain_as_assumed` store headers as validated ones without looking at
a block.  For a block of the best chain they keep the invariant of the chain state, and change the
headers of that chain only.
-/

namespace Floresta.ChainState

open Prog FlatChainStore

variable {C : ChainContext} {k : Nat} {s₁ s s' : ChainStateInner C} {d : DiskBlockHeader} {n : Nat}
  {block : BlockHash}

/-- What a caller of the two functions has to see to: a block with a height is on the best chain and
is not the genesis block, and the index of the store is not full. -/
structure MarkReady (s : ChainStateInner C) (block : BlockHash) : Prop where
  active : ∀ d n, s.view block = some d → d.height = some n →
    d.isActive = true ∧ n ≠ 0
  bucket : s.chainstore.metadata.blockIndexOccupancy + 1 < s.chainstore.metadata.indexCapacity

/-- The second state results from the first by storing headers of the best chain as valid ones. -/
structure Revalidating (k : Nat) (s₁ s : ChainStateInner C) : Prop where
  inv : ChainInv k s
  view : Revalidated s₁.view s.view
  indexCapacity : s.chainstore.metadata.indexCapacity = s₁.chainstore.metadata.indexCapacity
  occupancy : s.chainstore.metadata.blockIndexOccupancy =
    s₁.chainstore.metadata.blockIndexOccupancy

namespace Revalidating

theorem refl (hinv : ChainInv k s) : Revalidating k s s := ⟨hinv, .of_eq rfl, rfl, rfl⟩

theorem quiet (h : Revalidating k s₁ s) (hs : Quiet k s s') : Revalidating k s₁ s' := by
  refine ⟨h.inv.quiet hs, ?_, ?_, ?_⟩
  · rw [hs.view]
    exact h.view
  · rw [hs.metadata, h.indexCapacity]
  · rw [hs.metadata, h.occupancy]

theorem write (h : Revalidating k s₁ s)
    (hd : OnChain s.view (C.blockHash d.header) d n)
    (hg : isGenesis C d.header = false) (hw : Wrote k s (.fullyValid d.header n) s')
    (hforks : s'.chainstore.metadata.forkCount = s.chainstore.metadata.forkCount) :
    Revalidating k s₁ s' := by
  refine ⟨h.inv.validate hd rfl hg hw hforks, ?_, ?_, ?_⟩
  · rw [hw.view]
    exact h.view.trans (.update hd)
  · rw [hw.saved.frame.indexCapacity, h.indexCapacity]
  · rw [hw.occupancy hd.entry, h.occupancy]

end Revalidating

theorem Quiet.revalidated (h : Quiet k s s') (hinv : ChainInv k s) :
    ChainInv k s' ∧ Revalidated s.view s'.view :=
  ⟨hinv.quiet h, .of_eq h.view⟩

theorem markBlockAsValid_spec (hinv : ChainInv k s) (hready : MarkReady s block) :
    wp (markBlockAsValid block) (fun _ s' => ChainInv k s' ∧ Revalidated s.view s'.view) s := by
  refine (within_getDiskBlockHeader block).before (Quiet.refl hinv.store)
    (fun _ _ _ hs' => hs'.revalidated hinv) ?_
  intro d s1 hentry hs1
  refine (within_check (P := fun n => d.height = some n) fun _ => tryHeight_eq_ok).before hs1
    (fun _ _ _ hs' => hs'.revalidated hinv) ?_
  intro n s2 hn hs2
  rcases hready.active d n hentry hn with ⟨hactive, hpos⟩
  have h2 := (Revalidating.refl hinv).quiet hs2
  have hd : OnChain s2.view (C.blockHash d.header) d n := by
    rw [hs2.view]
    exact ⟨hinv.tree.lookup hentry, hactive, hn⟩
  have hg := onChain_notGenesis h2.inv.tree hd hpos
  refine wp_mono (updateHeader_again (d := .fullyValid d.header n) h2.inv.store hd rfl rfl hpos hg
    fun hx => h2.inv.settled.unique hx hd) ?_
  rintro r s3 ⟨hw, hforks⟩
  have h3 := h2.write hd hg hw hforks
  exact ⟨h3.inv, h3.view⟩

/-- One round of the walk: the header is stored as a valid one, and its parent is next. -/
theorem assume_round (hroom : s₁.chainstore.metadata.blockIndexOccupancy + 1 <
      s₁.chainstore.metadata.indexCapacity) (h : Revalidating k s₁ s)
    (hd : OnChain s.view (C.blockHash d.header) d n)
    (hg : isGenesis C d.header = false) :
    wp (do
      let height ← check d.tryHeight
      updateHeaderAndIndex (.fullyValid d.header height) (C.blockHash d.header) height
      let header ← getAncestor d.header
      pure (.inl (header, C.blockHash header.header)) :
        ChainM C ((DiskBlockHeader × BlockHash) ⊕ Unit))
      (fun r s' => ∃ e m, r = .ok (.inl (e, C.blockHash e.header)) ∧ m < n ∧
        Revalidating k s₁ s' ∧ OnChain s'.view (C.blockHash e.header) e m) s := by
  have hpos := h.inv.height_ne_zero hd hg
  rcases view_active h.inv.store.core hd.entry hd.active with ⟨m, hm, hinside, hindex, -⟩
  obtain rfl : n = m := hd.height_eq hm
  rcases Nat.exists_eq_succ_of_ne_zero hpos with ⟨m, rfl⟩
  rw [wp_height hd.height, wp_bind]
  refine wp_mono (updateHeaderAndIndex_spec (d := .fullyValid d.header (m + 1)) h.inv.store
    rfl rfl hpos hg (view_ne_zero h.inv.store.core hd.entry)
    fun hx => h.inv.settled.unique hx hd) ?_
  rintro r s2 (⟨rfl, hw, -, -, hforks, -⟩ | ⟨fault, -, -, hfull⟩)
  swap
  · refine absurd ⟨hinside, hindex, ?_⟩ hfull
    rw [h.occupancy, h.indexCapacity]
    exact hroom
  have h2 := h.write hd hg hw hforks
  have hd2 : OnChain s2.view (C.blockHash d.header) (.fullyValid d.header (m + 1)) (m + 1) := by
    refine ⟨?_, rfl, rfl⟩
    rw [hw.view]
    exact Function.update_self ..
  rcases h2.inv.settled.parent_succ h2.inv.tree hd2 with ⟨-, e, he⟩
  rw [andThen_ok, wp_bind]
  refine (within_getDiskBlockHeader_stored he.entry).yields (Quiet.refl h2.inv.store)
    fun s3 hs3 => ⟨e, m, rfl, Nat.lt_succ_self m, h2.quiet hs3, ?_⟩
  change OnChain s3.view _ e m
  rw [hs3.view, h2.inv.tree.hash _ _ he.entry]
  exact he

theorem markChainAsAssumed_spec (hinv : ChainInv k s) (hready : MarkReady s block)
    (acc : C.rustreexo.Stump) :
    wp (markChainAsAssumed acc block) (fun _ s' => ChainInv k s' ∧
      Revalidated s.view s'.view) s := by
  refine (within_getDiskBlockHeader block).before (Quiet.refl hinv.store)
    (fun _ _ _ hs' => hs'.revalidated hinv) ?_
  intro d s1 hentry hs1
  have h1 := (Revalidating.refl hinv).quiet hs1
  have hhash := hinv.tree.hash _ _ hentry
  subst hhash
  cases hheight : d.height with
  | none =>
    -- the first round has no height to go on with
    have hg : isGenesis C d.header = false := by
      refine hinv.tree.notGenesis hentry ?_
      rintro rfl
      cases hheight
    rw [wp_bind]
    refine wp_mono (wp_walk (n := 0) (Q := fun r s' => (∃ fault, r = .error fault) ∧ s' = s1)
      (fun _ p s' => p = (d, C.blockHash d.header) ∧ s' = s1) ?_ ⟨rfl, rfl⟩ ?_) ?_
    · rintro i - s' ⟨rfl, rfl⟩
      change wp (if isGenesis C d.header then _ else _) _ s'
      rw [hg, if_neg Bool.false_ne_true, wp_no_height hheight]
      exact ⟨⟨_, rfl⟩, rfl⟩
    · exact Nat.succ_pos _
    · rintro - s' ⟨⟨fault, rfl⟩, rfl⟩
      exact ⟨h1.inv, h1.view⟩
  | some n =>
  rcases hready.active d n hentry hheight with ⟨hactive, hpos⟩
  have hd : OnChain s.view (C.blockHash d.header) d n := ⟨hentry, hactive, hheight⟩
  have hd1 : OnChain s1.view (C.blockHash d.header) d n := by
    rw [hs1.view]
    exact hd
  have hbound := h1.inv.bound_lt
  have hle := (hd1.branch h1.inv.tree).2
  rw [wp_bind]
  refine wp_mono (wp_walk (Q := fun r s' => r = .ok () ∧ Revalidating k s s')
    (fun n (p : DiskBlockHeader × BlockHash) s' => Revalidating k s s' ∧
      OnChain s'.view p.2 p.1 n ∧ p.2 = C.blockHash p.1.header) ?_ ⟨h1, hd1, rfl⟩
    (by omega)) ?_
  · rintro i ⟨e, x⟩ s2 ⟨h2, he, hx⟩
    change x = C.blockHash e.header at hx
    subst hx
    change wp (if isGenesis C e.header then _ else _) _ s2
    split
    · exact ⟨rfl, h2⟩
    · rename_i hg
      refine wp_mono (assume_round hready.bucket h2 he (Bool.eq_false_iff.mpr hg)) ?_
      rintro r s3 ⟨a, j, rfl, hlt, h3, ha⟩
      exact ⟨j, hlt, h3, ha, rfl⟩
  rintro r s2 ⟨rfl, h2⟩
  rcases h2.view.onChain hd with ⟨e, he, heq⟩
  rw [andThen_ok, wp_height hheight, wp_bind]
  refine wp_mono (updateView_spec h2.inv he heq (onChain_notGenesis hinv.tree hd hpos) hpos ?_) ?_
  · rw [h2.occupancy, h2.indexCapacity]
    exact hready.bucket
  rintro (fault | u) s3 ⟨hinv3, -, hview3⟩
  all_goals
    have h3 : Revalidated s.view s3.view := by
      rw [hview3, ← heq]
      exact h2.view.trans (.update (heq ▸ he))
  · exact ⟨hinv3, h3⟩
  · exact ⟨hinv3.flushed s3.bestBlock, h3.trans (.of_eq (view_withHeight ..))⟩

end Floresta.ChainState
