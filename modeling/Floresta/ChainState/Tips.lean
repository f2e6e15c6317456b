import Floresta.ChainState.ForkChoice

/-!
# Tips — the leaves of the header tree

`get_chain_tips` returns the best tip and the alternative tips that are kept in memory.  They are
updated by `push_alt_tip` when a header is recorded on a fork; a store that is opened again rebuilds
them from its fork file.  As long as no call changes the branch, both are the leaves of the tree of
stored headers.
-/

namespace Floresta

variable {x y : BlockHash} {d e : DiskBlockHeader}

/-! ## Rebuilding the alternative tips -/

namespace FlatChainStore

variable (s : FlatChainStore)

/-- A record of the fork file, where no best-chain header is ever written. -/
def forkRecord (i : Nat) : Except FlatChainstoreError HashedDiskHeader := do
  let index ← Index.newFork i
  let record ← s.getDiskHeader index
  if record.header.isActive then .error .corruptedDatabase else .ok record

/-- The index knows a header as one on a fork; a block that was moved to the best chain leaves its
old record behind. -/
def isInFork (hash : BlockHash) : Except FlatChainstoreError Bool := do
  match ← s.getHeaderByHash hash with
  | some (.inFork _ _) => pure true
  | _ => pure false

/-- The fork headers that are the parent of no other one.  The source collects them in a hash set,
so that their order is not specified. -/
def deriveAlternativeTips : Except FlatChainstoreError (List BlockHash) := do
  let records ← (List.range s.metadata.forkCount).mapM s.forkRecord
  let forkHashes := (records.map HashedDiskHeader.hash).dedup
  let parentHashes := records.map fun record => record.header.header.prevBlockhash
  (forkHashes.filter (· ∉ parentHashes)).foldlM (fun tips hash => do
    if ← s.isInFork hash then pure (tips ++ [hash]) else pure tips) []

/-- Opens the files of a store again: what was only in memory is gone. -/
def reopen (cacheSize : Nat) : FlatChainStore :=
  { s with cache := Lru.empty cacheSize, pendingWarnings := [] }

theorem view_reopen (cacheSize : Nat) : (s.reopen cacheSize).view = s.view :=
  view_congr rfl rfl fun _ => rfl

theorem StoreCore.reopen {B : Bitcoin} {genesis : BlockHash} {k : Nat} {s : FlatChainStore}
    (h : StoreCore B genesis k s) (cacheSize : Nat) : StoreCore B genesis k (s.reopen cacheSize) :=
  { h with readable := fun b hb => { h.readable b hb with } }

/-- The records of the fork file are the fork headers of the map. -/
@[mk_iff]
structure ForkFile (B : Bitcoin) (s : FlatChainStore) : Prop where
  inside : s.metadata.forkCount ≤ s.metadata.forkFileSize
  index : s.metadata.forkCount ≤ 2 ^ 31
  records : ∀ i < s.metadata.forkCount, ∃ h n, s.forkHeaders i = ⟨.inFork h n, B.blockHash h, 0, 0⟩ ∧
    s.view (B.blockHash h) = some (.inFork h n)
  recorded : ∀ x h n, s.view x = some (.inFork h n) →
    ∃ i < s.metadata.forkCount, (s.forkHeaders i).hash = x

namespace ForkFile

variable {s : FlatChainStore} {B : Bitcoin} {genesis : BlockHash} {k : Nat}

theorem forkRecord_eq (hcore : StoreCore B genesis k s) (h : ForkFile B s) {i : Nat}
    (hi : i < s.metadata.forkCount) : s.forkRecord i = .ok (s.forkHeaders i) := by
  rcases h.records i hi with ⟨header, n, hrecord, hview⟩
  have hzero : (s.forkHeaders i).hash ≠ 0 := by
    rw [hrecord]
    exact view_ne_zero hcore hview
  have hnew : Index.newFork i = .ok ⟨true, i⟩ :=
    if_neg (Nat.not_le.mpr (Nat.lt_of_lt_of_le hi h.index))
  have hget : s.getDiskHeader ⟨true, i⟩ = .ok (s.forkHeaders i) := by
    have hinside : ¬ s.slotCount ⟨true, i⟩ ≤ i :=
      Nat.not_le.mpr (Nat.lt_of_lt_of_le hi h.inside)
    unfold getDiskHeader
    rw [if_neg hinside]
    exact if_neg hzero
  unfold forkRecord
  rw [hnew]
  change (s.getDiskHeader ⟨true, i⟩ >>= _) = _
  rw [hget]
  change (if (s.forkHeaders i).header.isActive then _ else _) = _
  rw [hrecord]
  rfl

/-- The tips that are rebuilt are the fork headers that no fork header has as its parent. -/
theorem derive (hcore : StoreCore B genesis k s) (h : ForkFile B s) :
    ∃ tips, s.deriveAlternativeTips = .ok tips ∧ tips.Nodup ∧ ∀ x, x ∈ tips ↔
      (∃ header n, s.view x = some (.inFork header n)) ∧
        ∀ y header n, s.view y = some (.inFork header n) → header.prevBlockhash ≠ x := by
  have hrecords : (List.range s.metadata.forkCount).mapM s.forkRecord =
      .ok ((List.range s.metadata.forkCount).map s.forkHeaders) :=
    Fallible.mapM_eq_ok _ fun i hi => h.forkRecord_eq hcore (List.mem_range.mp hi)
  let hashes := ((List.range s.metadata.forkCount).map s.forkHeaders).map HashedDiskHeader.hash
  let parents := ((List.range s.metadata.forkCount).map s.forkHeaders).map
    fun record => record.header.header.prevBlockhash
  have hcases : ∀ x, ∃ known, s.isInFork x = .ok known ∧
      (known = true ↔ ∃ header n, s.view x = some (.inFork header n)) := by
    intro x
    unfold isInFork
    rw [getHeaderByHash_eq hcore]
    cases s.view x with
    | none => exact ⟨false, rfl, by simp⟩
    | some d =>
      cases d with
      | inFork header n => exact ⟨true, rfl, by simp⟩
      | _ => exact ⟨false, rfl, by simp⟩
  choose known hknown hfork using hcases
  refine ⟨(hashes.dedup.filter (· ∉ parents)).filter known, ?_, ?_, ?_⟩
  · unfold deriveAlternativeTips
    rw [hrecords]
    exact Fallible.foldlM_filter _ (fun x _ => hknown x) []
  · exact ((List.nodup_dedup _).filter _).filter _
  · intro x
    rw [List.mem_filter, List.mem_filter, List.mem_dedup, hfork, decide_eq_true_eq]
    constructor
    · rintro ⟨⟨-, hparent⟩, hx⟩
      refine ⟨hx, fun y header n hy heq => hparent ?_⟩
      rcases h.recorded y header n hy with ⟨i, hi, rfl⟩
      rcases h.records i hi with ⟨header', n', hrecord, hview⟩
      rw [hrecord, hview] at hy
      cases hy
      refine List.mem_map.mpr ⟨_, List.mem_map.mpr ⟨i, List.mem_range.mpr hi, rfl⟩, ?_⟩
      rw [hrecord]
      exact heq
    · rintro ⟨⟨header, n, hx⟩, hchildless⟩
      refine ⟨⟨?_, fun hparent => ?_⟩, header, n, hx⟩
      · rcases h.recorded x header n hx with ⟨i, hi, rfl⟩
        exact List.mem_map.mpr ⟨_, List.mem_map.mpr ⟨i, List.mem_range.mpr hi, rfl⟩, rfl⟩
      · rcases List.mem_map.mp hparent with ⟨record, hrecord, hprev⟩
        rcases List.mem_map.mp hrecord with ⟨i, hi, rfl⟩
        rcases h.records i (List.mem_range.mp hi) with ⟨header', n', hrecord', hview⟩
        rw [hrecord'] at hprev
        exact hchildless _ header' n' hview hprev

/-- The fork file does not depend on the fields of the best chain, nor on what is in memory. -/
theorem reopen (h : ForkFile B s) (best : BestChain) (cacheSize : Nat) :
    ForkFile B ((s.withHeight best).reopen cacheSize) := by
  have hview : ((s.withHeight best).reopen cacheSize).view = s.view :=
    (view_reopen _ cacheSize).trans (view_withHeight s best)
  rw [forkFile_iff, hview]
  exact (forkFile_iff ..).mp h

end ForkFile

end FlatChainStore

namespace ChainState

open Prog FlatChainStore

variable {C : ChainContext} {k : Nat} {s : ChainStateInner C} {header : BlockHeader}

def getChainTips : ChainM C (List BlockHash) :=
  Prog.read fun s => s.bestBlock.bestBlock :: s.bestBlock.alternativeTips

/-! ## Leaves -/

/-- A stored header without a stored child; the genesis block is no child. -/
def IsLeaf (C : ChainContext) (V : HeaderMap) (x : BlockHash) : Prop :=
  (∃ d, V x = some d) ∧
    ∀ y e, V y = some e → isGenesis C e.header = false → e.header.prevBlockhash ≠ x

section Leaves

variable {V : HeaderMap} {bound : Nat}

theorem Tree.no_child (t : Tree C V bound) (hx : V x = none)
    (he : V y = some e) (hg : isGenesis C e.header = false) :
    e.header.prevBlockhash ≠ x := by
  rintro rfl
  rcases t.rooted y e he with ⟨n, -, hbranch, -⟩
  rcases hbranch.stored hg with ⟨d, -, hd, -, -⟩
  rw [hx] at hd
  cases hd

theorem Tree.inFork_notGenesis (t : Tree C V bound) {header : BlockHeader} {n : Nat}
    (hy : V y = some (.inFork header n)) : isGenesis C header = false := by
  refine Bool.eq_false_iff.mpr fun hg => ?_
  have hhash : C.blockHash header = y := t.hash y _ hy
  have hgenesis : C.blockHash header = C.genesisHash := of_decide_eq_true hg
  rw [← hhash, hgenesis, t.genesis] at hy
  cases hy

theorem isLeaf_update (t : Tree C V bound) (hx : V x = none)
    (hg : isGenesis C e.header = false) {p : DiskBlockHeader}
    (hp : V e.header.prevBlockhash = some p) (y : BlockHash) :
    IsLeaf C (Function.update V x (some e)) y ↔
      (IsLeaf C V y ∧ y ≠ e.header.prevBlockhash) ∨ y = x := by
  have hpx : e.header.prevBlockhash ≠ x := by
    intro heq
    rw [heq, hx] at hp
    cases hp
  constructor
  · rintro ⟨⟨d, hd⟩, hchildless⟩
    by_cases hy : y = x
    · exact .inr hy
    · rw [Function.update_of_ne hy] at hd
      refine .inl ⟨⟨⟨d, hd⟩, fun z c hc hcg => ?_⟩, ?_⟩
      · have hz : z ≠ x := by
          rintro rfl
          rw [hx] at hc
          cases hc
        exact hchildless z c (by rw [Function.update_of_ne hz]; exact hc) hcg
      · exact (hchildless x e (Function.update_self ..) hg).symm
  · rintro (⟨⟨⟨d, hd⟩, hchildless⟩, hne⟩ | rfl)
    · have hy : y ≠ x := by
        rintro rfl
        rw [hx] at hd
        cases hd
      refine ⟨⟨d, by rw [Function.update_of_ne hy]; exact hd⟩, fun z c hc hcg => ?_⟩
      by_cases hz : z = x
      · rw [hz, Function.update_self] at hc
        cases hc
        exact hne.symm
      · rw [Function.update_of_ne hz] at hc
        exact hchildless z c hc hcg
    · refine ⟨⟨e, Function.update_self ..⟩, fun z c hc hcg => ?_⟩
      by_cases hz : z = y
      · rw [hz, Function.update_self] at hc
        cases hc
        exact hpx
      · rw [Function.update_of_ne hz] at hc
        exact t.no_child hx hc hcg

end Leaves

theorem ChainInv.leaf_active (hinv : ChainInv k s)
    (hd : s.view x = some d) (hactive : d.isActive = true)
    (hleaf : IsLeaf C s.view x) : x = s.bestBlock.bestBlock := by
  rcases isActive_height hactive with ⟨n, hn⟩
  have hx : OnChain s.view x d n := ⟨hd, hactive, hn⟩
  rcases hinv.best with ⟨b, hb⟩
  rcases Nat.lt_or_ge n s.bestBlock.depth with hlt | hge
  · -- the block above it has a parent at its height
    rcases hinv.onChain_at hlt with ⟨y, e, he⟩
    rcases he.parent hinv with ⟨hg, p, hp⟩
    exact absurd (hinv.settled.unique hp hx) (hleaf.2 y e he.entry hg)
  · have hdepth : n = s.bestBlock.depth := Nat.le_antisymm (hinv.settled.capped hx) hge
    subst hdepth
    exact hinv.settled.unique hx hb

theorem ChainInv.child_active (hinv : ChainInv k s)
    (he : s.view y = some e) (hactive : e.isActive = true)
    (hg : isGenesis C e.header = false)
    (hd : s.view e.header.prevBlockhash = some d) : d.isActive = true := by
  rcases isActive_height hactive with ⟨n, hn⟩
  have hy : y ≠ C.genesisHash := by
    rintro rfl
    rw [hinv.tree.genesis] at he
    cases he
    simp [isGenesis, DiskBlockHeader.header, ChainContext.genesisHash] at hg
  rcases hinv.settled.parent ⟨he, hactive, hn⟩ hy with ⟨p, m, hp, -⟩
  have hdp : d = p := Option.some.inj (hd.symm.trans hp.entry)
  rw [hdp]
  exact hp.active

/-! ## Runs without a change of branch -/

/-- The tips are the leaves of the tree, the best one first, and opening the store again gives the
same alternative tips. -/
structure TipsAreLeaves (s : ChainStateInner C) (cacheSize : Nat) : Prop where
  tips : (getChainTips s).1 = .ok (s.bestBlock.bestBlock :: s.bestBlock.alternativeTips)
  nodup : (s.bestBlock.bestBlock :: s.bestBlock.alternativeTips).Nodup
  leaves : ∀ x, x ∈ s.bestBlock.bestBlock :: s.bestBlock.alternativeTips ↔
    IsLeaf C (storedHeaders s) x
  rebuilt : ∃ tips, ((flush s).2.chainstore.reopen cacheSize).deriveAlternativeTips = .ok tips ∧
    tips.Nodup ∧ ∀ x, x ∈ tips ↔ x ∈ s.bestBlock.alternativeTips

/-- A header with room for it that does not make its branch the best chain: it is stored, extends
the tip, or is on a branch without more work than the best chain. -/
structure StaysReady (s : ChainStateInner C) (header : BlockHeader) : Prop where
  ready : AcceptReady s header
  stays : storedHeaders s (C.blockHash header) = none →
    header.prevBlockhash ≠ s.bestBlock.bestBlock →
    ∀ works, (comparedWork header s).1 = .ok works → works.2 ≤ works.1

@[mk_iff]
structure TipInv (k : Nat) (s : ChainStateInner C) : Prop where
  headers : HeaderInv k s
  file : ForkFile C.bitcoin s.chainstore
  nodup : (s.bestBlock.bestBlock :: s.bestBlock.alternativeTips).Nodup
  leaves : ∀ x, x ∈ s.bestBlock.bestBlock :: s.bestBlock.alternativeTips ↔ IsLeaf C s.view x

namespace TipInv

variable {s' : ChainStateInner C}

section

variable (h : TipInv k s)

include h

theorem quiet (hs : Quiet k s s') : TipInv k s' := by
  rw [tipInv_iff, forkFile_iff, hs.view, hs.files.view, hs.metadata, hs.bestBlock, hs.forkHeaders,
    ← forkFile_iff]
  exact ⟨h.headers.quiet hs, h.file, h.nodup, h.leaves⟩

theorem not_mem (hx : s.view x = none) :
    x ∉ s.bestBlock.bestBlock :: s.bestBlock.alternativeTips := by
  intro hmem
  rcases ((h.leaves x).mp hmem).1 with ⟨d, hd⟩
  rw [hx] at hd
  cases hd

theorem extended (hheaders : HeaderInv k s') (hfresh : Fresh s header s.bestBlock.depth)
    (hprev : header.prevBlockhash = s.bestBlock.bestBlock) (hextended : Extended s header s') :
    TipInv k s' := by
  have hview := hextended.view
  have hbest := List.nodup_cons.mp h.nodup
  rcases h.headers.chain.best with ⟨b, hb⟩
  have hold : ∀ {x d}, s.view x = some d → s'.view x = some d := by
    intro x d hd
    have hx : x ≠ C.blockHash header := by
      rintro rfl
      rw [hfresh.new] at hd
      cases hd
    rw [hview, Function.update_of_ne hx]
    exact hd
  refine ⟨hheaders, ⟨hheaders.chain.forks, ?_, ?_, ?_⟩, ?_, fun x => ?_⟩
  · rw [hextended.forks.count]
    exact h.file.index
  · rw [hextended.forks.count, hextended.forks.file]
    intro i hi
    rcases h.file.records i hi with ⟨header', n, hrecord, hd⟩
    exact ⟨header', n, hrecord, hold hd⟩
  · rw [hextended.forks.count, hextended.forks.file, show s'.chainstore.view = _ from hview]
    intro x header' n hd
    by_cases hx : x = C.blockHash header
    · rw [hx, Function.update_self] at hd
      cases hd
    · rw [Function.update_of_ne hx] at hd
      exact h.file.recorded x header' n hd
  · rw [hextended.best]
    exact List.nodup_cons.mpr
      ⟨fun hmem => h.not_mem hfresh.new (List.mem_cons_of_mem _ hmem), hbest.2⟩
  · have hleaf := isLeaf_update (e := .headersOnly header (s.bestBlock.depth + 1))
      h.headers.chain.tree hfresh.new hfresh.notGenesis (hprev ▸ hb.entry) x
    rw [hextended.best, hview, hleaf, ← h.leaves x]
    change x ∈ C.blockHash header :: s.bestBlock.alternativeTips ↔
      (x ∈ s.bestBlock.bestBlock :: s.bestBlock.alternativeTips ∧ x ≠ header.prevBlockhash) ∨ _
    rw [hprev, List.mem_cons, List.mem_cons]
    constructor
    · rintro (rfl | hx)
      · exact .inr rfl
      · exact .inl ⟨.inr hx, fun heq => hbest.1 (heq ▸ hx)⟩
    · rintro (⟨rfl | hx, hne⟩ | rfl)
      · exact absurd rfl hne
      · exact .inr hx
      · exact .inl rfl

theorem forked (hheaders : HeaderInv k s') (hroom : ForkRoom s.chainstore) {n : Nat}
    (hfresh : Fresh s header n) (hprev : header.prevBlockhash ≠ s.bestBlock.bestBlock)
    (hd : s.view header.prevBlockhash = some d) (hforked : Forked s header (n + 1) s') :
    TipInv k s' := by
  have hview := hforked.view
  have hnew := h.not_mem hfresh.new
  rcases List.nodup_cons.mp h.nodup with ⟨hbest, hnodup⟩
  rw [List.mem_cons, not_or] at hnew
  refine ⟨hheaders, ⟨hheaders.chain.forks, ?_, ?_, ?_⟩, ?_, fun x => ?_⟩
  · rw [hforked.forks.count]
    exact hroom.index
  · rw [hforked.forks.count, hforked.forks.file, show s'.chainstore.view = _ from hview]
    intro i hi
    rcases Nat.lt_succ_iff_lt_or_eq.mp hi with hlt | rfl
    · rcases h.file.records i hlt with ⟨header', m, hrecord, hentry⟩
      have hne : C.blockHash header' ≠ C.blockHash header := by
        intro heq
        have hentry' : s.view (C.blockHash header') = some (.inFork header' m) := hentry
        rw [heq, hfresh.new] at hentry'
        cases hentry'
      refine ⟨header', m, ?_, ?_⟩
      · rw [Function.update_of_ne (Nat.ne_of_lt hlt)]
        exact hrecord
      · exact (Function.update_of_ne hne ..).trans hentry
    · exact ⟨header, n + 1, Function.update_self .., Function.update_self ..⟩
  · rw [hforked.forks.count, hforked.forks.file, show s'.chainstore.view = _ from hview]
    intro x header' m hentry
    by_cases hx : x = C.blockHash header
    · refine ⟨s.chainstore.metadata.forkCount, Nat.lt_succ_self _, ?_⟩
      rw [Function.update_self, hx]
    · rw [Function.update_of_ne hx] at hentry
      rcases h.file.recorded x header' m hentry with ⟨i, hi, hhash⟩
      refine ⟨i, Nat.lt_succ_of_lt hi, ?_⟩
      rw [Function.update_of_ne (Nat.ne_of_lt hi)]
      exact hhash
  · rw [hforked.best]
    refine List.nodup_cons.mpr ⟨?_, ?_⟩
    · rw [List.mem_append, List.mem_singleton, not_or]
      exact ⟨fun hmem => hbest (List.mem_of_mem_erase hmem), fun heq => hnew.1 heq.symm⟩
    · refine (hnodup.erase _).append (List.nodup_singleton _) ?_
      rw [List.disjoint_singleton]
      exact fun hmem => hnew.2 (List.mem_of_mem_erase hmem)
  · have hleaf := isLeaf_update (e := .inFork header (n + 1)) h.headers.chain.tree hfresh.new
      hfresh.notGenesis hd x
    rw [hforked.best, hview, hleaf, ← h.leaves x]
    change x ∈ s.bestBlock.bestBlock :: (s.bestBlock.alternativeTips.erase header.prevBlockhash ++
      [C.blockHash header]) ↔
        (x ∈ s.bestBlock.bestBlock :: s.bestBlock.alternativeTips ∧ x ≠ header.prevBlockhash) ∨ _
    rw [List.mem_cons, List.mem_cons, List.mem_append, List.mem_singleton, hnodup.mem_erase_iff]
    constructor
    · rintro (rfl | ⟨hne, hx⟩ | hx)
      · exact .inl ⟨.inl rfl, hprev.symm⟩
      · exact .inl ⟨.inr hx, hne⟩
      · exact .inr hx
    · rintro (⟨rfl | hx, hne⟩ | hx)
      · exact .inl rfl
      · exact .inr (.inl ⟨hne, hx⟩)
      · exact .inr (.inr hx)

theorem accept (hready : StaysReady s header) : TipInv k (acceptHeader header s).2 := by
  have hheaders := h.headers.accept hready.ready
  rcases hready.ready.settle h.headers.chain with ⟨-, -, hentered, -⟩ | ⟨-, -, -, hquiet⟩
  swap
  · exact h.quiet hquiet
  · cases hentered with
    | known _ hquiet => exact h.quiet hquiet
    | extended hfresh hprev hextended => exact h.extended hheaders hfresh hprev hextended
    | decided hfresh hprev hparent _ hdecided =>
      cases hdecided with
      | forked _ _ hforked =>
        have hroom := (hready.ready.room.branch hprev).fork
        exact h.forked hheaders hroom hfresh hprev hparent hforked
      | switched hworks hmore _ =>
        have hnew : storedHeaders s (C.blockHash header) = none := by
          rw [storedHeaders_eq h.headers.chain.store]
          exact hfresh.new
        exact absurd (hready.stays hnew hprev _ hworks) (Nat.not_le.mpr hmore)

/-- The alternative tips are the headers on forks that no other header on a fork extends. -/
theorem mem_alternativeTips (x : BlockHash) :
    x ∈ s.bestBlock.alternativeTips ↔
      (∃ header n, s.view x = some (.inFork header n)) ∧
        ∀ y header n, s.view y = some (.inFork header n) →
          header.prevBlockhash ≠ x := by
  have hinv := h.headers.chain
  rcases hinv.best with ⟨b, hb⟩
  constructor
  · intro hx
    have hleaf := (h.leaves x).mp (List.mem_cons_of_mem _ hx)
    rcases hleaf.1 with ⟨d, hd⟩
    have hbest : x ≠ s.bestBlock.bestBlock := by
      rintro rfl
      exact (List.nodup_cons.mp h.nodup).1 hx
    -- a leaf of the best chain would be the best block
    have hactive : d.isActive ≠ true := fun hactive => hbest (hinv.leaf_active hd hactive hleaf)
    refine ⟨?_, fun y header n hy => hleaf.2 y _ hy ?_⟩
    · rcases h.headers.plain x d hd with ⟨header, n, rfl⟩ | ⟨header, n, rfl⟩ | ⟨header, n, rfl⟩
      · exact absurd rfl hactive
      · exact absurd rfl hactive
      · exact ⟨header, n, hd⟩
    · exact hinv.tree.inFork_notGenesis hy
  · rintro ⟨⟨header, n, hd⟩, hchildless⟩
    have hbest : x ≠ s.bestBlock.bestBlock := by
      rintro rfl
      have hactive := hb.active
      rw [hb.entry_eq hd] at hactive
      cases hactive
    have hleaf : IsLeaf C s.view x := by
      refine ⟨⟨_, hd⟩, fun y e he hg heq => ?_⟩
      have hparent : e.isActive ≠ true := by
        intro hactive
        have hfork := hinv.child_active he hactive hg (heq ▸ hd)
        cases hfork
      rcases h.headers.plain y e he with ⟨header', m, rfl⟩ | ⟨header', m, rfl⟩ | ⟨header', m, rfl⟩
      · exact hparent rfl
      · exact hparent rfl
      · exact hchildless y header' m he heq
    exact (List.mem_cons.mp ((h.leaves x).mpr hleaf)).resolve_left hbest

theorem tipsAreLeaves (cacheSize : Nat) : TipsAreLeaves s cacheSize := by
  have hstored := storedHeaders_eq h.headers.chain.store
  refine ⟨rfl, h.nodup, ?_, ?_⟩
  · rw [hstored]
    exact h.leaves
  · have hstore := h.headers.chain.store.withHeight s.bestBlock
    have hview : ((s.chainstore.withHeight s.bestBlock).reopen cacheSize).view = s.view :=
      (view_reopen _ cacheSize).trans (view_withHeight s.chainstore s.bestBlock)
    rcases (h.file.reopen s.bestBlock cacheSize).derive
      (hstore.core.reopen cacheSize) with ⟨tips, hderive, hnodup, hmem⟩
    refine ⟨tips, hderive, hnodup, fun x => ?_⟩
    rw [hmem x, hview, h.mem_alternativeTips x]

end

theorem new (hnew : IsNew config k s) : TipInv k s := by
  have honly : ∀ {x d}, s.view x = some d → x = C.genesisHash ∧ d = genesisEntry C :=
    new_only hnew
  have hheaders := HeaderInv.new hnew
  have hview := hheaders.chain.tree.genesis
  rcases hnew with ⟨-, _, rfl⟩
  refine ⟨hheaders, ⟨Nat.zero_le _, Nat.zero_le _, ?_, ?_⟩, List.nodup_singleton _, fun x => ?_⟩
  · intro i hi
    cases hi
  · intro x h n hx
    cases (honly hx).2
  · rw [List.mem_singleton]
    constructor
    · rintro rfl
      refine ⟨⟨_, hview⟩, fun y e he hg => ?_⟩
      rw [(honly he).2, genesisEntry_isGenesis] at hg
      cases hg
    · rintro ⟨⟨d, hd⟩, -⟩
      exact (honly hd).1

end TipInv

/-- As long as no call makes another branch the best chain, the chain tips are the leaves of the
header tree, and the store rebuilds them when it is opened again. -/
theorem getChainTips_leaves {config : FlatChainStoreConfig} {start : ChainStateInner C}
    (hnew : Created config start)
    (hrun : HeaderRun StaysReady start s) (cacheSize : Nat) : TipsAreLeaves s cacheSize :=
  (hrun.induct (TipInv.new hnew.isNew) fun _ _ hinv hready =>
    hinv.accept hready).tipsAreLeaves cacheSize

namespace Sample

/-- Room to spare, and no more work on another branch. -/
def spareStays (s : ChainStateInner ChainContext.sample) (header : BlockHeader) : Bool :=
  spareFor s header && (decide (header.prevBlockhash = s.bestBlock.bestBlock) ||
    match (comparedWork header s).1 with
    | .ok works => decide (works.2 ≤ works.1)
    | .error _ => true)

theorem staysReady {s : ChainStateInner ChainContext.sample} (hinv : HeaderInv k s)
    (h : spareStays s header = true) : StaysReady s header := by
  rcases Bool.and_eq_true_iff.mp h with ⟨hspare, hstays⟩
  refine ⟨acceptReady_of_spare hinv.chain hspare, fun _ hprev works hworks => ?_⟩
  rw [hworks, decide_eq_false hprev, Bool.false_or] at hstays
  exact of_decide_eq_true hstays

end Sample

open Sample ChainContext in
/-- With one fork, the tips are `a₂` and the block `b₂` beside it. -/
theorem getChainTips_leaves_fork :
    ∃ start s, ChainState.new sample
        (createChainStore Sample.config) none = .ok start ∧
      s = (acceptHeaders [a₁, a₂, b₂] start).2 ∧
      (getChainTips s).1 = .ok [sample.blockHash a₂,
        sample.blockHash b₂] ∧ TipsAreLeaves s 10 := by
  have hrun : afterTested sample Sample.config spareStays [a₁, a₂, b₂]
      (fun s => decide ((getChainTips s).1 =
        .ok [sample.blockHash a₂, sample.blockHash b₂])) = true := by
    decide +kernel
  rcases afterTested_eq_true rounds (by decide +kernel) StaysReady.ready staysReady hrun with
    ⟨start, s, hnew, hreach, -, hs, htips⟩
  exact ⟨start, s, hnew, hs, of_decide_eq_true htips,
    getChainTips_leaves (created hnew) hreach 10⟩

open Sample ChainContext in
/-- After the branch of `b₃` became the best chain, its inner block `b₂` is still an alternative tip,
and the old best tip `a₂` is none until the store is opened again. -/
theorem getChainTips_stale :
    ∃ start s, ChainState.new sample
        (createChainStore Sample.config) none = .ok start ∧
      HeaderRun AcceptReady start s ∧ s = (acceptHeaders [a₁, a₂, b₂, b₃] start).2 ∧
      (getChainTips s).1 = .ok [sample.blockHash b₃,
        sample.blockHash b₂] ∧
      ¬ IsLeaf sample (storedHeaders s) (sample.blockHash b₂) ∧
      ((flush s).2.chainstore.reopen 10).deriveAlternativeTips =
        .ok [sample.blockHash a₂] ∧ ¬ TipsAreLeaves s 10 := by
  have hrun : afterHeaders [a₁, a₂, b₂, b₃] (fun s => decide
      ((getChainTips s).1 = .ok [sample.blockHash b₃,
          sample.blockHash b₂] ∧
        storedHeaders s (sample.blockHash b₃) = some (.headersOnly b₃ 3) ∧
        ((flush s).2.chainstore.reopen 10).deriveAlternativeTips =
          .ok [sample.blockHash a₂])) = true := by decide +kernel
  rcases afterHeaders_eq_true hrun with ⟨start, s, hnew, hreach, hinv, hs, htest⟩
  rcases of_decide_eq_true htest with ⟨htips, hchild, hderived⟩
  have hinner : ¬ IsLeaf sample (storedHeaders s)
      (sample.blockHash b₂) :=
    fun hleaf => hleaf.2 _ _ hchild (by decide +kernel) rfl
  refine ⟨start, s, hnew, hreach, hs, htips, hinner, hderived, fun h => hinner ?_⟩
  have hlist := Except.ok.inj (h.tips.symm.trans htips)
  refine (h.leaves _).mp ?_
  rw [hlist]
  exact List.mem_cons_of_mem _ (List.mem_singleton_self _)

end ChainState
end Floresta
