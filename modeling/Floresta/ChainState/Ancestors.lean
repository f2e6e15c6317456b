import Floresta.ChainState.Tips

/-!
# Ancestors — looking an ancestor up by its height

`get_ancestor_at_height` follows `prev_blockhash`, except for a header that the height index knows:
then it reads the index at the other height as well.  On the best chain both ways give the same
header.  A record above the tip is left from a branch that was longer than the best chain, and what
the index has below it is not its own past.
-/

namespace Floresta.ChainState

open Prog FlatChainStore

variable {C : ChainContext} {k : Nat} {s s0 : ChainStateInner C} {header : BlockHeader}
  {x : BlockHash} {d : DiskBlockHeader} {E : Fault → Prop}

/-! ## Ancestors of a header -/

section Walks

variable {V : HeaderMap} {y z h : BlockHeader} {n m : Nat}

theorem Above.last (hy : Above V y h (n + 1)) :
    ∃ z f, Above V z h n ∧ V z.prevBlockhash = some f ∧ f.header = y := by
  induction n generalizing h with
  | zero =>
    cases hy with
    | child hd hrest =>
      cases hrest with
      | self => exact ⟨h, _, .self, hd, rfl⟩
  | succ n ih =>
    cases hy with
    | child hd hrest =>
      rcases ih hrest with ⟨z, f, hz, hf, heq⟩
      exact ⟨z, f, .child hd hz, hf, heq⟩

theorem Above.branch (hy : Above V y h n) (hm : Branch C V h (m + n)) : Branch C V y m := by
  induction hy with
  | self => exact hm
  | child hd _ ih =>
    rcases hm.parent hm.notGenesis hd with ⟨i, -, hi, hbranch⟩
    refine ih ?_
    have him : i = m + _ := Nat.succ.inj hi.symm
    rw [← him]
    exact hbranch

theorem Above.stored (hy : Above V y h n)
    (hd : V x = some d) (hh : d.header = h) : ∃ z e, V z = some e ∧ e.header = y := by
  induction hy generalizing x d with
  | self => exact ⟨x, d, hd, hh⟩
  | child he _ ih => exact ih he rfl

theorem within_parents (hn : Branch C s0.view h n) (hm : m ≤ n) :
    Within (Quiet k s0) E ((List.range m).foldlM (fun ancestor _ => do
      let parent ← getAncestor ancestor
      pure parent.header) h : ChainM C _) fun y => Above s0.view y h m := by
  have hwalk := Within.foldlM_range (S := Quiet k s0) (E := E) (a := h) (n := m)
    (f := fun ancestor (_ : Nat) => (do
      let parent ← getAncestor ancestor
      pure parent.header : ChainM C BlockHeader))
    (P := fun i y => Above s0.view y h i ∧ Branch C s0.view y (n - i))
    (fun i hi y hy => ?_) ⟨.self, hn⟩
  · exact hwalk.mono fun _ hy => hy.1
  · rcases hy with ⟨habove, hbranch⟩
    obtain ⟨j, hj⟩ : ∃ j, n - i = j + 1 := ⟨n - i - 1, by omega⟩
    rw [hj] at hbranch
    cases hbranch with
    | @child _ d _ _ hd hrest =>
      refine Within.bind_eq (within_getDiskBlockHeader_stored hd) (Within.pure ?_)
      have hleft : n - (i + 1) = j := by omega
      rw [hleft]
      exact ⟨habove.snoc hd, hrest⟩

end Walks

/-! ## The height index -/

theorem within_getHeaderByHeight_onChain
    {n : Nat} (hd : OnChain s0.view x d n) :
    Within (Quiet k s0) E (getHeaderByHeight n : ChainM C _) (· = d) := by
  intro s hs
  have hd' : OnChain s.view x d n := by
    rw [hs.view]
    exact hd
  rcases view_active hs.inv.core hd'.entry hd'.active with
    ⟨m, hm, hinside, hindex, hhash, hheader, -⟩
  have hnm : n = m := hd'.height_eq hm
  subst hnm
  have hwritten : (s.chainstore.headers n).hash ≠ 0 := by
    rw [hhash]
    exact view_ne_zero hs.inv.core hd'.entry
  have hrecord := recordAt_ok hinside hindex hwritten
  unfold getHeaderByHeight store FlatChainStore.getHeaderByHeight
  rw [wp_bind, wp_zoom, wp_bind]
  unfold wp
  rw [hrecord]
  refine ⟨hs, ?_⟩
  exact hheader

theorem getBlockHash_eq_ok {n : Nat} :
    (getBlockHash n s).1 = .ok x ↔ (FlatChainStore.getBlockHash n s.chainstore).1 = .ok (some x) := by
  unfold getBlockHash store
  rw [bind_apply]
  unfold zoom
  rcases FlatChainStore.getBlockHash n s.chainstore with ⟨e | _ | hash, store'⟩
  · simp [Except.mapError]
  · simp [Except.mapError, raise, fail]
  · simp [Except.mapError, pure]

section BestChain

variable (hinv : ChainInv k s)

include hinv

theorem OnChain.above {x y : BlockHash} {d e : DiskBlockHeader} {n j : Nat}
    (hd : OnChain s.view x d (n + j)) (he : OnChain s.view y e n) :
    Above s.view e.header d.header j :=
  hinv.settled.above hinv.tree hd he

theorem onChain_of_indexed {h : Nat} (hd : s.view x = some d) (hh : h ≤ s.bestBlock.depth)
    (hindexed : (FlatChainStore.getBlockHash h s.chainstore).1 = .ok (some x)) :
    OnChain s.view x d h := by
  rcases hinv.onChain_at hh with ⟨y, e, hy⟩
  have hxy : x = y := by
    have hrecord := (hy.record hinv.store).2
    rw [hindexed] at hrecord
    exact Option.some.inj (Except.ok.inj hrecord)
  subst hxy
  rw [Option.some.inj (hd.symm.trans hy.entry)]
  exact hy

/-- What a header gets that the index does not know at its height, and one that it knows at a height
of the best chain. -/
theorem within_ancestor {h t : Nat} (hd : s.view x = some d) (hh : d.height = some h) (ht : t ≤ h)
    (hindex : h ≤ s.bestBlock.depth ∨
      (FlatChainStore.getBlockHash h s.chainstore).1 ≠ .ok (some x)) :
    Within (Quiet k s) E (getAncestorAtHeight d.header h t : ChainM C _)
      fun y => Above s.view y d.header (h - t) := by
  have hhash := hinv.tree.hash x d hd
  refine Within.bind ((uniform_getBlockHash h).within_attempt (Quiet.refl hinv.store))
    fun indexed hindexed => ?_
  subst hindexed
  refine Within.ite (fun hknown => ?_) fun _ => ?_
  · rw [hhash, getBlockHash_eq_ok] at hknown
    rcases hindex with hdepth | hunknown
    · have hx := onChain_of_indexed hinv hd hdepth hknown
      rcases hinv.onChain_at (Nat.le_trans ht hdepth) with ⟨y, e, hy⟩
      refine Within.bind_eq (within_getHeaderByHeight_onChain hy) (Within.pure ?_)
      rw [← Nat.add_sub_cancel' ht] at hx
      exact OnChain.above hinv hx hy
    · exact absurd hknown hunknown
  · rcases hinv.tree.rooted x d hd with ⟨n, -, hbranch, hheight⟩
    have hn := hheight h hh
    subst hn
    exact within_parents hbranch (Nat.sub_le _ _)

/-- A header that the index knows gets what the best chain has at the other height. -/
theorem within_ancestor_indexed {d b : DiskBlockHeader} {h : Nat} (hd : s.view x = some d)
    (hindexed : (FlatChainStore.getBlockHash h s.chainstore).1 = .ok (some x)) {t : Nat}
    {y : BlockHash} (hb : OnChain s.view y b t) :
    Within (Quiet k s) E (getAncestorAtHeight d.header h t : ChainM C _) (· = b.header) := by
  have hhash := hinv.tree.hash x d hd
  refine Within.bind ((uniform_getBlockHash h).within_attempt (Quiet.refl hinv.store))
    fun indexed hknown => ?_
  subst hknown
  refine Within.ite (fun _ => ?_) fun hunknown => ?_
  · refine Within.bind (within_getHeaderByHeight_onChain hb) fun a ha => Within.pure ?_
    rw [ha]
  · rw [hhash, getBlockHash_eq_ok] at hunknown
    exact absurd hindexed hunknown

theorem tip_not_above (hleaf : IsLeaf C s.view s.bestBlock.bestBlock)
    {d b : DiskBlockHeader} {h n : Nat} (hd : s.view x = some d)
    (hh : d.height = some h) (hb : s.view s.bestBlock.bestBlock = some b)
    (hn : n + 1 ≤ h) : ¬ Above s.view b.header d.header (n + 1) := by
  intro habove
  rcases habove.last with ⟨z, f, hz, hf, heq⟩
  rcases hz.stored hd rfl with ⟨w, e, he, hez⟩
  rcases hinv.tree.rooted x d hd with ⟨m, -, hbranch, hheight⟩
  have hm := hheight h hh
  subst hm
  have hsplit : h = h - n + n := by omega
  rw [hsplit] at hbranch
  have hzbranch := hz.branch hbranch
  have hg : isGenesis C z = false := by
    obtain ⟨j, hj⟩ : ∃ j, h - n = j + 1 := ⟨h - n - 1, by omega⟩
    rw [hj] at hzbranch
    exact hzbranch.notGenesis
  -- its parent is the tip
  have hprev : z.prevBlockhash = s.bestBlock.bestBlock := by
    rw [← hinv.tree.hash _ _ hf, heq, hinv.tree.hash _ _ hb]
  subst hez
  exact hleaf.2 w e he hg hprev

/-- The lookup agrees with the walk exactly if the header is not above the best chain, or the index
has another one at its height. -/
theorem ancestors_agree_iff (hleaf : IsLeaf C s.view s.bestBlock.bestBlock)
    {h : Nat} (hd : s.view x = some d)
    (hh : d.height = some h) :
    (∀ t ≤ h, ∃ y, Above s.view y d.header (h - t) ∧
        (getAncestorAtHeight d.header h t s).1 = .ok y) ↔
      (h ≤ s.bestBlock.depth ∨
        (FlatChainStore.getBlockHash h s.chainstore).1 ≠ .ok (some x)) := by
  have hrefl := Quiet.refl hinv.store
  constructor
  · intro hagree
    by_contra hstale
    rcases not_or.mp hstale with ⟨hdepth, hindexed⟩
    have hlt : s.bestBlock.depth < h := Nat.lt_of_not_le hdepth
    rcases hinv.best with ⟨b, hb⟩
    -- at the height of the tip the index has the tip, which is no ancestor of a stored header
    rcases hagree s.bestBlock.depth (Nat.le_of_lt hlt) with ⟨y, hy, hanswer⟩
    have htip := (within_ancestor_indexed (E := fun _ => False) hinv hd (not_not.mp hindexed) hb
      s hrefl).2
    rw [hanswer] at htip
    have hyb : y = b.header := htip
    subst hyb
    obtain ⟨j, hj⟩ : ∃ j, h - s.bestBlock.depth = j + 1 := ⟨h - s.bestBlock.depth - 1, by omega⟩
    rw [hj] at hy
    exact tip_not_above hinv hleaf hd hh hb.entry (by omega) hy
  · intro hindex t ht
    have hout := (within_ancestor (E := fun _ => False) hinv hd hh ht hindex s hrefl).2
    cases hanswer : (getAncestorAtHeight d.header h t s).1 with
    | error e =>
      rw [hanswer] at hout
      exact hout.elim
    | ok y =>
      rw [hanswer] at hout
      exact ⟨y, hout, rfl⟩

end BestChain

/-! ## The best tip is a leaf -/

theorem Switched.leaf {n m f : Nat} {s' : ChainStateInner C} (hinv : ChainInv k s)
    (hfresh : Fresh s header n) (haccepted : Accepted k f s s') (h : Switched s header m s') :
    IsLeaf C s'.view (C.blockHash header) := by
  refine ⟨⟨_, h.tip⟩, fun y e he hg hprev => ?_⟩
  rcases (Grown.switched haccepted h).only y e he with heq | ⟨d, hd, heq⟩
  · rcases hfresh.branch.stored hfresh.notGenesis with ⟨p, -, hp, -, -⟩
    rw [heq] at hprev
    rw [hprev, hfresh.new] at hp
    cases hp
  · rw [← heq] at hg hprev
    exact hinv.tree.no_child hfresh.new hd hg hprev

theorem HeaderInv.tip_leaf (h : HeaderInv k s)
    (hleaf : IsLeaf C s.view s.bestBlock.bestBlock) (hready : AcceptReady s header) :
    IsLeaf C (acceptHeader header s).2.view (acceptHeader header s).2.bestBlock.bestBlock := by
  have hquiet : ∀ {s'}, Quiet k s s' → IsLeaf C s'.view s'.bestBlock.bestBlock := by
    intro s' hs
    rw [hs.view, hs.bestBlock]
    exact hleaf
  rcases hready.settle h.chain with ⟨-, ⟨f, haccepted⟩, hentered, -⟩ | ⟨-, -, -, hs⟩
  swap
  · exact hquiet hs
  · cases hentered with
    | known _ hs => exact hquiet hs
    | extended hfresh hprev hextended =>
      rcases h.chain.best with ⟨b, hb⟩
      rw [hextended.view, hextended.best]
      exact (isLeaf_update (e := .headersOnly header _) h.chain.tree hfresh.new
        hfresh.notGenesis (hprev ▸ hb.entry) _).mpr (.inr rfl)
    | decided hfresh hprev hd _ hdecided =>
      cases hdecided with
      | forked _ _ hforked =>
        rw [hforked.view, hforked.best]
        exact (isLeaf_update (e := .inFork header _) h.chain.tree hfresh.new
          hfresh.notGenesis hd _).mpr (.inl ⟨hleaf, fun heq => hprev heq.symm⟩)
      | switched _ _ hswitched =>
        rw [hswitched.bestBlock]
        exact hswitched.leaf h.chain hfresh haccepted

theorem HeaderRun.tip_leaf {start : ChainStateInner C} (hnew : IsNew config k start)
    (hrun : HeaderRun AcceptReady start s) :
    IsLeaf C s.view s.bestBlock.bestBlock := by
  have hstart : HeaderInv k start := HeaderInv.new hnew
  refine (hrun.induct (P := fun s => HeaderInv k s ∧
    IsLeaf C s.view s.bestBlock.bestBlock) ⟨hstart, ?_⟩
    fun _ _ h hready => ⟨h.1.accept hready, h.1.tip_leaf h.2 hready⟩).2
  -- the genesis block is alone
  have hbest : start.bestBlock.bestBlock = C.genesisHash := by
    rcases hnew with ⟨-, _, rfl⟩
    rfl
  rw [hbest]
  refine ⟨⟨_, hstart.chain.tree.genesis⟩, fun y e he hg => ?_⟩
  rw [(new_only hnew he).2, genesisEntry_isGenesis] at hg
  cases hg

end Floresta.ChainState
