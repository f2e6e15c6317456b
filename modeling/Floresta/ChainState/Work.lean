import Floresta.ChainState.Calls

/-!
# Work — how the chain state adds up the work of a branch

The work of the best chain is computed epoch by epoch from the height index, the work of a fork
block by block down to its fork point.  The multiplication of an epoch can overflow; apart from that
both computations succeed wherever the walks they make succeed.
-/

namespace Floresta.ChainState

open Prog FlatChainStore

variable {C : ChainContext} {k : Nat} {s0 : ChainStateInner C} {d : DiskBlockHeader}

/-! ## Cumulative work -/

/-- The exact work of a header and all its ancestors. -/
inductive TotalWork (C : ChainContext) (V : HeaderMap) : BlockHeader → Nat → Prop
  | genesis {h : BlockHeader} : isGenesis C h = true → TotalWork C V h (C.pow.work h.bits)
  | child {h : BlockHeader} {d : DiskBlockHeader} {w : Nat} :
      isGenesis C h = false → V h.prevBlockhash = some d → TotalWork C V d.header w →
      TotalWork C V h (w + C.pow.work h.bits)

namespace TotalWork

variable {V V' : HeaderMap} {h : BlockHeader} {w w' : Nat}

theorem unique (hw : TotalWork C V h w) (hw' : TotalWork C V h w') : w = w' := by
  induction hw generalizing w' with
  | genesis hg =>
    cases hw' with
    | genesis _ => rfl
    | child hg' _ _ =>
      rw [hg] at hg'
      cases hg'
  | child hg hd _ ih =>
    cases hw' with
    | genesis hg' =>
      rw [hg] at hg'
      cases hg'
    | child _ hd' hparent =>
      rw [hd] at hd'
      cases hd'
      rw [ih hparent]

theorem keeps (hw : TotalWork C V h w) (hk : Keeps V V') : TotalWork C V' h w := by
  induction hw with
  | genesis hg => exact .genesis hg
  | child hg hd _ ih =>
    rcases hk _ _ hd with ⟨d', hd', heq⟩
    exact .child hg hd' (heq ▸ ih)

theorem exists_of_branch {n : Nat} (hn : Branch C V h n) : ∃ w, TotalWork C V h w := by
  induction hn with
  | genesis hg => exact ⟨_, .genesis hg⟩
  | child hg hd _ ih =>
    rcases ih with ⟨w, hw⟩
    exact ⟨_, .child hg hd hw⟩

theorem parent (hw : TotalWork C V h w) (hg : isGenesis C h = false)
    (hd : V h.prevBlockhash = some d) :
    ∃ v, TotalWork C V d.header v ∧ w = v + C.pow.work h.bits := by
  cases hw with
  | genesis hg' =>
    rw [hg] at hg'
    cases hg'
  | child _ hd' hparent =>
    rw [hd] at hd'
    cases hd'
    exact ⟨_, hparent, rfl⟩

end TotalWork

/-! ## The best chain -/

def headerAtHeight (s : ChainStateInner C) (n : Nat) : BlockHeader :=
  (s.chainstore.headers n).header.header

def epochBlocks (n epoch : Nat) : Nat := min (2016 * epoch + 2015) n - 2016 * epoch + 1

/-- The work of an epoch of the best chain, if all its blocks have the work of the first one. -/
def epochTotal (s : ChainStateInner C) (n epoch : Nat) : Nat :=
  C.pow.work (headerAtHeight s (2016 * epoch)).bits * epochBlocks n epoch

/-- The work of every epoch up to the height `n` has 256 bits. -/
def EpochsFit (s : ChainStateInner C) (n : Nat) : Prop :=
  ∀ epoch < n / 2016 + 1, epochTotal s n epoch < 2 ^ 256

/-- The works of the first epochs, added up as 256-bit numbers. -/
def epochSum (s : ChainStateInner C) (n epochs : Nat) : Nat :=
  (List.range epochs).foldl (fun total epoch => Consensus.addWork total (epochTotal s n epoch)) 0

theorem epochSum_succ (s : ChainStateInner C) (n epochs : Nat) :
    epochSum s n (epochs + 1) =
      Consensus.addWork (epochSum s n epochs) (epochTotal s n epochs) := by
  unfold epochSum
  rw [List.range_succ, List.foldl_append]
  rfl

theorem epochSum_lt (s : ChainStateInner C) (n epochs : Nat) :
    epochSum s n (epochs + 1) < 2 ^ 256 := by
  rw [epochSum_succ]
  exact Nat.mod_lt _ (by norm_num)

theorem OnChain.headerAtHeight {s : ChainStateInner C}
    (hinv : StoreInv C.bitcoin C.genesisHash k s.chainstore) {x : BlockHash}
    {n : Nat} (h : OnChain s.view x d n) : headerAtHeight s n = d.header := by
  rcases view_active hinv.core h.entry h.active with ⟨m, hm, -, -, -, hheader, -⟩
  have hnm : n = m := h.height_eq hm
  subst hnm
  unfold ChainState.headerAtHeight
  rw [hheader]

/-- An error that is raised only if some epoch has more than 256 bits of work. -/
def Overflows (s : ChainStateInner C) (n : Nat) (fault : Fault) : Prop :=
  Proper fault ∧ ¬ EpochsFit s n

variable (hwork : ∀ bits, C.pow.work bits < 2 ^ 256)

include hwork

section

variable (hinv : ChainInv k s0)

include hinv

theorem within_epochWork {n epoch : Nat} (hn : n ≤ s0.bestBlock.depth)
    (hepoch : epoch < n / 2016 + 1) :
    Within (Quiet k s0) (Overflows s0 n) (epochWork n (2016 * epoch) : ChainM C _)
      fun work => epochTotal s0 n epoch < 2 ^ 256 ∧ work = epochTotal s0 n epoch := by
  have hstart : 2016 * epoch ≤ s0.bestBlock.depth := by omega
  rcases hinv.onChain_at hstart with ⟨x, d, hd⟩
  have hheader := hd.headerAtHeight hinv.store
  refine Within.bind_eq (within_getBlockHash_onChain hd).weaken ?_
  refine Within.bind_eq (within_getBlockHeader_stored hd.entry) (Within.lift ?_)
  rw [Consensus.multiplyWorkByU32_eq (hwork _)]
  have htotal : C.pow.work d.header.bits * (min (2016 * epoch + 2015) n - 2016 * epoch + 1) =
      epochTotal s0 n epoch := by
    unfold epochTotal epochBlocks
    rw [hheader]
  rw [htotal]
  by_cases hfits : epochTotal s0 n epoch < 2 ^ 256
  · rw [if_pos hfits]
    exact ⟨hfits, rfl⟩
  · rw [if_neg hfits]
    exact ⟨⟨_, rfl⟩, fun h => hfits (h epoch hepoch)⟩

/-- The work of a best-chain header is the sum over its epochs, and cannot be had if one of them
overflows. -/
theorem within_branchWork {header : BlockHeader} {n : Nat}
    (hd : OnChain s0.view (C.blockHash header) d n) :
    Within (Quiet k s0) (Overflows s0 n) (getBranchWork header : ChainM C _)
      fun work => EpochsFit s0 n ∧ work = epochSum s0 n (n / 2016 + 1) := by
  have hn := hinv.settled.capped hd
  refine Within.bind_eq (Within.bind_eq (within_getDiskBlockHeader_stored hd.entry)
    (Within.pure hd.height)) ?_
  refine Within.bind_eq (Within.lift rfl) ?_
  -- the epochs that were added up did not overflow
  refine (Within.foldlM_range (P := fun i total =>
    (∀ epoch < i, epochTotal s0 n epoch < 2 ^ 256) ∧ total = epochSum s0 n i)
    (fun i hi total htotal => ?_) ⟨fun _ h => absurd h (Nat.not_lt_zero _), rfl⟩).mono ?_
  · rcases htotal with ⟨hbefore, rfl⟩
    refine Within.bind (within_epochWork hwork hinv hn hi) fun work hw => Within.pure ⟨?_, ?_⟩
    · intro epoch hlt
      rcases Nat.lt_succ_iff_lt_or_eq.mp hlt with hlt | rfl
      · exact hbefore epoch hlt
      · exact hw.1
    · rw [hw.2, epochSum_succ]
  · exact fun _ h => h

theorem within_getWork {n : Nat} (hd : OnChain s0.view (C.blockHash d.header) d n) :
    Within (Quiet k s0) (Overflows s0 n) (getWork (C.blockHash d.header) : ChainM C _)
      fun work => EpochsFit s0 n ∧ work = epochSum s0 n (n / 2016 + 1) :=
  Within.bind_eq (within_getBlockHeader_stored hd.entry) (within_branchWork hwork hinv hd)

/-! ## A branch -/

/-- Down to an ancestor on the best chain, the works of the blocks are added to its own. -/
theorem within_ancestorWork {newTip : BlockHeader}
    (hstored : ∀ e, s0.view (C.blockHash newTip) = some e → e.header = newTip)
    {j f : Nat} (habove : Above s0.view d.header newTip j)
    (hbranch : Branch C s0.view newTip (f + j))
    (hd : OnChain s0.view (C.blockHash d.header) d f) (hj : j < walkRounds s0)
    {w v : Nat} (hw : TotalWork C s0.view newTip w)
    (hv : TotalWork C s0.view d.header v) :
    Within (Quiet k s0) (Overflows s0 f) (getForkWork newTip (C.blockHash d.header) : ChainM C _)
      fun work => work < 2 ^ 256 ∧
        (work + v) % 2 ^ 256 = (epochSum s0 f (f / 2016 + 1) + w) % 2 ^ 256 := by
  refine Within.bind (within_getWork hwork hinv hd) fun base hbase => ?_
  rcases hbase with ⟨-, rfl⟩
  -- the work that was added and the work of the header that is next make up the work of the tip;
  -- this header is the tip or a stored one
  refine within_walk (P := fun m (p : BlockHeader × Nat) =>
    Above s0.view d.header p.1 m ∧ Branch C s0.view p.1 (f + m) ∧
    (p.1 = newTip ∨ ∃ e, s0.view (C.blockHash p.1) = some e ∧ e.header = p.1) ∧
    p.2 < 2 ^ 256 ∧ ∃ t, TotalWork C s0.view p.1 t ∧
      (p.2 + t) % 2 ^ 256 = (epochSum s0 f (f / 2016 + 1) + w) % 2 ^ 256)
    (fun m p hp => ?_) ⟨habove, hbranch, .inl rfl, ?_, w, hw, rfl⟩ hj
  · rcases p with ⟨x, total⟩
    rcases hp with ⟨habove, hbranch, hknown, hlt, t, ht, hsum⟩
    refine Within.ite (fun hne => ?_) fun heq => Within.pure ?_
    · cases habove with
      | self => exact absurd rfl hne
      | @child _ e m he habove =>
        have hg : isGenesis C x = false := hbranch.notGenesis
        rcases ht.parent hg he with ⟨u, hu, rfl⟩
        rcases hbranch.parent hg he with ⟨i, -, hi, hbranch'⟩
        have him : i = f + m := by omega
        subst him
        refine Within.bind_eq (within_getDiskBlockHeader_stored he) (Within.pure ?_)
        refine ⟨m, Nat.lt_succ_self m, habove, hbranch', .inr ⟨e, hinv.tree.lookup he, rfl⟩,
          Nat.mod_lt _ (by norm_num), u, hu, ?_⟩
        rw [← hsum]
        change ((total + C.pow.work x.bits) % 2 ^ 256 + u) % 2 ^ 256 = _
        rw [Nat.mod_add_mod, Nat.add_assoc, Nat.add_comm (C.pow.work x.bits) u]
    · have hhash : C.blockHash x = C.blockHash d.header := not_not.mp heq
      have hx : x = d.header := by
        rcases hknown with rfl | ⟨e, he, rfl⟩
        · exact (hstored d (hhash ▸ hd.entry)).symm
        · rw [hhash, hd.entry] at he
          cases he
          rfl
      subst hx
      rw [hv.unique ht]
      exact ⟨hlt, hsum⟩
  · exact epochSum_lt s0 f (f / 2016)

/-- Down to the fork point, the works of the blocks are added to the one of the fork point. -/
theorem within_forkWork {newTip : BlockHeader} {n : Nat} (hfresh : Fresh s0 newTip n) {j f : Nat}
    (hdesc : Descent s0.view DiskBlockHeader.isActive newTip d j)
    (hd : OnChain s0.view (C.blockHash d.header) d f) (hj : j < walkRounds s0)
    {w v : Nat} (hw : TotalWork C s0.view newTip w)
    (hv : TotalWork C s0.view d.header v) :
    Within (Quiet k s0) (Overflows s0 f) (getForkWork newTip (C.blockHash d.header) : ChainM C _)
      fun work => work < 2 ^ 256 ∧
        (work + v) % 2 ^ 256 = (epochSum s0 f (f / 2016 + 1) + w) % 2 ^ 256 := by
  have hlen : n + 1 = f + j := by
    rcases hinv.tree.descent_branch rfl hfresh.branch hfresh.notGenesis hdesc with
      ⟨m, hbranch, hm⟩
    rw [hm, hbranch.unique (hd.branch hinv.tree).1]
  exact within_ancestorWork hwork hinv hfresh.candidate.stored hdesc.above
    (hlen ▸ hfresh.branch) hd hj hw hv

end

end Floresta.ChainState
