import Floresta.ChainState.Admission
import Mathlib.Algebra.Order.BigOperators.Ring.Finset

/-!
# ForkChoice — the best chain is a chain with the most work

Without minimum-difficulty blocks all the blocks of an epoch have the same work, on every stored
branch.  The work that the chain state computes for its best chain, epoch by epoch, is then the exact
sum over its blocks, and comparing it with the sum over a fork is comparing cumulative works.
-/

namespace Floresta.ChainState

open Prog FlatChainStore

variable {C : ChainContext} {k : Nat} {s : ChainStateInner C} {header : BlockHeader}
  {s' : ChainStateInner C} {d : DiskBlockHeader} {x : BlockHash} {n : Nat} {hash : BlockHash}
  {works : Nat × Nat}

/-- What rust-bitcoin says of targets and work: the work of a header is a 256-bit number that depends
on its target only, and writing a target that came from a compact one in compact form gives the
target back. -/
structure ProofOfWork.Lawful (W : ProofOfWork) : Prop where
  work_lt : ∀ bits, W.work bits < 2 ^ 256
  work_of_target : ∀ {a b}, W.target a = W.target b → W.work a = W.work b
  compact : ∀ bits, W.target (W.toCompactLossy (W.target bits)) = W.target bits

/-! ## Epochs -/

/-- On every branch, a block that does not start an epoch has the work of its parent. -/
def Steady (C : ChainContext) (V : HeaderMap) : Prop :=
  ∀ x d p n, V x = some d → V d.header.prevBlockhash = some p → isGenesis C d.header = false →
    Branch C V d.header n → n % 2016 ≠ 0 → C.pow.work d.header.bits = C.pow.work p.header.bits

def blockWork (s : ChainStateInner C) (n : Nat) : Nat := C.pow.work (headerAtHeight s n).bits

/-- All blocks of an epoch of the best chain have the work of its first block. -/
def EvenEpochs (s : ChainStateInner C) : Prop :=
  ∀ n ≤ s.bestBlock.depth, blockWork s n = blockWork s (2016 * (n / 2016))

section BestChain

variable (hinv : ChainInv k s)

include hinv

theorem OnChain.parent
    (hd : OnChain s.view x d (n + 1)) :
    isGenesis C d.header = false ∧ ∃ p, OnChain s.view d.header.prevBlockhash p n :=
  hinv.settled.parent_succ hinv.tree hd

theorem blockWork_succ (hsteady : Steady C s.view)
    (hn : n + 1 ≤ s.bestBlock.depth) (hepoch : (n + 1) % 2016 ≠ 0) :
    blockWork s (n + 1) = blockWork s n := by
  rcases hinv.onChain_at hn with ⟨x, d, hd⟩
  rcases hd.parent hinv with ⟨hg, p, hp⟩
  unfold blockWork
  rw [hd.headerAtHeight hinv.store, hp.headerAtHeight hinv.store]
  exact hsteady x d p (n + 1) hd.entry hp.entry hg (hd.branch hinv.tree).1 hepoch

theorem blockWork_epoch (hsteady : Steady C s.view) {epoch i : Nat} (hi : i < 2016)
    (hn : 2016 * epoch + i ≤ s.bestBlock.depth) :
    blockWork s (2016 * epoch + i) = blockWork s (2016 * epoch) := by
  induction i with
  | zero => rfl
  | succ i ih =>
    have hstep : blockWork s (2016 * epoch + i + 1) = blockWork s (2016 * epoch + i) :=
      blockWork_succ hinv hsteady hn (by omega)
    exact hstep.trans (ih (by omega) (by omega))

theorem Steady.even (hsteady : Steady C s.view) : EvenEpochs s := by
  intro n hn
  have hsplit : 2016 * (n / 2016) + n % 2016 = n := Nat.div_add_mod n 2016
  have hepoch := blockWork_epoch hinv hsteady (Nat.mod_lt n (by norm_num)) (hsplit ▸ hn)
  rw [hsplit] at hepoch
  exact hepoch

/-- The cumulative work of a best-chain header is the sum over the heights up to its own. -/
theorem OnChain.totalWork
    (hd : OnChain s.view x d n) :
    TotalWork C s.view d.header (∑ i ∈ Finset.range (n + 1), blockWork s i) := by
  induction n generalizing x d with
  | zero =>
    have hx : x = C.genesisHash :=
      hinv.settled.unique hd ⟨hinv.tree.genesis, rfl, rfl⟩
    have hg : isGenesis C d.header = true := by
      have hhash := hinv.tree.hash _ _ hd.entry
      rw [hx] at hhash
      simp [isGenesis, hhash]
    rw [Finset.sum_range_one]
    unfold blockWork
    rw [hd.headerAtHeight hinv.store]
    exact .genesis hg
  | succ n ih =>
    rcases hd.parent hinv with ⟨hg, p, hp⟩
    rw [Finset.sum_range_succ]
    have hwork : blockWork s (n + 1) = C.pow.work d.header.bits := by
      unfold blockWork
      rw [hd.headerAtHeight hinv.store]
    rw [hwork]
    exact .child hg hp.entry (ih hp)

omit hinv in
theorem sum_epochTotal (heven : EvenEpochs s)
    (hn : n ≤ s.bestBlock.depth) (epochs : Nat) (hepochs : epochs ≤ n / 2016 + 1) :
    ∑ epoch ∈ Finset.range epochs, epochTotal s n epoch =
      ∑ i ∈ Finset.range (min (2016 * epochs) (n + 1)), blockWork s i := by
  induction epochs with
  | zero => simp
  | succ epochs ih =>
    have hstart : 2016 * epochs ≤ n := by omega
    have hlower : min (2016 * epochs) (n + 1) = 2016 * epochs := by omega
    have hupper : min (2016 * (epochs + 1)) (n + 1) = 2016 * epochs + epochBlocks n epochs := by
      unfold epochBlocks
      omega
    rw [Finset.sum_range_succ, ih (by omega), hlower, hupper, Finset.sum_range_add]
    -- the blocks of the last epoch all have the work of its first block
    have hlast : ∀ i ∈ Finset.range (epochBlocks n epochs),
        blockWork s (2016 * epochs + i) = blockWork s (2016 * epochs) := by
      intro i hi
      have hlt := Finset.mem_range.mp hi
      unfold epochBlocks at hlt
      have hfirst : (2016 * epochs + i) / 2016 = epochs := by omega
      have hepoch := heven (2016 * epochs + i) (by omega)
      rw [hfirst] at hepoch
      exact hepoch
    rw [Finset.sum_const_nat hlast, Finset.card_range, Nat.mul_comm (epochBlocks n epochs)]
    rfl

omit hinv in
theorem EvenEpochs.fit (heven : EvenEpochs s) (hn : n ≤ s.bestBlock.depth)
    (hlt : ∑ i ∈ Finset.range (n + 1), blockWork s i < 2 ^ 256) : EpochsFit s n := by
  intro epoch hepoch
  have hle := Finset.single_le_sum (f := fun epoch => epochTotal s n epoch)
    (fun _ _ => Nat.zero_le _) (Finset.mem_range.mpr hepoch)
  have hall : min (2016 * (n / 2016 + 1)) (n + 1) = n + 1 := by omega
  rw [sum_epochTotal heven hn _ (Nat.le_refl _), hall] at hle
  exact Nat.lt_of_le_of_lt hle hlt

theorem epochSum_eq (heven : EvenEpochs s)
    {n w : Nat} (hd : OnChain s.view x d n)
    (hw : TotalWork C s.view d.header w) (hlt : w < 2 ^ 256) :
    epochSum s n (n / 2016 + 1) = w := by
  have hn := hinv.settled.capped hd
  have htotal : ∑ epoch ∈ Finset.range (n / 2016 + 1), epochTotal s n epoch = w := by
    rw [sum_epochTotal heven hn _ (Nat.le_refl _)]
    have hall : min (2016 * (n / 2016 + 1)) (n + 1) = n + 1 := by omega
    rw [hall]
    exact (hd.totalWork hinv).unique hw
  -- the partial sums stay below 2^256, so no addition wraps
  have hepochs : ∀ epochs ≤ n / 2016 + 1,
      epochSum s n epochs = ∑ epoch ∈ Finset.range epochs, epochTotal s n epoch := by
    intro epochs
    induction epochs with
    | zero => exact fun _ => rfl
    | succ epochs ih =>
      intro hle
      have hbound : ∑ epoch ∈ Finset.range (epochs + 1), epochTotal s n epoch ≤ w := by
        rw [← htotal]
        exact Finset.sum_le_sum_of_subset (Finset.range_mono hle)
      rw [epochSum_succ, ih (by omega), Finset.sum_range_succ]
      rw [Finset.sum_range_succ] at hbound
      exact Nat.mod_eq_of_lt (Nat.lt_of_le_of_lt hbound hlt)
  rw [hepochs _ (Nat.le_refl _), htotal]

end BestChain

/-! ## Comparing two tips -/

/-- If the works of the best chain and of a branch can be compared, they are the cumulative works of
their tips. -/
theorem comparedWork_exact (hwork : ∀ bits, C.pow.work bits < 2 ^ 256) (hinv : ChainInv k s)
    (hsteady : Steady C s.view) (hfresh : Fresh s header n)
    {b : DiskBlockHeader} (hb : s.view s.bestBlock.bestBlock = some b) {v w : Nat}
    (hv : TotalWork C s.view b.header v) (hvlt : v < 2 ^ 256)
    (hmost : ∀ x d u, s.view x = some d → TotalWork C s.view d.header u → u ≤ v)
    (hw : TotalWork C s.view header w) (hwlt : w < 2 ^ 256)
    (hworks : (comparedWork header s).1 = .ok works) : works = (v, w) := by
  have hwithin := within_comparedWork (A := (· = v)) (B := (· = w)) hinv hfresh onlyOrphans_proper
    onlyAtGenesis_proper (fun b' hb' => ?_) fun d j f hdesc hd _ hj => ?_
  · have hout := (hwithin s (Quiet.refl hinv.store)).2
    rw [hworks] at hout
    exact Prod.ext hout.1 hout.2
  · -- the tip of the best chain is the only header at its height
    rcases hinv.best with ⟨b'', hb''⟩
    have hhash := hinv.settled.unique hb' hb''
    have hbb : b' = b := Option.some.inj (hb'.entry.symm.trans (hhash ▸ hb))
    subst hbb
    refine ((within_branchWork hwork hinv hb').imp fun _ h => h.1).mono ?_
    rintro work ⟨-, rfl⟩
    exact epochSum_eq hinv (hsteady.even hinv) hb' hv hvlt
  · rcases TotalWork.exists_of_branch (hd.branch hinv.tree).1 with ⟨u, hu⟩
    have hule := hmost _ d u hd.entry hu
    refine ((within_forkWork hwork hinv hfresh hdesc hd hj hw hu).imp fun _ h => h.1).mono ?_
    rintro work ⟨hlt, hsum⟩
    rw [epochSum_eq hinv (hsteady.even hinv) hd hu (by omega)] at hsum
    omega

/-! ## Growing the tree -/

/-- The second map has the headers of the first one, and possibly one more. -/
structure Grown (C : ChainContext) (V : HeaderMap) (header : BlockHeader) (V' : HeaderMap) :
    Prop where
  keeps : Keeps V V'
  only : ∀ x d', V' x = some d' → d'.header = header ∨ ∃ d, V x = some d ∧ d.header = d'.header

namespace Grown

variable {V V' : HeaderMap}

theorem update {e : DiskBlockHeader} (hnew : V x = none) :
    Grown C V e.header (Function.update V x (some e)) := by
  refine ⟨Keeps.update fun d hd => ?_, fun y d' hd' => ?_⟩
  · rw [hnew] at hd
    cases hd
  · by_cases hy : y = x
    · rw [hy, Function.update_self] at hd'
      cases hd'
      exact .inl rfl
    · rw [Function.update_of_ne hy] at hd'
      exact .inr ⟨d', hd', rfl⟩

theorem forked {n : Nat} (h : Forked s header n s') (hnew : s.view (C.blockHash header) = none) :
    Grown C s.view header s'.view := by
  rw [h.view]
  exact update (e := .inFork header n) hnew

theorem switched {f n : Nat} (haccepted : Accepted k f s s')
    (h : Switched s header n s') : Grown C s.view header s'.view := by
  refine ⟨haccepted.marked.keeps, fun x d' hd' => ?_⟩
  cases hold : s.view x with
  | none =>
    by_cases hx : x = C.blockHash header
    · rw [hx, h.tip] at hd'
      cases hd'
      exact .inl rfl
    · rw [h.domain x hold hx] at hd'
      cases hd'
  | some d =>
    rcases haccepted.marked.keeps x d hold with ⟨d'', hd'', heq⟩
    have hdd : d'' = d' := Option.some.inj (hd''.symm.trans hd')
    exact .inr ⟨d, rfl, hdd ▸ heq.symm⟩

/-- The old headers are in order, and the new one has the work that its height asks for. -/
theorem steady {bound : Nat} (h : Grown C V header V') (ht : Tree C V bound)
    (hsteady : Steady C V) {p : DiskBlockHeader}
    (hp : V header.prevBlockhash = some p) (hn : Branch C V header (n + 1))
    (hheader : (n + 1) % 2016 ≠ 0 → C.pow.work header.bits = C.pow.work p.header.bits) :
    Steady C V' := by
  intro x d' p' m hd' hp' hg hm hepoch
  rcases h.only x d' hd' with rfl | ⟨d, hd, heq⟩
  · rcases h.keeps _ _ hp with ⟨p'', hp'', heq⟩
    have hpp : p'' = p' := Option.some.inj (hp''.symm.trans hp')
    have hmn : m = n + 1 := hm.unique (hn.keeps h.keeps)
    rw [hmn] at hepoch
    rw [← hpp, heq]
    exact hheader hepoch
  · rw [← heq] at hp' hg hm ⊢
    rcases ht.rooted x d hd with ⟨i, -, hbranch, -⟩
    rcases hbranch.stored hg with ⟨q, -, hq, -, -⟩
    rcases h.keeps _ _ hq with ⟨p'', hp'', heq'⟩
    have hpp : p'' = p' := Option.some.inj (hp''.symm.trans hp')
    have him : m = i := hm.unique (hbranch.keeps h.keeps)
    rw [← hpp, heq']
    exact hsteady x d q i hd hq hg hbranch (him ▸ hepoch)

/-- The work of a header of the larger map is at most the largest one of the smaller map, or that of
the new header. -/
theorem totalWork_le {bound : Nat} (h : Grown C V header V') (ht : Tree C V bound) {v w : Nat}
    (hmost : ∀ x d u, V x = some d → TotalWork C V d.header u → u ≤ v)
    (hw : TotalWork C V header w) {u : Nat}
    (hd : V' x = some d) (hu : TotalWork C V' d.header u) : u ≤ max v w := by
  rcases h.only x d hd with rfl | ⟨d0, hd0, heq⟩
  · rw [hu.unique (hw.keeps h.keeps)]
    exact Nat.le_max_right v w
  · rcases ht.rooted x d0 hd0 with ⟨i, -, hbranch, -⟩
    rcases TotalWork.exists_of_branch hbranch with ⟨u0, hu0⟩
    rw [← heq] at hu
    rw [hu.unique (hu0.keeps h.keeps)]
    exact Nat.le_trans (hmost x d0 u0 hd0 hu0) (Nat.le_max_left v w)

end Grown

/-- Offering a header leaves the stored headers as they are, or adds the header, which is new and has
passed its checks. -/
theorem ChainInv.accept_cases (h : ChainInv k s) (hready : AcceptReady s header) :
    Quiet k s (acceptHeader header s).2 ∨
      ∃ n hash, Fresh s header n ∧ (validateHeader header s).1 = .ok hash ∧
        Grown C s.view header (acceptHeader header s).2.view := by
  rcases hready.settle h with ⟨-, ⟨f, haccepted⟩, hentered, hvalid⟩ | ⟨-, -, -, hquiet⟩
  swap
  · exact .inl hquiet
  · -- a new header has passed its checks
    have hchecked : ∀ {n}, Fresh s header n → ∃ hash, (validateHeader header s).1 = .ok hash := by
      intro n hfresh
      rcases hvalid with hvalid | ⟨d, hd⟩
      · exact ⟨_, hvalid⟩
      · exact absurd (hfresh.new.symm.trans hd) nofun
    cases hentered with
    | known _ hquiet => exact .inl hquiet
    | extended hfresh _ hextended =>
      rcases hchecked hfresh with ⟨hash, hvalid⟩
      refine .inr ⟨_, hash, hfresh, hvalid, ?_⟩
      rw [hextended.view]
      exact Grown.update (e := .headersOnly header _) hfresh.new
    | decided hfresh _ _ _ hdecided =>
      rcases hchecked hfresh with ⟨hash, hvalid⟩
      refine .inr ⟨_, hash, hfresh, hvalid, ?_⟩
      cases hdecided with
      | forked _ _ hforked =>
        rw [hforked.view]
        exact Grown.update (e := .inFork header _) hfresh.new
      | switched _ _ hswitched => exact Grown.switched haccepted hswitched

theorem within_validateHeader_bits
    (hmin : C.parameters.params.allowMinDifficultyBlocks = false) (header : BlockHeader) :
    Within (Quiet k s) Proper (validateHeader header : ChainM C _) fun _ =>
      ∃ d n, s.view header.prevBlockhash = some d ∧ d.height = some n ∧ ((n + 1) % 2016 ≠ 0 →
          header.bits = C.pow.toCompactLossy (C.pow.target d.header.bits)) := by
  have htarget : ∀ d n, s.view header.prevBlockhash = some d →
      Within (Quiet k s) Proper (getNextRequiredWork d.header (n + 1) header : ChainM C _)
      fun target => (n + 1) % 2016 ≠ 0 → target = C.pow.target d.header.bits := by
    intro d n _
    by_cases hepoch : (n + 1) % 2016 ≠ 0
    · simp only [getNextRequiredWork, if_pos hepoch, hmin, Bool.not_false, if_true]
      exact Within.pure fun _ => rfl
    · exact (within_getNextRequiredWork _ _ _).mono fun _ _ h => absurd h hepoch
  refine (within_validateHeader_target header htarget).mono ?_
  rintro hash ⟨-, d, n, target, hd, hn, hepoch, hbits⟩
  exact ⟨d, n, hd, hn, fun h => hepoch h ▸ hbits⟩

theorem HeaderInv.grown_steady (hpow : ProofOfWork.Lawful C.pow)
    (hmin : C.parameters.params.allowMinDifficultyBlocks = false) (h : HeaderInv k s)
    (hsteady : Steady C s.view) {m : Nat} (hfresh : Fresh s header m)
    (hvalid : (validateHeader header s).1 = .ok hash) {V' : HeaderMap}
    (hgrown : Grown C s.view header V') : Steady C V' := by
  have hout := (within_validateHeader_bits hmin header s (Quiet.refl h.chain.store)).2
  rw [hvalid] at hout
  rcases hout with ⟨d, n, hd, hn, hbits⟩
  rcases h.chain.tree.branch_child hfresh.notGenesis hd hn with ⟨hbranch, -⟩
  refine hgrown.steady h.chain.tree hsteady hd hbranch fun hepoch => ?_
  refine hpow.work_of_target ?_
  rw [hbits hepoch]
  exact hpow.compact _

/-! ## Runs -/

/-- The headers that `get_header` finds. -/
def storedHeaders (s : ChainStateInner C) : HeaderMap := fun hash =>
  match (getHeader hash s.chainstore).1 with
  | .ok found => found
  | .error _ => none

theorem storedHeaders_eq (hinv : StoreInv C.bitcoin C.genesisHash k s.chainstore) :
    storedHeaders s = s.view := by
  funext hash
  unfold storedHeaders
  rw [getHeader_fst hinv hash]

/-- No stored header has more work than the best tip. -/
def MostWork (s : ChainStateInner C) : Prop :=
  ∃ b v, storedHeaders s s.bestBlock.bestBlock = some b ∧
    TotalWork C (storedHeaders s) b.header v ∧
    ∀ x d w, storedHeaders s x = some d → TotalWork C (storedHeaders s) d.header w → w ≤ v

/-- If the best tip changes to a header that does not extend it, the new tip has more work. -/
def SwitchesForWork (s s' : ChainStateInner C) : Prop :=
  ∀ b b' v w, storedHeaders s s.bestBlock.bestBlock = some b →
    storedHeaders s' s'.bestBlock.bestBlock = some b' →
    s'.bestBlock.bestBlock ≠ s.bestBlock.bestBlock →
    b'.header.prevBlockhash ≠ s.bestBlock.bestBlock →
    TotalWork C (storedHeaders s) b.header v → TotalWork C (storedHeaders s') b'.header w → v < w

/-- A header with room for it, whose cumulative work has 256 bits. -/
structure WorkReady (s : ChainStateInner C) (header : BlockHeader) : Prop where
  ready : AcceptReady s header
  below : ∀ w, TotalWork C (storedHeaders s) header w → w < 2 ^ 256

@[mk_iff]
structure WorkInv (k : Nat) (s : ChainStateInner C) : Prop where
  headers : HeaderInv k s
  steady : Steady C s.view
  most : ∃ b v, s.view s.bestBlock.bestBlock = some b ∧
    TotalWork C s.view b.header v ∧ v < 2 ^ 256 ∧
    ∀ x d w, s.view x = some d → TotalWork C s.view d.header w → w ≤ v

namespace WorkInv

theorem quiet (h : WorkInv k s) (hs : Quiet k s s') : WorkInv k s' := by
  rw [workInv_iff, hs.view, hs.bestBlock]
  exact ⟨h.headers.quiet hs, h.steady, h.most⟩

theorem mostWork (h : WorkInv k s) : MostWork s := by
  rcases h.most with ⟨b, v, hb, hv, -, hmost⟩
  unfold MostWork
  rw [storedHeaders_eq h.headers.chain.store]
  exact ⟨b, v, hb, hv, hmost⟩

/-- A fork whose tip has no more work than the best tip leaves the best chain as it is. -/
theorem behind {b : DiskBlockHeader} {n v w : Nat} (h : WorkInv k s) (hheaders : HeaderInv k s')
    (hforked : Forked s header n s') (hnew : s.view (C.blockHash header) = none)
    (hsteady : Steady C s'.view)
    (hb : s.view s.bestBlock.bestBlock = some b)
    (hv : TotalWork C s.view b.header v)
    (hw : TotalWork C s.view header w) (hle : w ≤ v) : WorkInv k s' := by
  rcases h.most with ⟨b', v', hb', hv', hvlt, hmost⟩
  cases hb.symm.trans hb'
  rw [hv.unique hv'] at hle
  have hgrown := Grown.forked hforked hnew
  have hne : s.bestBlock.bestBlock ≠ C.blockHash header := by
    intro heq
    rw [heq, hnew] at hb
    cases hb
  refine ⟨hheaders, hsteady, b, v', ?_, hv'.keeps hgrown.keeps, hvlt, ?_⟩
  · rw [hforked.best, hforked.view, Function.update_of_ne hne]
    exact hb
  · intro x d u hd hu
    have hbound := hgrown.totalWork_le h.headers.chain.tree hmost hw hd hu
    exact Nat.le_trans hbound (Nat.max_le.mpr ⟨Nat.le_refl v', hle⟩)

section Step

variable (hpow : ProofOfWork.Lawful C.pow)
  (hmin : C.parameters.params.allowMinDifficultyBlocks = false)

include hpow hmin

section

variable (h : WorkInv k s) (hheaders : HeaderInv k s')
  (hvalid : (validateHeader header s).1 = .ok hash)
  (hbelow : ∀ w, TotalWork C s.view header w → w < 2 ^ 256)

include h hheaders hvalid hbelow

theorem extended (hfresh : Fresh s header s.bestBlock.depth)
    (hprev : header.prevBlockhash = s.bestBlock.bestBlock) (hextended : Extended s header s') :
    WorkInv k s' := by
  rcases h.most with ⟨b, v, hb, hv, -, hmost⟩
  have hgrown : Grown C s.view header s'.view := by
    rw [hextended.view]
    exact Grown.update (e := .headersOnly header _) hfresh.new
  have hw : TotalWork C s.view header (v + C.pow.work header.bits) :=
    .child hfresh.notGenesis (hprev ▸ hb) hv
  refine ⟨hheaders, h.headers.grown_steady hpow hmin h.steady hfresh hvalid hgrown,
    .headersOnly header (s.bestBlock.depth + 1), _, ?_, hw.keeps hgrown.keeps, hbelow _ hw, ?_⟩
  · rw [hextended.best, hextended.view, Function.update_self]
  · intro x d u hd hu
    have hle := hgrown.totalWork_le h.headers.chain.tree hmost hw hd hu
    omega

theorem forked (hfresh : Fresh s header n) (hforked : Forked s header (n + 1) s')
    (hworks : (comparedWork header s).1 = .ok works) (hle : works.2 ≤ works.1) :
    WorkInv k s' := by
  rcases h.most with ⟨b, v, hb, hv, hvlt, hmost⟩
  rcases TotalWork.exists_of_branch hfresh.branch with ⟨w, hw⟩
  have hexact := comparedWork_exact hpow.work_lt h.headers.chain h.steady hfresh hb hv hvlt hmost hw
    (hbelow w hw) hworks
  rw [hexact] at hle
  exact h.behind hheaders hforked hfresh.new (h.headers.grown_steady hpow hmin h.steady hfresh
    hvalid (Grown.forked hforked hfresh.new)) hb hv hw hle

theorem switched {f n : Nat} (haccepted : Accepted k f s s') (hfresh : Fresh s header n)
    (hswitched : Switched s header (n + 1) s')
    (hworks : (comparedWork header s).1 = .ok works) (hlt : works.1 < works.2) :
    WorkInv k s' ∧ ∀ b v w, s.view s.bestBlock.bestBlock = some b →
      TotalWork C s.view b.header v → TotalWork C s'.view header w →
      v < w := by
  rcases h.most with ⟨b, v, hb, hv, hvlt, hmost⟩
  rcases TotalWork.exists_of_branch hfresh.branch with ⟨w, hw⟩
  have hexact := comparedWork_exact hpow.work_lt h.headers.chain h.steady hfresh hb hv hvlt hmost hw
    (hbelow w hw) hworks
  rw [hexact] at hlt
  have hgrown := Grown.switched haccepted hswitched
  refine ⟨⟨hheaders, h.headers.grown_steady hpow hmin h.steady hfresh hvalid hgrown,
    .headersOnly header (n + 1), w, ?_, hw.keeps hgrown.keeps, hbelow w hw, ?_⟩, ?_⟩
  · rw [hswitched.bestBlock]
    exact hswitched.tip
  · intro x d u hd hu
    have hbound := hgrown.totalWork_le h.headers.chain.tree hmost hw hd hu
    exact Nat.le_trans hbound (Nat.max_le.mpr ⟨Nat.le_of_lt hlt, Nat.le_refl w⟩)
  · intro b' v' w' hb' hv' hw'
    rw [hb] at hb'
    cases hb'
    rw [hv'.unique hv, hw'.unique (hw.keeps hgrown.keeps)]
    exact hlt

end

/-- Offering a header keeps the invariant, and changes the branch for more work only. -/
theorem accept (h : WorkInv k s) (hready : WorkReady s header) :
    WorkInv k (acceptHeader header s).2 ∧ SwitchesForWork s (acceptHeader header s).2 := by
  have hheaders := h.headers.accept hready.ready
  have hstored := storedHeaders_eq h.headers.chain.store
  have hstored' := storedHeaders_eq hheaders.chain.store
  have hbelow := hready.below
  rw [hstored] at hbelow
  unfold SwitchesForWork
  rw [hstored, hstored']
  rcases hready.ready.settle h.headers.chain with
    ⟨-, ⟨f, haccepted⟩, hentered, hvalid⟩ | ⟨-, -, -, hquiet⟩
  swap
  · exact ⟨h.quiet hquiet, fun _ _ _ _ _ _ hne => absurd (by rw [hquiet.bestBlock]) hne⟩
  · cases hentered with
    | known _ hquiet =>
      exact ⟨h.quiet hquiet, fun _ _ _ _ _ _ hne => absurd (by rw [hquiet.bestBlock]) hne⟩
    | extended hfresh hprev hextended =>
      rcases hvalid with hvalid | ⟨d, hd⟩
      · refine ⟨h.extended hpow hmin hheaders hvalid hbelow hfresh hprev hextended, ?_⟩
        intro b b' v w _ hb' _ hne
        rw [hextended.best, hextended.view, Function.update_self] at hb'
        cases hb'
        exact absurd hprev hne
      · exact absurd (hfresh.new.symm.trans hd) nofun
    | decided hfresh hprev hd hn hdecided =>
      rcases hvalid with hvalid | ⟨d, hd⟩
      · cases hdecided with
        | forked hworks hle hforked =>
          refine ⟨h.forked hpow hmin hheaders hvalid hbelow hfresh hforked hworks hle, ?_⟩
          exact fun _ _ _ _ _ _ hne => absurd (by rw [hforked.best]) hne
        | switched hworks hlt hswitched =>
          rcases h.switched hpow hmin hheaders hvalid hbelow haccepted hfresh hswitched hworks hlt
            with ⟨hinv, hmore⟩
          refine ⟨hinv, fun b b' v w hb hb' _ _ hv hw => ?_⟩
          rw [hswitched.bestBlock, hswitched.tip] at hb'
          cases hb'
          exact hmore b v w hb hv hw
      · exact absurd (hfresh.new.symm.trans hd) nofun

end Step

theorem new (hwork : ∀ bits, C.pow.work bits < 2 ^ 256) (hnew : IsNew config k s) : WorkInv k s := by
  have hheaders : HeaderInv k s := HeaderInv.new hnew
  have hview := new_view hnew
  have honly : ∀ {x d}, s.view x = some d → d = genesisEntry C :=
    fun hd => (new_only hnew hd).2
  have hbest : s.bestBlock.bestBlock = C.genesisHash := by
    rcases hnew with ⟨-, _, rfl⟩
    rfl
  refine ⟨hheaders, ?_, genesisEntry C, C.pow.work C.genesisHeader.bits, ?_,
    .genesis genesisEntry_isGenesis, hwork _, ?_⟩
  · intro x d p n hd _ hg
    rw [honly hd, genesisEntry_isGenesis] at hg
    cases hg
  · rw [hbest, hview, Function.update_self]
  · intro x d w hd hw
    rw [honly hd] at hw
    exact Nat.le_of_eq (hw.unique (.genesis genesisEntry_isGenesis))

end WorkInv

/-- On a network without minimum-difficulty blocks, along every run of headers from a new chain
state: no stored header has more cumulative work than the best tip, and the next header changes the
best tip to one that does not extend it only if that one has more cumulative work. -/
theorem acceptHeader_most_work (hpow : ProofOfWork.Lawful C.pow)
    (hmin : C.parameters.params.allowMinDifficultyBlocks = false) {config : FlatChainStoreConfig}
    {start : ChainStateInner C} (hnew : Created config start) (hrun : HeaderRun WorkReady start s) :
    MostWork s ∧ ∀ header, WorkReady s header → SwitchesForWork s (acceptHeader header s).2 := by
  have hinv := hrun.induct (WorkInv.new hpow.work_lt hnew.isNew)
    fun _ _ hinv hready => (hinv.accept hpow hmin hready).1
  exact ⟨hinv.mostWork, fun _ hready => (hinv.accept hpow hmin hready).2⟩

/-! ### A reorganisation -/

theorem TotalWork.le_of_branch {V : HeaderMap} {bound w : Nat}
    (hbound : ∀ bits, C.pow.work bits ≤ bound) (hw : TotalWork C V header w) :
    ∃ n, Branch C V header n ∧ w ≤ (n + 1) * bound := by
  induction hw with
  | genesis hg => exact ⟨0, .genesis hg, by rw [Nat.zero_add, Nat.one_mul]; exact hbound _⟩
  | @child h d w hg hd _ ih =>
    rcases ih with ⟨n, hn, hle⟩
    refine ⟨n + 1, .child hg hd hn, ?_⟩
    have hown := hbound h.bits
    rw [Nat.succ_mul]
    omega

namespace Sample

theorem lawful : ProofOfWork.Lawful ChainContext.sample.pow where
  work_lt := work_lt
  work_of_target := fun {a b} h => Nat.add_left_cancel (n := 2 ^ 255) h
  compact := fun bits => by
    change 2 ^ 255 + (UInt32.ofNat (2 ^ 255 + bits.toNat - 2 ^ 255)).toNat = 2 ^ 255 + bits.toNat
    rw [Nat.add_sub_cancel_left, UInt32.ofNat_toNat]

def spareWork (s : ChainStateInner ChainContext.sample) (header : BlockHeader) : Bool :=
  spareFor s header && decide (s.chainstore.metadata.headersFileSize +
    s.chainstore.metadata.forkCount < 2 ^ 32)

theorem workReady {s : ChainStateInner ChainContext.sample} (hinv : HeaderInv k s)
    (h : spareWork s header = true) : WorkReady s header := by
  rcases Bool.and_eq_true_iff.mp h with ⟨hspare, hfiles⟩
  have hlt := of_decide_eq_true hfiles
  refine ⟨acceptReady_of_spare hinv.chain hspare, fun w hw => ?_⟩
  rw [storedHeaders_eq hinv.chain.store] at hw
  have hbits : ∀ bits : UInt32, ChainContext.sample.pow.work bits ≤ 2 ^ 32 :=
    fun bits => Nat.le_of_lt bits.toNat_lt
  rcases hw.le_of_branch hbits with ⟨n, hn, hle⟩
  have hlen : n ≤ 2 ^ 32 := by
    cases hn with
    | genesis _ => exact Nat.zero_le _
    | @child _ d m hg hd hbranch =>
      rcases hinv.chain.tree.rooted _ _ hd with ⟨i, hi, hbranch', -⟩
      rw [hbranch.unique hbranch']
      omega
  have hmul : (n + 1) * 2 ^ 32 ≤ (2 ^ 32 + 1) * 2 ^ 32 := Nat.mul_le_mul_right _ (by omega)
  omega

end Sample

open Sample ChainContext in
/-- The branch of `b₃` takes over from `a₂`: it has more work. -/
theorem acceptHeader_most_work_reorg :
    ∃ start s, ChainState.new sample
        (createChainStore Sample.config) none = .ok start ∧
      s = (acceptHeaders [a₁, a₂, b₂] start).2 ∧
      s.bestBlock.bestBlock = sample.blockHash a₂ ∧
      (acceptHeader b₃ s).2.bestBlock.bestBlock = sample.blockHash b₃ ∧
      MostWork s ∧ SwitchesForWork s (acceptHeader b₃ s).2 := by
  have hrun : afterTested sample Sample.config spareWork [a₁, a₂, b₂]
      (fun s => spareWork s b₃ && decide
        (s.bestBlock.bestBlock = sample.blockHash a₂ ∧
          (acceptHeader b₃ s).2.bestBlock.bestBlock = sample.blockHash b₃)) = true := by
    decide +kernel
  rcases afterTested_eq_true rounds (by decide +kernel) WorkReady.ready workReady hrun with
    ⟨start, s, hnew, hreach, hinv, hs, htest⟩
  rcases Bool.and_eq_true_iff.mp htest with ⟨hspare, htips⟩
  rcases of_decide_eq_true htips with ⟨hbefore, hafter⟩
  rcases acceptHeader_most_work lawful rfl (created hnew) hreach with ⟨hmost, hswitch⟩
  exact ⟨start, s, hnew, hs, hbefore, hafter, hmost, hswitch b₃ (workReady hinv hspare)⟩

end Floresta.ChainState
