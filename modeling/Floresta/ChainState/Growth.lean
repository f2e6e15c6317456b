import Floresta.ChainState.Ancestors

/-!
# Growth — chains of headers that are accepted one after the other

Headers that are offered in the order of their heights, each of them valid on top of the one before,
become the best chain of a chain state.  What a valid header needs is the target that
`get_next_required_work` computes from its ancestors: the one of its parent inside an epoch, the
easiest one after a long pause on a network that allows it, and a new one at the start of an epoch.
-/

namespace Floresta
variable {p : DiskBlockHeader} {i n : Nat} {hash : BlockHash}

namespace ChainState

open Prog FlatChainStore

variable {C : ChainContext} {k : Nat} {s start : ChainStateInner C} {header : BlockHeader}

/-! ## The checks of a header -/

/-- A header with the required target, with enough work and of a version of its height is valid. -/
theorem validateHeader_eq_ok (hinv : StoreInv C.bitcoin C.genesisHash k s.chainstore)
    (hp : s.view header.prevBlockhash = some p)
    (hn : p.height = some n) (hpow : (C.blockHash header).toNat ≤ C.pow.target header.bits)
    (htarget : Within (Quiet k s) (fun _ => False)
      (getNextRequiredWork p.header (n + 1) header : ChainM C _)
      fun target => header.bits = C.pow.toCompactLossy target)
    (hbip94 : C.parameters.enforceBip94 = false ∨
      (n + 1) % C.parameters.params.minerConfirmationWindow ≠ 0)
    (hversion : Consensus.minHeaderVersion C.parameters.params (n + 1) ≤ header.version) :
    (validateHeader header s).1 = .ok (C.blockHash header) := by
  have hchecks : Within (Quiet k s) (fun _ => False) (validateHeader header : ChainM C _)
      (· = C.blockHash header) := by
    have hhash : Consensus.validatePow C.bitcoin C.pow header = some (C.blockHash header) :=
      if_pos hpow
    refine Within.bind (Within.lift (P := (· = C.blockHash header)) ?_) fun hash hhash => ?_
    · rw [hhash]
      rfl
    subst hhash
    refine Within.bind_eq (within_getDiskBlockHeader_stored hp) ?_
    refine Within.bind_eq (a := n) (Within.lift ?_) ?_
    · rw [hn]
      rfl
    refine Within.bind htarget fun target htarget => ?_
    refine Within.bind (Within.lift (P := fun _ => True) ?_) fun _ _ => ?_
    · rw [Fallible.require, if_pos htarget]
      exact trivial
    refine Within.bind (P := fun _ => True) ?_ fun _ _ => ?_
    · refine Within.ite (fun _ => Within.pure trivial) fun hcond => absurd ?_ hcond
      exact hbip94.imp_left fun hoff => by rw [hoff]; rfl
    refine Within.bind (Within.lift (P := fun _ => True) ?_) fun _ _ => Within.pure rfl
    rw [Fallible.require, if_pos hversion]
    exact trivial
  have hout := (hchecks s (Quiet.refl hinv)).2
  cases hanswer : (validateHeader header s).1 with
  | error e =>
    rw [hanswer] at hout
    exact hout.elim
  | ok hash =>
    rw [hanswer] at hout
    exact congrArg Except.ok hout

section Required

variable {E : Fault → Prop} {last : BlockHeader} {n : Nat}

theorem within_required_same (hmin : C.parameters.params.allowMinDifficultyBlocks = false)
    (hepoch : (n + 1) % 2016 ≠ 0) :
    Within (Quiet k s) E (getNextRequiredWork last (n + 1) header : ChainM C _)
      (· = C.pow.target last.bits) := by
  unfold getNextRequiredWork
  rw [if_pos hepoch, hmin]
  exact Within.pure rfl

/-- With them, a block that comes late may have the easiest target. -/
theorem within_required_late (hmin : C.parameters.params.allowMinDifficultyBlocks = true)
    (hepoch : (n + 1) % 2016 ≠ 0)
    (hlate : last.time + C.parameters.params.powTargetSpacing * 2 < header.time) :
    Within (Quiet k s) E (getNextRequiredWork last (n + 1) header : ChainM C _)
      (· = C.parameters.params.maxAttainableTarget) := by
  unfold getNextRequiredWork
  rw [if_pos hepoch, hmin]
  simp only [Bool.not_true, Bool.false_eq_true, if_false, if_pos hlate]
  exact Within.pure rfl

/-- A block that does not come late has the target of some ancestor, all of which have the same
one here. -/
theorem within_required_usual (hmin : C.parameters.params.allowMinDifficultyBlocks = true)
    (hepoch : (n + 1) % 2016 ≠ 0)
    (hlate : ¬ last.time + C.parameters.params.powTargetSpacing * 2 < header.time)
    (hlast : Branch C s.view last n) {bits : UInt32} (hbits : last.bits = bits)
    (hall : ∀ x d, s.view x = some d → d.header.bits = bits) :
    Within (Quiet k s) E (getNextRequiredWork last (n + 1) header : ChainM C _)
      (· = C.pow.target bits) := by
  unfold getNextRequiredWork
  rw [if_pos hepoch, hmin]
  simp only [Bool.not_true, Bool.false_eq_true, if_false, if_neg hlate, Nat.add_sub_cancel]
  have hreal : Within (Quiet k s) E (lastRealDifficulty last n : ChainM C _)
      (·.bits = bits) := by
    refine Within.loop (P := fun m p => p.2 = m ∧ p.1.bits = bits ∧
      Branch C s.view p.1 m) (fun m p hp => ?_) ⟨rfl, hbits, hlast⟩ (Nat.lt_succ_self n)
    rcases hp with ⟨rfl, hpbits, hbranch⟩
    refine Within.ite (fun hcond => ?_) fun _ => Within.pure hpbits
    obtain ⟨m, hm⟩ : ∃ m, p.2 = m + 1 :=
      Nat.exists_eq_succ_of_ne_zero fun hzero => hcond.1 (by rw [hzero])
    rw [hm] at hbranch ⊢
    cases hbranch with
    | @child _ d _ _ hd hrest =>
      refine Within.bind_eq (within_getDiskBlockHeader_stored hd) (Within.pure ?_)
      exact ⟨m, Nat.lt_succ_self m, rfl, hall _ _ hd, hrest⟩
  exact Within.bind hreal fun real hreal => Within.pure (by rw [hreal])

/-- The first block of an epoch has a target that depends on the time its epoch took. -/
theorem within_required_retarget (hretarget : C.parameters.params.noPowRetargeting = false)
    (hepoch : (n + 1) % 2016 = 0) {first : BlockHeader}
    (hfirst : Within (Quiet k s) E
      (getAncestorAtHeight last n (n + 1 - DIFFCHANGE_INTERVAL) : ChainM C _) (· = first)) :
    Within (Quiet k s) E (getNextRequiredWork last (n + 1) header : ChainM C _)
      (· = min (Consensus.calcNextWorkRequired C.pow C.parameters last first)
        C.parameters.params.maxAttainableTarget) := by
  unfold getNextRequiredWork
  rw [if_neg (not_not.mpr hepoch), hretarget]
  simp only [Bool.not_false, if_true, Nat.add_sub_cancel]
  refine Within.bind hfirst fun first' hfirst' => Within.pure ?_
  subst hfirst'
  rcases Nat.lt_or_ge (Consensus.calcNextWorkRequired C.pow C.parameters last first')
    C.parameters.params.maxAttainableTarget with hlt | hge
  · rw [if_pos hlt, Nat.min_eq_left (Nat.le_of_lt hlt)]
  · rw [if_neg (Nat.not_lt.mpr hge), Nat.min_eq_right hge]

end Required

/-! ## One header on the tip -/

theorem HeaderInv.extends (h : HeaderInv k s) (hready : AcceptReady s header)
    (hnew : s.view (C.blockHash header) = none)
    (hprev : header.prevBlockhash = s.bestBlock.bestBlock)
    (hvalid : (validateHeader header s).1 = .ok hash) :
    (acceptHeader header s).1 = .ok () ∧ (∃ f, Accepted k f s (acceptHeader header s).2) ∧
      Extended s header (acceptHeader header s).2 := by
  rcases hready.settle h.chain with ⟨hok, haccepted, hentered, -⟩ | ⟨fault, -, ⟨-, hrefused⟩, -⟩
  swap
  · cases hrefused with
    | invalid hinvalid =>
      rw [hvalid] at hinvalid
      cases hinvalid
    | branch hne _ => exact absurd hprev hne
  · cases hentered with
    | known hknown _ =>
      rw [hnew] at hknown
      cases hknown
    | extended _ _ hextended => exact ⟨hok, haccepted, hextended⟩
    | decided _ hne _ _ _ => exact absurd hprev hne

/-- A valid header off the tip is recorded on its branch, or makes it the best chain. -/
theorem HeaderInv.branches (hwork : ∀ bits, C.pow.work bits < 2 ^ 256) (h : HeaderInv k s)
    (hready : AcceptReady s header) (hnew : s.view (C.blockHash header) = none)
    (hprev : header.prevBlockhash ≠ s.bestBlock.bestBlock)
    (hparent : header.prevBlockhash ≠ C.genesisHash) (hfits : EpochsFit s s.bestBlock.depth)
    (hvalid : (validateHeader header s).1 = .ok hash)
    (hn : Branch C s.view header (n + 1)) :
    Fresh s header n ∧ (∃ f, Accepted k f s (acceptHeader header s).2) ∧
      Decided s header (n + 1) (acceptHeader header s).2 := by
  rcases h.fresh hready.nonzero hnew hvalid with ⟨m, hfresh⟩
  have hmn : m = n := Nat.succ.inj (hfresh.branch.unique hn)
  subst hmn
  rcases hready.settle h.chain with ⟨-, haccepted, hentered, -⟩ | ⟨fault, -, ⟨-, hrefused⟩, -⟩
  swap
  · cases hrefused with
    | invalid hinvalid =>
      rw [hvalid] at hinvalid
      cases hinvalid
    | branch hne hbranch =>
      exact absurd (.inr ⟨hparent, hfits⟩) (h.not_admissible hwork hfresh hne hbranch)
  · cases hentered with
    | known hknown _ =>
      rw [hnew] at hknown
      cases hknown
    | extended _ hbest _ => exact absurd hbest hprev
    | decided hfresh' _ _ _ hdecided =>
      have heq := hfresh'.branch.unique hn
      rw [heq] at hdecided
      exact ⟨hfresh, haccepted, hdecided⟩

/-- The work of the best chain is the sum over its epochs, so none of them overflows. -/
theorem WorkInv.epochsFit (h : WorkInv k s) : EpochsFit s s.bestBlock.depth := by
  rcases h.most with ⟨b, v, hb, hv, hvlt, -⟩
  rcases h.headers.chain.best with ⟨b', hb'⟩
  have hbb : b' = b := hb'.entry_eq hb
  subst hbb
  refine (h.steady.even h.headers.chain).fit (Nat.le_refl _) ?_
  rw [(hb'.totalWork h.headers.chain).unique hv]
  exact hvlt

theorem WorkInv.chooses (hwork : ∀ bits, C.pow.work bits < 2 ^ 256) (h : WorkInv k s) {m : Nat}
    (hfresh : Fresh s header n) {s' : ChainStateInner C} (hdecided : Decided s header m s')
    {b : DiskBlockHeader} {v w : Nat} (hb : s.view s.bestBlock.bestBlock = some b)
    (hv : TotalWork C s.view b.header v) (hw : TotalWork C s.view header w)
    (hwlt : w < 2 ^ 256) :
    (w ≤ v → Forked s header m s') ∧ (v < w → Switched s header m s') := by
  rcases h.most with ⟨b', v', hb', hv', hvlt, hmost⟩
  have hbb : b' = b := Option.some.inj (hb'.symm.trans hb)
  subst hbb
  have hvv : v' = v := hv'.unique hv
  subst hvv
  cases hdecided with
  | forked hworks hle hforked =>
    rw [comparedWork_exact hwork h.headers.chain h.steady hfresh hb hv' hvlt hmost hw hwlt
      hworks] at hle
    exact ⟨fun _ => hforked, fun hlt => absurd hle (Nat.not_le.mpr hlt)⟩
  | switched hworks hlt hswitched =>
    rw [comparedWork_exact hwork h.headers.chain h.steady hfresh hb hv' hvlt hmost hw hwlt
      hworks] at hlt
    exact ⟨fun hle => absurd hlt (Nat.not_lt.mpr hle), fun _ => hswitched⟩

/-! ## A chain of headers -/

/-- The best chain is `c 0, …, c n`, and no other header is stored.  The files are as large as those
of the first state. -/
structure Alone (k : Nat) (start : ChainStateInner C) (c : Nat → BlockHeader) (n : Nat)
    (s : ChainStateInner C) : Prop where
  headers : HeaderInv k s
  depth : s.bestBlock.depth = n
  chain : ∀ i ≤ n, ∃ d, OnChain s.view (C.blockHash (c i)) d i ∧ d.header = c i
  only : ∀ x d, s.view x = some d → ∃ i ≤ n, d.header = c i
  forkCount : s.chainstore.metadata.forkCount = 0
  headersFileSize :
    s.chainstore.metadata.headersFileSize = start.chainstore.metadata.headersFileSize
  forkFileSize : s.chainstore.metadata.forkFileSize = start.chainstore.metadata.forkFileSize
  indexCapacity : s.chainstore.metadata.indexCapacity = start.chainstore.metadata.indexCapacity

namespace Alone

variable {c : Nat → BlockHeader} {n : Nat}

theorem best (h : Alone k start c n s) : s.bestBlock.bestBlock = C.blockHash (c n) := by
  rcases h.headers.chain.best with ⟨b, hb⟩
  rcases h.chain n (Nat.le_refl n) with ⟨d, hd, -⟩
  rw [h.depth] at hb
  exact h.headers.chain.settled.unique hb hd

theorem occupancy_le (h : Alone k start c n s) :
    s.chainstore.metadata.blockIndexOccupancy ≤ n + 1 := by
  have hle := h.headers.chain.store.core.occupancy_le
    ((Finset.range (n + 1)).image fun i => C.blockHash (c i)) (fun x d hd => ?_)
  · refine Nat.le_trans hle (Nat.le_trans Finset.card_image_le ?_)
    rw [Finset.card_range]
  · rcases h.only x d hd with ⟨i, hi, heq⟩
    refine Finset.mem_image.mpr ⟨i, Finset.mem_range.mpr (Nat.lt_succ_of_le hi), ?_⟩
    rw [← heq]
    exact h.headers.chain.tree.hash x d hd

theorem ready (h : Alone k start c n s) (hzero : C.blockHash header ≠ 0)
    (hprev : header.prevBlockhash = C.blockHash (c n))
    (hfile : n + 1 < start.chainstore.metadata.headersFileSize)
    (hindex : start.chainstore.metadata.headersFileSize ≤ 2 ^ 31)
    (hbucket : n + 2 < start.chainstore.metadata.indexCapacity) : AcceptReady s header := by
  have hocc := h.occupancy_le
  refine ⟨hzero, fun _ => ⟨?_, ?_, ?_⟩, fun hne => absurd (hprev.trans h.best.symm) hne⟩
  · rw [h.depth, h.headersFileSize]
    exact hfile
  · rw [h.depth]
    exact Nat.lt_of_lt_of_le hfile hindex
  · rw [h.indexCapacity]
    omega

theorem step (h : Alone k start c n s) (hready : AcceptReady s (c (n + 1)))
    (hprev : (c (n + 1)).prevBlockhash = C.blockHash (c n))
    (hnew : ∀ i ≤ n, C.blockHash (c (n + 1)) ≠ C.blockHash (c i))
    (hvalid : (validateHeader (c (n + 1)) s).1 = .ok hash) :
    Alone k start c (n + 1) (acceptHeader (c (n + 1)) s).2 := by
  have hunstored : s.view (C.blockHash (c (n + 1))) = none := by
    cases hview : s.view (C.blockHash (c (n + 1))) with
    | none => rfl
    | some d =>
      rcases h.only _ d hview with ⟨i, hi, heq⟩
      refine absurd ?_ (hnew i hi)
      rw [← heq]
      exact (h.headers.chain.tree.hash _ d hview).symm
  rcases h.headers.extends hready hunstored (hprev.trans h.best.symm) hvalid with
    ⟨-, ⟨f, haccepted⟩, hextended⟩
  have hview := hextended.view
  rw [h.depth] at hview
  refine ⟨h.headers.accept hready, ?_, ?_, ?_, ?_, ?_, ?_, ?_⟩
  · rw [hextended.best, h.depth]
  · intro i hi
    rw [hview]
    rcases Nat.lt_or_ge n i with hlt | hle
    · have hin : i = n + 1 := by omega
      subst hin
      exact ⟨_, ⟨Function.update_self .., rfl, rfl⟩, rfl⟩
    · rcases h.chain i hle with ⟨d, hd, heq⟩
      exact ⟨d, hd.update_ne (hnew i hle).symm _, heq⟩
  · intro x d hd
    rw [hview] at hd
    by_cases hx : x = C.blockHash (c (n + 1))
    · rw [hx, Function.update_self] at hd
      cases hd
      exact ⟨n + 1, Nat.le_refl _, rfl⟩
    · rw [Function.update_of_ne hx] at hd
      rcases h.only x d hd with ⟨i, hi, heq⟩
      exact ⟨i, Nat.le_succ_of_le hi, heq⟩
  · rw [hextended.forks.count, h.forkCount]
  · exact haccepted.marked.headersFileSize.trans h.headersFileSize
  · exact haccepted.marked.forkFileSize.trans h.forkFileSize
  · exact haccepted.marked.indexCapacity.trans h.indexCapacity

theorem new (hnew : IsNew config k start)
    (hfirst : c 0 = C.genesisHeader) : Alone k start c 0 start := by
  have hheaders : HeaderInv k start := HeaderInv.new hnew
  rcases hnew.eq with ⟨_, hstart⟩
  refine ⟨hheaders, ?_, ?_, ?_, ?_, rfl, rfl, rfl⟩
  · rw [hstart]
  · intro i hi
    have hi0 : i = 0 := Nat.le_zero.mp hi
    subst hi0
    rw [hfirst]
    exact ⟨_, ⟨hheaders.chain.tree.genesis, rfl, rfl⟩, rfl⟩
  · intro x d hd
    refine ⟨0, Nat.le_refl 0, ?_⟩
    rw [(new_only hnew hd).2, hfirst]
    rfl
  · rw [hstart]
    rfl

/-- What the rounds of a run rely on: the files have room for the chain, and every header is new,
valid and on top of the one before. -/
structure Grows (k : Nat) (start : ChainStateInner C) (c : Nat → BlockHeader) (top : Nat) :
    Prop where
  file : top < start.chainstore.metadata.headersFileSize
  index : start.chainstore.metadata.headersFileSize ≤ 2 ^ 31
  bucket : top + 1 < start.chainstore.metadata.indexCapacity
  nonzero : ∀ n < top, C.blockHash (c (n + 1)) ≠ 0
  linked : ∀ n < top, (c (n + 1)).prevBlockhash = C.blockHash (c n)
  distinct : ∀ n < top, ∀ i ≤ n, C.blockHash (c (n + 1)) ≠ C.blockHash (c i)
  valid : ∀ n < top, ∀ s, Alone k start c n s →
    (validateHeader (c (n + 1)) s).1 = .ok (C.blockHash (c (n + 1)))

theorem run (h : Alone k start c 0 start) {top : Nat} (hgrows : Grows k start c top)
    (hn : n ≤ top) : ∃ s, HeaderRun AcceptReady start s ∧ Alone k start c n s := by
  induction n with
  | zero => exact ⟨start, .start, h⟩
  | succ n ih =>
    rcases ih (Nat.le_of_succ_le hn) with ⟨s, hrun, hs⟩
    have hlt : n < top := hn
    have hfile := hgrows.file
    have hbucket := hgrows.bucket
    have hready := hs.ready (hgrows.nonzero n hlt) (hgrows.linked n hlt) (by omega) hgrows.index
      (by omega)
    exact ⟨_, hrun.step _ hready,
      hs.step hready (hgrows.linked n hlt) (hgrows.distinct n hlt) (hgrows.valid n hlt s hs)⟩

/-! ### Facts about the chain -/

section

variable (h : Alone k start c n s) (hi : i ≤ n)

include h hi

theorem within_ancestor {E : Fault → Prop} :
    Within (Quiet k s) E (getAncestorAtHeight (c n) n i : ChainM C _) (· = c i) := by
  rcases h.chain n (Nat.le_refl n) with ⟨d, hd, hdc⟩
  rcases h.chain i hi with ⟨e, he, hec⟩
  have habove := ChainState.within_ancestor (E := E) h.headers.chain hd.entry hd.height hi
    (.inl (Nat.le_of_eq h.depth.symm))
  rw [hdc] at habove
  refine habove.mono fun y hy => ?_
  rw [← Nat.add_sub_cancel' hi] at hd
  have hother := OnChain.above h.headers.chain hd he
  rw [hdc, hec] at hother
  exact hy.unique hother

theorem branch : Branch C s.view (c i) i := by
  rcases h.chain i hi with ⟨d, hd, heq⟩
  rw [← heq]
  exact (hd.branch h.headers.chain.tree).1

theorem headerAtHeight : ChainState.headerAtHeight s i = c i := by
  rcases h.chain i hi with ⟨d, hd, heq⟩
  rw [hd.headerAtHeight h.headers.chain.store, heq]

theorem totalWork :
    TotalWork C s.view (c i) (∑ j ∈ Finset.range (i + 1), C.pow.work (c j).bits) := by
  rcases h.chain i hi with ⟨d, hd, heq⟩
  have htotal := hd.totalWork h.headers.chain
  have hsum : ∑ j ∈ Finset.range (i + 1), blockWork s j =
      ∑ j ∈ Finset.range (i + 1), C.pow.work (c j).bits := by
    refine Finset.sum_congr rfl fun j hj => ?_
    have hlt := Finset.mem_range.mp hj
    unfold blockWork
    rw [h.headerAtHeight (by omega)]
  rw [heq, hsum] at htotal
  exact htotal

end

end Alone

end ChainState

/-! ## A network that retargets

The compact targets of the `bitcoin` crate, on a network with the parameters of the main network,
apart from its genesis block and with minimum-difficulty blocks or without.  The hash of a header is
read off its nonce. -/

namespace ChainContext
namespace Retarget

/-- `Target::from_compact` -/
def target (bits : UInt32) : Nat :=
  let size := bits.toNat / 2 ^ 24
  let word := bits.toNat % 2 ^ 24
  let mantissa := if size ≤ 3 then word / 2 ^ (8 * (3 - size)) else word
  if 2 ^ 23 ≤ mantissa then 0 else mantissa * 2 ^ (8 * (size - 3))

/-- `Target::to_compact_lossy` -/
def toCompactLossy (target : Nat) : UInt32 :=
  let size := if target = 0 then 0 else (target.log2 + 8) / 8
  let word := if size ≤ 3 then target * 2 ^ (8 * (3 - size)) else target / 2 ^ (8 * (size - 3))
  -- the mantissa has a sign bit
  if word.testBit 23 then UInt32.ofNat (word / 2 ^ 8 + (size + 1) * 2 ^ 24)
  else UInt32.ofNat (word + size * 2 ^ 24)

/-- `CompactTarget::from_next_work_required` -/
def fromNextWorkRequired (bits : UInt32) (timespan : Nat) (params : ChainParams) : UInt32 :=
  if params.params.noPowRetargeting then bits
  else
    let actual := max (params.powTargetTimespan / 4) (min timespan (params.powTargetTimespan * 4))
    let maximum := min (target bits * 4) params.params.maxAttainableTarget
    toCompactLossy (min (target bits * actual / params.powTargetTimespan) maximum)

/-- `Target::to_work` -/
def work (bits : UInt32) : Nat :=
  if target bits ≤ 1 then 2 ^ 256 - 1 else 2 ^ 256 / (target bits + 1)

def pow : ProofOfWork where
  target := target
  toCompactLossy := toCompactLossy
  work := work
  fromNextWorkRequired := fromNextWorkRequired

def easy : UInt32 := 0x1d00ffff

def hard : UInt32 := 0x1c3fffc0

def parameters (allowMin : Bool) : ChainParams where
  params := ⟨227931, 388381, 363725, allowMin, false, 600, 0xffff * 2 ^ 208, 2016⟩
  genesis := ⟨⟨1, 0, 0, 0, easy, 0⟩, []⟩
  subsidyHalvingInterval := .bitcoin
  powTargetTimespan := 1209600
  segwitActivationHeight := 481824
  csvActivationHeight := 419328
  exceptions := []
  enforceBip94 := false

def bitcoin : Bitcoin :=
  { Bitcoin.sample with blockHash := fun header => BitVec.ofNat 256 (header.nonce.toNat + 1) }

end Retarget

def retarget (allowMin : Bool) : ChainContext :=
  ⟨Retarget.bitcoin, Retarget.pow, Sample.rustreexo, Sample.kernel, Retarget.parameters allowMin⟩

namespace Retarget

open ChainState FlatChainStore

variable {allowMin : Bool}

/-- The header of a chain at a height. -/
def mined (time : Nat → Nat) (bits : Nat → UInt32) (n : Nat) : BlockHeader :=
  ⟨1, BitVec.ofNat 256 n, 0, time n, bits n, UInt32.ofNat n⟩

def config : FlatChainStoreConfig := ⟨some 8192, some 4096, some 2, some 4096⟩

variable {time : Nat → Nat} {bits : Nat → UInt32} {n : Nat}

/-- A network with this proof of work, in which the hash of a header counts its nonce. -/
structure Counting (C : ChainContext) : Prop where
  pow : C.pow = Retarget.pow
  hash : ∀ header, C.blockHash header = BitVec.ofNat 256 (header.nonce.toNat + 1)
  genesis : C.genesisHeader = ⟨1, 0, 0, 0, easy, 0⟩
  versions : ∀ n < 4096, Consensus.minHeaderVersion C.parameters.params n ≤ 1

variable {C : ChainContext}

theorem blockHash_mined (hC : Counting C) (hn : n < 2 ^ 32) :
    C.blockHash (mined time bits n) = BitVec.ofNat 256 (n + 1) := by
  rw [hC.hash]
  change BitVec.ofNat 256 ((UInt32.ofNat n).toNat + 1) = _
  rw [UInt32.toNat_ofNat', Nat.mod_eq_of_lt hn]

theorem toNat_hash (hn : n < 2 ^ 32) : (BitVec.ofNat 256 (n + 1)).toNat = n + 1 := by
  rw [BitVec.toNat_ofNat, Nat.mod_eq_of_lt]
  have hlarge : 2 ^ 32 + 1 < 2 ^ 256 := by norm_num
  omega

theorem work_lt (bits : UInt32) : (retarget allowMin).pow.work bits < 2 ^ 256 := by
  change work bits < 2 ^ 256
  unfold work
  split
  · norm_num
  · exact Nat.div_lt_self (by norm_num) (by omega)

theorem Counting.genesisHash_ne_zero (hC : Counting C) : C.genesisHash ≠ 0 := by
  change C.blockHash C.genesisHeader ≠ 0
  rw [hC.hash, hC.genesis]
  decide

theorem Counting.created (hC : Counting C) {start : ChainStateInner C}
    (hnew : new C (createChainStore config) none = .ok start) : Created config start :=
  ⟨indexRounds_of_lt (by decide) (by decide), hC.genesisHash_ne_zero, none, hnew⟩

theorem Counting.isNew (hC : Counting C) {start : ChainStateInner C}
    (hnew : new C (createChainStore config) none = .ok start) : IsNew config 13 start := by
  have hbits : indexBits config = 13 := by decide +kernel
  rw [← hbits]
  exact (hC.created hnew).isNew

theorem minHeaderVersion_le (hn : n < 4096) :
    Consensus.minHeaderVersion (retarget allowMin).parameters.params n ≤ 1 := by
  have h34 : ¬ 227931 ≤ n := by omega
  have h65 : ¬ 388381 ≤ n := by omega
  have h66 : ¬ 363725 ≤ n := by omega
  change Consensus.minHeaderVersion (parameters allowMin).params n ≤ 1
  simp [Consensus.minHeaderVersion, parameters, h34, h65, h66]

theorem counting : Counting (retarget allowMin) :=
  ⟨rfl, fun _ => rfl, rfl, fun _ hn => minHeaderVersion_le hn⟩

theorem valid (hC : Counting C) {k : Nat} {s : ChainStateInner C} {header : BlockHeader}
    (hinv : StoreInv C.bitcoin C.genesisHash k s.chainstore)
    (hp : s.view header.prevBlockhash = some p)
    (hheight : p.height = some n) (hbip94 : C.parameters.enforceBip94 = false ∨
      (n + 1) % C.parameters.params.minerConfirmationWindow ≠ 0)
    (hn : n + 1 < 4096) (hversion : header.version = 1)
    (hnonce : header.nonce.toNat < 2 ^ 16) (hbits : header.bits = easy ∨ header.bits = hard)
    (htarget : Prog.Within (Quiet k s) (fun _ => False)
      (getNextRequiredWork p.header (n + 1) header : ChainM C _)
      fun target => header.bits = toCompactLossy target) :
    (validateHeader header s).1 = .ok (C.blockHash header) := by
  refine validateHeader_eq_ok hinv hp hheight ?_ (by rw [hC.pow]; exact htarget) hbip94 ?_
  · rw [hC.hash, hC.pow, toNat_hash (by omega)]
    change header.nonce.toNat + 1 ≤ target header.bits
    have hlarge : 2 ^ 16 ≤ target easy ∧ 2 ^ 16 ≤ target hard := by decide +kernel
    rcases hbits with hbits | hbits
    · rw [hbits]
      omega
    · rw [hbits]
      omega
  · rw [hversion]
    exact hC.versions _ hn

section Chain

variable (hC : Counting C) {k : Nat} {start : ChainStateInner C} {top : Nat}

include hC

theorem parent_mined {s : ChainStateInner C}
    (h : Alone k start (mined time bits) n s) (hn : n < 4096) :
    ∃ d, s.view (BitVec.ofNat 256 (n + 1)) = some d ∧ d.height = some n ∧
      d.header = mined time bits n := by
  rcases h.chain n (Nat.le_refl n) with ⟨d, hd, heq⟩
  rw [blockHash_mined hC (by omega)] at hd
  exact ⟨d, hd.entry, hd.height, heq⟩

theorem files_new (hnew : new C (createChainStore config) none =
    .ok start) : start.chainstore.metadata.headersFileSize = 4096 ∧
      start.chainstore.metadata.forkFileSize = 4096 ∧
      start.chainstore.metadata.indexCapacity = 8192 := by
  rcases (hC.isNew hnew).eq with ⟨_, rfl⟩
  have hfiles : (createChainStore config).metadata.headersFileSize = 4096 ∧
      (createChainStore config).metadata.forkFileSize = 4096 ∧
      (createChainStore config).metadata.indexCapacity = 8192 := by decide +kernel
  exact hfiles

theorem mined_run (hnew : new C (createChainStore config) none =
      .ok start) (htime : time 0 = 0) (hfirst : bits 0 = easy) (htop : top + 1 < 4096)
    (hbits : ∀ n, bits n = easy ∨ bits n = hard)
    (hbip94 : ∀ n < top, C.parameters.enforceBip94 = false ∨
      (n + 1) % C.parameters.params.minerConfirmationWindow ≠ 0)
    (htarget : ∀ n < top, ∀ s, Alone 13 start (mined time bits) n s →
      Prog.Within (Quiet 13 s) (fun _ => False)
        (getNextRequiredWork (mined time bits n) (n + 1) (mined time bits (n + 1)) :
          ChainM C _)
        fun target => bits (n + 1) = toCompactLossy target) :
    ∃ s, HeaderRun AcceptReady start s ∧ Alone 13 start (mined time bits) top s := by
  have hgenesis : mined time bits 0 = C.genesisHeader := by
    unfold mined
    rw [htime, hfirst, hC.genesis]
    rfl
  have hstart : Alone 13 start (mined time bits) 0 start :=
    Alone.new (hC.isNew hnew) hgenesis
  rcases files_new hC hnew with ⟨hheaders, -, hcapacity⟩
  have hne : ∀ {m i : Nat}, m < 2 ^ 32 → i < 2 ^ 32 → m ≠ i →
      BitVec.ofNat 256 (m + 1) ≠ BitVec.ofNat 256 (i + 1) := by
    intro m i hm hi hmi heq
    have hnat := congrArg BitVec.toNat heq
    rw [toNat_hash hm, toNat_hash hi] at hnat
    omega
  refine hstart.run ?_ (Nat.le_refl top)
  refine ⟨by omega, by omega, by omega, ?_, ?_, ?_, ?_⟩
  · intro n hn heq
    rw [blockHash_mined hC (by omega)] at heq
    have hnat := congrArg BitVec.toNat heq
    rw [toNat_hash (by omega)] at hnat
    cases hnat
  · intro n hn
    rw [blockHash_mined hC (by omega)]
    rfl
  · intro n hn i hi
    rw [blockHash_mined hC (by omega), blockHash_mined hC (by omega)]
    exact hne (by omega) (by omega) (by omega)
  · intro n hn s hs
    rcases parent_mined hC hs (by omega) with ⟨d, hd, hheight, heq⟩
    refine valid hC hs.headers.chain.store hd hheight (hbip94 n hn) (by omega) rfl ?_
      (hbits (n + 1)) ?_
    · change (UInt32.ofNat (n + 1)).toNat < 2 ^ 16
      rw [UInt32.toNat_ofNat']
      omega
    · rw [heq]
      exact htarget n hn s hs

end Chain

end Retarget
end ChainContext
end Floresta
