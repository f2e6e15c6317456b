import Floresta.ChainState.Answers
import Floresta.ChainState.Reorg

/-!
# Accept — what a call of `accept_header` does

A header that is accepted extends the best chain, is recorded on a fork, or makes its fork the best
chain; each of them keeps the invariant of the chain state and leaves everything at or below a height
`f` as it is.  A header that is rejected was rejected by a check, before the first write, or by a
store without room.
-/

namespace Floresta.ChainState

open Prog FlatChainStore

variable {C : ChainContext} {k : Nat} {s' : ChainStateInner C} {E : Fault → Prop}
  {m : ChainM C Unit}
variable {n : Nat} {header : BlockHeader} {e : DiskBlockHeader}

/-- The call ends in `P`, is rejected for one of the reasons `R` with the state as it was, or fails
because the store had not the room it needed. -/
def Replies (k : Nat) (s₀ : ChainStateInner C) (room : Prop) (R : Fault → Prop)
    (P : ChainStateInner C → Prop) : Except Fault Unit → ChainStateInner C → Prop
  | .ok _, s' => P s'
  | .error fault, s' => (R fault ∧ Quiet k s₀ s') ∨ (FullFault fault ∧ ¬ room)

section Rules

variable {s₀ s : ChainStateInner C} {room : Prop} {R : Fault → Prop} {P : ChainStateInner C → Prop}

theorem Replies.reads {α : Type} {m : ChainM C α} {A : α → Prop}
    {f : α → ChainM C Unit} (hm : Within (Quiet k s₀) E m A) (hs : Quiet k s₀ s)
    (hE : ∀ fault, E fault → R fault)
    (hf : ∀ a s', A a → Quiet k s₀ s' → wp (f a) (Replies k s₀ room R P) s') :
    wp (m >>= f) (Replies k s₀ room R P) s :=
  hm.before hs (fun fault _ hfault hs' => .inl ⟨hE fault hfault, hs'⟩) hf

theorem Replies.writes (hm : wp m (Writes room P) s) :
    wp m (Replies k s₀ room R P) s := by
  refine wp_mono hm ?_
  rintro r s' (⟨rfl, hs'⟩ | ⟨fault, rfl, hfull, hroom⟩)
  · exact hs'
  · exact .inr ⟨hfull, hroom⟩

theorem Replies.settle (hm : wp m (Replies k s₀ room R P) s) (hroom : room) :
    ((m s).1 = .ok () ∧ P (m s).2) ∨
      ∃ fault, (m s).1 = .error fault ∧ R fault ∧ Quiet k s₀ (m s).2 := by
  unfold wp at hm
  generalize m s = run at hm ⊢
  rcases run with ⟨fault | u, s'⟩
  · rcases hm with ⟨hfault, hquiet⟩ | ⟨-, hnoroom⟩
    · exact .inr ⟨fault, rfl, hfault, hquiet⟩
    · exact absurd hroom hnoroom
  · exact .inl ⟨rfl, hm⟩

theorem Replies.mono {room' : Prop} {R' : Fault → Prop}
    {P' : ChainStateInner C → Prop} (hm : wp m (Replies k s₀ room R P) s) (hroom : room' → room)
    (hR : ∀ fault, R fault → R' fault) (hP : ∀ s', P s' → P' s') :
    wp m (Replies k s₀ room' R' P') s := by
  refine wp_mono hm ?_
  rintro (fault | u) s' h
  · rcases h with ⟨hfault, hs'⟩ | ⟨hfull, hnoroom⟩
    · exact .inl ⟨hR fault hfault, hs'⟩
    · exact .inr ⟨hfull, fun h => hnoroom (hroom h)⟩
  · exact hP s' h

theorem Writes.bind {f : Unit → ChainM C Unit}
    {Q : ChainStateInner C → Prop}
    (hm : wp m (Writes room Q) s) (hf : ∀ s', Q s' → wp (f ()) (Writes room P) s') :
    wp (m >>= f) (Writes room P) s := by
  rw [wp_bind]
  refine wp_mono hm ?_
  rintro r s' (⟨rfl, hs'⟩ | ⟨fault, rfl, hfull, hroom⟩)
  · exact hf s' hs'
  · exact .inr ⟨fault, rfl, hfull, hroom⟩

theorem Writes.mono {room' : Prop} {P' : ChainStateInner C → Prop}
    (hm : wp m (Writes room P) s) (hroom : room' → room) (hP : ∀ s', P s' → P' s') :
    wp m (Writes room' P') s := by
  refine wp_mono hm ?_
  rintro r s' (⟨rfl, hs'⟩ | ⟨fault, rfl, hfull, hnoroom⟩)
  · exact .inl ⟨rfl, hP s' hs'⟩
  · exact .inr ⟨fault, rfl, hfull, fun h => hnoroom (hroom h)⟩

end Rules

/-! ## Accepted headers -/

/-- A header was accepted, and what stands at or below the height `f` was left alone. -/
structure Accepted (k f : Nat) (s s' : ChainStateInner C) : Prop where
  inv : ChainInv k s'
  marked : Marked k f (Moved f) s { s with chainstore := s'.chainstore }
  fresh : ∀ {x d n}, OnChain s'.view x d n → f < n → ∃ h, d = .headersOnly h n
  ibd : s'.ibd = s.ibd
  assumeValid : s'.assumeValid = s.assumeValid
  /-- validation goes on where it was, or from the last valid block of the new branch -/
  validation : (f = s.bestBlock.depth ∧ s'.acc = s.acc ∧
      s'.bestBlock.validationIndex = s.bestBlock.validationIndex) ∨
    ∃ newTip d j e i, Descent s.view DiskBlockHeader.isActive newTip d j ∧
      OnChain s.view (C.blockHash d.header) d f ∧
      Descent s.view isValidated newTip e i ∧ isValidated e = true ∧
      s'.bestBlock.validationIndex = C.blockHash e.header

@[mk_iff]
structure SameForks (store store' : FlatChainStore) : Prop where
  count : store'.metadata.forkCount = store.metadata.forkCount
  file : store'.forkHeaders = store.forkHeaders

@[mk_iff]
structure ForkAppended (store : FlatChainStore) (record : HashedDiskHeader)
    (store' : FlatChainStore) : Prop where
  count : store'.metadata.forkCount = store.metadata.forkCount + 1
  file : store'.forkHeaders = Function.update store.forkHeaders store.metadata.forkCount record

/-- The header was put on top of the best chain. -/
@[mk_iff]
structure Extended (s : ChainStateInner C) (header : BlockHeader) (s' : ChainStateInner C) :
    Prop where
  view : s'.view = Function.update s.view (C.blockHash header)
    (some (.headersOnly header (s.bestBlock.depth + 1)))
  best : s'.bestBlock = { s.bestBlock with
    bestBlock := C.blockHash header, depth := s.bestBlock.depth + 1 }
  forks : SameForks s.chainstore s'.chainstore
  upper : ∀ m, s.bestBlock.depth + 1 < m → s'.chainstore.headers m = s.chainstore.headers m

/-- The header was recorded on a fork, at the height `n`. -/
@[mk_iff]
structure Forked (s : ChainStateInner C) (header : BlockHeader) (n : Nat)
    (s' : ChainStateInner C) : Prop where
  view : s'.view = Function.update s.view (C.blockHash header) (some (.inFork header n))
  best : s'.bestBlock = { s.bestBlock with
    alternativeTips := s.bestBlock.alternativeTips.erase header.prevBlockhash ++
      [C.blockHash header] }
  forks : ForkAppended s.chainstore ⟨.inFork header n, C.blockHash header, 0, 0⟩ s'.chainstore

/-- The branch of the header became the best chain, `n` blocks high. -/
@[mk_iff]
structure Switched (s : ChainStateInner C) (header : BlockHeader) (n : Nat)
    (s' : ChainStateInner C) : Prop where
  tip : s'.view (C.blockHash header) = some (.headersOnly header n)
  domain : ∀ y, s.view y = none → y ≠ C.blockHash header →
    s'.view y = none
  first : ∀ {x d}, OnChain s.view x d 1 → s'.view x = some d
  /-- the branch below the header had no invalid block -/
  invalid : ∀ y h, s.view y = some (.invalidChain h) → y ≠ C.blockHash header →
    s'.view y = some (.invalidChain h)
  bestBlock : s'.bestBlock.bestBlock = C.blockHash header
  /-- what the height index has above the new tip is left as it is -/
  upper : ∀ m, n < m → s'.chainstore.headers m = s.chainstore.headers m

/-- The room a header off the best chain needs: for the header itself, or for the reorganisation
to it. -/
structure BranchRoom (s : ChainStateInner C) (header : BlockHeader) : Prop where
  fork : ForkRoom s.chainstore
  reorg : ∀ d j f n, Descent s.view DiskBlockHeader.isActive header d j →
    d.isActive = true → d.height = some f → Branch C s.view header n → ReorgRoom s f n

structure HasRoom (s : ChainStateInner C) (header : BlockHeader) : Prop where
  extend : header.prevBlockhash = s.bestBlock.bestBlock →
    ActiveRoom s.chainstore (s.bestBlock.depth + 1)
  branch : header.prevBlockhash ≠ s.bestBlock.bestBlock → BranchRoom s header

theorem ReorgRoom.quiet {s₀ s : ChainStateInner C} {f : Nat} (h : ReorgRoom s₀ f n)
    (hs : Quiet k s₀ s) : ReorgRoom s f n := by
  rw [reorgRoom_iff, hs.metadata, hs.bestBlock]
  exact (reorgRoom_iff ..).mp h

/-- A header that is not stored, on one of known height. -/
@[mk_iff]
structure Fresh (s : ChainStateInner C) (header : BlockHeader) (n : Nat) : Prop where
  new : s.view (C.blockHash header) = none
  nonzero : C.blockHash header ≠ 0
  branch : Branch C s.view header (n + 1)
  bound : n ≤ s.chainstore.metadata.headersFileSize + s.chainstore.metadata.forkCount

theorem Fresh.notGenesis {s : ChainStateInner C} (h : Fresh s header n) :
    isGenesis C header = false := h.branch.notGenesis

/-- A header whose branch, `n + 1` blocks long, can become the best chain; it may be stored. -/
@[mk_iff]
structure Candidate (s : ChainStateInner C) (header : BlockHeader) (n : Nat) : Prop where
  stored : ∀ d, s.view (C.blockHash header) = some d → d.header = header
  nonzero : C.blockHash header ≠ 0
  branch : Branch C s.view header (n + 1)
  bound : n ≤ s.chainstore.metadata.headersFileSize + s.chainstore.metadata.forkCount

theorem Candidate.notGenesis {s : ChainStateInner C}
    (h : Candidate s header n) : isGenesis C header = false := h.branch.notGenesis

theorem Fresh.candidate {s : ChainStateInner C} (h : Fresh s header n) : Candidate s header n := by
  refine ⟨fun d hd => ?_, h.nonzero, h.branch, h.bound⟩
  rw [h.new] at hd
  cases hd

section Reorganise

variable {s : ChainStateInner C} {newTip : BlockHeader} {n f j : Nat} {d : DiskBlockHeader}

/-- The old branch is gone, and the walk of the new one can start at its tip. -/
theorem Candidate.activating (hnew : Candidate s newTip n)
    (hdesc : Descent s.view DiskBlockHeader.isActive newTip d j) (hlen : n + 1 = f + j)
    (hmarked : Marked k f (Moved f) s s')
    (hsettled : Settled C s'.view f)
    (hdomain : ∀ y, s.view y = none → s'.view y = none)
    (hinvalid : KeepsInvalid s.view s'.view)
    (hocc : s'.chainstore.metadata.blockIndexOccupancy =
      s.chainstore.metadata.blockIndexOccupancy)
    (hheaders : s'.chainstore.headers = s.chainstore.headers) :
    Activating k f (n + 1) s d.header newTip (n + 1) newTip s' where
  above := by omega
  below := Nat.le_refl _
  marked := hmarked
  gapped := hsettled.below (by omega) _
  branch := hnew.branch.keeps hmarked.keeps
  path := by
    have hj : n + 1 - f = j := by omega
    rw [hj]
    exact hdesc.above.keeps hmarked.keeps
  header := by
    intro e he
    cases hold : s.view (C.blockHash newTip) with
    | none =>
      rw [hdomain _ hold] at he
      cases he
    | some d =>
      rcases hmarked.keeps _ d hold with ⟨d', hd', heq⟩
      rw [he] at hd'
      cases hd'
      rw [heq, hnew.stored d hold]
  nonzero := hnew.nonzero
  occupancy := by
    rw [hocc]
    split <;> omega
  fresh := fun hy hj => absurd (hsettled.capped hy) (Nat.not_le.mpr hj)
  known := .inl rfl
  domain := fun y hy _ => hdomain y hy
  invalid := fun y h hy => .inl (hinvalid y h hy)
  done := .inl ⟨rfl, rfl⟩
  upper := fun _ _ => by rw [hheaders]

/-- What is on the new best chain above the fork point was on a fork before, the new tip apart. -/
theorem OverForks.kept {bound top m : Nat} (hinv : ChainInv k s) (hover : OverForks s.view newTip j)
    (hdesc : Descent s.view DiskBlockHeader.isActive newTip d j) (hlen : top = f + j)
    (hkeeps : Keeps s.view s'.view)
    (hsettled : Settled C s'.view top) (t : Tree C s'.view bound)
    {tip : DiskBlockHeader} (htip : OnChain s'.view (C.blockHash newTip) tip top)
    (hnew : tip.header = newTip) {y : BlockHash} (hy : OnChain s'.view y e m)
    (hm : f < m) {h : BlockHeader} (hinvalid : s.view y = some (.invalidChain h)) :
    y = C.blockHash newTip := by
  have hcap := hsettled.capped hy
  obtain ⟨i, hi⟩ := Nat.exists_eq_add_of_le hcap
  by_cases hzero : i = 0
  · subst hzero
    exact hsettled.unique hy (hi ▸ htip)
  -- the search met the header on its way to the fork point
  rcases hdesc.exists_at (m := i) (by omega) (by omega) with ⟨a, ha⟩
  rcases hover a i ha (by omega) with ⟨block, n', rfl⟩
  have hpath : Above s'.view e.header newTip i :=
    hnew ▸ hsettled.above t (hi ▸ htip) hy
  have hsame := hpath.unique (ha.above.keeps hkeeps)
  rcases ha.stored with ⟨x, hx⟩
  have hxy : x = y := by
    rw [← hinv.tree.hash x _ hx, ← t.hash y e hy.entry, hsame]
  rw [hxy, hinvalid] at hx
  cases hx

theorem reorg_writes (hinv : ChainInv k s) (hnew : Candidate s newTip n)
    (hdesc : Descent s.view DiskBlockHeader.isActive newTip d j)
    (hd : OnChain s.view (C.blockHash d.header) d f)
    (hng : isGenesis C d.header = false) (hover : OverForks s.view newTip j)
    {best : DiskBlockHeader}
    (hbest : OnChain s.view (C.blockHash best.header) best s.bestBlock.depth)
    {i : Nat} (hvalid : Descent s.view isValidated newTip e i)
    (he : isValidated e = true) (acc : C.rustreexo.Stump) :
    wp (do
      markChainAsInactive best.header (C.blockHash d.header)
      markChainAsActive newTip (C.blockHash d.header)
      changeActiveChain newTip (C.blockHash e.header) (n + 1) acc : ChainM C Unit)
      (Writes (ReorgRoom s f (n + 1)) fun s' =>
        Accepted k f s s' ∧ Switched s newTip (n + 1) s') s := by
  have hf : f ≠ 0 := by
    rintro rfl
    cases (hd.branch hinv.tree).1 with
    | genesis hg =>
      rw [hng] at hg
      cases hg
  have hlen : n + 1 = f + j := by
    rcases hinv.tree.descent_branch rfl hnew.branch hnew.notGenesis hdesc with
      ⟨m, hbranch, hm⟩
    rw [hm, hbranch.unique (hd.branch hinv.tree).1]
  have hpos := hdesc.pos
  have hbound := hinv.bound_lt
  have hle := hnew.bound
  refine Writes.bind (markChainAsInactive_spec hinv hd hf hbest) ?_
  rintro s2 ⟨hmarked2, hsettled2, hdomain, hinvalid2, hocc, hheaders⟩
  have hrounds : walkRounds s2 = walkRounds s := by
    unfold walkRounds
    rw [hmarked2.headersFileSize, hmarked2.forkFileSize]
  refine Writes.bind (markChainAsActive_spec hd rfl (by omega)
    (hnew.activating hdesc hlen hmarked2 hsettled2 hdomain hinvalid2 hocc hheaders) (by omega)) ?_
  rintro s3 ⟨hmarked3, hsettled3, hfresh3, hdomain3, hinvalid3, ⟨tip, htip, htipHeader⟩, hupper⟩
  -- the last step sets the fields of the best chain
  refine .inl ⟨rfl, ⟨?_, ?_, hfresh3, ?_, ?_, ?_⟩, ?_, hdomain3,
    fun hx => hmarked3.stay hx (Nat.one_le_iff_ne_zero.mpr hf), ?_, rfl, hupper⟩
  · exact ⟨hmarked3.store, hmarked3.forks, hmarked3.tree, hsettled3, tip, htip⟩
  · have hsame : { s with chainstore := s3.chainstore } = s3 := hmarked3.same.symm
    change Marked k f (Moved f) s { s with chainstore := s3.chainstore }
    rw [hsame]
    exact hmarked3
  · change s3.ibd = s.ibd
    rw [hmarked3.same]
  · change s3.assumeValid = s.assumeValid
    rw [hmarked3.same]
  · exact .inr ⟨newTip, d, j, e, i, hdesc, hd, hvalid, he, rfl⟩
  · rcases hfresh3 htip (by omega) with ⟨h, rfl⟩
    have hh : h = newTip := htipHeader
    subst hh
    exact htip.entry
  · intro y h hy hne
    rcases hinvalid3 y h hy with hstill | ⟨e, m, he, hm⟩
    · exact hstill
    · exact absurd (hover.kept hinv hdesc hlen hmarked3.keeps hsettled3 hmarked3.tree htip
        htipHeader he hm hy) hne

variable {s₀ : ChainStateInner C}

theorem Fresh.quiet (h : Fresh s₀ newTip n) (hs : Quiet k s₀ s) : Fresh s newTip n := by
  rw [fresh_iff, hs.view, hs.metadata]
  exact (fresh_iff ..).mp h

theorem Candidate.quiet (h : Candidate s₀ newTip n) (hs : Quiet k s₀ s) : Candidate s newTip n := by
  rw [candidate_iff, hs.view, hs.metadata]
  exact (candidate_iff ..).mp h

theorem Accepted.of_quiet (h : Accepted k f s s') (hs : Quiet k s₀ s) :
    Accepted k f s₀ s' := by
  have hfiles : { s with chainstore := s'.chainstore } =
      { s₀ with chainstore := s'.chainstore } := by rw [hs.same]
  have hsame : s.ibd = s₀.ibd ∧ s.assumeValid = s₀.assumeValid := by
    rw [hs.same]
    exact ⟨rfl, rfl⟩
  refine ⟨h.inv, ?_, h.fresh, h.ibd.trans hsame.1, h.assumeValid.trans hsame.2, ?_⟩
  · have hmarked := h.marked.of_quiet hs
    rw [hfiles] at hmarked
    exact hmarked
  · have hvalidation := h.validation
    rw [hs.view, hs.bestBlock, hs.acc] at hvalidation
    exact hvalidation

theorem Extended.of_quiet (h : Extended s newTip s') (hs : Quiet k s₀ s) :
    Extended s₀ newTip s' := by
  rw [extended_iff, sameForks_iff, hs.view, hs.bestBlock, hs.headers, hs.metadata,
    hs.forkHeaders] at h
  rw [extended_iff, sameForks_iff]
  exact h

theorem Forked.of_quiet (h : Forked s newTip n s') (hs : Quiet k s₀ s) :
    Forked s₀ newTip n s' := by
  rw [forked_iff, forkAppended_iff, hs.view, hs.bestBlock, hs.metadata, hs.forkHeaders] at h
  rw [forked_iff, forkAppended_iff]
  exact h

theorem Switched.of_quiet (h : Switched s newTip n s')
    (hs : Quiet k s₀ s) : Switched s₀ newTip n s' := by
  rw [switched_iff, hs.view, hs.headers] at h
  exact (switched_iff ..).mpr h

def SwitchRoom (s : ChainStateInner C) (newTip : BlockHeader) : Prop :=
  ∀ d j f n, Descent s.view DiskBlockHeader.isActive newTip d j →
    d.isActive = true → d.height = some f → Branch C s.view newTip n → ReorgRoom s f n

/-- What a plan says about the chain and the new branch, which is `n` blocks long. -/
structure Planned (s : ChainStateInner C) (newTip : BlockHeader) (n : Nat) (plan : ReorgPlan C) :
    Prop where
  best : ∃ b, OnChain s.view (C.blockHash b.header) b s.bestBlock.depth ∧
    b.header = plan.currentBestBlock
  forkPoint : ∃ d j f, Descent s.view DiskBlockHeader.isActive newTip d j ∧
    OnChain s.view (C.blockHash d.header) d f ∧ d.header = plan.forkPoint ∧
    isGenesis C d.header = false ∧ OverForks s.view newTip j
  valid : ∃ e i, Descent s.view isValidated newTip e i ∧ isValidated e = true ∧
    C.blockHash e.header = plan.validationIndex
  depth : plan.depth = n

theorem within_bestHeader (hinv : ChainInv k s₀) :
    Within (Quiet k s₀) E (getBlockHeader s₀.bestBlock.bestBlock : ChainM C _) fun tip =>
      ∃ b, OnChain s₀.view (C.blockHash b.header) b s₀.bestBlock.depth ∧ b.header = tip := by
  rcases hinv.best with ⟨b, hb⟩
  refine Within.bind_eq (within_getDiskBlockHeader_stored hb.entry) (Within.pure ⟨b, ?_, rfl⟩)
  rw [hinv.tree.hash _ _ hb.entry]
  exact hb

/-- A search that ends at the genesis block raises an error of the given kind. -/
def OnlyAtGenesis (s₀ : ChainStateInner C) (newTip : BlockHeader) (E : Fault → Prop) : Prop :=
  ∀ d j, Descent s₀.view DiskBlockHeader.isActive newTip d j →
    isGenesis C d.header = true → ∀ e, E (.error e)

theorem onlyAtGenesis_proper : OnlyAtGenesis s₀ newTip Proper := fun _ _ _ _ e => ⟨e, rfl⟩

section

variable (hinv : ChainInv k s₀) (hnew : Candidate s₀ newTip n) (hE : OnlyOrphans s₀ E)
    (hgenesis : OnlyAtGenesis s₀ newTip E)

include hinv hnew hE hgenesis

theorem within_forkPoint :
    Within (Quiet k s₀) E (findForkPoint newTip : ChainM C _) fun fp =>
      ∃ d j f, Descent s₀.view DiskBlockHeader.isActive newTip d j ∧
        OnChain s₀.view (C.blockHash d.header) d f ∧ d.header = fp ∧
        isGenesis C d.header = false ∧ OverForks s₀.view newTip j := by
  have hbound := hinv.bound_lt
  rcases hnew.branch.stored hnew.notGenesis with ⟨parent, -, hparent, -, -⟩
  refine (within_findForkPoint hE hinv.tree hparent hgenesis (by omega)).mono ?_
  rintro fp ⟨d, j, hdesc, hactive, rfl, hng, hover⟩
  rcases isActive_height hactive with ⟨f, hf⟩
  rcases hdesc.stored with ⟨x, hx⟩
  exact ⟨d, j, f, hdesc, ⟨hinv.tree.lookup hx, hactive, hf⟩, rfl, hng, hover⟩

theorem within_reorgPlan
    (hacc : ∀ e i, Descent s₀.view isValidated newTip e i → isValidated e = true → Within
      (Quiet k s₀) E (reorgAcc (C.blockHash e.header) : ChainM C _) fun _ => True) :
    Within (Quiet k s₀) E (reorgPlan newTip : ChainM C _) (Planned s₀ newTip (n + 1)) := by
  have hbound := hinv.bound_lt
  have hle := hnew.bound
  refine Within.bind_eq within_getBestBlock ?_
  refine Within.bind (within_bestHeader hinv) fun tip htip => ?_
  refine Within.bind (within_forkPoint hinv hnew hE hgenesis) fun fp hfp => ?_
  refine Within.bind (within_getLastValidBlock hE hinv.tree hnew.branch hnew.notGenesis
    (by omega)) fun hash hvalid => ?_
  refine Within.bind (within_getChainDepth hnew.branch (by omega)) fun depth hdepth => ?_
  rcases hvalid with ⟨e, i, hdesc, he, rfl⟩
  refine Within.bind (hacc e i hdesc he) fun acc _ => Within.pure ?_
  exact ⟨htip, hfp, ⟨e, i, hdesc, he, rfl⟩, hdepth⟩

end

theorem reorg_spec (hinv : ChainInv k s₀) (hnew : Candidate s₀ newTip n) (hs : Quiet k s₀ s) :
    wp (reorg newTip) (Replies k s₀ (SwitchRoom s₀ newTip)
      (fun fault => Proper fault ∧ (reorgPlan newTip s₀).1 = .error fault)
      fun s' => (∃ f, Accepted k f s₀ s') ∧ Switched s₀ newTip (n + 1) s') s := by
  rw [reorg_eq]
  have hplan := within_reorgPlan hinv hnew onlyOrphans_proper onlyAtGenesis_proper
    fun e _ _ _ => within_reorgAcc (C.blockHash e.header)
  refine Replies.reads (hplan.and
    ((uniform_reorgPlan newTip).within (Quiet.refl hinv.store))) hs (fun _ h => h)
    fun plan s hplan hs => ?_
  rcases plan with ⟨currentBest, forkPoint, validationIndex, depth, acc⟩
  rcases hplan.1 with
    ⟨⟨b, hbest, rfl⟩, ⟨d, j, f, hdesc, hd, rfl, hng, hover⟩, ⟨e, i, hlast, he, rfl⟩, rfl⟩
  -- the writes start from the state the reads left, which differs in its cache only
  have hroom : SwitchRoom s₀ newTip → ReorgRoom s f (n + 1) := fun h =>
    (h d j f (n + 1) hdesc hd.active hd.height hnew.branch).quiet hs
  rw [← hs.view] at hdesc hd hover hlast hbest
  rw [← hs.bestBlock] at hbest
  refine Replies.writes (Writes.mono (reorg_writes (hinv.quiet hs) (hnew.quiet hs) hdesc hd hng
    hover hbest hlast he acc) hroom ?_)
  exact fun s' h => ⟨⟨f, h.1.of_quiet hs⟩, h.2.of_quiet hs⟩

end Reorganise

/-! ## Single headers -/

section Single

variable {s : ChainStateInner C} {header : BlockHeader} {n : Nat} {d : DiskBlockHeader}

/-- A fresh header was written, on the best chain above its tip or on a fork. -/
theorem Fresh.marked (hinv : ChainInv k s) (hfresh : Fresh s d.header n) {s1 s' : ChainStateInner C}
    (hs : Quiet k s s1) (hw : Saved C.bitcoin C.genesisHash k s1.chainstore d s'.chainstore)
    (hheight : d.height = some (n + 1))
    (hkind : Moved s.bestBlock.depth d)
    (hcount : s1.chainstore.metadata.forkCount ≤ s'.chainstore.metadata.forkCount)
    (hforks : s'.chainstore.metadata.forkCount ≤ s1.chainstore.metadata.forkFileSize)
    (hn : n + 1 ≤ s1.chainstore.metadata.headersFileSize + s'.chainstore.metadata.forkCount)
    (hlower : ∀ m ≤ s.bestBlock.depth, s'.chainstore.headers m = s1.chainstore.headers m) :
    Marked k s.bestBlock.depth (Moved s.bestBlock.depth) s { s with chainstore := s'.chainstore } := by
  have hfresh1 := hfresh.quiet hs
  have hsame : { s with chainstore := s1.chainstore } = s1 := hs.same.symm
  have hwrote : Wrote k s1 d { s with chainstore := s'.chainstore } :=
    ⟨by rw [← hsame], hw⟩
  refine ((Marked.refl hinv _ _).quiet hs).write hwrote ?_ hfresh.notGenesis hfresh1.branch
    (fun m hm => Option.some.inj (hm.symm.trans hheight)) ?_ hkind hcount hforks hn hlower
  · intro e he
    rw [hfresh1.new] at he
    cases he
  · intro e m he
    exact absurd rfl (he.ne_of_none hfresh1.new)

/-- The second state is the first with another cache and other alternative tips. -/
def AltTips (k : Nat) (s : ChainStateInner C) (tips : List BlockHash) (s' : ChainStateInner C) :
    Prop :=
  ∃ s₁, Quiet k s s₁ ∧
    s' = { s₁ with bestBlock := { s₁.bestBlock with alternativeTips := tips } }

theorem pushAltTip_spec (hinv : StoreInv C.bitcoin C.genesisHash k s.chainstore)
    (hd : s.view header.prevBlockhash = some d)
    (hhash : C.blockHash d.header = header.prevBlockhash) :
    wp (pushAltTip header) (fun r s' => r = .ok () ∧ AltTips k s
      (s.bestBlock.alternativeTips.erase header.prevBlockhash ++ [C.blockHash header]) s') s := by
  unfold pushAltTip
  rw [wp_bind, wp_attempt]
  refine (within_getDiskBlockHeader_stored hd).yields (Quiet.refl hinv) fun s' hq =>
    ⟨rfl, s', hq, ?_⟩
  rw [← hhash, ← hq.bestBlock]
  rfl

theorem fork_writes (hinv : ChainInv k s) (hfresh : Fresh s header n)
    (hd : s.view header.prevBlockhash = some d) (hn : d.height = some n) :
    wp (do
      pushAltTip header
      let parent ← getAncestor header
      let parentHeight ← check parent.tryHeight
      updateHeader (.inFork header (parentHeight + 1)) : ChainM C Unit)
      (Writes (ForkRoom s.chainstore) fun s' =>
        Accepted k s.bestBlock.depth s s' ∧ Forked s header (n + 1) s') s := by
  rw [wp_bind]
  refine wp_mono (pushAltTip_spec hinv.store hd (hinv.tree.hash _ _ hd)) ?_
  rintro r s2 ⟨rfl, s1, hq, hs2⟩
  have hstore : s2.chainstore = s1.chainstore := by rw [hs2]
  have hd2 : s2.view header.prevBlockhash = some d := by
    rw [ChainStateInner.view, hstore]
    exact (congrFun hq.view _).trans hd
  rw [andThen_ok, wp_bind]
  refine (within_getDiskBlockHeader_stored hd2).yields (Quiet.refl (hstore ▸ hq.inv))
    fun s3 hq3 => ?_
  rw [andThen_ok, wp_height hn]
  -- up to the tips, the store is still the one of the first state
  have hs : Quiet k s { s1 with chainstore := s3.chainstore } :=
    hq.withStore (hstore ▸ hq3.files) hq3.inv
  have hmeta : s3.chainstore.metadata = s.chainstore.metadata := hs.metadata
  have hview : s3.view = s.view := hs.view
  refine wp_mono (updateHeader_spec (d := .inFork header (n + 1)) hq3.inv rfl hfresh.notGenesis
    hfresh.nonzero) ?_
  rintro r s' (⟨rfl, hw, hroom, hheaders, hforks, hfile⟩ | ⟨fault, rfl, hfull, hnoroom⟩)
  · have hle := hfresh.bound
    have hinside := hroom.inside
    have hview' : s'.view = Function.update s.view (C.blockHash header)
        (some (.inFork header (n + 1))) := by
      rw [hw.view, hview]
      rfl
    have hmarked : Marked k s.bestBlock.depth (Moved s.bestBlock.depth) s
        { s with chainstore := s'.chainstore } := by
      refine Fresh.marked (d := .inFork header (n + 1)) hinv hfresh hs hw.saved rfl
        (.inl ⟨_, _, rfl⟩) ?_ ?_ ?_ fun m _ => congrFun hheaders m
      · rw [hforks]
        exact Nat.le_succ _
      · rw [hforks]
        exact hinside
      · rw [hforks]
        change n + 1 ≤ s3.chainstore.metadata.headersFileSize + _
        rw [hmeta]
        omega
    have hrest : s'.bestBlock = { s.bestBlock with
          alternativeTips := s.bestBlock.alternativeTips.erase header.prevBlockhash ++
            [C.blockHash header] } ∧ s'.ibd = s.ibd ∧
        s'.assumeValid = s.assumeValid ∧ s'.acc = s.acc := by
      rw [hw.same, hq3.same, hs2, hq.same]
      exact ⟨rfl, rfl, rfl, rfl⟩
    have hsettled : Settled C s'.view s.bestBlock.depth := by
      rw [hview']
      exact hinv.settled.addFork rfl hfresh.new
    have hforked : Forked s header (n + 1) s' := by
      refine ⟨hview', hrest.1, ?_, ?_⟩
      · rw [hforks, hmeta]
      · have hold : s3.chainstore.forkHeaders = s.chainstore.forkHeaders := hs.forkHeaders
        rw [hfile, hmeta, hold]
        rfl
    refine .inl ⟨rfl, ⟨⟨hw.saved.inv, hmarked.forks, hmarked.tree, ?_, ?_⟩, hmarked, ?_,
      hrest.2.1, hrest.2.2.1, .inl ⟨rfl, hrest.2.2.2, by rw [hrest.1]⟩⟩, hforked⟩
    · rw [hrest.1]
      exact hsettled
    · rcases hinv.best with ⟨b, hb⟩
      rw [hview', hrest.1]
      exact ⟨b, hb.update_ne (hb.ne_of_none hfresh.new) _⟩
    · exact fun hx hlt => absurd (hsettled.capped hx) (Nat.not_le.mpr hlt)
  · rw [forkRoom_iff, hmeta, ← forkRoom_iff] at hnoroom
    exact .inr ⟨fault, rfl, hfull, hnoroom⟩

theorem extend_writes (hinv : ChainInv k s) (hfresh : Fresh s header s.bestBlock.depth)
    (hprev : header.prevBlockhash = s.bestBlock.bestBlock) :
    wp (do
      Prog.modify fun st => { st with bestBlock := { st.bestBlock with
        bestBlock := C.blockHash header, depth := s.bestBlock.depth + 1 } }
      updateHeaderAndIndex (.headersOnly header (s.bestBlock.depth + 1)) (C.blockHash header)
        (s.bestBlock.depth + 1) : ChainM C Unit)
      (Writes (ActiveRoom s.chainstore (s.bestBlock.depth + 1)) fun s' =>
        Accepted k s.bestBlock.depth s s' ∧ Extended s header s') s := by
  rw [wp_modify_bind]
  generalize hs1 : ({ s with
    bestBlock := { s.bestBlock with
      bestBlock := C.blockHash header, depth := s.bestBlock.depth + 1 } } :
    ChainStateInner C) = s1
  have hstore : s1.chainstore = s.chainstore := by rw [← hs1]
  have hunused : ∀ {x e}, OnChain s.view x e (s.bestBlock.depth + 1) → x = C.blockHash header := by
    intro x e hx
    exact absurd (hinv.settled.capped hx) (Nat.not_succ_le_self _)
  refine wp_mono (updateHeaderAndIndex_spec (d := .headersOnly header (s.bestBlock.depth + 1))
    (hstore ▸ hinv.store) rfl rfl (Nat.succ_ne_zero _) hfresh.notGenesis hfresh.nonzero
    (by rw [ChainStateInner.view, hstore]; exact hunused)) ?_
  rw [hstore]
  rintro r s' (⟨rfl, hw, hroom, hheaders, hforks, hfile⟩ | ⟨fault, rfl, hfull, hnoroom⟩)
  · have hview' : s'.view = Function.update s.view (C.blockHash header)
        (some (.headersOnly header (s.bestBlock.depth + 1))) := by
      rw [hw.view, ChainStateInner.view, hstore]
      rfl
    have hsaved := hw.saved
    rw [hstore] at hsaved
    have hmarked : Marked k s.bestBlock.depth (Moved s.bestBlock.depth) s
        { s with chainstore := s'.chainstore } := by
      refine Fresh.marked (d := .headersOnly header (s.bestBlock.depth + 1)) hinv hfresh
        (Quiet.refl hinv.store) hsaved rfl (.inr ⟨_, _, rfl, Nat.lt_succ_self _⟩)
        (Nat.le_of_eq hforks.symm) (hforks ▸ hinv.forks) ?_ ?_
      · have hinside : s.bestBlock.depth + 1 < s.chainstore.metadata.headersFileSize :=
          hroom.inside
        omega
      · intro m hm
        have hne : m ≠ s.bestBlock.depth + 1 := by omega
        rw [hheaders, Function.update_of_ne hne]
    have hrest : s'.bestBlock = { s.bestBlock with
          bestBlock := C.blockHash header, depth := s.bestBlock.depth + 1 } ∧
        s'.ibd = s.ibd ∧ s'.assumeValid = s.assumeValid ∧ s'.acc = s.acc := by
      rw [hw.same, ← hs1]
      exact ⟨rfl, rfl, rfl, rfl⟩
    refine .inl ⟨rfl, ⟨⟨hw.saved.inv, hmarked.forks, hmarked.tree, ?_, ?_⟩, hmarked, ?_,
      hrest.2.1, hrest.2.2.1, .inl ⟨rfl, hrest.2.2.2, by rw [hrest.1]⟩⟩, hview', hrest.1,
      ⟨hforks, hfile⟩, fun m hm => by rw [hheaders, Function.update_of_ne (Nat.ne_of_gt hm)]⟩
    · rcases hinv.best with ⟨b, hb⟩
      rw [hview', hrest.1]
      exact hinv.settled.pushTip (e := .headersOnly header (s.bestBlock.depth + 1))
        (hprev ▸ hb) rfl rfl hfresh.new
    · rw [hview', hrest.1]
      exact ⟨_, Function.update_self .., rfl, rfl⟩
    · intro x d n hx hlt
      rw [hview'] at hx
      rcases hx.of_update_active rfl with ⟨-, rfl, rfl⟩ | ⟨-, hold⟩
      · exact ⟨header, rfl⟩
      · exact absurd (hinv.settled.capped hold) (Nat.not_le.mpr hlt)
  · exact .inr ⟨fault, rfl, hfull, hnoroom⟩

/-- The works of the tip of the best chain and of a fresh header, by what the two computations
give. -/
theorem within_comparedWork {s₀ : ChainStateInner C} {A B : Nat → Prop}
    (hinv : ChainInv k s₀) (hfresh : Fresh s₀ header n) (hE : OnlyOrphans s₀ E)
    (hgenesis : OnlyAtGenesis s₀ header E)
    (hcurrent : ∀ b, OnChain s₀.view (C.blockHash b.header) b s₀.bestBlock.depth →
      Within (Quiet k s₀) E (getBranchWork b.header : ChainM C _) A)
    (hnew : ∀ d j f, Descent s₀.view DiskBlockHeader.isActive header d j →
      OnChain s₀.view (C.blockHash d.header) d f → isGenesis C d.header = false →
      j < walkRounds s₀ →
      Within (Quiet k s₀) E (getForkWork header (C.blockHash d.header) : ChainM C _) B) :
    Within (Quiet k s₀) E (comparedWork header : ChainM C _)
      fun works => A works.1 ∧ B works.2 := by
  have hbound := hinv.bound_lt
  have hle := hfresh.bound
  refine Within.bind_eq within_getBestBlock ?_
  refine Within.bind (within_bestHeader hinv) fun tip htip => ?_
  refine Within.bind (within_checkBranch hE hfresh.branch (by omega)) fun _ _ => ?_
  refine Within.bind (within_forkPoint hinv hfresh.candidate hE hgenesis) fun fp hfp => ?_
  rcases htip with ⟨b, hb, rfl⟩
  refine Within.bind (hcurrent b hb) fun currentWork hcurrentWork => ?_
  rcases hfp with ⟨d, j, f, hdesc, hd, rfl, hng, -⟩
  have hj : j < walkRounds s₀ := by
    rcases hinv.tree.descent_branch rfl hfresh.branch hfresh.notGenesis hdesc with ⟨m, -, hm⟩
    omega
  refine Within.bind (hnew d j f hdesc hd hng hj) fun newWork hnewWork => ?_
  exact Within.pure ⟨hcurrentWork, hnewWork⟩

/-- How a branch was decided: by the works of the two tips. -/
inductive Decided (s : ChainStateInner C) (header : BlockHeader) (n : Nat)
    (s' : ChainStateInner C) : Prop
  | forked {works : Nat × Nat} : (comparedWork header s).1 = .ok works →
      works.2 ≤ works.1 → Forked s header n s' → Decided s header n s'
  | switched {works : Nat × Nat} : (comparedWork header s).1 = .ok works →
      works.1 < works.2 → Switched s header n s' → Decided s header n s'

theorem Decided.compared (h : Decided s header n s') :
    ∃ works, (comparedWork header s).1 = .ok works := by
  cases h with
  | forked hworks _ _ => exact ⟨_, hworks⟩
  | switched hworks _ _ => exact ⟨_, hworks⟩

/-- Why a branch is refused: the works or the plan cannot be had. -/
def BranchRefused (s : ChainStateInner C) (header : BlockHeader) (fault : Fault) : Prop :=
  (comparedWork header s).1 = .error fault ∨ (reorgPlan header s).1 = .error fault

theorem maybeReorg_spec {s₀ : ChainStateInner C} (hinv : ChainInv k s₀)
    (hfresh : Fresh s₀ header n) (hd : s₀.view header.prevBlockhash = some d)
    (hn : d.height = some n) (hs : Quiet k s₀ s) :
    wp (maybeReorg header) (Replies k s₀ (BranchRoom s₀ header)
      (fun fault => Proper fault ∧ BranchRefused s₀ header fault)
      fun s' => (∃ f, Accepted k f s₀ s') ∧ Decided s₀ header (n + 1) s') s := by
  rw [maybeReorg_eq]
  have hworks := within_comparedWork hinv hfresh onlyOrphans_proper onlyAtGenesis_proper
    (fun b _ => within_getBranchWork b.header) fun d j f hdesc _ _ hj =>
      within_getForkWork hdesc.above hj
  refine Replies.reads (hworks.and
    ((uniform_comparedWork header).within (Quiet.refl hinv.store))) hs
    (fun fault h => ⟨h.1, .inl h.2⟩) fun works s hworks hs => ?_
  by_cases hwork : works.1 < works.2
  · rw [if_pos hwork]
    refine Replies.mono (reorg_spec hinv hfresh.candidate hs) (fun h => h.reorg)
      (fun fault h => ⟨h.1, .inr h.2⟩) ?_
    exact fun s' h => ⟨h.1, .switched hworks.2 hwork h.2⟩
  · rw [if_neg hwork]
    have hd' : s.view header.prevBlockhash = some d := by
      rw [hs.view]
      exact hd
    refine Replies.writes (Writes.mono (fork_writes (hinv.quiet hs) (hfresh.quiet hs) hd' hn) ?_ ?_)
    · rw [forkRoom_iff, hs.metadata, ← forkRoom_iff]
      exact BranchRoom.fork
    · exact fun s' h => ⟨⟨_, h.1.of_quiet hs⟩,
        .forked hworks.2 (Nat.le_of_not_lt hwork) (h.2.of_quiet hs)⟩

theorem Accepted.refl (hinv : ChainInv k s) (hs : Quiet k s s') :
    Accepted k s.bestBlock.depth s s' := by
  have hsame : { s with chainstore := s'.chainstore } = s' := hs.same.symm
  refine ⟨hinv.quiet hs, ?_, ?_, ?_, ?_, .inl ⟨rfl, hs.acc, by rw [hs.bestBlock]⟩⟩
  · rw [hsame]
    exact (Marked.refl hinv _ _).quiet hs
  · intro x d n hx hlt
    rw [hs.view] at hx
    exact absurd (hinv.settled.capped hx) (Nat.not_le.mpr hlt)
  · rw [hs.same]
  · rw [hs.same]

/-- A stored best-chain header is never above the tip, so there is nothing to reindex. -/
theorem maybeReindex_spec (hinv : ChainInv k s) {x : BlockHash}
    (hd : s.view x = some d) {s1 : ChainStateInner C} (hs : Quiet k s s1) :
    wp (maybeReindex d) (fun r s' => r = .ok () ∧ Quiet k s s') s1 := by
  cases d with
  | headersOnly h m =>
    have hle : m ≤ s1.bestBlock.depth := by
      rw [hs.bestBlock]
      exact hinv.settled.capped ⟨hd, rfl, rfl⟩
    unfold maybeReindex getBestBlock
    rw [wp_read_bind, if_neg (Nat.not_lt.mpr hle)]
    exact ⟨rfl, hs⟩
  | fullyValid _ _ => exact ⟨rfl, hs⟩
  | assumedValid _ _ => exact ⟨rfl, hs⟩
  | orphan _ => exact ⟨rfl, hs⟩
  | inFork _ _ => exact ⟨rfl, hs⟩
  | invalidChain _ => exact ⟨rfl, hs⟩

/-- How an accepted header entered the chain state. -/
inductive Entered (k : Nat) (s : ChainStateInner C) (header : BlockHeader)
    (s' : ChainStateInner C) : Prop
  /-- it was stored before -/
  | known {d : DiskBlockHeader} : s.view (C.blockHash header) = some d →
      Quiet k s s' → Entered k s header s'
  | extended : Fresh s header s.bestBlock.depth → header.prevBlockhash = s.bestBlock.bestBlock →
      Extended s header s' → Entered k s header s'
  | decided {d : DiskBlockHeader} {n : Nat} : Fresh s header n →
      header.prevBlockhash ≠ s.bestBlock.bestBlock →
      s.view header.prevBlockhash = some d → d.height = some n →
      Decided s header (n + 1) s' → Entered k s header s'

/-- Why a header is refused: by its own checks, or with its branch. -/
inductive Refused (s : ChainStateInner C) (header : BlockHeader) (fault : Fault) : Prop
  | invalid : (validateHeader header s).1 = .error fault → Refused s header fault
  | branch : header.prevBlockhash ≠ s.bestBlock.bestBlock → BranchRefused s header fault →
      Refused s header fault

theorem acceptHeader_outcome (hinv : ChainInv k s) (hzero : C.blockHash header ≠ 0) :
    wp (acceptHeader header) (Replies k s (HasRoom s header)
      (fun fault => Proper fault ∧ Refused s header fault)
      fun s' => (∃ f, Accepted k f s s') ∧ Entered k s header s' ∧
        ((validateHeader header s).1 = .ok (C.blockHash header) ∨
          ∃ d, s.view (C.blockHash header) = some d)) s := by
  have hrefl := Quiet.refl hinv.store
  unfold acceptHeader
  rw [wp_bind, wp_attempt]
  cases hview : s.view (C.blockHash header) with
  | some found =>
    refine (within_getDiskBlockHeader_stored hview).yields hrefl fun s1 hs1 => ?_
    rw [andThen_ok]
    refine wp_mono (maybeReindex_spec hinv hview hs1) ?_
    rintro r s' ⟨rfl, hs'⟩
    exact ⟨⟨_, Accepted.refl hinv hs'⟩, .known hview hs', .inr ⟨_, rfl⟩⟩
  | none =>
    refine wp_mono (getDiskBlockHeader_missing hrefl hview) ?_
    rintro r s1 ⟨rfl, hs1⟩
    rw [andThen_ok]
    rw [wp_bind]
    refine within_getBestBlock.yields hs1 fun s2 hs2 => ?_
    rw [andThen_ok]
    refine Replies.reads ((within_validateHeader header).and
      ((uniform_validateHeader header).within hrefl)) hs2
      (fun fault h => ⟨h.1, .invalid h.2⟩) fun hash s3 hvalid hs3 => ?_
    rcases hvalid with ⟨⟨rfl, d, n, hd, hn⟩, hanswer⟩
    have hg : isGenesis C header = false := by
      by_contra hg
      have heq : C.blockHash header = C.genesisHash := by simpa [isGenesis] using hg
      rw [heq, hinv.tree.genesis] at hview
      cases hview
    rcases hinv.tree.branch_child hg hd hn with ⟨hbranch, hbound⟩
    have hfresh : Fresh s header n := ⟨hview, hzero, hbranch, hbound⟩
    by_cases hprev : header.prevBlockhash = s.bestBlock.bestBlock
    · rw [if_pos hprev]
      -- the parent is the tip, at the depth of the best chain
      have hdepth : n = s.bestBlock.depth := by
        rcases hinv.best with ⟨b, hb⟩
        rw [hprev, hb.entry] at hd
        cases hd
        exact Option.some.inj (hn.symm.trans hb.height)
      subst hdepth
      have hbest := hs3.bestBlock
      have hwrites := extend_writes (hinv.quiet hs3) (by rw [hbest]; exact hfresh.quiet hs3)
        (by rw [hbest]; exact hprev)
      rw [hbest] at hwrites
      refine Replies.writes (Writes.mono hwrites ?_ ?_)
      · rw [activeRoom_iff, hs3.metadata, ← activeRoom_iff]
        exact fun hroom => hroom.extend hprev
      · exact fun s' h => ⟨⟨_, h.1.of_quiet hs3⟩,
          .extended hfresh hprev (h.2.of_quiet hs3), .inl hanswer⟩
    · rw [if_neg hprev]
      refine Replies.mono (maybeReorg_spec hinv hfresh hd hn hs3)
        (fun hroom => hroom.branch hprev) (fun fault h => ⟨h.1, .branch hprev h.2⟩) ?_
      exact fun s' h => ⟨h.1, .decided hfresh hprev hd hn h.2, .inl hanswer⟩

end Single

end Floresta.ChainState
