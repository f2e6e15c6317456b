import Floresta.ChainState.Accept
import Floresta.ChainState.Blocks
import Floresta.Store.Roots

/-!
# Connect — what connecting, invalidating and flushing do

A block is connected at the height it has on the best chain: its entry becomes fully valid, and the
accumulator after it is saved.  Invalidating a block of the best chain takes it and everything above
it off the chain.  Each of them keeps the invariant of the chain state, also when it fails on the
way, as long as the store has room for what it writes.
-/

namespace Floresta.ChainState

open Prog FlatChainStore

variable {C : ChainContext} {k : Nat} {s0 s : ChainStateInner C} {d : DiskBlockHeader}
  {s' : ChainStateInner C} {n : Nat} {header : BlockHeader} {block : BlockHash} {x : BlockHash}
  {acc : C.rustreexo.Stump}

/-! ## Reading -/

theorem within_collectTimes (n : Nat) (header : BlockHeader) :
    Within (Quiet k s0) Proper (Consensus.collectTimes (fun header => do
      let parent ← getAncestor header
      pure parent.header) n header : ChainM C _) fun _ => True := by
  induction n generalizing header with
  | zero => exact Within.pure trivial
  | succ n ih =>
    refine Within.ite (fun _ => Within.pure trivial) fun _ => ?_
    refine Within.bind (P := fun _ => True) ?_ fun previous _ =>
      Within.bind (ih previous) fun _ _ => Within.pure trivial
    exact Within.bind (within_getDiskBlockHeader _) fun _ _ => Within.pure trivial

theorem within_medianTimePast (header : BlockHeader) :
    Within (Quiet k s0) Proper (medianTimePast header : ChainM C _) fun _ => True :=
  Within.bind (within_collectTimes _ header) fun _ _ => Within.pure trivial

theorem within_blockLockTimeCutoff (height : Nat) (header : BlockHeader) :
    Within (Quiet k s0) Proper (blockLockTimeCutoff height header : ChainM C _) fun _ => True := by
  refine Within.ite (fun _ => ?_) fun _ => Within.pure trivial
  refine Within.bind (P := fun _ => True) ?_ fun _ _ => Within.pure trivial
  exact Within.bind (within_getDiskBlockHeader _) fun previous _ => within_medianTimePast _

theorem within_verifyScript (height : Nat) :
    Within (Quiet k s0) Proper (verifyScript height : ChainM C _) fun _ => True := by
  refine Within.bind (P := fun _ => True) (Within.read fun _ _ => trivial) fun assumed _ => ?_
  cases assumed with
  | none => exact Within.pure trivial
  | some hash =>
    refine Within.bind (within_getHeader hash) fun found _ => ?_
    split <;> exact Within.pure trivial

theorem within_validateBlockNoAcc (block : Block) (height : Nat) (inputs : UtxoMap) :
    Within (Quiet k s0) Proper (validateBlockNoAcc block height inputs : ChainM C _)
      fun _ => True := by
  refine Within.bind (within_check (P := fun _ => True) fun _ _ => trivial) fun _ _ => ?_
  refine Within.bind (within_blockLockTimeCutoff _ _) fun cutoff _ => ?_
  exact Within.bind (within_verifyScript _) fun verify _ => within_check fun _ _ => trivial

/-- The entry of a block that can be connected, relative to the last validated block. -/
def Connectable (V : HeaderMap) (validationIndex hash : BlockHash) (n : Nat) : Prop :=
  ∃ h m, V validationIndex = some (.fullyValid h m) ∧
    ((n = m ∧ ∃ h', V hash = some (.fullyValid h' n)) ∨
      (n = m + 1 ∧ ∃ h', V hash = some (.headersOnly h' n)))

theorem within_getValidationIndex :
    Within (Quiet k s0) Proper (getValidationIndex : ChainM C _)
      fun m => ∃ h, s0.view s0.bestBlock.validationIndex = some (.fullyValid h m) := by
  refine Within.bind_eq (Within.read fun s hs => hs.bestBlock) ?_
  refine Within.bind (within_getDiskBlockHeader _) fun d hd => ?_
  cases d with
  | fullyValid h m => exact Within.pure ⟨h, hd⟩
  | assumedValid _ _ => exact within_raise _
  | headersOnly _ _ => exact within_raise _
  | inFork _ _ => exact within_raise _
  | orphan _ => exact within_raise _
  | invalidChain _ => exact within_raise _

theorem within_connectableHeight (hash : BlockHash) :
    Within (Quiet k s0) Proper (connectableHeight hash : ChainM C _)
      (Connectable s0.view s0.bestBlock.validationIndex hash) := by
  refine Within.bind (within_getDiskBlockHeader _) fun d hd => ?_
  cases d with
  | fullyValid h n =>
    refine Within.bind within_getValidationIndex fun m hm => ?_
    refine Within.bind (P := fun _ => n = m) (within_check fun _ h => ?_) fun _ hn => ?_
    · exact Fallible.require_eq_ok.mp h
    · rcases hm with ⟨h', hm⟩
      exact Within.pure ⟨h', m, hm, .inl ⟨hn, h, hd⟩⟩
  | headersOnly h n =>
    refine Within.bind within_getValidationIndex fun m hm => ?_
    refine Within.bind (P := fun _ => n = m + 1) (within_check fun _ h => ?_) fun _ hn => ?_
    · exact Fallible.require_eq_ok.mp h
    · rcases hm with ⟨h', hm⟩
      exact Within.pure ⟨h', m, hm, .inr ⟨hn, h, hd⟩⟩
  | assumedValid _ _ => exact within_raise _
  | inFork _ _ => exact within_raise _
  | orphan _ => exact within_raise _
  | invalidChain _ => exact within_raise _

theorem Connectable.onChain {V : HeaderMap} {validationIndex hash : BlockHash}
    (h : Connectable V validationIndex hash n) : ∃ d, OnChain V hash d n := by
  rcases h with ⟨-, -, -, ⟨-, h', hd⟩ | ⟨-, h', hd⟩⟩
  · exact ⟨_, hd, rfl, rfl⟩
  · exact ⟨_, hd, rfl, rfl⟩

/-! ## Connecting -/

theorem ChainInv.validate (hinv : ChainInv k s) (hd : OnChain s.view (C.blockHash header) d n)
    (hheader : d.header = header) (hg : isGenesis C header = false)
    (hw : Wrote k s (.fullyValid header n) s')
    (hforks : s'.chainstore.metadata.forkCount = s.chainstore.metadata.forkCount) :
    ChainInv k s' := by
  have hview : s'.view = Function.update s.view (C.blockHash header)
      (some (.fullyValid header n)) := hw.view
  have hframe := hw.saved.frame
  rcases hd.branch hinv.tree with ⟨hbranch, hbound⟩
  have hbest : s'.bestBlock = s.bestBlock := by rw [hw.same]
  refine ⟨hw.saved.inv, ?_, ?_, ?_, ?_⟩
  · rw [hforks, hframe.forkFileSize]
    exact hinv.forks
  · rw [hview, hforks, hframe.headersFileSize]
    refine hinv.tree.update (e := .fullyValid header n) ?_ hg (hheader ▸ hbranch) ?_ (Nat.le_refl _)
      hbound
    · intro d' hd'
      have hdd : d = d' := hd.entry_eq hd'
      rw [← hdd]
      exact hheader.symm
    · intro m hm
      exact (Option.some.inj hm).symm
  · rw [hview, hbest]
    exact hinv.settled.replace hd rfl rfl hheader.symm
  · rcases hinv.best with ⟨b, hb⟩
    rcases hd.replace (e := .fullyValid header n) rfl rfl hheader.symm hb with ⟨q, hq, -⟩
    rw [hview, hbest]
    exact ⟨q, hq⟩

theorem ChainInv.roots {store' : FlatChainStore} (hinv : ChainInv k s)
    (hframe : RootsFrame C.bitcoin C.genesisHash k s.chainstore store' n) :
    ChainInv k { s with chainstore := store' } := by
  rw [chainInv_iff, ChainStateInner.view, hframe.metadata, hframe.view]
  exact ⟨hframe.inv, ((chainInv_iff ..).mp hinv).2⟩

theorem ChainInv.flushed (hinv : ChainInv k s) (best : BestChain) :
    ChainInv k { s with chainstore := s.chainstore.withHeight best } := by
  rw [chainInv_iff, ChainStateInner.view, view_withHeight]
  exact ⟨hinv.store.withHeight best, hinv.forks, hinv.tree, hinv.settled, hinv.best⟩

/-- The accumulator file that a block of a height is appended to: the record of the block has just
been written, and has the position zero. -/
def rootsBase (s : ChainStateInner C) (flushed n : Nat) : Bytes :=
  if n ≤ flushed then [] else s.chainstore.accumulatorFile

/-- A block was stored as validated at its height, together with an accumulator. -/
@[mk_iff]
structure Validated (s : ChainStateInner C) (header : BlockHeader) (n : Nat)
    (acc : C.rustreexo.Stump) (s' : ChainStateInner C) : Prop where
  view : s'.view = Function.update s.view (C.blockHash header) (some (.fullyValid header n))
  headers : ∀ m ≠ n, s'.chainstore.headers m = s.chainstore.headers m
  size : (C.rustreexo.serialize acc).length ≤ MAX_ACCUMULATOR_SIZE
  roots : ∃ flushed, flushedHeight s.chainstore = .ok flushed ∧
    s'.chainstore.accumulatorFile = rootsBase s flushed n ++ C.rustreexo.serialize acc ∧
    s'.chainstore.headers n = ⟨.fullyValid header n, C.blockHash header,
      (rootsBase s flushed n).length % 2 ^ 32, (C.rustreexo.serialize acc).length % 2 ^ 32⟩
  acc : s'.acc = acc
  bestBlock : s'.bestBlock = { s.bestBlock with validationIndex := C.blockHash header }
  validationIndex : s'.chainstore.metadata.validationIndex = s.chainstore.metadata.validationIndex ∨
    s'.chainstore.metadata.validationIndex = C.blockHash header

theorem flushedHeight_replace {store store' : FlatChainStore}
    {d e : DiskBlockHeader} (hd : OnChain store.view x d n) (he : e.height = some n)
    (hview : store'.view = Function.update store.view x (some e))
    (hindex : store'.metadata.validationIndex = store.metadata.validationIndex) :
    flushedHeight store' = flushedHeight store := by
  unfold flushedHeight
  rw [hview, hindex]
  by_cases hx : store.metadata.validationIndex = x
  · rw [hx, Function.update_self, hd.entry]
    simp only [validationHeight, he, hd.height]
  · rw [Function.update_of_ne hx]

theorem updateView_spec
    (hinv : ChainInv k s)
    (hd : OnChain s.view (C.blockHash header) d n) (hheader : d.header = header)
    (hg : isGenesis C header = false) (hpos : n ≠ 0)
    (hroom : s.chainstore.metadata.blockIndexOccupancy + 1 < s.chainstore.metadata.indexCapacity) :
    wp (updateView n header acc) (fun r s' => ChainInv k s' ∧
      (r = .ok () → Validated s header n acc s') ∧
      s'.view = Function.update s.view (C.blockHash header) (some (.fullyValid header n))) s := by
  have hzero : C.blockHash header ≠ 0 := view_ne_zero hinv.store.core hd.entry
  rcases view_active hinv.store.core hd.entry hd.active with ⟨m, hm, hinside, hindex, -, -⟩
  have hnm : n = m := hd.height_eq hm
  subst hnm
  unfold updateView
  rw [wp_bind]
  refine wp_mono (updateHeaderAndIndex_spec (d := .fullyValid header n) hinv.store rfl rfl hpos hg
    hzero fun hx => hinv.settled.unique hx hd) ?_
  rintro r s1 (⟨rfl, hw, -, hheaders, hforks, -⟩ | ⟨fault, -, -, hfull⟩)
  swap
  · exact absurd ⟨hinside, hindex, hroom⟩ hfull
  have hinv1 : ChainInv k s1 := hinv.validate hd hheader hg hw hforks
  have hframe := hw.saved.frame
  have hrecord : s1.chainstore.headers n = ⟨.fullyValid header n, C.blockHash header, 0, 0⟩ := by
    rw [hheaders, Function.update_self]
    rfl
  have hng : C.blockHash header ≠ C.genesisHash := by
    intro heq
    simp [isGenesis, heq] at hg
  have hinside1 : n < s1.chainstore.metadata.headersFileSize := by
    rw [hframe.headersFileSize]
    exact hinside
  have hwritten : (s1.chainstore.headers n).hash ≠ 0 := by
    rw [hrecord]
    exact hzero
  have hother : (s1.chainstore.headers n).hash ≠ C.genesisHash := by
    rw [hrecord]
    exact hng
  rw [andThen_ok, wp_bind]
  unfold store
  rw [wp_zoom]
  refine wp_mono (saveRootsForBlock_spec hinv1.store hpos hindex hinside1 hwritten hother) ?_
  rintro r store' ⟨hroots, hsaved⟩
  have hinv2 : ChainInv k { s1 with chainstore := store' } := hinv1.roots hroots
  have hview : s1.view = Function.update s.view (C.blockHash header)
    (some (.fullyValid header n)) := hw.view
  cases r with
  | error e => exact ⟨hinv2, (fun h => by cases h), hroots.view.trans hview⟩
  | ok u =>
    refine ⟨{ hinv2 with }, fun _ => ?_,
      hroots.view.trans hview⟩
    rcases (hsaved rfl).appended with ⟨flushed, hflushed, hfile, hposition⟩
    have hbase : baseFile s1.chainstore flushed n = rootsBase s flushed n := by
      unfold baseFile rootsBase
      rw [hrecord, hframe.accumulatorFile]
      simp [setLen]
    refine ⟨hroots.view.trans hview, ?_, (hsaved rfl).size, ⟨flushed, ?_, ?_, ?_⟩, rfl, ?_, .inl ?_⟩
    · intro j hj
      refine (hroots.headers j hj).trans ?_
      rw [hheaders, Function.update_of_ne hj]
    · rw [← hflushed]
      exact (flushedHeight_replace hd rfl hview hframe.validationIndex).symm
    · rw [← hbase]
      exact hfile
    · rw [← hbase]
      refine hposition.trans ?_
      rw [hrecord]
    · change { s1.bestBlock with validationIndex := C.blockHash header } = _
      rw [hw.same]
    · exact (congrArg _ hroots.metadata).trans hframe.validationIndex

theorem Validated.of_quiet
    (h : Validated s header n acc s') (hs : Quiet k s0 s) :
    Validated s0 header n acc s' := by
  have hflushed : flushedHeight s.chainstore = flushedHeight s0.chainstore := by
    unfold flushedHeight
    rw [hs.files.view, hs.metadata]
  have hbase : ∀ flushed, rootsBase s flushed n = rootsBase s0 flushed n := by
    intro flushed
    unfold rootsBase
    rw [hs.accumulatorFile]
  simp only [validated_iff, hs.view, hs.headers, hflushed, hbase, hs.bestBlock, hs.metadata] at h ⊢
  exact h

theorem Validated.flushed
    (h : Validated s header n acc s') :
    Validated s header n acc
      { s' with chainstore := s'.chainstore.withHeight s'.bestBlock } where
  view := (view_withHeight ..).trans h.view
  headers := h.headers
  size := h.size
  roots := h.roots
  acc := h.acc
  bestBlock := h.bestBlock
  validationIndex := by
    refine .inr ?_
    change s'.bestBlock.validationIndex = C.blockHash header
    rw [h.bestBlock]

/-- What a caller of `connect_block` has to see to: the block is not the genesis block, its header
is the stored one of its hash, and the index of the store is not full. -/
structure ConnectReady (s : ChainStateInner C) (header : BlockHeader) : Prop where
  notGenesis : isGenesis C header = false
  stored : ∀ d, s.view (C.blockHash header) = some d → d.header = header
  bucket : s.chainstore.metadata.blockIndexOccupancy + 1 < s.chainstore.metadata.indexCapacity

theorem ChainInv.height_ne_zero (hinv : ChainInv k s)
    (hd : OnChain s.view x d n) (hg : isGenesis C d.header = false) :
    n ≠ 0 := by
  rintro rfl
  cases (hd.branch hinv.tree).1 with
  | genesis hg' =>
    rw [hg] at hg'
    cases hg'

/-- Headers of the best chain may have become valid, and nothing else has changed. -/
def Revalidated (V V' : HeaderMap) : Prop :=
  ∀ x, V' x = V x ∨ ∃ d n, OnChain V x d n ∧ V' x = some (.fullyValid d.header n)

namespace Revalidated

variable {V V' V'' : HeaderMap}

theorem of_eq (h : V' = V) : Revalidated V V' := fun x => .inl (congrFun h x)

theorem update (hd : OnChain V x d n) :
    Revalidated V (Function.update V x (some (.fullyValid d.header n))) := by
  intro y
  by_cases hy : y = x
  · subst hy
    exact .inr ⟨d, n, hd, Function.update_self ..⟩
  · exact .inl (Function.update_of_ne hy ..)

theorem trans (h : Revalidated V V') (h' : Revalidated V' V'') : Revalidated V V'' := by
  intro x
  rcases h' x with hsame' | ⟨d', n', hd', hnew'⟩
  · rw [hsame']
    exact h x
  · rcases h x with hsame | ⟨d, n, hd, hnew⟩
    · exact .inr ⟨d', n', ⟨hsame ▸ hd'.entry, hd'.active, hd'.height⟩, hnew'⟩
    · obtain rfl := hd'.entry_eq hnew
      cases hd'.height
      exact .inr ⟨d, _, hd, hnew'⟩

theorem onChain (h : Revalidated V V') (hd : OnChain V x d n) :
    ∃ e, OnChain V' x e n ∧ e.header = d.header := by
  rcases h x with hsame | ⟨e, m, he, hnew⟩
  · exact ⟨d, ⟨hsame.trans hd.entry, hd.active, hd.height⟩, rfl⟩
  · rcases he.heights_eq hd with ⟨rfl, rfl⟩
    exact ⟨_, ⟨hnew, rfl, rfl⟩, rfl⟩

theorem persists (h : Revalidated V V') : Persists V V' := by
  refine ⟨fun x d hd => ?_, fun x header hx => ?_⟩
  · rcases h x with hsame | ⟨e, n, he, hnew⟩
    · exact ⟨d, hsame.trans hd, rfl⟩
    · rw [he.entry_eq hd] at hnew
      exact ⟨_, hnew, rfl⟩
  · rcases h x with hsame | ⟨e, n, he, -⟩
    · exact hsame.trans hx
    · exact absurd hx (he.notInvalid header)

theorem unadded (h : Revalidated V V') : Unadded V V' := by
  intro x hx
  rcases h x with hsame | ⟨e, n, he, -⟩
  · exact hsame.trans hx
  · exact absurd rfl (he.ne_of_none hx)

end Revalidated

/-- A call of `connect_block` keeps the chain, and validates the block if it does not fail. -/
theorem connectBlock_spec (hinv : ChainInv k s) {block : Block}
    (hready : ConnectReady s block.header) (proof : C.rustreexo.Proof) (inputs : UtxoMap)
    (delHashes : List Hash256) :
    wp (connectBlock block proof inputs delHashes) (fun r s' => ChainInv k s' ∧
      Revalidated s.view s'.view ∧ ∀ n, r = .ok n →
        Connectable s.view s.bestBlock.validationIndex (C.blockHash block.header) n ∧
        ∃ acc, Validated s block.header n acc s') s := by
  have herror : ∀ (fault : Fault) (s' : ChainStateInner C), Proper fault → Quiet k s s' →
      ChainInv k s' ∧ Revalidated s.view s'.view ∧
      ∀ n, (.error fault : Except Fault Nat) = .ok n →
        Connectable s.view s.bestBlock.validationIndex (C.blockHash block.header) n ∧
        ∃ acc, Validated s block.header n acc s' := fun fault s' _ hs' =>
    ⟨hinv.quiet hs', .of_eq hs'.view, fun n hn => by cases hn⟩
  refine (within_connectableHeight _).before (Quiet.refl hinv.store) herror ?_
  intro n s1 hconnectable hs1
  refine Within.before (P := fun _ => True) (Within.read fun _ _ => trivial) hs1 herror ?_
  intro acc0 s2 _ hs2
  refine Within.before (P := fun _ => True) (within_check fun _ _ => trivial) hs2 herror ?_
  intro acc s3 _ hs3
  refine (within_validateBlockNoAcc block n inputs).before hs3 herror ?_
  intro _ s4 _ hs4
  -- nothing was written so far
  rcases hconnectable.onChain with ⟨d, hd⟩
  have hheader : d.header = block.header := hready.stored d hd.entry
  have hpos : n ≠ 0 := hinv.height_ne_zero hd (hheader ▸ hready.notGenesis)
  have hd4 : OnChain s4.view (C.blockHash block.header) d n := by
    rw [hs4.view]
    exact hd
  have hroom4 : s4.chainstore.metadata.blockIndexOccupancy + 1 <
      s4.chainstore.metadata.indexCapacity := by
    rw [hs4.metadata]
    exact hready.bucket
  rw [wp_bind]
  refine wp_mono (updateView_spec (hinv.quiet hs4) hd4 hheader hready.notGenesis hpos hroom4) ?_
  rintro (fault | u) s5 ⟨hinv5, hvalidated, hview5⟩
  all_goals
    rw [hs4.view] at hview5
    have hwritten : Revalidated s.view s5.view := by
      rw [hview5, ← hheader]
      exact .update (hheader ▸ hd)
  · exact ⟨hinv5, hwritten, fun n hn => by cases hn⟩
  have hvalidated5 : Validated s block.header n acc s5 := (hvalidated rfl).of_quiet hs4
  rw [andThen_ok, wp_bind]
  unfold isInIbd
  rw [wp_read, andThen_ok, wp_bind]
  split
  · refine ⟨hinv5.flushed s5.bestBlock, hwritten.trans (.of_eq (view_withHeight ..)), ?_⟩
    rintro m hm
    cases hm
    exact ⟨hconnectable, acc, hvalidated5.flushed⟩
  · rw [wp_pure, andThen_ok, wp_pure]
    refine ⟨hinv5, hwritten, ?_⟩
    rintro m hm
    cases hm
    exact ⟨hconnectable, acc, hvalidated5⟩

/-! ## Invalid blocks -/

/-- What a caller of `invalidate_block` has to see to: a block with a height is on the best chain and
is not the genesis block, and the fork file has room for everything from it on. -/
structure InvalidateReady (s : ChainStateInner C) (block : BlockHash) : Prop where
  active : ∀ d n, s.view block = some d → d.height = some n →
    d.isActive = true ∧ n ≠ 0
  forks : ∀ d n, s.view block = some d → d.height = some n →
    s.chainstore.metadata.forkCount + (s.bestBlock.depth + 1 - n) ≤
      min s.chainstore.metadata.forkFileSize (2 ^ 31)
  bucket : s.chainstore.metadata.blockIndexOccupancy + 1 < s.chainstore.metadata.indexCapacity

theorem within_getBlockHash_onChain
    (hd : OnChain s0.view x d n) :
    Within (Quiet k s0) (fun _ => False) (getBlockHash n : ChainM C _) (· = x) := by
  intro s hs
  have hd' : OnChain s.view x d n := by
    rw [hs.view]
    exact hd
  have hrecord := (hd'.record hs.inv).2
  have hstate := getBlockHash_state n s.chainstore
  unfold getBlockHash store
  rw [wp_bind, wp_zoom]
  unfold wp
  rw [hrecord, hstate]
  exact ⟨hs, rfl⟩

structure InvalidateRoom (s : ChainStateInner C) (f : Nat) : Prop where
  forks : s.chainstore.metadata.forkCount + (s.bestBlock.depth - f) ≤
    min s.chainstore.metadata.forkFileSize (2 ^ 31)
  bucket : s.chainstore.metadata.blockIndexOccupancy + 1 < s.chainstore.metadata.indexCapacity

/-- The headers of the heights `f + 1`, …, `f + i` are marked, and no others. -/
@[mk_iff]
structure Invalidating (k f : Nat) (s₁ : ChainStateInner C) (i : Nat) (s : ChainStateInner C) :
    Prop where
  marked : Marked k f (fun d => ∃ h, d = .invalidChain h) s₁ s
  gapped : ∃ cur, Gapped C s.view f (f + i) s₁.bestBlock.depth cur
  lost : ∀ {x d n}, OnChain s₁.view x d n → f < n → n ≤ f + i →
    s.view x = some (.invalidChain d.header)
  rest : ∀ x, (∀ d n, OnChain s₁.view x d n → n ≤ f ∨ f + i < n) → s.view x = s₁.view x
  headers : s.chainstore.headers = s₁.chainstore.headers
  forkCount : s.chainstore.metadata.forkCount = s₁.chainstore.metadata.forkCount + i
  occupancy : s.chainstore.metadata.blockIndexOccupancy =
    s₁.chainstore.metadata.blockIndexOccupancy

namespace Invalidating

variable {f i : Nat} {s₁ : ChainStateInner C}

theorem refl (hinv : ChainInv k s) (f : Nat) : Invalidating k f s 0 s where
  marked := Marked.refl hinv f _
  gapped := ⟨C.genesisHash, hinv.settled.cut hinv.tree f _⟩
  lost := by
    intro x d n _ hlt hle
    omega
  rest := fun _ _ => rfl
  headers := rfl
  forkCount := (Nat.add_zero _).symm
  occupancy := rfl

theorem quiet (h : Invalidating k f s₁ i s) (hs : Quiet k s s') :
    Invalidating k f s₁ i s' := by
  rw [invalidating_iff, hs.view, hs.metadata, hs.headers]
  exact ⟨h.marked.quiet hs, ((invalidating_iff ..).mp h).2⟩

theorem upper (h : Invalidating k f s₁ i s)
    (hx : OnChain s₁.view x d n) (hn : f + i < n) : OnChain s.view x d n := by
  refine ⟨?_, hx.active, hx.height⟩
  rw [h.rest x fun e m he => .inr ((he.heights_eq hx).2 ▸ hn)]
  exact hx.entry

end Invalidating

theorem invalidate_round {f i : Nat} {s1 : ChainStateInner C} (hinv : ChainInv k s1)
    (hi : f + i < s1.bestBlock.depth) (h : Invalidating k f s1 i s) :
    wp (do
      let hash ← getBlockHash (f + 1 + i)
      let header ← getBlockHeader hash
      updateHeader (.invalidChain header) : ChainM C Unit)
      (Writes (InvalidateRoom s1 f) (Invalidating k f s1 (i + 1))) s := by
  rcases hinv.onChain_at (n := f + 1 + i) (by omega) with ⟨x, d, hx1⟩
  have hx : OnChain s.view x d (f + 1 + i) := h.upper hx1 (by omega)
  refine (within_getBlockHash_onChain hx).before (Quiet.refl h.marked.store)
    (fun _ _ hfalse => hfalse.elim) ?_
  rintro hash s2 rfl hs2
  refine (within_getBlockHeader_stored (E := fun _ => False) hx.entry).before hs2
    (fun _ _ hfalse => hfalse.elim) ?_
  rintro header s3 rfl hs3
  -- the header was found, and it is written to the fork file
  have h3 := h.quiet hs3
  have hhash := h.marked.tree.hash _ _ hx.entry
  subst hhash
  have hx3 : OnChain s3.view (C.blockHash d.header) d (f + 1 + i) := by
    rw [hs3.view]
    exact hx
  have hg := onChain_notGenesis h3.marked.tree hx3 (by omega)
  have hzero : C.blockHash d.header ≠ 0 := view_ne_zero h3.marked.store.core hx3.entry
  refine wp_mono (updateHeader_spec (d := .invalidChain d.header) h3.marked.store rfl hg hzero) ?_
  rintro r s4 (⟨rfl, hw, hspare, hheaders, hforks, -⟩ | ⟨fault, rfl, hfull, hnoroom⟩)
  swap
  · refine .inr ⟨fault, rfl, hfull, fun hroom => hnoroom ?_⟩
    have hspace := hroom.forks
    refine ⟨?_, ?_, ?_⟩
    · rw [h3.forkCount, h3.marked.forkFileSize]
      omega
    · rw [h3.forkCount]
      omega
    · rw [h3.occupancy, h3.marked.indexCapacity]
      exact hroom.bucket
  have hview : s4.view = Function.update s3.view (C.blockHash d.header)
      (some (.invalidChain d.header)) := hw.view
  have hbranch := hx3.branch h3.marked.tree
  -- the marked header is the one of its height
  have hthis : ∀ {y e n}, OnChain s1.view y e n → n = f + 1 + i →
      y = C.blockHash d.header := fun hy hn => hinv.settled.unique (hn ▸ hy) hx1
  refine .inl ⟨rfl, ?_, ?_, ?_, ?_, hheaders.trans h3.headers, ?_, ?_⟩
  · refine h3.marked.write hw ?_ hg hbranch.1 (fun m hm => by cases hm) ?_ ⟨_, rfl⟩ (by omega) ?_
      ?_ fun m _ => congrFun hheaders m
    · intro e he
      have hde : d = e := hx3.entry_eq he
      rw [← hde]
      rfl
    · intro e m he
      have hm := (he.heights_eq hx3).2
      omega
    · rw [hforks]
      exact hspare.inside
    · have hle := hbranch.2
      omega
  · rcases h3.gapped with ⟨cur, hgap⟩
    refine ⟨C.blockHash d.header, ?_⟩
    rw [hview]
    exact hgap.shrink (Nat.le_add_right f i) ((show f + 1 + i = f + i + 1 by omega) ▸ hx3) rfl
  · intro y e n hy hlt hle
    rw [hview]
    by_cases hn : n = f + 1 + i
    · have hyd := hthis hy hn
      subst hyd
      rw [Function.update_self, (hy.heights_eq hx1).1]
    · have hne : y ≠ C.blockHash d.header := by
        rintro rfl
        exact hn (hy.heights_eq hx1).2
      rw [Function.update_of_ne hne]
      exact h3.lost hy hlt (by omega)
  · intro y hy
    have hne : y ≠ C.blockHash d.header := by
      rintro rfl
      have hcase := hy d _ hx1
      omega
    rw [hview, Function.update_of_ne hne]
    refine h3.rest y fun e n he => ?_
    have hcase := hy e n he
    omega
  · rw [hforks, h3.forkCount]
    omega
  · exact (hw.occupancy hx3.entry).trans h3.occupancy

/-- The best chain above the height `f` was marked as invalid, and `tip` was made the best block at
that height. -/
structure Invalidated (k f : Nat) (s : ChainStateInner C) (tip : BlockHash)
    (s' : ChainStateInner C) : Prop where
  marked : Marked k f (fun d => ∃ h, d = .invalidChain h) s { s with chainstore := s'.chainstore }
  gapped : ∃ cur, Gapped C s'.view f (f + (s.bestBlock.depth - f)) s.bestBlock.depth cur
  lost : ∀ {x d n}, OnChain s.view x d n → f < n → s'.view x = some (.invalidChain d.header)
  rest : ∀ x, (∀ d n, OnChain s.view x d n → n ≤ f) → s'.view x = s.view x
  headers : s'.chainstore.headers = s.chainstore.headers
  same : s' = { s with
    chainstore := s'.chainstore
    bestBlock := { s.bestBlock with bestBlock := tip, depth := f } }

/-- What a call of `invalidate_block` answers for any block but the genesis block. -/
theorem invalidateBlock_replies (hinv : ChainInv k s)
    (hpos : ∀ d n, s.view block = some d → d.height = some n → n ≠ 0) :
    wp (invalidateBlock block) (Replies k s
      (∀ d f, s.view block = some d → d.height = some (f + 1) → InvalidateRoom s f)
      Proper fun s' => ∃ d f, s.view block = some d ∧ d.height = some (f + 1) ∧
        Invalidated k f s d.header.prevBlockhash s') s := by
  refine Replies.reads (within_getDiskBlockHeader block) (Quiet.refl hinv.store)
    (fun _ h => h) fun d s1 hentry hs1 => ?_
  refine Replies.reads (A := fun n => d.height = some n) (within_check fun _ => tryHeight_eq_ok) hs1
    (fun _ h => h) fun n s2 hheight hs2 => ?_
  refine Replies.reads (E := Proper) within_getBestBlock hs2 (fun _ h => h) ?_
  rintro best s3 rfl hs3
  rcases Nat.exists_eq_succ_of_ne_zero (hpos d n hentry hheight) with ⟨f, rfl⟩
  refine Replies.writes (Writes.bind (Q := Invalidating k f s (s.bestBlock.depth - f)) ?_ ?_)
  · have hrounds : s.bestBlock.depth + 1 - (f + 1) = s.bestBlock.depth - f := by omega
    simp only [Nat.succ_eq_add_one, hrounds]
    refine wp_forM_range (Invalidating k f s) (fun i hi s' hs' => ?_) (fun s' hs' => .inl ⟨rfl, hs'⟩)
      ((Invalidating.refl hinv f).quiet hs3)
    refine wp_mono (invalidate_round hinv (by omega) hs') ?_
    rintro r s'' (⟨rfl, hs''⟩ | ⟨fault, rfl, hfull, hnoroom⟩)
    · exact .inl ⟨rfl, hs''⟩
    · exact .inr ⟨fault, rfl, .inr ⟨fault, rfl, hfull, fun h => hnoroom (h d f hentry hheight)⟩⟩
  intro s4 h4
  -- the block and its parent are still stored
  have hng : isGenesis C d.header = false := by
    refine hinv.tree.notGenesis hentry ?_
    rintro rfl
    cases hheight
  rcases hinv.tree.rooted _ _ hentry with ⟨m, -, hbranch, -⟩
  rcases hbranch.stored hng with ⟨p, -, hp, -, -⟩
  rcases h4.marked.keeps block d hentry with ⟨e, he, heq⟩
  rcases h4.marked.keeps _ p hp with ⟨q, hq, -⟩
  rw [wp_bind]
  refine (within_getBlockHeader_stored he).yields (Quiet.refl h4.marked.store) fun s5 hs5 => ?_
  rw [heq, andThen_ok, wp_bind]
  refine (within_getDiskBlockHeader_stored hq).yields hs5 fun s6 hs6 => ?_
  rw [andThen_ok]
  have hparent : C.blockHash q.header = d.header.prevBlockhash := h4.marked.tree.hash _ _ hq
  have h6 := h4.quiet hs6
  have hstore : { s with chainstore := s6.chainstore } = s6 := h6.marked.same.symm
  refine .inl ⟨rfl, d, f, hentry, hheight, ?_, h6.gapped, ?_, ?_, h6.headers, ?_⟩
  · change Marked k f _ s { s with chainstore := s6.chainstore }
    rw [hstore]
    exact h6.marked
  · intro x a n hx hlt
    have hcap := hinv.settled.capped hx
    exact h6.lost hx hlt (by omega)
  · exact fun x hx => h6.rest x fun a n ha => .inl (hx a n ha)
  · rw [hparent]
    change { s6 with bestBlock := { s6.bestBlock with
      bestBlock := d.header.prevBlockhash, depth := f } } = _
    rw [← hstore]
    rfl

theorem Invalidated.inv (hinv : ChainInv k s) {f : Nat} (hd : OnChain s.view block d (f + 1))
    (h : Invalidated k f s d.header.prevBlockhash s') : ChainInv k s' := by
  have hle : f + 1 ≤ s.bestBlock.depth := hinv.settled.capped hd
  have hbest : s'.bestBlock = { s.bestBlock with
      bestBlock := d.header.prevBlockhash, depth := f } := by rw [h.same]
  rcases hinv.settled.parent_succ hinv.tree hd with ⟨-, p, hp⟩
  rcases h.gapped with ⟨cur, hgap⟩
  have hdepth : f + (s.bestBlock.depth - f) = s.bestBlock.depth := by omega
  rw [hdepth] at hgap
  refine ⟨h.marked.store, h.marked.forks, h.marked.tree, ?_, p, ?_⟩
  · rw [hbest]
    exact hgap.settled
  · rw [hbest]
    exact ⟨h.marked.stay hp (Nat.le_refl f), hp.active, hp.height⟩

theorem InvalidateReady.room (h : InvalidateReady s block) :
    ∀ d f, s.view block = some d → d.height = some (f + 1) → InvalidateRoom s f := by
  intro d f hd hf
  have hspace := h.forks d (f + 1) hd hf
  exact ⟨by omega, h.bucket⟩

end Floresta.ChainState
