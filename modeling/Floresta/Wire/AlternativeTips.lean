import Floresta.ChainState.Invalidation
import Floresta.Wire.ChainSelector

/-!
# AlternativeTips — testing the best chain against another tip

If a peer follows another branch, the chain selector downloads the block where the branches part and
validates it.  If the block is invalid, the node bans the peers on its own tip, switches to the other
branch and invalidates the block.  But the fork point is a block of both branches: with it the other
branch is gone as well.
-/

namespace Floresta.Wire

open Prog ChainState FlatChainStore

/-! ## The node -/

/-- The peers of a node that follows a chain, as they are while one tip is looked at. -/
structure Peers (C : ChainContext) where
  stumpEq : DecidableEq C.rustreexo.Stump
  /-- `Stump { leaves, roots }` -/
  stump : Nat → List Bytes → C.rustreexo.Stump
  /-- `Stump::verify` -/
  verify : C.rustreexo.Stump → C.rustreexo.Proof → List NodeHash → Except String Bool
  peerIds : List PeerId
  isArchive : PeerId → Bool
  isManual : PeerId → Bool
  /-- the peer that is drawn from those with the service `UTREEXO`, if there are any -/
  utreexoPeer : Option PeerId
  /-- the last tip that a peer announced -/
  tipCache : PeerId → Option BlockHash
  /-- the entry of a peer in the address manager -/
  addressId : PeerId → Nat
  otherRequests : Bool
  receive : List (PeerId × NodeRequest) → List (Notification C.rustreexo)

/-- The chain selector: what it sent, its chain, and the addresses that were marked as banned. -/
structure Selector (C : ChainContext) where
  node : Node
  chain : ChainStateInner C
  bannedAddresses : List Nat

abbrev SelectorM (C : ChainContext) := Prog (Selector C) Fault

variable {C : ChainContext}

/-- `From<BlockchainError> for WireError`; panics stay panics. -/
def fromChain : Floresta.Fault → Fault
  | .error e => .error (.blockchain e)
  | .diverged => .diverged
  | .panicked _ => .panic

def onChain {α : Type} (m : ChainM C α) : SelectorM C α :=
  Prog.zoom Selector.chain (fun chain s => { s with chain := chain }) fromChain m

/-- The answer of a lookup; the two that are handed out raise errors only. -/
def lookup {α : Type} (m : ChainM C α) (s : ChainStateInner C) : Except BlockchainError α :=
  match (m s).1 with
  | .ok a => .ok a
  | .error (.error e) => .error e
  | .error _ => .error .chainNotInitialized

namespace Peers

variable (P : Peers C)

/-- What the accumulator search runs on, for the current state of the chain. -/
def context (s : ChainStateInner C) : Context where
  bitcoin := C.bitcoin
  rustreexo := C.rustreexo
  stumpEq := P.stumpEq
  stump := P.stump
  bestBlock := (s.bestBlock.depth, s.bestBlock.bestBlock)
  getBlockHash height := lookup (ChainState.getBlockHash height) s
  getMtpByHeight height := lookup (ChainState.getMtpByHeight height) s
  peerIds := P.peerIds
  isArchive := P.isArchive
  isManual := P.isManual
  otherRequests := P.otherRequests
  receive := P.receive

/-- An exchange with the peers, which does not change the chain. -/
def exchange {α : Type} (m : (s : ChainStateInner C) → NodeM α) : SelectorM C α := fun s =>
  Prog.zoom Selector.node (fun node s => { s with node := node }) id (m s.chain) s

/-! ## Testing a block -/

def validateBlock (block : Block) (proof : C.rustreexo.Proof) (inputs : UtxoMap)
    (delHashes : List Hash256) (acc : C.rustreexo.Stump) : ChainM C Unit := do
  let valid ← check ((P.verify acc proof (delHashes.map NodeHash.some)).mapError .accumulatorError)
  check (Fallible.require (valid = true) (.blockValidation .invalidUtreexoProof))
  let header ← getDiskBlockHeader (C.blockHash block.header)
  let height ← check header.tryHeight
  validateBlockNoAcc block height inputs

def banPeersOnTip (tip : BlockHash) : SelectorM C Unit :=
  P.peerIds.forM fun peer =>
    if P.tipCache peer = some tip then do
      Prog.modify fun s => { s with bannedAddresses := s.bannedAddresses ++ [P.addressId peer] }
      exchange fun s => disconnectAndBan (P.context s) peer
    else pure ()

/-- The first half of `is_our_chain_invalid`: the block that is tested, and whether it is valid. -/
def testForkPoint (otherTip : BlockHash) : SelectorM C (BlockHash × Bool) := do
  let fork ← onChain (getForkPoint otherTip)
  let height ← onChain (getBlockHeight fork)
  let forkHeight := height.getD 0
  match P.utreexoPeer with
  | none => Prog.fail (.error .noPeersAvailable)
  | some randPeer => do
      let inflight : InflightBlock C.rustreexo ← exchange fun s =>
        getBlockAndProof (P.context s) randPeer fork
      let (delHashes, inputs) ← exchange fun s =>
        Wire.chain (Udata.processProof C.bitcoin .utreexoLeaf (P.context s).getBlockHash
          (P.context s).getMtpByHeight inflight.auxData.leafData inflight.block.txdata)
      let acc : C.rustreexo.Stump ← exchange fun s =>
        findAccumulatorForBlock (P.context s) forkHeight fork
      match ← Prog.attempt (onChain (P.validateBlock inflight.block inflight.auxData.proof inputs
        delHashes acc)) with
      | .ok _ => pure (fork, true)
      | .error (.error _) => pure (fork, false)
      | .error fault => Prog.fail fault

/-- The second half: one of the branches is given up. -/
def settle (otherTip : BlockHash) : BlockHash × Bool → SelectorM C Unit
  | (fork, false) => do
      let best ← onChain getBestBlock
      P.banPeersOnTip best.2
      onChain (switchChain otherTip)
      onChain (invalidateBlock fork)
  | (_, true) => P.banPeersOnTip otherTip

def isOurChainInvalid (otherTip : BlockHash) : SelectorM C Unit := do
  P.settle otherTip (← P.testForkPoint otherTip)

/-! ## What the test leaves alone -/

section Reads

variable {k : Nat} {s₀ : ChainStateInner C}

/-- The chain is as it was, up to its cache. -/
def Calm (k : Nat) (s₀ : ChainStateInner C) (s : Selector C) : Prop := Quiet k s₀ s.chain

theorem within_onChain {α : Type} {E : Floresta.Fault → Prop} {m : ChainM C α} {A : α → Prop}
    (hm : Within (Quiet k s₀) E m A) : Within (Calm k s₀) (fun _ => True) (onChain m) A :=
  hm.zoom (fun _ hs => hs) (fun _ _ _ hs => hs) fun _ _ => trivial

theorem within_exchange {α : Type} (m : ChainStateInner C → NodeM α) :
    Within (Calm k s₀) (fun _ => True) (exchange m) fun _ => True := by
  intro s hs
  have hzoom : Within (Calm k s₀) (fun _ => True) (Prog.zoom Selector.node
      (fun node (s : Selector C) => { s with node := node }) id (m s.chain)) fun _ => True :=
    (Within.any (m s.chain)).zoom (fun _ _ => trivial) (fun _ _ hs _ => hs) fun _ _ => trivial
  exact hzoom s hs

theorem within_validateBlock (block : Block) (proof : C.rustreexo.Proof) (inputs : UtxoMap)
    (delHashes : List Hash256) (acc : C.rustreexo.Stump) :
    Within (Quiet k s₀) Proper (P.validateBlock block proof inputs delHashes acc) fun _ => True := by
  refine Within.bind (within_check fun _ _ => trivial) fun valid _ => ?_
  refine Within.bind (within_check fun _ _ => trivial) fun _ _ => ?_
  refine Within.bind (within_getDiskBlockHeader _) fun header _ => ?_
  refine Within.bind (within_check fun _ _ => trivial) fun height _ => ?_
  exact (within_validateBlockNoAcc block height inputs).mono fun _ _ => trivial

theorem within_banPeersOnTip (tip : BlockHash) :
    Within (Calm k s₀) (fun _ => True) (P.banPeersOnTip tip) fun _ => True := by
  refine Within.forM _ fun peer _ => Within.ite (fun _ => ?_) fun _ => Within.pure trivial
  refine Within.bind (P := fun _ => True) (fun s hs => ⟨hs, trivial⟩) fun _ _ => ?_
  exact within_exchange _

/-- The block is where the branch of the tip leaves the best chain. -/
def ForkPoint (s : ChainStateInner C) (otherTip fork : BlockHash) : Prop :=
  ∃ e d j f, s.view otherTip = some e ∧ Descent s.view DiskBlockHeader.isActive e.header d j ∧
    OnChain s.view fork d f ∧ isGenesis C d.header = false

theorem within_getForkPoint (hinv : ChainInv k s₀) {otherTip : BlockHash}
    (hne : otherTip ≠ C.genesisHash) :
    Within (Quiet k s₀) Proper (getForkPoint otherTip : ChainM C _) (ForkPoint s₀ otherTip) := by
  refine Within.bind (within_getBlockHeader otherTip) ?_
  rintro header ⟨e, he, rfl⟩
  rcases hinv.candidate he hne with ⟨n, hcandidate⟩
  refine Within.bind (within_forkPoint hinv hcandidate onlyOrphans_proper onlyAtGenesis_proper) ?_
  rintro fp ⟨d, j, f, hdesc, hd, rfl, hng, -⟩
  exact Within.pure ⟨e, d, j, f, he, hdesc, hd, hng⟩

theorem within_testForkPoint (hinv : ChainInv k s₀) {otherTip : BlockHash}
    (hne : otherTip ≠ C.genesisHash) :
    Within (Calm k s₀) (fun _ => True) (P.testForkPoint otherTip)
      fun tested => ForkPoint s₀ otherTip tested.1 := by
  refine Within.bind (within_onChain (within_getForkPoint hinv hne)) fun fork hfork => ?_
  refine Within.bind (within_onChain (within_getBlockHeight fork)) fun height _ => ?_
  cases P.utreexoPeer with
  | none => exact Within.fail trivial
  | some randPeer =>
    refine Within.bind (within_exchange _) fun inflight _ => ?_
    refine Within.bind (within_exchange _) fun proved _ => ?_
    refine Within.bind (within_exchange _) fun acc _ => ?_
    refine Within.bind (within_onChain (P.within_validateBlock _ _ _ _ _)).attempt fun answer _ => ?_
    rcases answer with fault | u
    · cases fault with
      | error e => exact Within.pure hfork
      | panic => exact Within.fail trivial
      | diverged => exact Within.fail trivial
    · exact Within.pure hfork

end Reads

/-! ## Both branches are given up -/

/-- What a switch to another tip is for: the tip and its ancestors are the best chain, and the
block that was invalidated is on the old branch only. -/
structure KeepsOther (s : ChainStateInner C) (otherTip fork : BlockHash)
    (s' : ChainStateInner C) : Prop where
  tip : s'.bestBlock.bestBlock = otherTip
  chain : ∀ x, Descends C (storedHeaders s') x otherTip →
    ∃ d, storedHeaders s' x = some d ∧ d.isActive = true
  own : UnderTip s fork
  foreign : ¬ Descends C (storedHeaders s) fork otherTip

section Settle

variable {k : Nat} {s t : ChainStateInner C} {otherTip fork : BlockHash}

section

variable (hinv : ChainInv k s) (hne : otherTip ≠ C.genesisHash) (h : ForkPoint s otherTip fork)

include hinv hne h

theorem ForkPoint.descends : Descends C s.view fork otherTip := by
  rcases h with ⟨e, d, j, f, he, hdesc, hd, -⟩
  rcases hinv.candidate he hne with ⟨n, hcandidate⟩
  rw [← hinv.tree.hash _ _ hd.entry]
  exact hinv.tree.descent_descends rfl he hcandidate.notGenesis hdesc

theorem ForkPoint.onChain {e : DiskBlockHeader} {n f : Nat}
    (he : s.view otherTip = some e) (hcandidate : Candidate s e.header n)
    (haccepted : Accepted k f s t) (hswitched : Switched s e.header (n + 1) t) :
    (∃ d, OnChain t.view otherTip d (n + 1)) ∧ ∃ d m, OnChain t.view fork d m ∧ m < n + 1 := by
  have hhash := hinv.tree.hash _ _ he
  have htip : OnChain t.view otherTip (.headersOnly e.header (n + 1)) (n + 1) := by
    refine ⟨?_, rfl, rfl⟩
    rw [← hhash]
    exact hswitched.tip
  refine ⟨⟨_, htip⟩, ?_⟩
  have hdescends := (h.descends hinv hne).keeps haccepted.keeps
  rcases haccepted.inv.settled.ancestor haccepted.inv.tree hdescends htip with ⟨d, m, hd, hle⟩
  refine ⟨d, m, hd, Nat.lt_of_le_of_ne hle ?_⟩
  -- at the same height it would be the tip itself, which has a longer branch
  rintro rfl
  have hsame := haccepted.inv.settled.unique hd htip
  rcases h with ⟨e', d', j, i, he', hdesc, hd', -⟩
  have hee : e' = e := Option.some.inj (he'.symm.trans he)
  subst hee
  rcases hinv.tree.descent_branch rfl hcandidate.branch hcandidate.notGenesis hdesc with
    ⟨i', hbranch, hlen⟩
  have hde : d' = e' := Option.some.inj (hd'.entry.symm.trans (hsame ▸ he))
  rw [hde] at hbranch
  have heq := hbranch.unique hcandidate.branch
  have hpos := hdesc.pos
  omega

theorem ForkPoint.lost {e : DiskBlockHeader} {n f : Nat} (he : s.view otherTip = some e)
    (hcandidate : Candidate s e.header n) (haccepted : Accepted k f s t)
    (hswitched : Switched s e.header (n + 1) t) :
    wp (invalidateBlock fork) (fun r s' => r = .ok () → ChainInv k s' ∧
      ∃ header, s'.view otherTip = some (.invalidChain header)) t := by
  rcases h.onChain hinv hne he hcandidate haccepted hswitched with ⟨⟨a, ha⟩, b, m, hb, hlt⟩
  have hfork : fork ≠ C.genesisHash := by
    rintro rfl
    rcases h with ⟨_, d, _, _, _, _, hd, hng⟩
    simp [isGenesis, hinv.tree.hash _ _ hd.entry] at hng
  refine wp_mono (invalidateBlock_replies haccepted.inv fun d i hd hi =>
    haccepted.inv.stored_height_ne_zero hd hi hfork) ?_
  rintro (fault | u) s' hreplies hok
  · cases hok
  rcases hreplies with ⟨d, i, hd, hi, hinvalidated⟩
  have hdb : d = b := Option.some.inj (hd.symm.trans hb.entry)
  subst hdb
  obtain rfl : m = i + 1 := hb.height_eq hi
  exact ⟨hinvalidated.inv haccepted.inv hb, a.header, hinvalidated.lost ha (by omega)⟩

theorem settle_invalid {u : Selector C} (hu : Calm k s u) :
    wp (P.settle otherTip (fork, false)) (fun r s' => r = .ok () → ChainInv k s'.chain ∧
      ∃ header, s'.chain.view otherTip = some (.invalidChain header)) u := by
  refine (within_onChain (E := Proper) within_getBestBlock).before hu
    (fun _ _ _ _ hok => by cases hok) ?_
  intro best u1 _ hu1
  refine (P.within_banPeersOnTip best.2).before hu1 (fun _ _ _ _ hok => by cases hok) ?_
  intro _ u₂ _ hu2
  have hinv2 := hinv.quiet hu2
  have h2 : ForkPoint u₂.chain otherTip fork := by
    unfold ForkPoint
    rw [hu2.view]
    exact h
  rw [wp_bind]
  unfold Wire.onChain
  rw [wp_zoom]
  refine wp_mono (switchChain_replies hinv2 hne) ?_
  rintro (fault | _) t hreplies
  · exact fun hok => by cases hok
  rcases hreplies with ⟨e, n, he, hcandidate, ⟨f, haccepted⟩, hswitched⟩
  rw [show (Except.ok () : Except Floresta.Fault Unit).mapError fromChain = .ok () from rfl,
    andThen_ok, wp_zoom]
  refine wp_mono (h2.lost hinv2 hne he hcandidate haccepted hswitched) ?_
  rintro (fault | _) s' hlost hok
  · cases hok
  · exact hlost rfl

end

end Settle

/-- In no state that can be reached does a switch keep the other branch: after a block was found
invalid, the other tip is not the best block, and the block is one of its ancestors. -/
theorem isOurChainInvalid_loses {config : FlatChainStoreConfig} {start : ChainStateInner C}
    (hnew : Created config start) {s s₁ s' : Selector C}
    (hreach : Reaches start s.chain) {otherTip fork : BlockHash} (hne : otherTip ≠ C.genesisHash)
    (htest : P.testForkPoint otherTip s = (.ok (fork, false), s₁))
    (hrun : P.isOurChainInvalid otherTip s = (.ok (), s')) :
    ¬ KeepsOther s.chain otherTip fork s'.chain ∧ s'.chain.bestBlock.bestBlock ≠ otherTip ∧
      Descends C (storedHeaders s.chain) fork otherTip := by
  have hinv := hreach.inv (new_inv hnew.isNew)
  have htested := P.within_testForkPoint hinv hne s (Quiet.refl hinv.store)
  unfold wp at htested
  rw [htest] at htested
  rcases htested with ⟨hcalm, hfork⟩
  have hdescends : Descends C (storedHeaders s.chain) fork otherTip := by
    rw [storedHeaders_eq hinv.store]
    exact ForkPoint.descends hinv hne hfork
  have hsettled := P.settle_invalid hinv hne hfork hcalm
  have hrest : P.settle otherTip (fork, false) s₁ = (.ok (), s') := by
    unfold isOurChainInvalid at hrun
    rw [bind_apply, htest] at hrun
    exact hrun
  unfold wp at hsettled
  rw [hrest] at hsettled
  rcases hsettled rfl with ⟨hinv', header, hlost⟩
  have htip : s'.chain.bestBlock.bestBlock ≠ otherTip := by
    rintro rfl
    rcases hinv'.best with ⟨b, hb⟩
    exact hb.notInvalid header hlost
  exact ⟨fun hkept => hkept.foreign hdescends, htip, hdescends⟩

/-! ### A fork above one block -/

namespace Sample

open ChainState.Sample

/-- One peer is on each branch; the block they share has a proof that does not verify. -/
def peers : Peers ChainContext.sample where
  stumpEq := inferInstanceAs (DecidableEq Bytes)
  stump _ _ := ([] : Bytes)
  verify _ _ _ := .ok false
  peerIds := [1, 2]
  isArchive peer := peer = 2
  isManual _ := false
  utreexoPeer := some 1
  tipCache peer := some (ChainContext.sample.blockHash
    (if peer = 1 then block₂.header else fork₂.header))
  addressId := id
  otherRequests := false
  receive sent :=
    match sent.getLast? with
    | some (_, .getBlock _) => [some (1, .block block₁), some (1, .utreexoProof ⟨[], ()⟩)]
    | _ => [some (2, .utreexoState [])]

/-- The two branches are known. -/
def selector (chain : ChainStateInner ChainContext.sample) : Selector ChainContext.sample :=
  ⟨⟨[], [], []⟩, chain, []⟩

def headers : List BlockHeader := [block₁.header, block₂.header, fork₂.header]

def shared : BlockHash := ChainContext.sample.blockHash block₁.header

def other : BlockHash := ChainContext.sample.blockHash fork₂.header

theorem other_ne_genesis : other ≠ ChainContext.sample.genesisHash := by decide +kernel

theorem run_loses : afterHeaders headers (fun chain =>
    let s' := (Sample.peers.isOurChainInvalid other (selector chain)).2
    decide ((Sample.peers.testForkPoint other (selector chain)).1 = .ok (shared, false) ∧
      (Sample.peers.isOurChainInvalid other (selector chain)).1 = .ok () ∧
      s'.chain.bestBlock.bestBlock = ChainContext.sample.genesisHash ∧
      storedHeaders s'.chain other = some (.invalidChain fork₂.header) ∧
      storedHeaders s'.chain shared = some (.invalidChain block₁.header))) = true := by
  decide +kernel

end Sample

open Sample ChainState.Sample ChainContext in
/-- The run that gives up both branches. -/
theorem isOurChainInvalid_loses_fork :
    ∃ start s s', new sample (createChainStore Sample.config) none =
        .ok start ∧ s = selector (acceptHeaders headers start).2 ∧
      Sample.peers.isOurChainInvalid other s = (.ok (), s') ∧
      ¬ KeepsOther s.chain other shared s'.chain ∧ s'.chain.bestBlock.bestBlock ≠ other ∧
      Descends sample (storedHeaders s.chain) shared other := by
  rcases afterHeaders_eq_true run_loses with ⟨start, chain, hnew, hheaders, -, hchain, htest⟩
  rcases of_decide_eq_true htest with ⟨htested, hok, -⟩
  refine ⟨start, selector chain, _, hnew, by rw [hchain], Prod.ext hok rfl, ?_⟩
  exact isOurChainInvalid_loses Sample.peers (created hnew) hheaders.reaches
    other_ne_genesis (Prod.ext htested rfl) (Prod.ext hok rfl)

open Sample ChainState.Sample ChainContext in
/-- The node ends up on the genesis block, with the branch it switched to marked as invalid. -/
theorem isOurChainInvalid_ends_at_genesis :
    ∃ start s s', new sample (createChainStore Sample.config) none =
        .ok start ∧ s = selector (acceptHeaders headers start).2 ∧ Reaches start s.chain ∧
      (Sample.peers.testForkPoint other s).1 = .ok (shared, false) ∧
      Sample.peers.isOurChainInvalid other s = (.ok (), s') ∧
      s'.chain.bestBlock.bestBlock = sample.genesisHash ∧
      storedHeaders s'.chain other = some (.invalidChain fork₂.header) ∧
      storedHeaders s'.chain shared = some (.invalidChain block₁.header) ∧
      ¬ KeepsOther s.chain other shared s'.chain := by
  rcases afterHeaders_eq_true run_loses with ⟨start, chain, hnew, hheaders, -, hchain, htest⟩
  rcases of_decide_eq_true htest with ⟨htested, hok, htip, hother, hshared⟩
  refine ⟨start, selector chain, _, hnew, by rw [hchain], hheaders.reaches, htested,
    Prod.ext hok rfl, htip, hother, hshared, fun hkept => ?_⟩
  exact other_ne_genesis (hkept.tip.symm.trans htip)

end Peers

end Floresta.Wire
