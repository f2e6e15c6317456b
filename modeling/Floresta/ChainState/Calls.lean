import Floresta.ChainState.HeaderRuns
import Floresta.ChainState.Marking

/-!
# Calls — runs of the chain state, and rejected headers

The calls that change a chain state, in any order.  If every one of them finds the room it needs,
each state of the run satisfies the invariant of the chain state, and a header that is rejected in
such a state leaves no trace.
-/

namespace Floresta.ChainState

open Prog FlatChainStore

variable {C : ChainContext} {k : Nat} {s s' start : ChainStateInner C} {x : BlockHash}
  {d : DiskBlockHeader}

/-! ## Switching to a stored branch -/

/-- What a caller of `switch_chain` has to see to: the new tip is not the genesis block, and there is
room for the reorganisation. -/
structure SwitchReady (s : ChainStateInner C) (newTip : BlockHash) : Prop where
  notGenesis : newTip ≠ C.genesisHash
  room : ∀ d, s.view newTip = some d → SwitchRoom s d.header

theorem ChainInv.candidate (hinv : ChainInv k s) (hd : s.view x = some d) (hx : x ≠ C.genesisHash) :
    ∃ n, Candidate s d.header n := by
  have hhash := hinv.tree.hash x d hd
  rcases hinv.tree.rooted x d hd with ⟨m, hm, hbranch, -⟩
  cases hbranch with
  | genesis hg => exact absurd (hhash.symm.trans (by simpa [isGenesis] using hg)) hx
  | @child _ p n hg hp hrest =>
    refine ⟨n, ?_, ?_, .child hg hp hrest, Nat.le_of_succ_le hm⟩
    · intro e he
      rw [hinv.tree.lookup hd] at he
      rw [Option.some.inj he]
    · rw [hhash]
      exact view_ne_zero hinv.store.core hd

theorem switchChain_replies (hinv : ChainInv k s) {newTip : BlockHash}
    (hne : newTip ≠ C.genesisHash) :
    wp (switchChain newTip) (Replies k s
      (∀ d, s.view newTip = some d → SwitchRoom s d.header) Proper
      fun s' => ∃ d n, s.view newTip = some d ∧ Candidate s d.header n ∧
        (∃ f, Accepted k f s s') ∧ Switched s d.header (n + 1) s') s := by
  refine Replies.reads (within_getBlockHeader newTip) (Quiet.refl hinv.store) (fun _ h => h) ?_
  rintro header s1 ⟨d, hd, rfl⟩ hs1
  rcases hinv.candidate hd hne with ⟨n, hcandidate⟩
  refine Replies.mono (reorg_spec hinv hcandidate hs1) (fun hroom => hroom d hd)
    (fun _ h => h.1) fun s' h => ⟨d, n, hd, hcandidate, h.1, h.2⟩

/-! ## Calls -/

/-- A call that may change the state. -/
inductive Call (C : ChainContext)
  | acceptHeader (header : BlockHeader)
  | connectBlock (block : Block) (proof : C.rustreexo.Proof) (inputs : UtxoMap)
      (delHashes : List Hash256)
  | invalidateBlock (block : BlockHash)
  | switchChain (newTip : BlockHash)
  | markBlockAsValid (block : BlockHash)
  | markChainAsAssumed (acc : C.rustreexo.Stump) (assumedHash : BlockHash)
  | flush
  | updateIbd (ibd : IBDState)

/-- The state after a call, whatever it answers. -/
def Call.run : Call C → ChainStateInner C → ChainStateInner C
  | .acceptHeader header, s => (ChainState.acceptHeader header s).2
  | .connectBlock block proof inputs delHashes, s =>
    (ChainState.connectBlock block proof inputs delHashes s).2
  | .invalidateBlock block, s => (ChainState.invalidateBlock block s).2
  | .switchChain newTip, s => (ChainState.switchChain newTip s).2
  | .markBlockAsValid block, s => (ChainState.markBlockAsValid block s).2
  | .markChainAsAssumed acc assumedHash, s => (ChainState.markChainAsAssumed acc assumedHash s).2
  | .flush, s => (ChainState.flush s).2
  | .updateIbd ibd, s => (ChainState.updateIbd ibd s).2

/-- A header that the store can hold: its hash is not the one of an empty record, and there is room
for whatever it makes the chain state write. -/
structure AcceptReady (s : ChainStateInner C) (header : BlockHeader) : Prop where
  nonzero : C.blockHash header ≠ 0
  room : HasRoom s header

def Call.Ready (s : ChainStateInner C) : Call C → Prop
  | .acceptHeader header => AcceptReady s header
  | .connectBlock block _ _ _ => ConnectReady s block.header
  | .invalidateBlock block => InvalidateReady s block
  | .switchChain newTip => SwitchReady s newTip
  | .markBlockAsValid block => MarkReady s block
  | .markChainAsAssumed _ assumedHash => MarkReady s assumedHash
  | .flush => True
  | .updateIbd _ => True

/-- A header either is accepted, or was rejected by a check that came before every write. -/
theorem AcceptReady.settle {header : BlockHeader} (hready : AcceptReady s header)
    (hinv : ChainInv k s) :
    ((acceptHeader header s).1 = .ok () ∧ (∃ f, Accepted k f s (acceptHeader header s).2) ∧
        Entered k s header (acceptHeader header s).2 ∧
        ((validateHeader header s).1 = .ok (C.blockHash header) ∨
          ∃ d, s.view (C.blockHash header) = some d)) ∨
      ∃ fault, (acceptHeader header s).1 = .error fault ∧
        (Proper fault ∧ Refused s header fault) ∧ Quiet k s (acceptHeader header s).2 :=
  Replies.settle (acceptHeader_outcome hinv hready.nonzero) hready.room

theorem Accepted.keeps {f : Nat} (h : Accepted k f s s') : Keeps s.view s'.view := h.marked.keeps

/-- What a call does to the stored headers. -/
inductive Effect (k : Nat) (s : ChainStateInner C) : Call C → ChainStateInner C → Prop
  | revalidated {call : Call C} {s' : ChainStateInner C} :
      Revalidated s.view s'.view → Effect k s call s'
  | accepted {header : BlockHeader} {f : Nat} : AcceptReady s header →
      Accepted k f s (acceptHeader header s).2 → Entered k s header (acceptHeader header s).2 →
      Effect k s (.acceptHeader header) (acceptHeader header s).2
  | invalidated {block tip : BlockHash} {f : Nat} {s' : ChainStateInner C} :
      Invalidated k f s tip s' → Effect k s (.invalidateBlock block) s'
  | switched {d : DiskBlockHeader} {n f : Nat} {s' : ChainStateInner C} :
      s.view (C.blockHash d.header) = some d → Accepted k f s s' →
      Switched s d.header n s' → Effect k s (.switchChain (C.blockHash d.header)) s'

theorem Effect.keeps {call : Call C} (h : Effect k s call s') : Keeps s.view s'.view := by
  cases h with
  | revalidated h => exact h.persists.keeps
  | accepted _ haccepted _ => exact haccepted.keeps
  | invalidated h => exact h.marked.keeps
  | switched _ haccepted _ => exact haccepted.keeps

theorem Call.effect (hinv : ChainInv k s) {call : Call C} (hready : call.Ready s) :
    ChainInv k (call.run s) ∧ Effect k s call (call.run s) := by
  cases call with
  | acceptHeader header =>
    rcases AcceptReady.settle hready hinv with
      ⟨-, ⟨f, haccepted⟩, hentered, -⟩ | ⟨-, -, -, hquiet⟩
    · exact ⟨haccepted.inv, .accepted hready haccepted hentered⟩
    · exact (hquiet.revalidated hinv).imp_right .revalidated
  | connectBlock block proof inputs delHashes =>
    have hspec := connectBlock_spec hinv hready proof inputs delHashes
    exact ⟨hspec.1, .revalidated hspec.2.1⟩
  | invalidateBlock block =>
    rcases Replies.settle (invalidateBlock_replies hinv
        fun d n hd hn => (hready.active d n hd hn).2) hready.room with
      ⟨-, d, f, hd, hf, h⟩ | ⟨-, -, -, hquiet⟩
    · exact ⟨h.inv hinv ⟨hd, (hready.active d (f + 1) hd hf).1, hf⟩, .invalidated h⟩
    · exact (hquiet.revalidated hinv).imp_right .revalidated
  | switchChain newTip =>
    rcases Replies.settle (switchChain_replies hinv hready.notGenesis) hready.room with
      ⟨-, d, n, hd, -, ⟨f, haccepted⟩, hswitched⟩ | ⟨-, -, -, hquiet⟩
    · have hhash := hinv.tree.hash _ _ hd
      subst hhash
      exact ⟨haccepted.inv, .switched hd haccepted hswitched⟩
    · exact (hquiet.revalidated hinv).imp_right .revalidated
  | markBlockAsValid block =>
    exact (markBlockAsValid_spec hinv hready).imp_right .revalidated
  | markChainAsAssumed acc assumedHash =>
    exact (markChainAsAssumed_spec hinv hready acc).imp_right .revalidated
  | flush => exact ⟨hinv.flushed s.bestBlock, .revalidated (.of_eq (view_withHeight ..))⟩
  | updateIbd ibd => exact ⟨{ hinv with }, .revalidated (.of_eq rfl)⟩

/-! ## Runs -/

/-- A call that finds what it relies on. -/
inductive Step (s : ChainStateInner C) : ChainStateInner C → Prop
  | call (call : Call C) : call.Ready s → Step s (call.run s)

/-- The second state is reached from the first by a sequence of calls. -/
abbrev Reaches : ChainStateInner C → ChainStateInner C → Prop := Relation.ReflTransGen Step

theorem Reaches.inv (h : Reaches start s) (hstart : ChainInv k start) : ChainInv k s := by
  induction h with
  | refl => exact hstart
  | tail _ hstep ih =>
    rcases hstep with ⟨call, hready⟩
    exact (Call.effect ih hready).1

/-! ## Rejected headers -/

/-- Two states that no reader can tell apart. -/
structure SameAnswers (s s' : ChainStateInner C) : Prop where
  bestBlock : s'.bestBlock = s.bestBlock
  acc : s'.acc = s.acc
  getHeader : ∀ hash,
    (FlatChainStore.getHeader hash s'.chainstore).1 = (FlatChainStore.getHeader hash s.chainstore).1
  getBlockHash : ∀ height, (FlatChainStore.getBlockHash height s'.chainstore).1 =
    (FlatChainStore.getBlockHash height s.chainstore).1
  getHeaderByHeight : ∀ height, (FlatChainStore.getHeaderByHeight height s'.chainstore).1 =
    (FlatChainStore.getHeaderByHeight height s.chainstore).1

theorem Quiet.sameAnswers (hinv : ChainInv k s) (h : Quiet k s s') :
    SameAnswers s s' := by
  refine ⟨h.bestBlock, h.acc, ?_, ?_, ?_⟩
  · intro hash
    rw [getHeader_fst h.inv, getHeader_fst hinv.store, h.view]
  · exact fun height => map_sameFiles _ (recordAt_sameFiles h.files height)
  · exact fun height => map_sameFiles _ (recordAt_sameFiles h.files height)

/-- In every state of a run whose calls all find the room they need, a header that is rejected
changes nothing that can be read. -/
theorem acceptHeader_error_unchanged {config : FlatChainStoreConfig}
    (hnew : Created config start) (hreach : Reaches start s)
    {header : BlockHeader} (hready : AcceptReady s header) {fault : Fault}
    (herror : (acceptHeader header s).1 = .error fault) :
    SameAnswers s (acceptHeader header s).2 := by
  have hinv := hreach.inv (new_inv hnew.isNew)
  rcases hready.settle hinv with ⟨hok, -⟩ | ⟨-, -, -, hquiet⟩
  · rw [hok] at herror
    cases herror
  · exact hquiet.sameAnswers hinv

/-! ### A rejected header, and a reorganisation that fails halfway -/

instance (s : FlatChainStore) (h : Nat) : Decidable (ActiveRoom s h) :=
  decidable_of_iff _ (FlatChainStore.activeRoom_iff s h).symm

/-- A header on top of the tip, and room for it. -/
def readyOnTip (s : ChainStateInner C) (header : BlockHeader) : Bool :=
  decide (C.blockHash header ≠ 0 ∧ header.prevBlockhash = s.bestBlock.bestBlock ∧
    ActiveRoom s.chainstore (s.bestBlock.depth + 1))

theorem acceptReady_of_onTip (h : readyOnTip s header = true) : AcceptReady s header := by
  rcases of_decide_eq_true h with ⟨hzero, htip, hroom⟩
  exact ⟨hzero, fun _ => hroom, fun hne => absurd htip hne⟩

namespace Sample

open ChainContext.Sample

def a₃ : BlockHeader := child a₂ 5
def b₄ : BlockHeader := child b₃ 6

/-- A header with a difficulty that is not the required one. -/
def easy : BlockHeader := { child a₁ 7 with bits := 2 }

/-- A store whose headers file ends at the height 3. -/
def smallConfig : FlatChainStoreConfig := { config with headersFileSize := some 4 }

end Sample

open Sample ChainContext in
/-- After one block, a header with the wrong difficulty is rejected. -/
theorem acceptHeader_error_unchanged_easy :
    ∃ start s, new sample (createChainStore Sample.config) none =
        .ok start ∧ s = (acceptHeader a₁ start).2 ∧
      (acceptHeader easy s).1 = .error (.error (.blockValidation .badDiffBits)) ∧
      SameAnswers s (acceptHeader easy s).2 := by
  have hrun : fromNew sample Sample.config (fun start =>
      let s := (acceptHeader a₁ start).2
      decide (readyOnTip start a₁ ∧ readyOnTip s easy ∧
        (acceptHeader easy s).1 = .error (.error (.blockValidation .badDiffBits)))) = true := by
    decide +kernel
  rcases fromNew_eq_true hrun with ⟨start, hnew, htest⟩
  rcases of_decide_eq_true htest with ⟨hready, hready1, herror⟩
  exact ⟨start, _, hnew, rfl, herror, acceptHeader_error_unchanged (created hnew)
    (.single (.call (.acceptHeader a₁) (acceptReady_of_onTip hready)))
    (acceptReady_of_onTip hready1) herror⟩

open Sample ChainContext in
/-- The branch of `b₄` has more work than the one of `a₃`, but its tip does not fit in the headers
file.  The call fails after the old branch was taken off the best chain: the tip is still `a₃`, and
`a₃` is a fork header now. -/
theorem acceptHeader_error_leaves_half :
    ∃ start s, new sample (createChainStore smallConfig) none = .ok start ∧
      s = (acceptHeaders [a₁, a₂, a₃, b₂, b₃] start).2 ∧
      (acceptHeaders [a₁, a₂, a₃, b₂, b₃] start).1 = [.ok (), .ok (), .ok (), .ok (), .ok ()] ∧
      (acceptHeader b₄ s).1 = .error (.error (.database .fullIndex)) ∧
      (getHeader (sample.blockHash a₃) s.chainstore).1 =
        .ok (some (.headersOnly a₃ 3)) ∧
      (getHeader (sample.blockHash a₃) (acceptHeader b₄ s).2.chainstore).1 =
        .ok (some (.inFork a₃ 3)) ∧
      (acceptHeader b₄ s).2.bestBlock.bestBlock = sample.blockHash a₃ ∧
      ¬ SameAnswers s (acceptHeader b₄ s).2 := by
  have hrun : fromNew sample smallConfig (fun start =>
      let s := (acceptHeaders [a₁, a₂, a₃, b₂, b₃] start).2
      decide ((acceptHeaders [a₁, a₂, a₃, b₂, b₃] start).1 =
          [.ok (), .ok (), .ok (), .ok (), .ok ()] ∧
        (acceptHeader b₄ s).1 = .error (.error (.database .fullIndex)) ∧
        (getHeader (sample.blockHash a₃) s.chainstore).1 =
          .ok (some (.headersOnly a₃ 3)) ∧
        (getHeader (sample.blockHash a₃) (acceptHeader b₄ s).2.chainstore).1 =
          .ok (some (.inFork a₃ 3)) ∧
        (acceptHeader b₄ s).2.bestBlock.bestBlock = sample.blockHash a₃)) = true := by
    decide +kernel
  rcases fromNew_eq_true hrun with ⟨start, hnew, htest⟩
  rcases of_decide_eq_true htest with ⟨hresults, herror, hbefore, hafter, htip⟩
  refine ⟨start, _, hnew, rfl, hresults, herror, hbefore, hafter, htip, ?_⟩
  intro hsame
  have hheader := hsame.getHeader (sample.blockHash a₃)
  rw [hbefore, hafter] at hheader
  cases hheader

end Floresta.ChainState
