import Floresta.ChainState.Admission

/-!
# SavedRoots — the accumulators of the validated blocks

The validated blocks are the best chain from the genesis block to the validation index, and the
accumulator file has the roots of each of them.  A reorganisation takes validation back to the last
validated block of the new branch and leaves everything up to it alone.  Connecting a block appends
its roots, unless the height is not above the last one that was flushed: then the file is cut off at
the position in the record of the block, which is always zero.
-/

namespace Floresta.ChainState

open Prog FlatChainStore

variable {C : ChainContext} {k : Nat} {s : ChainStateInner C} {s' : ChainStateInner C}
  {header : BlockHeader}

/-! ## Validated blocks -/

theorem isValidated_isActive {d : DiskBlockHeader} (h : isValidated d = true) :
    d.isActive = true := by
  cases d with
  | fullyValid _ _ => rfl
  | assumedValid _ _ => rfl
  | headersOnly _ _ => cases h
  | inFork _ _ => cases h
  | orphan _ => cases h
  | invalidChain _ => cases h

/-- The last validated block of a branch is on the best chain, at or below the fork point, and no
block between the two is validated. -/
theorem lastValidated_onChain {V : HeaderMap} {bound top f i j : Nat} {newTip : BlockHeader}
    {d e : DiskBlockHeader} (t : Tree C V bound) (hsettled : Settled C V top)
    (hfork : Descent V DiskBlockHeader.isActive newTip d j)
    (hd : OnChain V (C.blockHash d.header) d f) (hlast : Descent V isValidated newTip e i)
    (he : isValidated e = true) :
    ∃ v ≤ f, OnChain V (C.blockHash e.header) e v ∧
      ∀ x p q, OnChain V x p q → v < q → q ≤ f → isValidated p = false := by
  -- the search is still on the fork, or it goes down the best chain
  have hwalk : (e.isActive = false ∧ Descent V DiskBlockHeader.isActive newTip e i) ∨
      ∃ v ≤ f, OnChain V (C.blockHash e.header) e v ∧
        ∀ x p q, OnChain V x p q → v < q → q ≤ f → isValidated p = false := by
    clear he
    have hmeet : ∀ {a n}, Descent V DiskBlockHeader.isActive newTip a n →
        (a.isActive = false ∧ Descent V DiskBlockHeader.isActive newTip a n) ∨
        ∃ v ≤ f, OnChain V (C.blockHash a.header) a v ∧
          ∀ x p q, OnChain V x p q → v < q → q ≤ f → isValidated p = false := by
      intro a n ha
      by_cases hactive : a.isActive = true
      · rw [← hfork.unique hd.active ha hactive]
        exact .inr ⟨f, Nat.le_refl f, hd, fun _ _ _ _ hlt hle => by omega⟩
      · exact .inl ⟨by simpa using hactive, ha⟩
    induction hlast with
    | parent hp => exact hmeet (.parent hp)
    | @next a b n hrest hpass hb ih =>
      rcases ih with ⟨hinactive, hdesc⟩ | ⟨v, hv, ha, hnone⟩
      · exact hmeet (.next hdesc hinactive hb)
      · have hng : C.blockHash a.header ≠ C.genesisHash := by
          intro heq
          have hentry := ha.entry
          rw [heq, t.genesis] at hentry
          cases hentry
          cases hpass
        rcases hsettled.parent ha hng with ⟨p, m, hp, rfl⟩
        have hpb : p = b := hp.entry_eq hb
        subst hpb
        refine .inr ⟨m, Nat.le_of_succ_le hv, ?_, ?_⟩
        · rw [t.hash _ _ hp.entry]
          exact hp
        · intro x q r hx hlt hle
          by_cases hr : r = m + 1
          · subst hr
            have hxa := hsettled.unique hx ha
            subst hxa
            rw [(hx.heights_eq ha).1]
            exact hpass
          · exact hnone x q r hx (by omega) hle
  rcases hwalk with ⟨hinactive, -⟩ | hfound
  · rw [isValidated_isActive he] at hinactive
    cases hinactive
  · exact hfound

/-! ## Roots in the file -/

/-- The record of a height points to the bytes. -/
structure HoldsRoots (store : FlatChainStore) (n : Nat) (bytes : Bytes) : Prop where
  nonempty : bytes ≠ []
  length : (store.headers n).accLen = bytes.length
  slice : (store.accumulatorFile.drop (store.headers n).accPos).take bytes.length = bytes

namespace HoldsRoots

variable {store store' : FlatChainStore} {n : Nat} {bytes : Bytes}

theorem inside (h : HoldsRoots store n bytes) :
    (store.headers n).accPos + bytes.length ≤ store.accumulatorFile.length := by
  have hlength := congrArg List.length h.slice
  have hpos := List.length_pos_iff.mpr h.nonempty
  rw [List.length_take, List.length_drop] at hlength
  omega

theorem append (h : HoldsRoots store n bytes) (hrecord : store'.headers n = store.headers n)
    {more : Bytes} (hfile : store'.accumulatorFile = store.accumulatorFile ++ more) :
    HoldsRoots store' n bytes := by
  have hinside := h.inside
  refine ⟨h.nonempty, ?_, ?_⟩
  · rw [hrecord]
    exact h.length
  · rw [hrecord, hfile, List.drop_append_of_le_length (by omega),
      List.take_append_of_le_length (by rw [List.length_drop]; omega)]
    exact h.slice

theorem loadRootsForBlock_eq (h : HoldsRoots store n bytes) (hindex : n < 2 ^ 31)
    (hinside : n < store.metadata.headersFileSize) (hwritten : (store.headers n).hash ≠ 0) :
    (loadRootsForBlock n store).1 = .ok (some bytes) := by
  have hnew : Index.new n = .ok ⟨false, n⟩ := if_neg (Nat.not_le.mpr hindex)
  have hget : (id store).getDiskHeader ⟨false, n⟩ = .ok (store.headers n) :=
    getDiskHeader_readable ⟨hinside, hwritten⟩
  have hsome : (store.headers n).accLen ≠ 0 := by
    rw [h.length]
    exact (List.length_pos_iff.mpr h.nonempty).ne'
  have hfits : (store.headers n).accPos + (store.headers n).accLen ≤
      (id store).accumulatorFile.length := by
    rw [h.length]
    exact h.inside
  change wp (loadRootsForBlock n) (fun r _ => r = .ok (some bytes)) store
  unfold loadRootsForBlock
  rw [wp_bind, wp_lift, hnew, andThen_ok, wp_read_bind, wp_bind, wp_lift, hget,
    andThen_ok, if_neg hsome, if_pos hfits, wp_pure, h.length]
  exact congrArg (fun roots => Except.ok (some roots)) h.slice

end HoldsRoots

/-! ## The invariant -/

/-- The best chain is validated up to the height `v`, and the file has the roots that were saved
last for each of its blocks. -/
@[mk_iff]
structure RootsInv (k : Nat) (s : ChainStateInner C) (saved : BlockHash → Option Bytes) (v : Nat) :
    Prop where
  chain : ChainInv k s
  plain : ∀ x h n, s.view x ≠ some (.assumedValid h n)
  index : ∃ d, OnChain s.view s.bestBlock.validationIndex d v
  validated : ∀ {x d n}, OnChain s.view x d n → (isValidated d = true ↔ n ≤ v)
  roots : ∀ {x d n}, OnChain s.view x d n → n ≠ 0 → n ≤ v →
    ∃ bytes, saved x = some bytes ∧ HoldsRoots s.chainstore n bytes

variable {saved : BlockHash → Option Bytes} {v : Nat}

theorem RootsInv.quiet (h : RootsInv k s saved v) (hs : Quiet k s s') :
    RootsInv k s' saved v := by
  rw [rootsInv_iff, hs.view, hs.bestBlock]
  refine ⟨h.chain.quiet hs, h.plain, h.index, h.validated, ?_⟩
  · intro x d n hx hpos hn
    rcases h.roots hx hpos hn with ⟨bytes, hsaved, hroots⟩
    have hfile : s'.chainstore.accumulatorFile = s.chainstore.accumulatorFile ++ [] := by
      rw [hs.files, List.append_nil]
    exact ⟨bytes, hsaved, hroots.append (congrFun hs.headers n) hfile⟩

theorem RootsInv.flushed (h : RootsInv k s saved v) (best : BestChain) :
    RootsInv k { s with chainstore := s.chainstore.withHeight best } saved v := by
  rw [rootsInv_iff, ChainStateInner.view, view_withHeight]
  refine ⟨h.chain.flushed best, h.plain, h.index, h.validated, ?_⟩
  · intro x d n hx hpos hn
    rcases h.roots hx hpos hn with ⟨bytes, hsaved, hroots⟩
    exact ⟨bytes, hsaved, hroots.nonempty, hroots.length, hroots.slice⟩

/-! ### Headers -/

theorem RootsInv.resume {f : Nat} (h : RootsInv k s saved v)
    (ha : Accepted k f s s') :
    f ≤ s.bestBlock.depth ∧ ∃ v' ≤ f, v' ≤ v ∧
      (∃ d, OnChain s.view s'.bestBlock.validationIndex d v') ∧
      ∀ x p q, OnChain s.view x p q → v' < q → q ≤ f → isValidated p = false := by
  rcases ha.validation with ⟨rfl, -, hindex⟩ | ⟨newTip, d, j, e, i, hfork, hd, hlast, he, hindex⟩
  · rcases h.index with ⟨d, hd⟩
    refine ⟨Nat.le_refl _, v, h.chain.settled.capped hd, Nat.le_refl v, ⟨d, ?_⟩, ?_⟩
    · rw [hindex]
      exact hd
    · intro x p q hx hlt _
      have hiff := h.validated hx
      by_contra hp
      exact absurd (hiff.mp (by simpa using hp)) (Nat.not_le.mpr hlt)
  · rcases lastValidated_onChain h.chain.tree h.chain.settled hfork hd hlast he with
      ⟨v', hv', hon, hnone⟩
    refine ⟨h.chain.settled.capped hd, v', hv', (h.validated hon).mp he, ⟨e, ?_⟩, hnone⟩
    rw [hindex]
    exact hon

theorem RootsInv.accepted {f : Nat} (h : RootsInv k s saved v)
    (ha : Accepted k f s s') : ∃ v', RootsInv k s' saved v' := by
  rcases h.resume ha with ⟨hf, v', hv'f, hv', ⟨d, hd⟩, hnone⟩
  have hstay : ∀ {x d n}, OnChain s.view x d n → n ≤ f → OnChain s'.view x d n :=
    fun hx hn => ⟨ha.marked.stay hx hn, hx.active, hx.height⟩
  -- at or below the height `f` the best chain is what it was
  have hold : ∀ {x d n}, OnChain s'.view x d n → n ≤ f → OnChain s.view x d n := by
    intro x d n hx hn
    rcases h.chain.best with ⟨b, hb⟩
    rcases h.chain.settled.exists_onChain h.chain.tree hb (Nat.le_trans hn hf) with ⟨y, e, hy⟩
    have hxy : x = y := ha.inv.settled.unique hx (hstay hy hn)
    subst hxy
    rw [(hx.heights_eq (hstay hy hn)).1]
    exact hy
  refine ⟨v', ha.inv, ?_, ⟨d, hstay hd hv'f⟩, ?_, ?_⟩
  · intro x header n hx
    rcases ha.marked.change x _ hx with hx' | ⟨_, _, hmoved⟩ | ⟨_, _, hmoved, -⟩
    · exact h.plain x header n hx'
    · cases hmoved
    · cases hmoved
  · intro x e n hx
    by_cases hn : n ≤ f
    · have hx' := hold hx hn
      refine ⟨fun hvalid => ?_, fun hle => (h.validated hx').mpr (Nat.le_trans hle hv')⟩
      by_contra hlt
      rw [hnone x e n hx' (Nat.lt_of_not_le hlt) hn] at hvalid
      cases hvalid
    · rcases ha.fresh hx (Nat.lt_of_not_le hn) with ⟨header, rfl⟩
      refine ⟨fun hvalid => (by cases hvalid), fun hle => ?_⟩
      omega
  · intro x e n hx hpos hn
    have hnf : n ≤ f := Nat.le_trans hn hv'f
    rcases h.roots (hold hx hnf) hpos (Nat.le_trans hn hv') with ⟨bytes, hsaved, hroots⟩
    have hfile : s'.chainstore.accumulatorFile = s.chainstore.accumulatorFile ++ [] := by
      rw [List.append_nil]
      exact ha.marked.accumulatorFile
    exact ⟨bytes, hsaved, hroots.append (ha.marked.lower n hnf) hfile⟩

/-! ### Blocks -/

/-- What saving the roots of a block relies on: they go above everything that was flushed, or to the
first block, and the file is not larger than its positions. -/
structure RootsReady (s : ChainStateInner C) (header : BlockHeader) : Prop where
  above : ∀ d n flushed, s.view (C.blockHash header) = some d → d.height = some n →
    flushedHeight s.chainstore = .ok flushed → flushed < n ∨ n = 1
  positions : s.chainstore.accumulatorFile.length < 2 ^ 32

theorem RootsInv.connectable {x : BlockHash} {n : Nat} (h : RootsInv k s saved v)
    (hconnect : Connectable s.view s.bestBlock.validationIndex x n) :
    n = v ∨ n = v + 1 := by
  rcases hconnect with ⟨header, m, hm, hcase⟩
  rcases h.index with ⟨d, hd⟩
  have hvm : v = m :=
    (hd.heights_eq (⟨hm, rfl, rfl⟩ : OnChain s.view _ (.fullyValid header m) m)).2
  subst hvm
  rcases hcase with ⟨rfl, -⟩ | ⟨rfl, -⟩
  · exact .inl rfl
  · exact .inr rfl

theorem Validated.holdsRoots {n : Nat} {acc : C.rustreexo.Stump}
    (hv : Validated s header n acc s')
    (hnonempty : C.rustreexo.serialize acc ≠ [])
    (hpositions : s.chainstore.accumulatorFile.length < 2 ^ 32) :
    HoldsRoots s'.chainstore n (C.rustreexo.serialize acc) := by
  rcases hv.roots with ⟨flushed, -, hfile, hrecord⟩
  have hbase : (rootsBase s flushed n).length < 2 ^ 32 := by
    unfold rootsBase
    split
    · exact Nat.two_pow_pos 32
    · exact hpositions
  have hsize : (C.rustreexo.serialize acc).length < 2 ^ 32 :=
    Nat.lt_of_le_of_lt hv.size (by decide)
  refine ⟨hnonempty, ?_, ?_⟩
  · rw [hrecord]
    exact Nat.mod_eq_of_lt hsize
  · rw [hrecord, hfile]
    simp only [Nat.mod_eq_of_lt hbase, List.drop_left, List.take_length]

theorem RootsInv.connected {n : Nat} {acc : C.rustreexo.Stump}
    (h : RootsInv k s saved v) (hready : RootsReady s header)
    (hconnect : Connectable s.view s.bestBlock.validationIndex (C.blockHash header) n)
    (hpos : n ≠ 0) (hinv : ChainInv k s') (hv : Validated s header n acc s')
    (hnonempty : C.rustreexo.serialize acc ≠ []) :
    RootsInv k s' (Function.update saved (C.blockHash header) (some (C.rustreexo.serialize acc)))
      n := by
  have hnv := h.connectable hconnect
  rcases hconnect.onChain with ⟨d, hd⟩
  -- a block of the best chain is the connected one, or it is as it was at another height
  have hcases : ∀ {x e m}, OnChain s'.view x e m →
      (x = C.blockHash header ∧ e = .fullyValid header n ∧ m = n) ∨
        (x ≠ C.blockHash header ∧ m ≠ n ∧ OnChain s.view x e m) := by
    intro x e m hx
    rw [hv.view] at hx
    rcases hx.of_update_active rfl with hnew | ⟨hne, hold⟩
    · exact .inl hnew
    · refine .inr ⟨hne, ?_, hold⟩
      rintro rfl
      exact hne (h.chain.settled.unique hold hd)
  refine ⟨hinv, ?_, ⟨.fullyValid header n, ?_⟩, ?_, ?_⟩
  · intro x header' m hx
    rw [hv.view] at hx
    by_cases heq : x = C.blockHash header
    · rw [heq, Function.update_self] at hx
      cases hx
    · rw [Function.update_of_ne heq] at hx
      exact h.plain x header' m hx
  · rw [hv.bestBlock, hv.view]
    exact ⟨Function.update_self .., rfl, rfl⟩
  · intro x e m hx
    rcases hcases hx with ⟨-, rfl, rfl⟩ | ⟨-, hne, hold⟩
    · exact ⟨fun _ => Nat.le_refl _, fun _ => rfl⟩
    · rw [h.validated hold]
      omega
  · intro x e m hx hm hle
    rcases hcases hx with ⟨rfl, -, rfl⟩ | ⟨hne, hmn, hold⟩
    · exact ⟨_, Function.update_self .., hv.holdsRoots hnonempty hready.positions⟩
    · rcases h.roots hold hm (by omega) with ⟨bytes, hsaved, hroots⟩
      rcases hv.roots with ⟨flushed, hflushed, hfile, -⟩
      -- there is a validated block below, so the file was not cut off
      have habove := hready.above d n flushed hd.entry hd.height hflushed
      have hbase : rootsBase s flushed n = s.chainstore.accumulatorFile := by
        unfold rootsBase
        rw [if_neg (by omega)]
      rw [hbase] at hfile
      refine ⟨bytes, ?_, hroots.append (hv.headers m hmn) hfile⟩
      rw [Function.update_of_ne hne]
      exact hsaved

/-! ## Runs -/

/-- Headers, blocks that are connected, and flushes, with the roots that were saved last for each
block. -/
inductive RootsRun (start : ChainStateInner C) :
    ChainStateInner C → (BlockHash → Option Bytes) → Prop
  | start : RootsRun start start fun _ => none
  | acceptHeader {s : ChainStateInner C} {saved : BlockHash → Option Bytes} (header : BlockHeader) :
      RootsRun start s saved → AcceptReady s header →
      RootsRun start (ChainState.acceptHeader header s).2 saved
  | connectBlock {s : ChainStateInner C} {saved : BlockHash → Option Bytes} (block : Block)
      (proof : C.rustreexo.Proof) (inputs : UtxoMap) (delHashes : List Hash256) {n : Nat} :
      RootsRun start s saved → ConnectReady s block.header → RootsReady s block.header →
      (ChainState.connectBlock block proof inputs delHashes s).1 = .ok n →
      RootsRun start (ChainState.connectBlock block proof inputs delHashes s).2
        (Function.update saved (C.blockHash block.header) (some (C.rustreexo.serialize
          (ChainState.connectBlock block proof inputs delHashes s).2.acc)))
  | flush {s : ChainStateInner C} {saved : BlockHash → Option Bytes} :
      RootsRun start s saved → RootsRun start (ChainState.flush s).2 saved

theorem RootsRun.inv {start : ChainStateInner C} (hnonempty : ∀ acc, C.rustreexo.serialize acc ≠ [])
    (hstart : RootsInv k start (fun _ => none) 0) (h : RootsRun start s saved) :
    ∃ v, RootsInv k s saved v := by
  induction h with
  | start => exact ⟨0, hstart⟩
  | acceptHeader header _ hready ih =>
    rcases ih with ⟨v, hv⟩
    rcases AcceptReady.settle hready hv.chain with ⟨-, ⟨f, haccepted⟩, -⟩ | ⟨fault, -, -, hquiet⟩
    · exact hv.accepted haccepted
    · exact ⟨v, hv.quiet hquiet⟩
  | @connectBlock s saved block proof inputs delHashes n _ hready hroots hok ih =>
    rcases ih with ⟨v, hv⟩
    rcases connectBlock_spec hv.chain hready proof inputs delHashes with ⟨hinv, -, hsuccess⟩
    rcases hsuccess n hok with ⟨hconnect, acc, hvalidated⟩
    rcases hconnect.onChain with ⟨d, hd⟩
    have hheader : d.header = block.header := hready.stored d hd.entry
    have hpos : n ≠ 0 := hv.chain.height_ne_zero hd (hheader ▸ hready.notGenesis)
    rw [hvalidated.acc]
    exact ⟨n, hv.connected hroots hconnect hpos hinv hvalidated (hnonempty acc)⟩
  | flush _ ih =>
    rcases ih with ⟨v, hv⟩
    exact ⟨v, hv.flushed _⟩

theorem new_rootsInv (hnew : IsNew config k s) :
    RootsInv k s (fun _ => none) 0 := by
  have hinv := new_inv hnew
  have hview := new_view hnew
  have hindex : s.bestBlock.validationIndex = C.genesisHash ∧ s.bestBlock.depth = 0 := by
    rcases hnew with ⟨-, _, rfl⟩
    exact ⟨rfl, rfl⟩
  have honly : ∀ {x d}, s.view x = some d → d = genesisEntry C :=
    fun hd => (new_only hnew hd).2
  refine ⟨hinv, ?_, ⟨genesisEntry C, ?_⟩, ?_, ?_⟩
  · intro x h n hx
    cases honly hx
  · rw [hindex.1]
    exact ⟨hinv.tree.genesis, rfl, rfl⟩
  · intro x d n hx
    have hle := hinv.settled.capped hx
    rw [hindex.2] at hle
    rw [honly hx.entry]
    exact ⟨fun _ => hle, fun _ => rfl⟩
  · intro x d n hx hpos hn
    exact absurd (Nat.le_zero.mp hn) hpos

/-- The stored accumulators of the validated part of the best chain are those that were saved last
for its blocks. -/
def RootsIntact (s : ChainStateInner C) (saved : BlockHash → Option Bytes) : Prop :=
  ∃ v, (getValidationIndex s).1 = .ok v ∧ ∀ n, 1 ≤ n → n ≤ v → ∃ hash bytes,
    (FlatChainStore.getBlockHash n s.chainstore).1 = .ok (some hash) ∧ saved hash = some bytes ∧
    (loadRootsForBlock n s.chainstore).1 = .ok (some bytes)

theorem getValidationIndex_stored
    (hinv : StoreInv C.bitcoin C.genesisHash k s.chainstore)
    (hd : s.view s.bestBlock.validationIndex = some (.fullyValid header v)) :
    (getValidationIndex s).1 = .ok v := by
  change wp (getValidationIndex : ChainM C Nat) (fun r _ => r = .ok v) s
  unfold getValidationIndex
  rw [wp_read_bind, wp_bind]
  exact (within_getDiskBlockHeader_stored hd).yields (Quiet.refl hinv) fun _ _ => rfl

theorem RootsInv.getValidationIndex_eq (h : RootsInv k s saved v) :
    (getValidationIndex s).1 = .ok v := by
  rcases h.index with ⟨d, hd⟩
  have hvalid := (h.validated hd).mpr (Nat.le_refl v)
  have hentry : ∃ header, d = .fullyValid header v := by
    cases d with
    | fullyValid header n => exact ⟨header, by rw [Option.some.inj hd.height]⟩
    | assumedValid header n => exact absurd hd.entry (h.plain _ header n)
    | headersOnly _ _ => cases hvalid
    | inFork _ _ => cases hvalid
    | orphan _ => cases hvalid
    | invalidChain _ => cases hvalid
  rcases hentry with ⟨header, rfl⟩
  exact getValidationIndex_stored h.chain.store hd.entry

theorem RootsInv.intact (h : RootsInv k s saved v) : RootsIntact s saved := by
  refine ⟨v, h.getValidationIndex_eq, fun n hpos hn => ?_⟩
  rcases h.index with ⟨d, hd⟩
  rcases h.chain.best with ⟨b, hb⟩
  rcases h.chain.settled.exists_onChain h.chain.tree hb
    (Nat.le_trans hn (h.chain.settled.capped hd)) with ⟨x, e, hx⟩
  rcases h.roots hx (by omega) hn with ⟨bytes, hsaved, hroots⟩
  rcases hx.record h.chain.store with ⟨hhash, hget⟩
  rcases view_active h.chain.store.core hx.entry hx.active with ⟨m, hm, hinside, hindex, -, -⟩
  have hnm : n = m := hx.height_eq hm
  subst hnm
  refine ⟨x, bytes, hget, hsaved, hroots.loadRootsForBlock_eq hindex hinside ?_⟩
  rw [hhash]
  exact view_ne_zero h.chain.store.core hx.entry

/-- In every run that connects blocks only above what was flushed, no accumulator is lost or mixed
up. -/
theorem rootsRun_intact {config : FlatChainStoreConfig} {start : ChainStateInner C}
    (hnew : Created config start) (hnonempty : ∀ acc, C.rustreexo.serialize acc ≠ [])
    (hrun : RootsRun start s saved) : RootsIntact s saved := by
  rcases hrun.inv hnonempty (new_rootsInv hnew.isNew) with ⟨v, hinv⟩
  exact hinv.intact

/-! ### Runs that are replayed -/

/-- A stored block above what was flushed, or the first one, and room for it. -/
def connectTest (s : ChainStateInner C) (header : BlockHeader) : Bool :=
  match s.view (C.blockHash header), flushedHeight s.chainstore with
  | some d, .ok flushed =>
    decide (isGenesis C header = false ∧ d.header = header ∧
      s.chainstore.metadata.blockIndexOccupancy + 1 < s.chainstore.metadata.indexCapacity ∧
      s.chainstore.accumulatorFile.length < 2 ^ 32) &&
    d.height.any fun n => flushed < n ∨ n = 1
  | _, _ => false

theorem ready_of_connectTest (h : connectTest s header = true) :
    ConnectReady s header ∧ RootsReady s header := by
  unfold connectTest at h
  split at h
  · rename_i d flushed hd hflushed
    rcases Bool.and_eq_true_iff.mp h with ⟨hfacts, habove⟩
    rcases of_decide_eq_true hfacts with ⟨hng, hheader, hbucket, hpositions⟩
    refine ⟨⟨hng, fun e he => ?_, hbucket⟩, fun e n f he hn hf => ?_, hpositions⟩
    · cases hd.symm.trans he
      exact hheader
    · cases hd.symm.trans he
      cases hflushed.symm.trans hf
      rw [hn] at habove
      exact of_decide_eq_true habove
  · cases h

/-- Makes the calls as long as each of them passes its test and succeeds. -/
def replay : List (Call C) → ChainStateInner C → Option (ChainStateInner C)
  | [], s => some s
  | .acceptHeader header :: calls, s =>
    if spareFor s header then replay calls (acceptHeader header s).2 else none
  | .connectBlock block proof inputs delHashes :: calls, s =>
    if connectTest s block.header then
      match connectBlock block proof inputs delHashes s with
      | (.ok _, s') => replay calls s'
      | (.error _, _) => none
    else none
  | .flush :: calls, s => replay calls (flush s).2
  | _, _ => none

theorem RootsRun.replay {start : ChainStateInner C}
    (hnonempty : ∀ acc, C.rustreexo.serialize acc ≠ [])
    (hstart : RootsInv k start (fun _ => none) 0) {calls : List (Call C)}
    (hrun : RootsRun start s saved) (h : ChainState.replay calls s = some s') :
    ∃ saved, RootsRun start s' saved := by
  fun_induction ChainState.replay calls s generalizing saved with
  | case1 s =>
    cases h
    exact ⟨saved, hrun⟩
  | case2 header calls s hspare ih =>
    rcases hrun.inv hnonempty hstart with ⟨v, hinv⟩
    exact ih (hrun.acceptHeader header (acceptReady_of_spare hinv.chain hspare)) h
  | case4 block proof inputs delHashes calls s htest n s₁ hconnect ih =>
    rcases ready_of_connectTest htest with ⟨hready, hroots⟩
    have hnext := hrun.connectBlock block proof inputs delHashes hready hroots
      (congrArg Prod.fst hconnect)
    rw [hconnect] at hnext
    exact ih hnext h
  | case7 calls s ih => exact ih hrun.flush h
  -- a test or a call that fails, or a call of another kind
  | _ => cases h

/-! ### A reorganisation above a flushed block, and one below -/

namespace Sample

open ChainContext ChainContext.Sample

def coinbase (tag : UInt8) : Transaction :=
  ⟨1, .blocks 0, [⟨OutPoint.null, [tag, tag], 0xffffffff, []⟩], [⟨Amount.fromSat 50, [0x51]⟩]⟩

def mined (parent : BlockHeader) (tag : UInt8) : Block :=
  ⟨{ child parent 0 with merkleRoot := Bitcoin.sample.computeTxid (coinbase tag) }, [coinbase tag]⟩

def block₁ : Block := mined sample.genesisHeader 1
def block₂ : Block := mined block₁.header 2
def fork₂ : Block := mined block₁.header 3
def fork₃ : Block := mined fork₂.header 4

def connect (block : Block) : ChainM sample Nat := connectBlock block () ∅ []

/-- The second block is connected after a flush, and its branch is then replaced. -/
def reorganised : List (Call sample) :=
  [.acceptHeader block₁.header, .connectBlock block₁ () ∅ [], .flush, .acceptHeader block₂.header,
    .connectBlock block₂ () ∅ [], .acceptHeader fork₂.header, .acceptHeader fork₃.header,
    .connectBlock fork₂ () ∅ []]

theorem serialize_ne_nil (acc : sample.rustreexo.Stump) : sample.rustreexo.serialize acc ≠ [] := by
  simp [sample, Sample.rustreexo]

theorem exists_reorganised :
    ∃ start s saved, new sample (createChainStore config) none = .ok start ∧
      replay reorganised start = some s ∧ RootsRun start s saved ∧
      s.bestBlock.bestBlock = sample.blockHash fork₃.header ∧
      s.view (sample.blockHash block₂.header) = some (.inFork block₂.header 2) ∧
      (getValidationIndex s).1 = .ok 2 := by
  have hrun : fromNew sample config (fun start => (replay reorganised start).any fun s =>
      decide (s.bestBlock.bestBlock = sample.blockHash fork₃.header ∧
        s.view (sample.blockHash block₂.header) = some (.inFork block₂.header 2) ∧
        (getValidationIndex s).1 = .ok 2)) = true := by
    decide +kernel
  rcases fromNew_eq_true hrun with ⟨start, hnew, htest⟩
  rcases (Option.any_eq_true _ _).mp htest with ⟨s, hs, hfacts⟩
  rcases RootsRun.start.replay serialize_ne_nil (new_rootsInv (created hnew).isNew) hs with
    ⟨saved, hsaved⟩
  exact ⟨start, s, saved, hnew, hs, hsaved, of_decide_eq_true hfacts⟩

def connectFirst : ChainM sample Nat := do
  acceptHeader block₁.header
  connect block₁

/-- A second block is connected and flushed, and then replaced by another branch. -/
def flushAndReorg : ChainM sample Nat := do
  acceptHeader block₂.header
  let _ ← connect block₂
  flush
  acceptHeader fork₂.header
  acceptHeader fork₃.header
  connect fork₂

end Sample

open Sample ChainContext in
/-- After a reorganisation above what was flushed, a block of the new branch is connected. -/
theorem rootsRun_intact_first :
    ∃ start s saved, new sample (createChainStore Sample.config) none =
        .ok start ∧ replay reorganised start = some s ∧ RootsRun start s saved ∧
      s.bestBlock.bestBlock = sample.blockHash fork₃.header ∧
      (getValidationIndex s).1 = .ok 2 ∧ RootsIntact s saved := by
  rcases exists_reorganised with ⟨start, s, saved, hnew, hs, hrun, htip, -, hindex⟩
  exact ⟨start, s, saved, hnew, hs, hrun, htip, hindex,
    rootsRun_intact (created hnew) serialize_ne_nil hrun⟩

open Sample ChainContext in
/-- The second block was flushed before its branch was replaced, so the roots of the new second
block are written over those of the first: the roots that are loaded for the first block are not
those that were saved for it. -/
theorem connectBlock_overwrites_roots :
    ∃ start s₁ s₂, new sample (createChainStore Sample.config) none =
        .ok start ∧ connectFirst start = (.ok 1, s₁) ∧ flushAndReorg s₁ = (.ok 2, s₂) ∧
      (FlatChainStore.getBlockHash 1 s₂.chainstore).1 =
        .ok (some (sample.blockHash block₁.header)) ∧
      sample.rustreexo.serialize s₁.acc = [1, 1] ∧
      (loadRootsForBlock 1 s₁.chainstore).1 = .ok (some [1, 1]) ∧
      (loadRootsForBlock 1 s₂.chainstore).1 = .ok (some [2, 1]) ∧
      ∀ saved, saved (sample.blockHash block₁.header) = some [1, 1] →
        ¬ RootsIntact s₂ saved := by
  have hrun : fromNew sample Sample.config (fun start =>
      let s₁ := (connectFirst start).2
      let s₂ := (flushAndReorg s₁).2
      decide ((connectFirst start).1 = .ok 1 ∧ (flushAndReorg s₁).1 = .ok 2 ∧
        (FlatChainStore.getBlockHash 1 s₂.chainstore).1 =
          .ok (some (sample.blockHash block₁.header)) ∧
        (loadRootsForBlock 1 s₁.chainstore).1 = .ok (some [1, 1]) ∧
        (loadRootsForBlock 1 s₂.chainstore).1 = .ok (some [2, 1]) ∧
        (getValidationIndex s₂).1 = .ok 2) &&
      sample.rustreexo.serialize s₁.acc == [1, 1]) = true := by decide +kernel
  rcases fromNew_eq_true hrun with ⟨start, hnew, htest⟩
  rcases Bool.and_eq_true_iff.mp htest with ⟨htest, hserialize⟩
  rcases of_decide_eq_true htest with ⟨hfirst, hreorg, hhash, hload1, hload2, hindex⟩
  refine ⟨start, (connectFirst start).2, (flushAndReorg (connectFirst start).2).2, hnew,
    Prod.ext hfirst rfl, Prod.ext hreorg rfl, hhash, eq_of_beq hserialize, hload1, hload2, ?_⟩
  rintro saved hsaved ⟨v, hv, hintact⟩
  have hv' : v = 2 := Except.ok.inj (hv.symm.trans hindex)
  subst hv'
  rcases hintact 1 (Nat.le_refl 1) (by decide) with ⟨hash, bytes, hhash', hbytes, hload⟩
  have hblock : hash = sample.blockHash block₁.header :=
    Option.some.inj (Except.ok.inj (hhash'.symm.trans hhash))
  rw [hblock, hsaved] at hbytes
  rw [hload2, ← Option.some.inj hbytes] at hload
  exact absurd (Option.some.inj (Except.ok.inj hload)) (by decide)

end Floresta.ChainState
