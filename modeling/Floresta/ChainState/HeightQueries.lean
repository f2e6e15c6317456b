import Floresta.ChainState.HeaderArithmetic

/-!
# HeightQueries — successors and confirmations of a header

The extension methods of a header look up its height, then the slot above it or the depth of the
best chain.  They do not look at the branch of the header, and slots are not cleared when the chain
gets shorter.  What they answer is right as long as every header extends the tip.
-/

namespace Floresta

inductive HeaderExtError
  | chain (e : BlockchainError)
  | blockNotFound
  deriving DecidableEq, Repr

inductive HeaderExtFault
  | error (e : HeaderExtError)
  | diverged
  | panicked (msg : String)
  deriving DecidableEq, Repr

namespace ChainState

open Prog FlatChainStore

variable {C : ChainContext} {k : Nat} {s s' start : ChainStateInner C} {header : BlockHeader}
variable {x : BlockHash} {d : DiskBlockHeader} {n : Nat}

def chain {α : Type} (m : ChainM C α) : Prog (ChainStateInner C) HeaderExtFault α :=
  Prog.zoom id (fun s _ => s) (fun
    | .error e => .error (.chain e)
    | .diverged => .diverged
    | .panicked msg => .panicked msg) m

def headerHeight (header : BlockHeader) : Prog (ChainStateInner C) HeaderExtFault Nat := do
  match ← chain (getBlockHeight (C.blockHash header)) with
  | some height => pure height
  | none => Prog.fail (.error .blockNotFound)

def getNextBlockHash (header : BlockHeader) :
    Prog (ChainStateInner C) HeaderExtFault (Option BlockHash) := do
  let height ← headerHeight header
  match ← Prog.attempt (chain (getBlockHash (height + 1))) with
  | .ok hash => pure (some hash)
  | .error _ => pure none

def getConfirmations (header : BlockHeader) : Prog (ChainStateInner C) HeaderExtFault Nat := do
  let height ← headerHeight header
  let best ← chain getBestBlock
  let above ← chain (Prog.lift (Checked.sub best.1 height))
  chain (Prog.lift (Checked.add 32 above 1))

/-- What the queries answer is about the best chain only. -/
structure DescribesBestChain (s : ChainStateInner C) : Prop where
  above : ∀ n hash, s.bestBlock.depth < n → (getBlockHash n s).1 ≠ .ok hash
  next : ∀ x d n, s.view x = some d → d.height = some n →
    ∃ next, (getNextBlockHash d.header s).1 = .ok next ∧
      ∀ y, next = some y ↔ ∃ e m, OnChain s.view y e m ∧ e.header.prevBlockhash = x
  confirmations : ∀ x d n, s.view x = some d → d.height = some n →
    ∃ c, (getConfirmations d.header s).1 = .ok c ∧
      (d.isActive = true → c = s.bestBlock.depth - n + 1)

/-! ## Chains without forks -/

/-- All stored headers are on the best chain, and the slots above it were never written. -/
@[mk_iff]
structure Straight (k : Nat) (s : ChainStateInner C) : Prop where
  chain : ChainInv k s
  active : ∀ x d, s.view x = some d → d.isActive = true
  unused : ∀ n, s.bestBlock.depth < n → (s.chainstore.headers n).hash = 0

/-- A header on the tip, or one that is refused for its parent or is known. -/
def OnTip (s : ChainStateInner C) (header : BlockHeader) : Prop :=
  header.prevBlockhash = s.bestBlock.bestBlock ∨
    s.view header.prevBlockhash = none ∨ s.view (C.blockHash header) ≠ none

theorem written_of_getBlockHash {store : FlatChainStore}
    (h : (FlatChainStore.getBlockHash n store).1 = .ok (some x)) : (store.headers n).hash ≠ 0 := by
  intro hzero
  have hslot : (store.slot ⟨false, n⟩).hash = 0 := hzero
  change wp (FlatChainStore.getBlockHash n) (fun r _ => r = .ok (some x)) store at h
  unfold FlatChainStore.getBlockHash at h
  rw [wp_bind] at h
  unfold wp recordAt Index.new getDiskHeader at h
  by_cases hindex : Index.FORK_BIT ≤ n
  · simp [hindex, andThen] at h
  by_cases hinside : store.slotCount ⟨false, n⟩ ≤ n
  · simp [hindex, hinside, andThen] at h
  · simp [hindex, hinside, hslot, andThen] at h

theorem within_chain {α : Type} {m : ChainM C α} {P : α → Prop} {E : Fault → Prop}
    {F : HeaderExtFault → Prop} (h : Within (Quiet k s) E m P)
    (hE : ∀ fault, E fault → ∀ fault', F fault') : Within (Quiet k s) F (chain m) P :=
  h.zoom (fun _ ht => ht) (fun _ _ _ hs => hs) fun fault hfault => hE fault hfault _

namespace Straight

theorem onChain (h : Straight k s) (hd : s.view x = some d)
    (hn : d.height = some n) : OnChain s.view x d n :=
  ⟨hd, h.active x d hd, hn⟩

theorem quiet (h : Straight k s) (hs : Quiet k s s') : Straight k s' := by
  rw [straight_iff, hs.view, hs.bestBlock, hs.headers]
  exact ⟨h.chain.quiet hs, h.active, h.unused⟩

theorem within_above (h : Straight k s) (hn : s.bestBlock.depth < n) :
    Within (Quiet k s) (fun _ => True) (getBlockHash n : ChainM C _) fun _ => False := by
  intro s1 hs1
  have hkept := (within_getBlockHash n s1 hs1).1
  refine ⟨hkept, ?_⟩
  cases hanswer : (getBlockHash n s1).1 with
  | error fault => trivial
  | ok hash =>
    have hzero : (s1.chainstore.headers n).hash = 0 := hs1.headers ▸ h.unused n hn
    exact absurd hzero (written_of_getBlockHash (getBlockHash_eq_ok.mp hanswer))

theorem within_height (h : Straight k s) (hd : OnChain s.view x d n) :
    Within (Quiet k s) (fun _ => False) (headerHeight d.header : Prog _ HeaderExtFault _)
      (· = n) := by
  have hhash := h.chain.tree.hash x d hd.entry
  have hread : Within (Quiet k s) (fun _ => False)
      (getBlockHeight (C.blockHash d.header) : ChainM C _) (· = some n) :=
    Within.bind (within_getDiskBlockHeader_stored (hhash ▸ hd.entry)) fun e he =>
      Within.pure (by rw [he, hd.height])
  refine Within.bind (within_chain hread fun _ => False.elim) fun found hfound => ?_
  rw [hfound]
  exact Within.pure rfl

theorem describes (hroot : C.genesisHeader.prevBlockhash = 0) (h : Straight k s) :
    DescribesBestChain s := by
  have hquiet := Quiet.refl h.chain.store
  have hsettled := h.chain.settled
  refine ⟨fun n hash hn hanswer => ?_, fun x d n hd hn => ?_, fun x d n hd hn => ?_⟩
  · have hout := (h.within_above hn s hquiet).2
    rw [hanswer] at hout
    exact hout
  · have hx := h.onChain hd hn
    -- what follows the header on the best chain stands one above it
    have hchild : ∀ {y e m}, OnChain s.view y e m → (e.header.prevBlockhash = x ↔ m = n + 1) := by
      intro y e m hy
      constructor
      · rintro rfl
        cases m with
        | zero =>
          have hgenesis : OnChain s.view C.genesisHash _ 0 :=
            ⟨h.chain.tree.genesis, rfl, rfl⟩
          have hy' := hsettled.unique hy hgenesis
          subst hy'
          rw [(hy.heights_eq hgenesis).1] at hd
          exact absurd hroot (view_ne_zero h.chain.store.core hd)
        | succ m =>
          rcases (hsettled.parent_succ h.chain.tree hy).2 with ⟨p, hp⟩
          rw [(hp.heights_eq hx).2]
      · rintro rfl
        rcases (hsettled.parent_succ h.chain.tree hy).2 with ⟨p, hp⟩
        exact hsettled.unique hp hx
    rcases Nat.lt_or_ge n s.bestBlock.depth with hlt | hge
    · rcases h.chain.onChain_at hlt with ⟨y, e, hy⟩
      refine ⟨some y, Within.eq_ok (S := Quiet k s) ?_ hquiet, fun y' => ⟨?_, ?_⟩⟩
      · refine Within.bind (h.within_height hx) fun height hheight => ?_
        rw [hheight]
        refine Within.bind (within_chain (F := fun _ => False) (within_getBlockHash_onChain hy)
          fun _ => False.elim).attempt fun answer hanswer => ?_
        cases answer with
        | error fault => exact hanswer.elim
        | ok hash => exact Within.pure (congrArg some hanswer)
      · rintro ⟨⟩
        exact ⟨e, n + 1, hy, (hchild hy).mpr rfl⟩
      · rintro ⟨e', m, hy', hprev⟩
        rw [(hchild hy').mp hprev] at hy'
        rw [hsettled.unique hy hy']
    · refine ⟨none, Within.eq_ok (S := Quiet k s) ?_ hquiet, fun y => ⟨nofun, ?_⟩⟩
      · refine Within.bind (h.within_height hx) fun height hheight => ?_
        rw [hheight]
        refine Within.bind (within_chain (F := fun _ => True)
          (h.within_above (Nat.lt_succ_of_le hge)) fun _ _ _ => trivial).attempt
          fun answer hanswer => ?_
        cases answer with
        | error fault => exact Within.pure rfl
        | ok hash => exact hanswer.elim
      · rintro ⟨e, m, hy, hprev⟩
        have hcap := hsettled.capped hy
        have hm := (hchild hy).mp hprev
        omega
  · have hx := h.onChain hd hn
    have hle : n ≤ s.bestBlock.depth := hsettled.capped hx
    refine ⟨s.bestBlock.depth - n + 1, Within.eq_ok (S := Quiet k s) ?_ hquiet, fun _ => rfl⟩
    refine Within.bind (h.within_height hx) fun height hheight => ?_
    rw [hheight]
    refine Within.bind (within_chain within_getBestBlock fun _ => False.elim) fun best hbest => ?_
    rw [hbest]
    have hbound : s.bestBlock.depth - n + 1 < 2 ^ 32 := by
      rcases h.chain.best with ⟨b, hb⟩
      rcases view_active h.chain.store.core hb.entry hb.active with ⟨m, hm, -, hindex, -⟩
      have hdepth := Option.some.inj (hm.symm.trans hb.height)
      omega
    rw [Checked.sub_eq hle]
    refine Within.bind (within_chain (Within.lift (P := (· = s.bestBlock.depth - n)) rfl)
      fun _ => False.elim) fun above habove => ?_
    rw [habove, Checked.add_eq hbound]
    exact within_chain (E := fun _ => False) (Within.lift rfl) fun _ => False.elim

theorem new (hnew : IsNew config k s) : Straight k s := by
  refine ⟨new_inv hnew, fun x d hd => ?_, fun n hn => ?_⟩
  · rw [(new_only hnew hd).2]
    rfl
  · rcases hnew with ⟨-, _, rfl⟩
    have hne : n ≠ 0 := Nat.ne_of_gt hn
    change (Function.update (fun _ => HashedDiskHeader.zeroed) 0 _ n : HashedDiskHeader).hash = 0
    rw [Function.update_of_ne hne]
    rfl

theorem accept (h : Straight k s) (hready : AcceptReady s header) (htip : OnTip s header) :
    Straight k (acceptHeader header s).2 := by
  rcases hready.settle h.chain with ⟨-, ⟨f, haccepted⟩, hentered, -⟩ | ⟨-, -, -, hquiet⟩
  swap
  · exact h.quiet hquiet
  · cases hentered with
    | known _ hquiet => exact h.quiet hquiet
    | extended hfresh _ hextended =>
      refine ⟨haccepted.inv, fun x d hd => ?_, fun n hn => ?_⟩
      · rw [hextended.view] at hd
        by_cases hx : x = C.blockHash header
        · rw [hx, Function.update_self] at hd
          cases hd
          rfl
        · rw [Function.update_of_ne hx] at hd
          exact h.active x d hd
      · rw [hextended.best] at hn
        rw [hextended.upper n hn]
        exact h.unused n (Nat.lt_of_succ_lt hn)
    | decided hfresh hne hparent _ _ =>
      rcases htip with hbest | hnone | hknown
      · exact absurd hbest hne
      · rw [hnone] at hparent
        cases hparent
      · exact absurd hfresh.new hknown

end Straight

/-- In every run of headers from a new chain state that are offered on the tip (or are refused for
their parent, or known), the queries describe the best chain in every state that is reached. -/
theorem headers_describe_bestChain (hroot : C.genesisHeader.prevBlockhash = 0)
    {config : FlatChainStoreConfig} (hnew : Created config start)
    (hrun : HeaderRun (fun s header => AcceptReady s header ∧ OnTip s header) start s) :
    DescribesBestChain s :=
  (hrun.induct (Straight.new hnew.isNew) fun _ _ h hok =>
    h.accept hok.1 hok.2).describes hroot

open Sample ChainContext in
theorem headers_describe_bestChain_two : ∃ start s,
    new sample (createChainStore Sample.config) none = .ok start ∧
    HeaderRun (fun s header => AcceptReady s header ∧ OnTip s header) start s ∧
    s.bestBlock.depth = 2 ∧ DescribesBestChain s := by
  have hrun : afterTested sample Sample.config (fun s header =>
      spareFor s header && decide (header.prevBlockhash = s.bestBlock.bestBlock)) [a₁, a₂]
      (fun s => decide (s.bestBlock.depth = 2)) = true := by decide +kernel
  have hready : ∀ {k} {s : ChainStateInner sample} {header}, HeaderInv k s →
      (spareFor s header && decide (header.prevBlockhash = s.bestBlock.bestBlock)) = true →
      AcceptReady s header ∧ OnTip s header := by
    intro k s header hinv h
    rcases Bool.and_eq_true_iff.mp h with ⟨hspare, hprev⟩
    exact ⟨acceptReady_of_spare hinv.chain hspare, .inl (of_decide_eq_true hprev)⟩
  rcases afterTested_eq_true rounds (by decide +kernel) And.left hready hrun with
    ⟨start, s, hnew, hreach, -, -, hdepth⟩
  exact ⟨start, _, hnew, hreach, of_decide_eq_true hdepth,
    headers_describe_bestChain rfl (created hnew) hreach⟩

open Sample ChainContext in
/-- `b₂` is on a fork, and its successor is said to be `a₃`.  After `a₂` was invalidated the slots of
`a₂` and `a₃` still answer, and the confirmations of `b₂` underflow. -/
theorem queries_leave_bestChain : ∃ start s s',
    new sample (createChainStore Sample.config) none = .ok start ∧
    HeaderRun AcceptReady start s ∧ s = (acceptHeaders [a₁, a₂, b₂, a₃] start).2 ∧
    (getNextBlockHash b₂ s).1 = .ok (some (sample.blockHash a₃)) ∧
    a₃.prevBlockhash ≠ sample.blockHash b₂ ∧
    invalidateBlock (sample.blockHash a₂) s = (.ok (), s') ∧ s'.bestBlock.depth = 1 ∧
    (getBlockHash 2 s').1 = .ok (sample.blockHash a₂) ∧
    (getConfirmations b₂ s').1 = .error (.panicked "attempt to subtract with overflow") ∧
    ¬ DescribesBestChain s ∧ ¬ DescribesBestChain s' := by
  have hrun : afterHeaders [a₁, a₂, b₂, a₃] (fun s =>
      let s' := (invalidateBlock (sample.blockHash a₂) s).2
      decide ((getHeader (sample.blockHash b₂) s.chainstore).1 =
          .ok (some (.inFork b₂ 2)) ∧
        (getHeader (sample.blockHash a₃) s.chainstore).1 =
          .ok (some (.headersOnly a₃ 3)) ∧
        (getNextBlockHash b₂ s).1 = .ok (some (sample.blockHash a₃)) ∧
        (invalidateBlock (sample.blockHash a₂) s).1 = .ok () ∧
        s'.bestBlock.depth = 1 ∧
        (getBlockHash 2 s').1 = .ok (sample.blockHash a₂) ∧
        (getConfirmations b₂ s').1 =
          .error (.panicked "attempt to subtract with overflow"))) = true := by decide +kernel
  rcases afterHeaders_eq_true hrun with ⟨start, s, hnew, hreach, hinv, hs, htest⟩
  rcases of_decide_eq_true htest with ⟨hb2, ha3, hnext, hok, hdepth, hslot, hpanic⟩
  rw [getHeader_fst hinv.chain.store] at hb2 ha3
  have hprev : a₃.prevBlockhash ≠ sample.blockHash b₂ := by decide +kernel
  refine ⟨start, s, _, hnew, hreach, hs, hnext, hprev, Prod.ext hok rfl, hdepth, hslot, hpanic,
    fun h => ?_,
    fun h => h.above 2 _ (Nat.lt_of_le_of_lt (Nat.le_of_eq hdepth) (by decide)) hslot⟩
  rcases h.next _ _ _ (Except.ok.inj hb2) rfl with ⟨next, hnext', hchild⟩
  cases hnext.symm.trans hnext'
  rcases (hchild _).mp rfl with ⟨e, m, hy, hparent⟩
  rw [Option.some.inj (hy.entry.symm.trans (Except.ok.inj ha3))] at hparent
  exact hprev hparent

end ChainState
end Floresta
