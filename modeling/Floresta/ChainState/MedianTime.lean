import Floresta.ChainState.ForkChoice
import Floresta.Lib.Median

/-!
# MedianTime — lock times along a branch

From BIP113 on, lock times are compared with the median time of the eleven blocks before a block.
`validate_header` does not look at the time of a header, except for BIP94, so the median can go back
from a block to the next one, and a transaction that was final is not final any more.  If the time of
every header is at least the median time of the blocks before it, as Bitcoin asks for, the median
does not go back on any branch.
-/

namespace Floresta.ChainState

open Prog FlatChainStore Median

variable {C : ChainContext} {k : Nat} {s start : ChainStateInner C} {header : BlockHeader}
  {l : List BlockHeader} {d : DiskBlockHeader} {x : BlockHash} {E : Fault → Prop}

/-- The median of the last eleven times of a branch. -/
def medianOf (l : List BlockHeader) : Nat :=
  median 0 ((l.map BlockHeader.time).take Consensus.MEDIAN_TIME_PAST_BLOCK_COUNT)

/-! ## What the chain state computes -/

section Reads

variable (hinv : ChainInv k s) (hroot : C.genesisHeader.prevBlockhash = 0)

include hinv hroot

theorem prevBlockhash_of_isGenesis (hd : s.view x = some d) (hg : isGenesis C d.header = true) :
    d.header.prevBlockhash = 0 := by
  have hhash : C.blockHash d.header = C.genesisHash := by simpa [isGenesis] using hg
  have hentry := hinv.tree.lookup hd
  rw [hhash, hinv.tree.genesis] at hentry
  rw [← Option.some.inj hentry]
  exact hroot

theorem notGenesis_of_parent {d p : DiskBlockHeader}
    (hd : s.view x = some d) (hp : s.view d.header.prevBlockhash = some p) :
    isGenesis C d.header = false := by
  by_contra hg
  rw [prevBlockhash_of_isGenesis hinv hroot hd (Bool.not_eq_false _ ▸ hg)] at hp
  exact view_ne_zero hinv.store.core hp rfl

theorem within_collectTimes_stored
    (hd : s.view x = some d)
    (hl : Lineage C s.view d.header l) (n : Nat) :
    Within (Quiet k s) E (Consensus.collectTimes (fun header => do
      let parent ← getAncestor header
      pure parent.header) n d.header : ChainM C _) (· = (l.map BlockHeader.time).take n) := by
  induction n generalizing x d l with
  | zero => exact Within.pure (by simp)
  | succ n ih =>
    unfold Consensus.collectTimes
    generalize hh : d.header = h at hl
    cases hl with
    | genesis hg =>
      subst hh
      rw [if_pos (.inr (prevBlockhash_of_isGenesis hinv hroot hd hg))]
      exact Within.pure (by simp)
    | @child _ p l hg hp hl =>
      have hnonzero : h.prevBlockhash ≠ 0 := view_ne_zero hinv.store.core hp
      refine Within.ite (fun hstop => ?_) fun _ => ?_
      · have hn : n = 0 := hstop.resolve_right hnonzero
        subst hn
        exact Within.pure (by simp)
      · refine Within.bind_eq (Within.bind_eq (within_getDiskBlockHeader_stored hp)
          (Within.pure rfl)) ?_
        exact Within.bind_eq (ih hp hl) (Within.pure (by simp))

theorem within_medianTimePast_stored
    (hd : s.view x = some d)
    (hl : Lineage C s.view d.header l) :
    Within (Quiet k s) E (medianTimePast d.header : ChainM C _) (· = medianOf l) :=
  Within.bind_eq (within_collectTimes_stored hinv hroot hd hl _) (Within.pure rfl)

theorem within_previousMedianTimePast {h : BlockHeader} {p : DiskBlockHeader}
    (hp : s.view h.prevBlockhash = some p)
    (hl : Lineage C s.view p.header l) :
    Within (Quiet k s) E (previousMedianTimePast h : ChainM C _) (· = medianOf l) :=
  Within.bind_eq (within_getDiskBlockHeader_stored hp)
    (within_medianTimePast_stored hinv hroot hp hl)

/-- From the activation of BIP113 on, lock times are compared with the median time of the parent. -/
theorem blockLockTimeCutoff_eq {h : BlockHeader} {p : DiskBlockHeader} {n : Nat}
    (hcsv : C.parameters.csvActivationHeight ≤ n)
    (hp : s.view h.prevBlockhash = some p) (hl : Lineage C s.view p.header l) :
    (blockLockTimeCutoff n h s).1 = .ok (.mtp (medianOf l)) := by
  refine Within.eq_ok (S := Quiet k s) ?_ (Quiet.refl hinv.store)
  unfold blockLockTimeCutoff
  rw [if_pos hcsv]
  exact Within.bind_eq (within_previousMedianTimePast hinv hroot hp hl) (Within.pure rfl)

end Reads

/-! ## The rule -/

/-- The time of the header is not before the median time of its parent. -/
def Timely (s : ChainStateInner C) (header : BlockHeader) : Prop :=
  ∀ m, (previousMedianTimePast header s).1 = .ok m → m ≤ header.time

def AllTimely (C : ChainContext) (V : HeaderMap) : Prop :=
  ∀ x d p l, V x = some d → isGenesis C d.header = false → V d.header.prevBlockhash = some p →
    Lineage C V p.header l → medianOf l ≤ d.header.time

theorem Grown.allTimely {V V' : HeaderMap} {bound : Nat} (h : Grown C V header V')
    (ht : Tree C V bound) (htimely : AllTimely C V)
    (hheader : ∀ p l, V header.prevBlockhash = some p → Lineage C V p.header l →
      medianOf l ≤ header.time) {q : DiskBlockHeader} (hq : V header.prevBlockhash = some q) :
    AllTimely C V' := by
  -- the parent and its times in the old map are those in the new one
  have hold : ∀ {g : BlockHeader} {p0 p : DiskBlockHeader} {l : List BlockHeader},
      V g.prevBlockhash = some p0 → V' g.prevBlockhash = some p → Lineage C V' p.header l →
      Lineage C V p0.header l := by
    intro g p0 p l hp0 hp hl
    rcases h.keeps _ _ hp0 with ⟨p', hp', heq⟩
    rw [Option.some.inj (hp'.symm.trans hp)] at heq
    rcases ht.rooted _ _ hp0 with ⟨n, -, hbranch, -⟩
    rcases Lineage.exists_of_branch hbranch with ⟨l0, hl0, -⟩
    have hl0' := hl0.keeps h.keeps
    rw [← heq] at hl0'
    rw [hl.unique hl0']
    exact hl0
  intro x d p l hd hg hp hl
  rcases h.only x d hd with rfl | ⟨d0, hd0, heq⟩
  · exact hheader q l hq (hold hq hp hl)
  · rw [← heq] at hg hp ⊢
    rcases ht.rooted x d0 hd0 with ⟨n, -, hbranch, -⟩
    rcases hbranch.stored hg with ⟨p0, -, hp0, -, -⟩
    exact htimely x d0 p0 l hd0 hg hp0 (hold hp0 hp hl)

theorem HeaderRun.allTimely (hroot : C.genesisHeader.prevBlockhash = 0)
    (hstart : HeaderInv k start) (hfirst : AllTimely C start.view)
    (hrun : HeaderRun (fun s header => AcceptReady s header ∧ Timely s header) start s) :
    HeaderInv k s ∧ AllTimely C s.view := by
  refine hrun.induct (P := fun s => HeaderInv k s ∧ AllTimely C s.view) ⟨hstart, hfirst⟩ ?_
  rintro s header ⟨hinv, htimely⟩ ⟨hready, hheader⟩
  refine ⟨hinv.accept hready, ?_⟩
  rcases hinv.chain.accept_cases hready with hquiet | ⟨n, hash, hfresh, -, hgrown⟩
  · rw [hquiet.view]
    exact htimely
  · rcases hfresh.branch.stored hfresh.notGenesis with ⟨q, -, hq, -, -⟩
    refine hgrown.allTimely hinv.chain.tree htimely (fun p l hp hl => hheader _ ?_) hq
    exact (within_previousMedianTimePast hinv.chain hroot hp hl).eq_ok (Quiet.refl hinv.chain.store)

/-! ## Final transactions -/

theorem isFinalTransaction_mono {tx : Transaction} {n m : Nat} {c c' : LockTimeCutoff}
    (hheight : n ≤ m) (hcutoff : c.value ≤ c'.value)
    (h : Consensus.isFinalTransaction tx n c = true) :
    Consensus.isFinalTransaction tx m c' = true := by
  unfold Consensus.isFinalTransaction at h ⊢
  by_cases hzero : tx.lockTime = .blocks 0
  · rw [if_pos hzero]
  rw [if_neg hzero, Bool.or_eq_true] at h ⊢
  refine h.imp_left fun hreached => ?_
  cases hlock : tx.lockTime with
  | blocks lockHeight =>
    simp only [hlock, decide_eq_true_eq] at hreached ⊢
    exact Nat.lt_of_lt_of_le hreached hheight
  | seconds lockTime =>
    simp only [hlock, decide_eq_true_eq] at hreached ⊢
    exact Nat.lt_of_lt_of_le hreached hcutoff

/-- The median time of a block is not before the one of its parent, and a transaction that is final
in a block from the activation on is final in every block above it, on every branch. -/
structure KeepsFinal (s : ChainStateInner C) : Prop where
  medians : ∀ x y d e, s.view x = some d → s.view y = some e →
    e.header.prevBlockhash = x → ∃ m m', (medianTimePast d.header s).1 = .ok m ∧
      (medianTimePast e.header s).1 = .ok m' ∧ m ≤ m'
  final : ∀ x y d e n j, s.view x = some d → s.view y = some e →
    d.height = some n → 0 < n → C.parameters.csvActivationHeight ≤ n →
    Above s.view d.header e.header j →
    ∃ c c', (blockLockTimeCutoff n d.header s).1 = .ok c ∧
      (blockLockTimeCutoff (n + j) e.header s).1 = .ok c' ∧
      ∀ tx, Consensus.isFinalTransaction tx n c = true →
        Consensus.isFinalTransaction tx (n + j) c' = true

section Monotone

variable (hinv : ChainInv k s) (hroot : C.genesisHeader.prevBlockhash = 0)
  (htimely : AllTimely C s.view)

include hinv hroot htimely

theorem medianOf_le_child {y : BlockHash} {d e : DiskBlockHeader} {l l' : List BlockHeader}
    (he : s.view y = some e) (hd : s.view e.header.prevBlockhash = some d)
    (hl : Lineage C s.view d.header l) (hl' : Lineage C s.view e.header l') :
    medianOf l ≤ medianOf l' := by
  have hg := notGenesis_of_parent hinv hroot he hd
  have htime := htimely y e d l he hg hd hl
  rw [hl'.unique (.child hg hd hl)]
  exact median_le_median_take (List.map_eq_nil_iff.not.mpr hl.ne_nil) 10 htime

theorem medianOf_le_above {h g : BlockHeader} {j : Nat} (habove : Above s.view h g j)
    {y : BlockHash} {e : DiskBlockHeader} (he : s.view y = some e) (hg : e.header = g)
    {l l' : List BlockHeader} (hl : Lineage C s.view h l) (hl' : Lineage C s.view g l') :
    medianOf l ≤ medianOf l' := by
  induction habove generalizing y e l' with
  | self => rw [hl.unique hl']
  | @child g d j hd _ ih =>
    subst hg
    rcases hinv.tree.rooted _ _ hd with ⟨n, -, hbranch, -⟩
    rcases Lineage.exists_of_branch hbranch with ⟨l1, hl1, -⟩
    exact (ih hd rfl hl1).trans (medianOf_le_child hinv hroot htimely he hd hl1 hl')

theorem keepsFinal_of_allTimely : KeepsFinal s := by
  have htimes : ∀ {x d}, s.view x = some d → ∃ l, Lineage C s.view d.header l := by
    intro x d hd
    rcases hinv.tree.rooted _ _ hd with ⟨n, -, hbranch, -⟩
    exact (Lineage.exists_of_branch hbranch).imp fun _ h => h.1
  have hquiet := Quiet.refl hinv.store
  constructor
  · intro x y d e hd he hprev
    subst hprev
    rcases htimes hd with ⟨l, hl⟩
    rcases htimes he with ⟨l', hl'⟩
    exact ⟨_, _, (within_medianTimePast_stored hinv hroot hd hl).eq_ok hquiet,
      (within_medianTimePast_stored hinv hroot he hl').eq_ok hquiet,
      medianOf_le_child hinv hroot htimely he hd hl hl'⟩
  · intro x y d e n j hd he hn hpos hcsv habove
    rcases hinv.tree.rooted x d hd with ⟨m, -, hbranch, hheight⟩
    obtain rfl : n = m := hheight n hn
    obtain ⟨i, rfl⟩ : ∃ i, n = i + 1 := ⟨n - 1, by omega⟩
    rcases hbranch.stored hbranch.notGenesis with ⟨p, -, hp, -, -⟩
    rcases htimes hp with ⟨l, hl⟩
    have hcutoff := blockLockTimeCutoff_eq hinv hroot hcsv hp hl
    generalize e.header = g at habove ⊢
    cases habove with
    | self => exact ⟨_, _, hcutoff, hcutoff, fun tx hfinal => hfinal⟩
    | @child _ q j hq habove =>
      rcases htimes hq with ⟨l', hl'⟩
      have hcutoff' := blockLockTimeCutoff_eq (n := i + 1 + (j + 1)) hinv hroot
        (Nat.le_add_right_of_le hcsv) hq hl'
      refine ⟨_, _, hcutoff, hcutoff', fun tx hfinal => ?_⟩
      refine isFinalTransaction_mono (Nat.le_add_right _ _) ?_ hfinal
      rcases htimes hd with ⟨l1, hl1⟩
      exact (medianOf_le_child hinv hroot htimely hd hp hl hl1).trans
        (medianOf_le_above hinv hroot htimely habove hq rfl hl1 hl')

end Monotone

/-- In every run of headers whose times are not before the median times of their parents, final
transactions stay final. -/
theorem headers_keep_final (hroot : C.genesisHeader.prevBlockhash = 0)
    {config : FlatChainStoreConfig} (hnew : Created config start)
    (hrun : HeaderRun (fun s header => AcceptReady s header ∧ Timely s header) start s) :
    KeepsFinal s := by
  have hstart := hnew.isNew
  have hfirst : AllTimely C start.view := by
    intro x d p l hd hg
    rw [(new_only hstart hd).2, genesisEntry_isGenesis] at hg
    cases hg
  rcases hrun.allTimely hroot (HeaderInv.new hstart) hfirst with ⟨hinv, htimely⟩
  exact keepsFinal_of_allTimely hinv.chain hroot htimely

/-! ### A time that goes back -/

namespace Sample

/-- The sample network with BIP113 from the first block on. -/
def csv : ChainContext :=
  { ChainContext.sample with parameters :=
    { ChainContext.Sample.parameters with
      genesis := ⟨⟨1, 0, 0, 1600000000, 1, 0⟩, []⟩
      csvActivationHeight := 1 } }

def minedAt (parent : BlockHeader) (time : Nat) : BlockHeader :=
  ⟨1, csv.blockHash parent, 0, time, 1, 0⟩

/-- Three blocks whose times increase. -/
def t₁ : BlockHeader := minedAt csv.genesisHeader 1600000600
def t₂ : BlockHeader := minedAt t₁ 1600001200
def t₃ : BlockHeader := minedAt t₂ 1600001800

/-- The second block goes back, but not before the genesis block. -/
def u₂ : BlockHeader := minedAt t₁ 1600000300
def u₃ : BlockHeader := minedAt u₂ 1600001800

/-- Not final before a time between those of `u₂` and `t₁`. -/
def locked : Transaction := ⟨2, .seconds 1600000500, [⟨⟨1, 0⟩, [], 0, []⟩], []⟩

/-- Room for the header, and a time that is not before the median. -/
def timelyTest (s : ChainStateInner csv) (header : BlockHeader) : Bool :=
  spareFor s header && match (previousMedianTimePast header s).1 with
    | .ok m => m ≤ header.time
    | .error _ => true

theorem timely_of_test {s : ChainStateInner csv} (hinv : HeaderInv k s)
    (h : timelyTest s header = true) : AcceptReady s header ∧ Timely s header := by
  rcases Bool.and_eq_true_iff.mp h with ⟨hspare, htime⟩
  refine ⟨acceptReady_of_spare hinv.chain hspare, fun m hm => ?_⟩
  rw [hm] at htime
  exact of_decide_eq_true htime

theorem created_csv {start : ChainStateInner csv}
    (hnew : new csv (createChainStore ChainContext.Sample.config) none = .ok start) :
    Created ChainContext.Sample.config start :=
  ⟨rounds, by decide +kernel, none, hnew⟩

end Sample

open Sample ChainContext in
theorem headers_keep_final_three : ∃ start s,
    new csv (createChainStore Sample.config) none = .ok start ∧
    HeaderRun (fun s header => AcceptReady s header ∧ Timely s header) start s ∧
    s.bestBlock.bestBlock = csv.blockHash t₃ ∧ s.bestBlock.depth = 3 ∧ KeepsFinal s := by
  have hrun : afterTested csv Sample.config timelyTest [t₁, t₂, t₃] (fun s =>
      decide (s.bestBlock.bestBlock = csv.blockHash t₃ ∧ s.bestBlock.depth = 3)) = true := by
    decide +kernel
  rcases afterTested_eq_true rounds (by decide +kernel) And.left timely_of_test hrun with
    ⟨start, s, hnew, hreach, -, -, hcheck⟩
  rcases of_decide_eq_true hcheck with ⟨htip, hdepth⟩
  exact ⟨start, _, hnew, hreach, htip, hdepth,
    headers_keep_final rfl (created_csv hnew) hreach⟩

open Sample ChainContext in
/-- A transaction is final in the second block of a chain and not in the third. -/
theorem headers_lose_final : ∃ start s,
    new csv (createChainStore Sample.config) none = .ok start ∧
    HeaderRun AcceptReady start s ∧
    (acceptHeaders [t₁, u₂, u₃] start).1 = [.ok (), .ok (), .ok ()] ∧
    s = (acceptHeaders [t₁, u₂, u₃] start).2 ∧
    s.view (csv.blockHash u₂) = some (.headersOnly u₂ 2) ∧
    s.view (csv.blockHash u₃) = some (.headersOnly u₃ 3) ∧
    u₃.prevBlockhash = csv.blockHash u₂ ∧ csv.parameters.csvActivationHeight ≤ 2 ∧
    (blockLockTimeCutoff 2 u₂ s).1 = .ok (.mtp 1600000600) ∧
    (blockLockTimeCutoff 3 u₃ s).1 = .ok (.mtp 1600000300) ∧
    Consensus.isFinalTransaction locked 2 (.mtp 1600000600) = true ∧
    Consensus.isFinalTransaction locked 3 (.mtp 1600000300) = false ∧ ¬ KeepsFinal s := by
  have hrun : fromNew csv Sample.config (fun start =>
      testedRun spareFor [t₁, u₂, u₃] start &&
        decide ((acceptHeaders [t₁, u₂, u₃] start).1 = [.ok (), .ok (), .ok ()] ∧
          (getHeader (csv.blockHash u₂) (acceptHeaders [t₁, u₂, u₃] start).2.chainstore).1 =
            .ok (some (.headersOnly u₂ 2)) ∧
          (getHeader (csv.blockHash u₃) (acceptHeaders [t₁, u₂, u₃] start).2.chainstore).1 =
            .ok (some (.headersOnly u₃ 3)) ∧
          (blockLockTimeCutoff 2 u₂ (acceptHeaders [t₁, u₂, u₃] start).2).1 =
            .ok (.mtp 1600000600) ∧
          (blockLockTimeCutoff 3 u₃ (acceptHeaders [t₁, u₂, u₃] start).2).1 =
            .ok (.mtp 1600000300))) = true := by
    decide +kernel
  rcases fromNew_eq_true hrun with ⟨start, hnew, htest⟩
  rcases Bool.and_eq_true_iff.mp htest with ⟨htested, hcheck⟩
  rcases of_decide_eq_true hcheck with ⟨haccepted, hu2, hu3, hcutoff2, hcutoff3⟩
  have hstart := HeaderInv.new (created_csv hnew).isNew
  rcases HeaderRun.of_testedRun id (fun h => acceptReady_of_spare h.chain) hstart .start
    [t₁, u₂, u₃] htested with ⟨hreach, hinv⟩
  rw [getHeader_fst hinv.chain.store] at hu2 hu3
  have hfinal : Consensus.isFinalTransaction locked 2 (.mtp 1600000600) = true := by decide
  have hlost : Consensus.isFinalTransaction locked 3 (.mtp 1600000300) = false := by decide
  refine ⟨start, _, hnew, hreach, haccepted, rfl, Except.ok.inj hu2, Except.ok.inj hu3, rfl,
    by decide, hcutoff2, hcutoff3, hfinal, hlost, ?_⟩
  intro hkeeps
  rcases hkeeps.final _ _ _ _ 2 1 (Except.ok.inj hu2) (Except.ok.inj hu3) rfl (by decide)
    (by decide) (.child (Except.ok.inj hu2) .self) with ⟨c, c', hc, hc', hall⟩
  cases hcutoff2.symm.trans hc
  cases hcutoff3.symm.trans hc'
  exact Bool.false_ne_true (hlost.symm.trans (hall locked hfinal))

end Floresta.ChainState
