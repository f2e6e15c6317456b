import Floresta.ChainState.Growth

/-!
# ChainWork — when the work of the best chain is exact

`get_work` looks at one header for each epoch and counts its work for all the blocks of the epoch,
`get_fork_work` adds up block by block.  Both give the cumulative work of a block exactly if the
blocks of each epoch have the work of the first one.  Without minimum-difficulty blocks this is what
the difficulty rules ask for; with them a block that comes late has less work than its epoch.
-/

namespace Floresta.ChainState

open Prog FlatChainStore

variable {C : ChainContext} {k : Nat} {s start : ChainStateInner C}
variable {n : Nat} {x : BlockHash} {d : DiskBlockHeader}

/-- The work of the best-chain block at a height is the sum over it and its ancestors, and so is the
one that is added up block by block from the genesis block on. -/
def WorkExact (s : ChainStateInner C) (n : Nat) : Prop :=
  ∃ w, TotalWork C (storedHeaders s) (headerAtHeight s n) w ∧
    (getWork (C.blockHash (headerAtHeight s n)) s).1 = .ok w ∧
    (getForkWork (headerAtHeight s n) C.genesisHash s).1 = .ok w

/-! ## From one height to the next -/

theorem epochSum_congr {m epochs : Nat}
    (h : ∀ epoch < epochs, epochTotal s n epoch = epochTotal s m epoch) :
    epochSum s n epochs = epochSum s m epochs := by
  induction epochs with
  | zero => rfl
  | succ epochs ih =>
    rw [epochSum_succ, epochSum_succ, ih fun epoch hlt => h epoch (Nat.lt_succ_of_lt hlt),
      h epochs (Nat.lt_succ_self epochs)]

theorem epochSum_next (hepoch : (n + 1) % 2016 ≠ 0) :
    epochSum s (n + 1) ((n + 1) / 2016 + 1) =
      Consensus.addWork (epochSum s n (n / 2016 + 1)) (blockWork s (2016 * (n / 2016))) := by
  have hsame : (n + 1) / 2016 = n / 2016 := by omega
  have hbefore : epochSum s (n + 1) (n / 2016) = epochSum s n (n / 2016) := by
    refine epochSum_congr fun epoch hlt => ?_
    have hfull : epochBlocks (n + 1) epoch = epochBlocks n epoch := by
      unfold epochBlocks
      omega
    unfold epochTotal
    rw [hfull]
  have hlast : epochTotal s (n + 1) (n / 2016) =
      epochTotal s n (n / 2016) + blockWork s (2016 * (n / 2016)) := by
    have hblocks : epochBlocks (n + 1) (n / 2016) = epochBlocks n (n / 2016) + 1 := by
      unfold epochBlocks
      omega
    unfold epochTotal blockWork
    rw [hblocks, Nat.mul_succ]
  rw [hsame, epochSum_succ, epochSum_succ, hbefore, hlast]
  unfold Consensus.addWork
  rw [Nat.mod_add_mod, Nat.add_assoc]

section Reads

variable (hwork : ∀ bits, C.pow.work bits < 2 ^ 256) (hinv : ChainInv k s)

include hwork hinv

theorem getWork_eq {w : Nat} (hd : OnChain s.view x d n) (hanswer : (getWork x s).1 = .ok w) :
    w = epochSum s n (n / 2016 + 1) := by
  have hhash := hinv.tree.hash x d hd.entry
  subst hhash
  have hout := (within_getWork hwork hinv hd s (Quiet.refl hinv.store)).2
  rw [hanswer] at hout
  exact hout.2

theorem getWork_ok (hd : OnChain s.view x d n) (hfits : EpochsFit s n) :
    (getWork x s).1 = .ok (epochSum s n (n / 2016 + 1)) := by
  have hhash := hinv.tree.hash x d hd.entry
  subst hhash
  have hout := (within_getWork hwork hinv hd s (Quiet.refl hinv.store)).2
  cases hanswer : (getWork (C.blockHash d.header) s).1 with
  | error fault =>
    rw [hanswer] at hout
    exact absurd hfits hout.2
  | ok w =>
    rw [hanswer] at hout
    rw [hout.2]

/-- Block by block from the genesis block on, the sum is taken with 256 bits. -/
theorem getForkWork_genesis {w : Nat}
    (hd : OnChain s.view x d n) (hw : TotalWork C s.view d.header w) :
    (getForkWork d.header C.genesisHash s).1 = .ok (w % 2 ^ 256) := by
  have hgenesis : OnChain s.view (C.blockHash (genesisEntry C).header) (genesisEntry C)
      0 := ⟨hinv.tree.genesis, rfl, rfl⟩
  rcases hd.branch hinv.tree with ⟨hbranch, hle⟩
  have hbound := hinv.bound_lt
  have habove : Above s.view (genesisEntry C).header d.header n :=
    OnChain.above hinv ((Nat.zero_add n).symm ▸ hd) hgenesis
  have hstored : ∀ e, s.view (C.blockHash d.header) = some e → e.header = d.header := by
    intro e he
    rw [hinv.tree.lookup hd.entry] at he
    rw [Option.some.inj he]
  have hfirst : epochTotal s 0 0 = C.pow.work C.genesisHeader.bits := by
    unfold epochTotal epochBlocks
    rw [hgenesis.headerAtHeight hinv.store]
    simp [genesisEntry, DiskBlockHeader.header]
  have hout := (within_ancestorWork hwork hinv hstored habove ((Nat.zero_add n).symm ▸ hbranch)
    hgenesis (by omega) hw (.genesis genesisEntry_isGenesis) s (Quiet.refl hinv.store)).2
  change Outcome _ _ (getForkWork d.header C.genesisHash s).1 at hout
  cases hanswer : (getForkWork d.header C.genesisHash s).1 with
  | error fault =>
    rw [hanswer] at hout
    refine absurd (fun epoch hepoch => ?_) hout.2
    have hzero : epoch = 0 := by omega
    rw [hzero, hfirst]
    exact hwork _
  | ok total =>
    rw [hanswer] at hout
    rcases hout with ⟨hlt, hsum⟩
    have hbase : epochSum s 0 (0 / 2016 + 1) = C.pow.work C.genesisHeader.bits := by
      rw [epochSum_succ, hfirst]
      exact (congrArg (· % 2 ^ 256) (Nat.zero_add _)).trans (Nat.mod_eq_of_lt (hwork _))
    rw [hbase] at hsum
    change (total + C.pow.work C.genesisHeader.bits) % 2 ^ 256 = _ at hsum
    refine congrArg Except.ok ?_
    omega

end Reads

/-! ## The condition -/

/-- What is needed for exact works at all heights: epochs of blocks with the same work, and a total
of 256 bits. -/
theorem workExact_iff (hwork : ∀ bits, C.pow.work bits < 2 ^ 256) (hinv : ChainInv k s) :
    (∀ n ≤ s.bestBlock.depth, WorkExact s n) ↔
      EvenEpochs s ∧ ∀ w, TotalWork C (storedHeaders s)
        (headerAtHeight s s.bestBlock.depth) w → w < 2 ^ 256 := by
  unfold WorkExact
  rw [storedHeaders_eq hinv.store]
  -- the block of each height, with its cumulative work
  have hchain : ∀ n ≤ s.bestBlock.depth, ∃ d, headerAtHeight s n = d.header ∧
      OnChain s.view (C.blockHash d.header) d n ∧
      TotalWork C s.view d.header (∑ i ∈ Finset.range (n + 1), blockWork s i) := by
    intro n hn
    rcases hinv.onChain_at hn with ⟨x, d, hd⟩
    refine ⟨d, hd.headerAtHeight hinv.store, ?_, hd.totalWork hinv⟩
    rw [hinv.tree.hash x d hd.entry]
    exact hd
  constructor
  · intro hexact
    have hsums : ∀ n ≤ s.bestBlock.depth,
        ∑ i ∈ Finset.range (n + 1), blockWork s i = epochSum s n (n / 2016 + 1) := by
      intro n hn
      rcases hchain n hn with ⟨d, heq, hd, htotal⟩
      rcases hexact n hn with ⟨w, hw, hanswer, -⟩
      rw [heq] at hw hanswer
      rw [htotal.unique hw]
      exact getWork_eq hwork hinv hd hanswer
    refine ⟨fun n hn => ?_, fun w hw => ?_⟩
    · cases n with
      | zero => rfl
      | succ n =>
        by_cases hepoch : (n + 1) % 2016 = 0
        · have hsplit : 2016 * ((n + 1) / 2016) = n + 1 := by omega
          rw [hsplit]
        · -- the sums of two heights differ by the block, and by the first one of its epoch
          have hnext := hsums (n + 1) hn
          have hsame : (n + 1) / 2016 = n / 2016 := by omega
          rw [epochSum_next hepoch, ← hsums n (by omega), Finset.sum_range_succ] at hnext
          unfold Consensus.addWork at hnext
          rw [hsame]
          have hblock : blockWork s (n + 1) < 2 ^ 256 := hwork _
          have hfirst : blockWork s (2016 * (n / 2016)) < 2 ^ 256 := hwork _
          omega
    · rcases hchain _ (Nat.le_refl _) with ⟨d, heq, -, htotal⟩
      rw [heq] at hw
      rw [hw.unique htotal, hsums _ (Nat.le_refl _)]
      exact epochSum_lt s _ _
  · rintro ⟨heven, hbound⟩ n hn
    rcases hchain n hn with ⟨d, heq, hd, htotal⟩
    rcases hchain _ (Nat.le_refl _) with ⟨b, hbeq, -, hbtotal⟩
    have hlt : ∑ i ∈ Finset.range (n + 1), blockWork s i < 2 ^ 256 := by
      refine Nat.lt_of_le_of_lt ?_ (hbound _ (hbeq ▸ hbtotal))
      exact Finset.sum_le_sum_of_subset (Finset.range_mono (by omega))
    rw [heq]
    refine ⟨_, htotal, ?_, ?_⟩
    · rw [getWork_ok hwork hinv hd (heven.fit hn hlt), epochSum_eq hinv heven hd htotal hlt]
    · rw [getForkWork_genesis hwork hinv hd htotal, Nat.mod_eq_of_lt hlt]

/-- Without minimum-difficulty blocks, the stored branches keep their works inside an epoch. -/
theorem HeaderRun.steady (hpow : ProofOfWork.Lawful C.pow)
    (hmin : C.parameters.params.allowMinDifficultyBlocks = false) (hstart : HeaderInv k start)
    (hsteady : Steady C start.view) (hrun : HeaderRun AcceptReady start s) :
    Steady C s.view := by
  refine (hrun.induct (P := fun s => HeaderInv k s ∧ Steady C s.view)
    ⟨hstart, hsteady⟩ fun s header h hready => ⟨h.1.accept hready, ?_⟩).2
  rcases h with ⟨hinv, hsteady⟩
  rcases hinv.chain.accept_cases hready with hquiet | ⟨n, hash, hfresh, hvalid, hgrown⟩
  · rw [hquiet.view]
    exact hsteady
  · exact hinv.grown_steady hpow hmin hsteady hfresh hvalid hgrown

/-- There, the epochs of the best chain are even in every state that is reached. -/
theorem HeaderRun.even (hpow : ProofOfWork.Lawful C.pow)
    (hmin : C.parameters.params.allowMinDifficultyBlocks = false) (hnew : IsNew config k start)
    (hrun : HeaderRun AcceptReady start s) : EvenEpochs s := by
  have hstart := WorkInv.new hpow.work_lt hnew
  exact (hrun.steady hpow hmin hstart.headers hstart.steady).even (hrun.inv hstart.headers).chain

/-- In every state that is reached by offering headers, `get_work` and `get_fork_work` are exact for
all blocks of the best chain if and only if the blocks of each epoch have the work of its first
block and the total has 256 bits. -/
theorem getWork_exact (hwork : ∀ bits, C.pow.work bits < 2 ^ 256) {config : FlatChainStoreConfig}
    (hnew : Created config start) (hrun : HeaderRun AcceptReady start s) :
    (∀ n ≤ s.bestBlock.depth, WorkExact s n) ↔
      EvenEpochs s ∧ ∀ w, TotalWork C (storedHeaders s)
        (headerAtHeight s s.bestBlock.depth) w → w < 2 ^ 256 :=
  workExact_iff hwork (hrun.inv (HeaderInv.new hnew.isNew)).chain

open Sample ChainContext in
/-- A chain of two blocks. -/
theorem getWork_exact_two :
    ∃ start s, new sample (createChainStore Sample.config) none =
        .ok start ∧ HeaderRun AcceptReady start s ∧ s = (acceptHeaders [a₁, a₂] start).2 ∧
      s.bestBlock.depth = 2 ∧ ∀ n ≤ 2, WorkExact s n := by
  have hrun : afterHeaders [a₁, a₂] (fun s => decide (s.bestBlock.depth = 2)) = true := by
    decide +kernel
  rcases afterHeaders_eq_true hrun with ⟨start, s, hnew, hreach, hinv, hs, htest⟩
  have hdepth := of_decide_eq_true htest
  have heven := hreach.even lawful rfl (created hnew).isNew
  refine ⟨start, s, hnew, hreach, hs, hdepth, ?_⟩
  rw [← hdepth]
  refine (getWork_exact work_lt (created hnew) hreach).mpr
    ⟨heven, fun w hw => ?_⟩
  have hbits : ∀ bits : UInt32, sample.pow.work bits ≤ 2 ^ 32 :=
    fun bits => Nat.le_of_lt bits.toNat_lt
  rw [storedHeaders_eq hinv.chain.store] at hw
  rcases hw.le_of_branch hbits with ⟨n, hn, hle⟩
  rcases hinv.chain.best with ⟨b, hb⟩
  rw [hb.headerAtHeight hinv.chain.store] at hn
  have hlen : n = 2 := by
    rw [← hdepth]
    exact hn.unique (hb.branch hinv.chain.tree).1
  subst hlen
  omega

/-! ### A block that comes late

An epoch of blocks a second apart, the first block of the next one with a quarter of the target, and
a block that comes much later, with the easiest target again. -/

namespace Late

open ChainContext ChainContext.Retarget

def time (n : Nat) : Nat := if n ≤ 2016 then n else 10000

def bits (n : Nat) : UInt32 := if n = 2016 then hard else easy

def c : Nat → BlockHeader := mined time bits

theorem bits_easy (hn : n ≠ 2016) : bits n = easy := if_neg hn

theorem required_c {start s : ChainStateInner (retarget true)} (hn : n < 2017)
    (hs : Alone 13 start c n s) :
    Within (Quiet 13 s) (fun _ => False)
      (getNextRequiredWork (c n) (n + 1) (c (n + 1)) : ChainM (retarget true) _)
      fun target => bits (n + 1) = toCompactLossy target := by
  have hcompact : easy = toCompactLossy ((retarget true).pow.target easy) := by decide +kernel
  by_cases hepoch : (n + 1) % 2016 = 0
  · have hn' : n = 2015 := by omega
    subst hn'
    have hfirst : 2015 + 1 - DIFFCHANGE_INTERVAL ≤ 2015 := by decide
    refine (within_required_retarget rfl hepoch (hs.within_ancestor hfirst)).mono ?_
    rintro target rfl
    decide +kernel
  · by_cases hlast : n = 2016
    · subst hlast
      refine (within_required_late rfl hepoch (by decide +kernel)).mono ?_
      rintro target rfl
      decide +kernel
    · have hlt : n + 1 < 2016 := by omega
      have hall : ∀ x d, s.view x = some d → d.header.bits = easy := by
        intro x d hd
        rcases hs.only x d hd with ⟨i, hi, heq⟩
        rw [heq]
        exact bits_easy (by omega)
      have hsoon : ¬ (c n).time + (retarget true).parameters.params.powTargetSpacing * 2 <
          (c (n + 1)).time := by
        have hthis : (c n).time = n := if_pos (by omega)
        have hnext : (c (n + 1)).time = n + 1 := if_pos (by omega)
        have hspacing : (retarget true).parameters.params.powTargetSpacing = 600 := rfl
        rw [hthis, hnext, hspacing]
        omega
      refine (within_required_usual rfl hepoch hsoon (hs.branch (Nat.le_refl n))
        (bits_easy hlast) hall).mono ?_
      rintro target rfl
      rw [bits_easy (by omega)]
      exact hcompact

theorem run_c {start : ChainStateInner (retarget true)}
    (hnew : new (retarget true) (createChainStore config) none = .ok start) :
    ∃ s, HeaderRun AcceptReady start s ∧ Alone 13 start c 2017 s := by
  refine mined_run counting hnew rfl rfl (by norm_num) (fun n => ?_) (fun _ _ => .inl rfl)
    fun n hn s hs => required_c hn hs
  by_cases hn : n = 2016
  · exact .inr (if_pos hn)
  · exact .inl (bits_easy hn)

theorem sum_c : ∑ j ∈ Finset.range (2017 + 1), (retarget true).pow.work (c j).bits =
    2016 * work easy + work hard + work easy := by
  have hfirst : ∑ j ∈ Finset.range 2016, (retarget true).pow.work (c j).bits =
      ∑ _j ∈ Finset.range 2016, work easy := by
    refine Finset.sum_congr rfl fun j hj => ?_
    have hlt := Finset.mem_range.mp hj
    have heasy : (c j).bits = easy := bits_easy (by omega)
    rw [heasy]
    rfl
  rw [Finset.sum_range_succ, Finset.sum_range_succ, hfirst, Finset.sum_const, Finset.card_range]
  rfl

theorem epochTotal_first {start s : ChainStateInner (retarget true)} (hs : Alone 13 start c 2017 s) :
    epochTotal s 2017 0 = work easy * 2016 := by
  unfold epochTotal
  rw [hs.headerAtHeight (by norm_num)]
  rfl

/-- Of the second one, two blocks count with the work of the first. -/
theorem epochTotal_second {start s : ChainStateInner (retarget true)}
    (hs : Alone 13 start c 2017 s) : epochTotal s 2017 1 = work hard * 2 := by
  unfold epochTotal
  rw [hs.headerAtHeight (by norm_num)]
  rfl

end Late

open ChainContext ChainContext.Retarget Late in
/-- With minimum-difficulty blocks, the last block is counted with the work of the one before. -/
theorem getWork_late :
    ∃ start s, new (retarget true) (createChainStore config) none = .ok start ∧
      HeaderRun AcceptReady start s ∧ s.bestBlock.depth = 2017 ∧ headerAtHeight s 2017 = c 2017 ∧
      TotalWork (retarget true) (storedHeaders s) (c 2017)
        (2016 * work easy + work hard + work easy) ∧
      (getWork ((retarget true).blockHash (c 2017)) s).1 = .ok (2016 * work easy + 2 * work hard) ∧
      ¬ WorkExact s 2017 := by
  have hstart : fromNew (retarget true) config (fun _ => true) = true := by decide +kernel
  rcases fromNew_eq_true hstart with ⟨start, hnew, -⟩
  rcases run_c hnew with ⟨s, hrun, hs⟩
  have hinv := hs.headers.chain
  have htop := hs.headerAtHeight (Nat.le_refl 2017)
  have htotal : TotalWork (retarget true) (storedHeaders s) (c 2017)
      (2016 * work easy + work hard + work easy) := by
    have hsum := hs.totalWork (Nat.le_refl 2017)
    rw [sum_c] at hsum
    rw [storedHeaders_eq hinv.store]
    exact hsum
  have hanswer : (getWork ((retarget true).blockHash (c 2017)) s).1 =
      .ok (2016 * work easy + 2 * work hard) := by
    rcases hs.chain 2017 (Nat.le_refl 2017) with ⟨d, hd, -⟩
    have hfits : EpochsFit s 2017 := by
      intro epoch hepoch
      obtain rfl | rfl : epoch = 0 ∨ epoch = 1 := by omega
      · rw [epochTotal_first hs]
        decide +kernel
      · rw [epochTotal_second hs]
        decide +kernel
    have hsum : epochSum s 2017 2 = 2016 * work easy + 2 * work hard := by
      have hnone : epochSum s 2017 0 = 0 := rfl
      rw [epochSum_succ, epochSum_succ, epochTotal_first hs, epochTotal_second hs, hnone]
      decide +kernel
    rw [getWork_ok work_lt hinv hd hfits, hsum]
  refine ⟨start, s, hnew, hrun, hs.depth, htop, htotal, hanswer, ?_⟩
  rintro ⟨w, hw, hget, -⟩
  rw [htop] at hw hget
  have hclaimed : w = 2016 * work easy + work hard + work easy := hw.unique htotal
  have hcomputed : 2016 * work easy + 2 * work hard = w := Except.ok.inj (hanswer.symm.trans hget)
  rw [hclaimed] at hcomputed
  exact absurd hcomputed (by decide +kernel)

end Floresta.ChainState
