import Floresta.ChainState.Growth

/-!
# StaleSlots — the height index above a shorter best chain

A branch with more work can be shorter than the best chain: the blocks above a change of the target
count for more.  A reorganisation to it writes the heights of the new branch only, and the records
above the new tip keep the headers of the old branch.  For such a header `get_ancestor_at_height`
reads the heights below it from the new branch.
-/

namespace Floresta.ChainState

open Prog FlatChainStore

variable {C : ChainContext} {k : Nat} {s start : ChainStateInner C}

/-- In every state that is reached by offering headers, the lookup of the ancestors of a stored
header agrees with the walk along `prev_blockhash` exactly if the header is not higher than the best
chain, or the height index has not kept it there. -/
theorem getAncestorAtHeight_agrees {config : FlatChainStoreConfig} (hnew : Created config start)
    (hrun : HeaderRun AcceptReady start s) {x : BlockHash} {d : DiskBlockHeader} {h : Nat}
    (hd : storedHeaders s x = some d) (hh : d.height = some h) :
    (∀ t ≤ h, ∃ y, Above (storedHeaders s) y d.header (h - t) ∧
        (getAncestorAtHeight d.header h t s).1 = .ok y) ↔
      (h ≤ s.bestBlock.depth ∨
        (FlatChainStore.getBlockHash h s.chainstore).1 ≠ .ok (some x)) := by
  have hinv := (hrun.inv (HeaderInv.new hnew.isNew)).chain
  have hleaf := hrun.tip_leaf hnew.isNew
  rw [storedHeaders_eq hinv.store] at hd ⊢
  exact ancestors_agree_iff hinv hleaf hd hh

open Sample ChainContext in
/-- The lookup for a header on a fork. -/
theorem getAncestorAtHeight_agrees_fork :
    ∃ start s, new sample (createChainStore Sample.config) none =
        .ok start ∧ HeaderRun AcceptReady start s ∧ s = (acceptHeaders [a₁, a₂, b₂] start).2 ∧
      ∀ t ≤ 2, ∃ y, Above (storedHeaders s) y b₂ (2 - t) ∧
        (getAncestorAtHeight b₂ 2 t s).1 = .ok y := by
  have hrun : afterHeaders [a₁, a₂, b₂] (fun s =>
      decide ((getHeader (sample.blockHash b₂) s.chainstore).1 =
          .ok (some (.inFork b₂ 2)) ∧ s.bestBlock.depth = 2)) = true := by decide +kernel
  rcases afterHeaders_eq_true hrun with ⟨start, s, hnew, hreach, -, hs, htest⟩
  rcases of_decide_eq_true htest with ⟨hfork, hdepth⟩
  have hd : storedHeaders s (sample.blockHash b₂) = some (.inFork b₂ 2) := by
    unfold storedHeaders
    rw [hfork]
  exact ⟨start, s, hnew, hreach, hs, (getAncestorAtHeight_agrees (created hnew)
    hreach hd rfl).mpr (.inl (Nat.le_of_eq hdepth.symm))⟩

/-! ### A shorter branch with more work

The first 2014 blocks come a second apart.  Branch `a` goes on with a block two weeks later, so that
the target stays the easiest one, and is four blocks long.  Branch `b` goes on at once: its second
block has a quarter of the target, and with it the branch has more work. -/

namespace Stale

open ChainContext ChainContext.Retarget

def time (n : Nat) : Nat := if n < 2015 then n else 1209600 + n

def a : Nat → BlockHeader := mined time fun _ => easy

def b₂₀₁₅ : BlockHeader := ⟨1, BitVec.ofNat 256 2015, 0, 2015, easy, 5000⟩

def b₂₀₁₆ : BlockHeader := ⟨1, BitVec.ofNat 256 5001, 0, 2016, hard, 5001⟩

/-- The easiest target is the one that a slow epoch asks for, and the parent's elsewhere. -/
theorem required_a {start s : ChainStateInner (retarget false)} {n : Nat} (hn : n < 2018)
    (hs : Alone 13 start a n s) :
    Within (Quiet 13 s) (fun _ => False)
      (getNextRequiredWork (a n) (n + 1) (a (n + 1)) : ChainM (retarget false) _)
      fun target => easy = toCompactLossy target := by
  have heasy : easy = toCompactLossy ((retarget false).pow.target easy) := by decide +kernel
  by_cases hepoch : (n + 1) % 2016 = 0
  · have hn' : n = 2015 := by omega
    subst hn'
    have hfirst : 2015 + 1 - DIFFCHANGE_INTERVAL ≤ 2015 := by decide
    refine (within_required_retarget rfl hepoch (hs.within_ancestor hfirst)).mono ?_
    rintro target rfl
    decide +kernel
  · refine (within_required_same rfl hepoch).mono ?_
    rintro target rfl
    have hbits : (a n).bits = easy := rfl
    rw [hbits]
    exact heasy

theorem run_a {start : ChainStateInner (retarget false)}
    (hnew : new (retarget false) (createChainStore config) none = .ok start) :
    ∃ s, HeaderRun AcceptReady start s ∧ Alone 13 start a 2018 s :=
  mined_run counting hnew rfl rfl (by norm_num) (fun _ => .inl rfl) (fun _ _ => .inl rfl)
    fun n hn s hs => required_a hn hs

section Branches

variable {start s : ChainStateInner (retarget false)}

theorem work_a (n : Nat) : (retarget false).pow.work (a n).bits = work easy :=
  congrArg work (rfl : (a n).bits = easy)

theorem total_a (hs : Alone 13 start a 2018 s) {i : Nat} (hi : i ≤ 2018) :
    TotalWork (retarget false) s.view (a i) ((i + 1) * work easy) := by
  have htotal := hs.totalWork hi
  have hsum : ∑ j ∈ Finset.range (i + 1), (retarget false).pow.work (a j).bits =
      (Finset.range (i + 1)).card * work easy := Finset.sum_const_nat fun j _ => work_a j
  rw [hsum, Finset.card_range] at htotal
  exact htotal

theorem work_easy : work easy = 4295032833 := by decide +kernel

theorem work_hard : work hard = 17180131332 := by decide +kernel

theorem workInv_a (hs : Alone 13 start a 2018 s) : WorkInv 13 s := by
  rcases hs.chain 2018 (Nat.le_refl _) with ⟨b, hb, hba⟩
  refine ⟨hs.headers, ?_, b, 2019 * work easy, ?_, ?_, ?_, ?_⟩
  · intro x d p n hd hp _ _ _
    rcases hs.only x d hd with ⟨i, -, heq⟩
    rcases hs.only _ p hp with ⟨j, -, heq'⟩
    rw [heq, heq']
    rfl
  · rw [hs.best]
    exact hb.entry
  · rw [hba]
    exact total_a hs (Nat.le_refl _)
  · rw [work_easy]
    norm_num
  · intro x d w hd hw
    rcases hs.only x d hd with ⟨i, hi, heq⟩
    rw [heq] at hw
    rw [hw.unique (total_a hs hi)]
    exact Nat.mul_le_mul_right _ (by omega)

theorem parent_b (hs : Alone 13 start a 2018 s) :
    ∃ d, s.view b₂₀₁₅.prevBlockhash = some d ∧ d.height = some 2014 ∧ d.header = a 2014 := by
  rcases hs.chain 2014 (by norm_num) with ⟨d, hd, heq⟩
  rw [a, blockHash_mined counting (by norm_num)] at hd
  exact ⟨d, hd.entry, hd.height, heq⟩

theorem blockHash_a_ne {i : Nat} (hi : i ≤ 2018) {n : Nat} (hn : 2018 < n) (hlt : n < 2 ^ 32) :
    (retarget false).blockHash (a i) ≠ BitVec.ofNat 256 (n + 1) := by
  intro heq
  rw [a, blockHash_mined counting (by omega)] at heq
  have hnat := congrArg BitVec.toNat heq
  rw [toNat_hash (by omega), toNat_hash hlt] at hnat
  omega

theorem new_b (hs : Alone 13 start a 2018 s) :
    s.view ((retarget false).blockHash b₂₀₁₅) = none := by
  cases hview : s.view ((retarget false).blockHash b₂₀₁₅) with
  | none => rfl
  | some d =>
    rcases hs.only _ d hview with ⟨i, hi, heq⟩
    refine absurd ?_ (blockHash_a_ne hi (n := 5000) (by norm_num) (by norm_num))
    rw [← heq]
    exact hs.headers.chain.tree.hash _ d hview

theorem forked_b (hnew : new (retarget false) (createChainStore config) none = .ok start)
    (hs : Alone 13 start a 2018 s) :
    AcceptReady s b₂₀₁₅ ∧ (∃ f, Accepted 13 f s (acceptHeader b₂₀₁₅ s).2) ∧
      Forked s b₂₀₁₅ 2015 (acceptHeader b₂₀₁₅ s).2 ∧ WorkInv 13 (acceptHeader b₂₀₁₅ s).2 := by
  have hwork := workInv_a hs
  have hinv := hs.headers.chain
  rcases parent_b hs with ⟨d, hd, hheight, heq⟩
  rcases files_new counting hnew with ⟨hheaders, hforks, hcapacity⟩
  have hg : isGenesis (retarget false) b₂₀₁₅ = false := by decide +kernel
  have hready : AcceptReady s b₂₀₁₅ := by
    have hocc := hs.occupancy_le
    refine Spare.ready hinv (by decide +kernel) hg hd hheight ⟨?_, ?_, ?_, ?_, ?_, ?_⟩
    · rw [hs.headersFileSize, hheaders]
      norm_num
    · rw [hs.headersFileSize, hheaders, hs.depth]
      norm_num
    · rw [hs.headersFileSize, hheaders]
      norm_num
    · rw [hs.forkFileSize, hforks, hs.forkCount, hs.depth]
      norm_num
    · rw [hs.forkFileSize, hforks]
      norm_num
    · rw [hs.indexCapacity, hcapacity]
      omega
  have hvalid : (validateHeader b₂₀₁₅ s).1 = .ok ((retarget false).blockHash b₂₀₁₅) := by
    refine valid counting hinv.store hd hheight (.inl rfl) (by norm_num) rfl (by decide) (.inl rfl) ?_
    refine (within_required_same rfl (by norm_num)).mono ?_
    rintro target rfl
    rw [heq]
    decide +kernel
  have hprev : b₂₀₁₅.prevBlockhash ≠ s.bestBlock.bestBlock := by
    rw [hs.best]
    decide +kernel
  have hbranch : Branch (retarget false) s.view b₂₀₁₅ (2014 + 1) :=
    .child hg hd (heq ▸ hs.branch (by norm_num))
  rcases hs.headers.branches work_lt hready (new_b hs) hprev (by decide +kernel)
    hwork.epochsFit hvalid hbranch with ⟨hfresh, ⟨f, haccepted⟩, hdecided⟩
  rcases hs.chain 2018 (Nat.le_refl _) with ⟨b, hb, hba⟩
  have hbest : s.view s.bestBlock.bestBlock = some b := by
    rw [hs.best]
    exact hb.entry
  have hv : TotalWork (retarget false) s.view b.header (2019 * work easy) := by
    rw [hba]
    exact total_a hs (Nat.le_refl _)
  have hw : TotalWork (retarget false) s.view b₂₀₁₅ (2015 * work easy + work easy) :=
    .child hg hd (heq ▸ total_a hs (by norm_num))
  have hforked := (hwork.chooses work_lt hfresh hdecided hbest hv hw
    (by rw [work_easy]; norm_num)).1 (by rw [work_easy]; norm_num)
  have hsteady : Steady (retarget false) (acceptHeader b₂₀₁₅ s).2.view := by
    refine (Grown.forked hforked (new_b hs)).steady hinv.tree hwork.steady hd hbranch fun _ => ?_
    rw [heq]
    rfl
  refine ⟨hready, ⟨f, haccepted⟩, hforked, hwork.behind (hs.headers.accept hready) hforked
    (new_b hs) hsteady hbest hv hw ?_⟩
  rw [work_easy]
  norm_num

/-- The state with the block of branch `b` on a fork, above the first 2018 blocks of branch `a`. -/
structure Halfway (start s s' : ChainStateInner (retarget false)) : Prop where
  alone : Alone 13 start a 2018 s
  accepted : ∃ f, Accepted 13 f s s'
  forked : Forked s b₂₀₁₅ 2015 s'
  workInv : WorkInv 13 s'

namespace Halfway

variable {s' : ChainStateInner (retarget false)}

section

variable (h : Halfway start s s')

include h

theorem grown : Grown (retarget false) s.view b₂₀₁₅ s'.view :=
  Grown.forked h.forked (new_b h.alone)

theorem fork : s'.view ((retarget false).blockHash b₂₀₁₅) = some (.inFork b₂₀₁₅ 2015) := by
  rw [h.forked.view, Function.update_self]

theorem depth : s'.bestBlock.depth = 2018 := by
  rw [h.forked.best]
  exact h.alone.depth

theorem chain {i : Nat} (hi : i ≤ 2018) :
    ∃ d, OnChain s'.view ((retarget false).blockHash (a i)) d i ∧ d.header = a i := by
  rcases h.alone.chain i hi with ⟨d, hd, heq⟩
  refine ⟨d, ?_, heq⟩
  rw [h.forked.view]
  exact hd.update_ne (blockHash_a_ne hi (n := 5000) (by norm_num) (by norm_num)) _

theorem total : TotalWork (retarget false) s'.view b₂₀₁₅ (2015 * work easy + work easy) := by
  rcases parent_b h.alone with ⟨d, hd, -, heq⟩
  have htotal : TotalWork (retarget false) s.view b₂₀₁₅
      (2015 * work easy + work easy) :=
    .child (by decide +kernel) hd (heq ▸ total_a h.alone (by norm_num))
  exact htotal.keeps h.grown.keeps

theorem above : Above s'.view (a 0) b₂₀₁₅ 2015 := by
  rcases parent_b h.alone with ⟨d, hd, -, heq⟩
  rcases h.alone.chain 2014 (by norm_num) with ⟨e, he, hea⟩
  rcases h.alone.chain 0 (by norm_num) with ⟨g, hg, hga⟩
  have habove := OnChain.above h.alone.headers.chain (j := 2014) ((Nat.zero_add 2014).symm ▸ he) hg
  rw [hea, hga, ← heq] at habove
  exact (Above.child hd habove).keeps h.grown.keeps

theorem new_tip : s'.view ((retarget false).blockHash b₂₀₁₆) = none := by
  have hne : (retarget false).blockHash b₂₀₁₆ ≠ (retarget false).blockHash b₂₀₁₅ := by
    decide +kernel
  rw [h.forked.view, Function.update_of_ne hne]
  cases hview : s.view ((retarget false).blockHash b₂₀₁₆) with
  | none => rfl
  | some d =>
    rcases h.alone.only _ d hview with ⟨i, hi, heq⟩
    refine absurd ?_ (blockHash_a_ne hi (n := 5001) (by norm_num) (by norm_num))
    rw [← heq]
    exact h.alone.headers.chain.tree.hash _ d hview

end

theorem spare (hnew : new (retarget false) (createChainStore config) none = .ok start)
    (h : Halfway start s s') : Spare s' 2015 := by
  rcases files_new counting hnew with ⟨hheaders, hforks, hcapacity⟩
  rcases h.accepted with ⟨f, haccepted⟩
  have hheaders' : s'.chainstore.metadata.headersFileSize = 4096 :=
    (haccepted.marked.headersFileSize.trans h.alone.headersFileSize).trans hheaders
  have hforks' : s'.chainstore.metadata.forkFileSize = 4096 :=
    (haccepted.marked.forkFileSize.trans h.alone.forkFileSize).trans hforks
  have hcapacity' : s'.chainstore.metadata.indexCapacity = 8192 :=
    (haccepted.marked.indexCapacity.trans h.alone.indexCapacity).trans hcapacity
  have hcount : s'.chainstore.metadata.forkCount = 1 := by
    rw [h.forked.forks.count, h.alone.forkCount]
  have hocc := haccepted.inv.store.core.occupancy_le
    (insert ((retarget false).blockHash b₂₀₁₅)
      ((Finset.range 2019).image fun i => (retarget false).blockHash (a i))) (fun x d hd => ?_)
  · have hcard : (insert ((retarget false).blockHash b₂₀₁₅)
        ((Finset.range 2019).image fun i => (retarget false).blockHash (a i))).card ≤ 2020 := by
      have himage : ((Finset.range 2019).image fun i => (retarget false).blockHash (a i)).card ≤
          2019 := by
        refine Nat.le_trans Finset.card_image_le ?_
        rw [Finset.card_range]
      exact Nat.le_trans (Finset.card_insert_le _ _) (by omega)
    refine ⟨?_, ?_, ?_, ?_, ?_, ?_⟩
    · omega
    · rw [h.depth]
      omega
    · omega
    · rw [h.depth]
      omega
    · omega
    · omega
  · rw [← haccepted.inv.tree.hash x d hd]
    rcases h.grown.only x d hd with heq | ⟨e, he, heq⟩
    · rw [heq]
      exact Finset.mem_insert_self ..
    · rcases h.alone.only x e he with ⟨i, hi, hei⟩
      rw [← heq, hei]
      exact Finset.mem_insert_of_mem (Finset.mem_image_of_mem _
        (Finset.mem_range.mpr (Nat.lt_succ_of_le hi)))

theorem valid_tip (h : Halfway start s s') :
    (validateHeader b₂₀₁₆ s').1 = .ok ((retarget false).blockHash b₂₀₁₆) := by
  have hinv := h.workInv.headers.chain
  refine valid counting hinv.store h.fork rfl (.inl rfl) (by norm_num) rfl (by decide) (.inr rfl) ?_
  have hfirst : Within (Quiet 13 s') (fun _ => False) (getAncestorAtHeight b₂₀₁₅ 2015
      (2015 + 1 - DIFFCHANGE_INTERVAL) : ChainM (retarget false) _) (· = a 0) := by
    refine (within_ancestor hinv h.fork rfl (by decide) (.inl ?_)).mono fun y hy => ?_
    · rw [h.depth]
      norm_num
    · exact hy.unique h.above
  refine (within_required_retarget rfl (by norm_num) hfirst).mono ?_
  rintro target rfl
  decide +kernel

theorem switched (hnew : new (retarget false) (createChainStore config) none = .ok start)
    (h : Halfway start s s') :
    AcceptReady s' b₂₀₁₆ ∧ (∃ f, Accepted 13 f s' (acceptHeader b₂₀₁₆ s').2) ∧
      Switched s' b₂₀₁₆ 2016 (acceptHeader b₂₀₁₆ s').2 := by
  have hinv := h.workInv.headers.chain
  have hg : isGenesis (retarget false) b₂₀₁₆ = false := by decide +kernel
  have hready : AcceptReady s' b₂₀₁₆ :=
    Spare.ready hinv (by decide +kernel) hg h.fork rfl (h.spare hnew)
  rcases h.chain (Nat.le_refl 2018) with ⟨b, hb, hba⟩
  have hbest : s'.bestBlock.bestBlock = (retarget false).blockHash (a 2018) := by
    rw [h.forked.best]
    exact h.alone.best
  have hprev : b₂₀₁₆.prevBlockhash ≠ s'.bestBlock.bestBlock := by
    rw [hbest]
    decide +kernel
  rcases hinv.tree.branch_child (d := .inFork b₂₀₁₅ 2015) hg h.fork rfl with ⟨hbranch, -⟩
  rcases h.workInv.headers.branches work_lt hready h.new_tip hprev (by decide +kernel)
    h.workInv.epochsFit h.valid_tip hbranch with ⟨hfresh, haccepted, hdecided⟩
  have hv : TotalWork (retarget false) s'.view b.header (2019 * work easy) := by
    rw [hba]
    exact (total_a h.alone (Nat.le_refl 2018)).keeps h.grown.keeps
  have hw : TotalWork (retarget false) s'.view b₂₀₁₆
      (2015 * work easy + work easy + work hard) := .child hg h.fork h.total
  refine ⟨hready, haccepted, (h.workInv.chooses work_lt hfresh hdecided (hbest ▸ hb.entry) hv hw ?_).2
    ?_⟩
  · rw [work_easy, work_hard]
    norm_num
  · rw [work_easy, work_hard]
    norm_num

end Halfway

end Branches

end Stale

open ChainContext ChainContext.Retarget Stale in
/-- After the reorganisation, the block 2018 of branch `a` gets the block 2016 of branch `b` for its
ancestor. -/
theorem getAncestorAtHeight_stale :
    ∃ start s, new (retarget false) (createChainStore config) none = .ok start ∧
      HeaderRun AcceptReady start s ∧ ∃ d,
        storedHeaders s ((retarget false).blockHash (a 2018)) = some d ∧ d.header = a 2018 ∧
        d.height = some 2018 ∧ Above (storedHeaders s) (a 2016) (a 2018) 2 ∧
        (getAncestorAtHeight (a 2018) 2018 2016 s).1 = .ok b₂₀₁₆ ∧ a 2016 ≠ b₂₀₁₆ := by
  have hstart : fromNew (retarget false) config (fun _ => true) = true := by decide +kernel
  rcases fromNew_eq_true hstart with ⟨start, hnew, -⟩
  rcases run_a hnew with ⟨s1, hrun1, hs1⟩
  rcases forked_b hnew hs1 with ⟨hready1, haccepted1, hforked, hwork⟩
  have hhalf : Halfway start s1 (acceptHeader b₂₀₁₅ s1).2 := ⟨hs1, haccepted1, hforked, hwork⟩
  rcases hhalf.switched hnew with ⟨hready2, ⟨f, haccepted2⟩, hswitched⟩
  have hrun := (hrun1.step _ hready1).step _ hready2
  have hinv := (hwork.headers.accept hready2)
  generalize hs2 : (acceptHeader b₂₀₁₅ s1).2 = s2 at *
  generalize hs3 : (acceptHeader b₂₀₁₆ s2).2 = s3 at *
  -- the blocks of branch `a` are still stored
  rcases hhalf.chain (Nat.le_refl 2018) with ⟨d, hd, hda⟩
  rcases hhalf.chain (i := 2016) (by norm_num) with ⟨e, he, hea⟩
  have habove : Above s3.view (a 2016) (a 2018) 2 := by
    have habove := OnChain.above hwork.headers.chain (n := 2016) (j := 2) hd he
    rw [hda, hea] at habove
    exact habove.keeps haccepted2.marked.keeps
  rcases haccepted2.marked.keeps _ d hd.entry with ⟨d', hd', hheader⟩
  have hbranch : Branch (retarget false) s3.view d'.header 2018 := by
    rw [hheader]
    exact (hd.branch hwork.headers.chain.tree).1.keeps haccepted2.marked.keeps
  have hheight : d'.height = some 2018 := by
    rcases hinv.plain.height hd' with ⟨m, hm⟩
    rcases hinv.chain.tree.rooted _ _ hd' with ⟨i, -, hbranch', hi⟩
    rw [hm, hi m hm, hbranch'.unique hbranch]
  -- and so is the record at the height 2018
  have hslot : (s3.chainstore.headers 2018).hash = (retarget false).blockHash (a 2018) := by
    rw [hswitched.upper 2018 (by norm_num)]
    exact (hd.record hwork.headers.chain.store).1
  have hindexed : (FlatChainStore.getBlockHash 2018 s3.chainstore).1 =
      .ok (some ((retarget false).blockHash (a 2018))) := by
    rw [getBlockHash_written ?_ (by norm_num) ?_, hslot]
    · rw [haccepted2.marked.headersFileSize]
      have htip := (hhalf.spare hnew).tip
      rw [hhalf.depth] at htip
      exact Nat.lt_of_succ_lt htip
    · rw [hslot]
      decide +kernel
  have htip : OnChain s3.view ((retarget false).blockHash b₂₀₁₆)
      (.headersOnly b₂₀₁₆ 2016) 2016 := ⟨hswitched.tip, rfl, rfl⟩
  have hanswer := (within_ancestor_indexed (E := fun _ => False) hinv.chain hd' hindexed htip s3
    (Quiet.refl hinv.chain.store)).2
  rw [hheader, hda] at hanswer
  refine ⟨start, s3, hnew, hrun, d', ?_, ?_, hheight, ?_, ?_, by decide +kernel⟩
  · rw [storedHeaders_eq hinv.chain.store]
    exact hd'
  · rw [hheader, hda]
  · rw [storedHeaders_eq hinv.chain.store]
    exact habove
  · cases hrun : (getAncestorAtHeight (a 2018) 2018 2016 s3).1 with
    | error fault =>
      rw [hrun] at hanswer
      exact hanswer.elim
    | ok y =>
      rw [hrun] at hanswer
      exact congrArg Except.ok hanswer

end Floresta.ChainState
