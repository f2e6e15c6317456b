import Floresta.ChainState.Branches

/-!
# BestChain — the headers that are on the best chain

A stored header is on the best chain if its state is one of those that `save_header` writes at the
position of their height.  Between two calls these headers form one chain (`Settled`).  While a call
moves blocks on or off the chain they form two pieces with a gap between them (`Gapped`), and each
write of the call moves one end of the gap by one block.
-/

namespace Floresta.ChainState

open Prog FlatChainStore

variable {d : DiskBlockHeader} {x y : BlockHash} {n : Nat} {bound : Nat}
variable {e p : DiskBlockHeader} {m : Nat}

/-- A best-chain header at its height. -/
structure OnChain (V : HeaderMap) (x : BlockHash) (d : DiskBlockHeader) (n : Nat) : Prop where
  entry : V x = some d
  active : d.isActive = true
  height : d.height = some n

/-- The best-chain headers form one chain, with its tip at the height `top`. -/
structure Settled (C : ChainContext) (V : HeaderMap) (top : Nat) : Prop where
  unique : ∀ {x y d e n}, OnChain V x d n → OnChain V y e n → x = y
  capped : ∀ {x d n}, OnChain V x d n → n ≤ top
  parent : ∀ {x d n}, OnChain V x d n → x ≠ C.genesisHash →
    ∃ p m, OnChain V d.header.prevBlockhash p m ∧ n = m + 1

/-- The best-chain headers form a lower piece, up to the height `lo`, and an upper piece, from above
the height `hi` to `top`; the lowest header of the upper piece is a child of `cur`. -/
structure Gapped (C : ChainContext) (V : HeaderMap) (lo hi top : Nat) (cur : BlockHash) : Prop where
  unique : ∀ {x y d e n}, OnChain V x d n → OnChain V y e n → x = y
  range : ∀ {x d n}, OnChain V x d n → n ≤ lo ∨ hi < n ∧ n ≤ top
  lower : ∀ {x d n}, OnChain V x d n → n ≤ lo → x ≠ C.genesisHash →
    ∃ p m, OnChain V d.header.prevBlockhash p m ∧ n = m + 1
  upper : ∀ {x d n}, OnChain V x d n → hi < n →
    (n = hi + 1 ∧ d.header.prevBlockhash = cur) ∨
      ∃ p m, OnChain V d.header.prevBlockhash p m ∧ n = m + 1

variable {C : ChainContext} {V : HeaderMap}

/-! ## Updates of single entries -/

theorem OnChain.entry_eq (h : OnChain V x d n) (he : V x = some e) : d = e :=
  Option.some.inj (h.entry.symm.trans he)

theorem OnChain.height_eq (h : OnChain V x d n) (hm : d.height = some m) : n = m :=
  Option.some.inj (h.height.symm.trans hm)

theorem OnChain.heights_eq {x : BlockHash} {d : DiskBlockHeader} {n : Nat} (h : OnChain V x d n)
    (h' : OnChain V x e m) : d = e ∧ n = m := by
  have hde : d = e := h.entry_eq h'.entry
  subst hde
  exact ⟨rfl, h.height_eq h'.height⟩

theorem OnChain.ne_of_none (h : OnChain V y d n)
    (hnew : V x = none) : y ≠ x := by
  rintro rfl
  have hentry := h.entry
  rw [hnew] at hentry
  cases hentry

theorem OnChain.of_update_ne {d : DiskBlockHeader}
    (h : OnChain (Function.update V x (some e)) y d n) (hne : y ≠ x) : OnChain V y d n :=
  ⟨by rw [← h.entry, Function.update_of_ne hne], h.active, h.height⟩

theorem OnChain.update_ne (h : OnChain V y d n)
    (hne : y ≠ x) (e : DiskBlockHeader) : OnChain (Function.update V x (some e)) y d n :=
  ⟨by rw [Function.update_of_ne hne, h.entry], h.active, h.height⟩

theorem OnChain.of_update_inactive {d : DiskBlockHeader}
    (hinactive : e.isActive = false) (h : OnChain (Function.update V x (some e)) y d n) :
    y ≠ x ∧ OnChain V y d n := by
  have hne : y ≠ x := by
    rintro rfl
    have hentry := h.entry
    rw [Function.update_self] at hentry
    cases hentry
    have hact := h.active
    rw [hinactive] at hact
    cases hact
  exact ⟨hne, h.of_update_ne hne⟩

theorem OnChain.of_update_active {d : DiskBlockHeader} {n : Nat}
    (hheight : e.height = some m) (h : OnChain (Function.update V x (some e)) y d n) :
    (y = x ∧ d = e ∧ n = m) ∨ (y ≠ x ∧ OnChain V y d n) := by
  by_cases hy : y = x
  · subst hy
    have hentry := h.entry
    rw [Function.update_self] at hentry
    cases hentry
    exact .inl ⟨rfl, rfl, h.height_eq hheight⟩
  · exact .inr ⟨hy, h.of_update_ne hy⟩

theorem OnChain.replace {d : DiskBlockHeader} {n : Nat}
    (hx : OnChain V x d n) (hactive : e.isActive = true) (hheight : e.height = some n)
    (hheader : e.header = d.header) (hy : OnChain V y p m) :
    ∃ q, OnChain (Function.update V x (some e)) y q m ∧ q.header = p.header := by
  by_cases hyx : y = x
  · subst hyx
    rcases hy.heights_eq hx with ⟨rfl, rfl⟩
    exact ⟨e, ⟨Function.update_self .., hactive, hheight⟩, hheader⟩
  · exact ⟨p, hy.update_ne hyx e, rfl⟩

theorem OnChain.of_replace {d : DiskBlockHeader} {n : Nat}
    (hx : OnChain V x d n) (hheight : e.height = some n) (hheader : e.header = d.header)
    (hy : OnChain (Function.update V x (some e)) y p m) :
    ∃ q, OnChain V y q m ∧ q.header = p.header := by
  rcases hy.of_update_active hheight with ⟨rfl, rfl, rfl⟩ | ⟨-, hold⟩
  · exact ⟨d, hx, hheader.symm⟩
  · exact ⟨p, hold, rfl⟩

theorem OnChain.notInvalid {x : BlockHash} (h : OnChain V x d n)
    (header : BlockHeader) : V x ≠ some (.invalidChain header) := by
  intro hx
  have hactive := h.active
  rw [h.entry_eq hx] at hactive
  cases hactive

theorem OnChain.record {C : ChainContext} {k : Nat} {s : ChainStateInner C}
    (hinv : StoreInv C.bitcoin C.genesisHash k s.chainstore) {x : BlockHash}
    (h : OnChain s.view x d n) :
    (s.chainstore.headers n).hash = x ∧
      (FlatChainStore.getBlockHash n s.chainstore).1 = .ok (some x) := by
  rcases view_active hinv.core h.entry h.active with
    ⟨m, hm, hinside, hindex, hhash, -⟩
  have hnm : n = m := h.height_eq hm
  subst hnm
  have hwritten : (s.chainstore.headers n).hash ≠ 0 := by
    rw [hhash]
    exact view_ne_zero hinv.core h.entry
  refine ⟨hhash, ?_⟩
  rw [getBlockHash_written hinside hindex hwritten, hhash]

theorem onChain_notGenesis {V : HeaderMap} (t : Tree C V bound) {h : BlockHeader}
    (hd : OnChain V (C.blockHash h) d n) (hn : n ≠ 0) :
    isGenesis C h = false := by
  by_contra hg
  have heq : C.blockHash h = C.genesisHash := by simpa [isGenesis] using hg
  have hzero : OnChain V C.genesisHash (.fullyValid C.genesisHeader 0) 0 := ⟨t.genesis, rfl, rfl⟩
  exact hn ((heq ▸ hd).heights_eq hzero).2

/-! ## Moving the ends -/

namespace Gapped

variable {lo hi top : Nat} {cur : BlockHash}

theorem extend (h : Gapped C V lo (hi + 1) top cur) (hlo : lo ≤ hi) (htop : hi + 1 ≤ top)
    (hactive : e.isActive = true) (hheight : e.height = some (hi + 1))
    (hcur : ∀ {d n}, OnChain V cur d n → n = hi + 1) :
    Gapped C (Function.update V cur (some e)) lo hi top e.header.prevBlockhash := by
  -- nothing stands in the gap, so neither the height nor the header is in use
  have hfree : ∀ {y d}, ¬ OnChain V y d (hi + 1) := by
    intro y d hy
    have hrange := h.range hy
    omega
  have hkeep : ∀ {y d n}, OnChain V y d n → OnChain (Function.update V cur (some e)) y d n := by
    intro y d n hy
    refine hy.update_ne ?_ e
    rintro rfl
    have hn := hcur hy
    subst hn
    exact hfree hy
  have hnew : OnChain (Function.update V cur (some e)) cur e (hi + 1) :=
    ⟨Function.update_self .., hactive, hheight⟩
  refine ⟨?_, ?_, ?_, ?_⟩
  · intro y z dy dz n hy hz
    rcases hy.of_update_active hheight with ⟨rfl, -, rfl⟩ | ⟨-, hy'⟩
    · rcases hz.of_update_active hheight with ⟨rfl, -, -⟩ | ⟨-, hz'⟩
      · rfl
      · exact absurd hz' hfree
    · rcases hz.of_update_active hheight with ⟨rfl, -, rfl⟩ | ⟨-, hz'⟩
      · exact absurd hy' hfree
      · exact h.unique hy' hz'
  · intro y dy n hy
    rcases hy.of_update_active hheight with ⟨-, -, rfl⟩ | ⟨-, hy'⟩
    · exact .inr ⟨Nat.lt_succ_self hi, htop⟩
    · have hrange := h.range hy'
      omega
  · intro y dy n hy hn hg
    rcases hy.of_update_active hheight with ⟨-, -, rfl⟩ | ⟨-, hy'⟩
    · omega
    · rcases h.lower hy' hn hg with ⟨p, m, hp, hm⟩
      exact ⟨p, m, hkeep hp, hm⟩
  · intro y dy n hy hn
    rcases hy.of_update_active hheight with ⟨-, rfl, rfl⟩ | ⟨-, hy'⟩
    · exact .inl ⟨rfl, rfl⟩
    · have hne : n ≠ hi + 1 := by
        rintro rfl
        exact hfree hy'
      rcases h.upper hy' (by omega) with ⟨rfl, hprev⟩ | ⟨p, m, hp, hm⟩
      · rw [hprev]
        exact .inr ⟨e, hi + 1, hnew, rfl⟩
      · exact .inr ⟨p, m, hkeep hp, hm⟩

theorem shrink (h : Gapped C V lo hi top cur) (hlo : lo ≤ hi) {x : BlockHash}
    {d : DiskBlockHeader} (hx : OnChain V x d (hi + 1)) (hinactive : e.isActive = false) :
    Gapped C (Function.update V x (some e)) lo (hi + 1) top x := by
  have hheight : ∀ {p m}, OnChain V x p m → m = hi + 1 := fun hp => (hp.heights_eq hx).2
  refine ⟨?_, ?_, ?_, ?_⟩
  · intro y z dy dz n hy hz
    exact h.unique (hy.of_update_inactive hinactive).2 (hz.of_update_inactive hinactive).2
  · intro y dy n hy
    rcases hy.of_update_inactive hinactive with ⟨hne, hold⟩
    have hn : n ≠ hi + 1 := by
      rintro rfl
      exact hne (h.unique hold hx)
    have hrange := h.range hold
    omega
  · intro y dy n hy hn hg
    rcases hy.of_update_inactive hinactive with ⟨-, hold⟩
    rcases h.lower hold hn hg with ⟨p, m, hp, rfl⟩
    refine ⟨p, m, hp.update_ne ?_ e, rfl⟩
    intro heq
    have hm := hheight (heq ▸ hp)
    omega
  · intro y dy n hy hn
    rcases hy.of_update_inactive hinactive with ⟨-, hold⟩
    rcases h.upper hold (by omega) with ⟨rfl, -⟩ | ⟨p, m, hp, rfl⟩
    · omega
    · by_cases heq : dy.header.prevBlockhash = x
      · have hm := hheight (heq ▸ hp)
        exact .inl ⟨by omega, heq⟩
      · exact .inr ⟨p, m, hp.update_ne heq e, rfl⟩

theorem close (h : Gapped C V lo lo top cur) (hlo : lo ≤ top)
    (hcur : OnChain V cur p lo) : Settled C V top where
  unique := h.unique
  capped := by
    intro x d n hx
    have hrange := h.range hx
    omega
  parent := by
    intro x d n hx hg
    by_cases hn : n ≤ lo
    · exact h.lower hx hn hg
    · rcases h.upper hx (Nat.lt_of_not_le hn) with ⟨rfl, hprev⟩ | hparent
      · rw [hprev]
        exact ⟨p, lo, hcur, rfl⟩
      · exact hparent

theorem settled (h : Gapped C V lo top top cur) : Settled C V lo where
  unique := h.unique
  capped := by
    intro x d n hx
    have hrange := h.range hx
    omega
  parent := by
    intro x d n hx hg
    have hrange := h.range hx
    exact h.lower hx (by omega) hg

end Gapped

namespace Settled

variable {top : Nat}

theorem below (h : Settled C V top) {top' : Nat} (htop : top ≤ top') (cur : BlockHash) :
    Gapped C V top top' top' cur where
  unique := h.unique
  range := fun hx => .inl (h.capped hx)
  lower := fun hx _ hg => h.parent hx hg
  upper := fun hx hn => absurd (Nat.le_trans (h.capped hx) htop) (Nat.not_le.mpr hn)

theorem cut (h : Settled C V top) (t : Tree C V bound) (lo : Nat) (cur : BlockHash) :
    Gapped C V lo lo top cur where
  unique := h.unique
  range := by
    intro x d n hx
    have hle := h.capped hx
    omega
  lower := fun hx _ hg => h.parent hx hg
  upper := by
    intro x d n hx hn
    refine .inr (h.parent hx ?_)
    rintro rfl
    have hzero : OnChain V C.genesisHash (.fullyValid C.genesisHeader 0) 0 := ⟨t.genesis, rfl, rfl⟩
    have hn' := (hx.heights_eq hzero).2
    omega

theorem removeTip (h : Settled C V (top + 1)) (t : Tree C V bound) {x : BlockHash}
    {d : DiskBlockHeader} (htip : OnChain V x d (top + 1)) (hinactive : e.isActive = false) :
    Settled C (Function.update V x (some e)) top :=
  ((h.cut t top x).shrink (Nat.le_refl top) htip hinactive).settled

section

variable (h : Settled C V top)

include h

theorem pushTip {d : DiskBlockHeader} (htip : OnChain V e.header.prevBlockhash d top)
    (hactive : e.isActive = true) (hheight : e.height = some (top + 1)) {x : BlockHash}
    (hnew : V x = none) : Settled C (Function.update V x (some e)) (top + 1) := by
  have hgap : Gapped C V top (top + 1) (top + 1) x := h.below (Nat.le_succ top) x
  have hclosed := hgap.extend (Nat.le_refl top) (Nat.le_refl _) hactive hheight
    fun hx => absurd rfl (hx.ne_of_none hnew)
  exact hclosed.close (Nat.le_succ top) (htip.update_ne (htip.ne_of_none hnew) e)

theorem addFork (hinactive : e.isActive = false) {x : BlockHash} (hnew : V x = none) :
    Settled C (Function.update V x (some e)) top where
  unique := fun hy hz =>
    h.unique (hy.of_update_inactive hinactive).2 (hz.of_update_inactive hinactive).2
  capped := fun hy => h.capped (hy.of_update_inactive hinactive).2
  parent := by
    intro y d n hy hg
    rcases h.parent (hy.of_update_inactive hinactive).2 hg with ⟨p, m, hp, hm⟩
    exact ⟨p, m, hp.update_ne (hp.ne_of_none hnew) e, hm⟩

theorem replace {x : BlockHash} {d : DiskBlockHeader} (hx : OnChain V x d n)
    (hactive : e.isActive = true) (hheight : e.height = some n) (hheader : e.header = d.header) :
    Settled C (Function.update V x (some e)) top where
  unique := by
    intro y z dy dz m hy hz
    rcases hx.of_replace hheight hheader hy with ⟨qy, hy', -⟩
    rcases hx.of_replace hheight hheader hz with ⟨qz, hz', -⟩
    exact h.unique hy' hz'
  capped := by
    intro y dy m hy
    rcases hx.of_replace hheight hheader hy with ⟨qy, hy', -⟩
    exact h.capped hy'
  parent := by
    intro y dy m hy hg
    rcases hx.of_replace hheight hheader hy with ⟨qy, hy', hqy⟩
    rcases h.parent hy' hg with ⟨p, i, hp, hi⟩
    rcases hx.replace hactive hheight hheader hp with ⟨q, hq, -⟩
    exact ⟨q, i, hqy ▸ hq, hi⟩

theorem parent_succ (t : Tree C V bound) {x : BlockHash} (hd : OnChain V x d (n + 1)) :
    isGenesis C d.header = false ∧ ∃ p, OnChain V d.header.prevBlockhash p n := by
  have hhash := t.hash _ _ hd.entry
  have hg : isGenesis C d.header = false :=
    onChain_notGenesis t (hhash.symm ▸ hd) (Nat.succ_ne_zero n)
  have hx : x ≠ C.genesisHash := by
    intro heq
    simp [isGenesis, hhash, heq] at hg
  rcases h.parent hd hx with ⟨p, m, hp, hm⟩
  have hmn : m = n := by omega
  exact ⟨hg, p, hmn ▸ hp⟩

theorem above (t : Tree C V bound) {d : DiskBlockHeader} {n j : Nat} (hd : OnChain V x d (n + j))
    (he : OnChain V y e n) : Above V e.header d.header j := by
  induction j generalizing x d with
  | zero =>
    have hxy : x = y := h.unique hd he
    subst hxy
    rw [(hd.heights_eq he).1]
    exact .self
  | succ j ih =>
    rcases h.parent_succ t hd with ⟨-, p, hp⟩
    exact .child hp.entry (ih hp)

theorem ancestor (t : Tree C V bound) {b x : BlockHash} (hb : Descends C V b x)
    (hx : OnChain V x d n) : ∃ e m, OnChain V b e m ∧ m ≤ n := by
  induction hb generalizing d n with
  | self _ => exact ⟨d, n, hx, Nat.le_refl n⟩
  | @child x d' hd' hg _ ih =>
    have hdd : d' = d := Option.some.inj (hd'.symm.trans hx.entry)
    subst hdd
    have hne : x ≠ C.genesisHash := by
      rintro rfl
      simp [isGenesis, t.hash _ _ hd'] at hg
    rcases h.parent hx hne with ⟨p, m, hp, rfl⟩
    rcases ih hp with ⟨e, i, he, hi⟩
    exact ⟨e, i, he, Nat.le_succ_of_le hi⟩

theorem descends (t : Tree C V bound) {d : DiskBlockHeader} {n : Nat} (hx : OnChain V x d n)
    (hy : OnChain V y e m) (hle : n ≤ m) : Descends C V x y := by
  induction m generalizing y e with
  | zero =>
    obtain rfl : n = 0 := Nat.le_zero.mp hle
    rw [h.unique hy hx]
    exact .self hx.entry
  | succ m ih =>
    by_cases heq : n = m + 1
    · subst heq
      rw [h.unique hy hx]
      exact .self hx.entry
    · rcases h.parent_succ t hy with ⟨hg, p, hp⟩
      exact .child hy.entry hg (ih hp (by omega))

theorem exists_onChain (t : Tree C V bound) {x : BlockHash} (htip : OnChain V x d top)
    (hn : n ≤ top) : ∃ y e, OnChain V y e n := by
  -- downwards from the tip, by the distance to it
  have hdown : ∀ j, j ≤ top → ∃ y e, OnChain V y e (top - j) := by
    intro j
    induction j with
    | zero => exact fun _ => ⟨x, d, htip⟩
    | succ j ih =>
      intro hj
      rcases ih (Nat.le_of_succ_le hj) with ⟨y, e, hy⟩
      have hg : y ≠ C.genesisHash := by
        rintro rfl
        have hzero : OnChain V C.genesisHash (.fullyValid C.genesisHeader 0) 0 :=
          ⟨t.genesis, rfl, rfl⟩
        have hheight := (hy.heights_eq hzero).2
        omega
      rcases h.parent hy hg with ⟨p, m, hp, hm⟩
      have hm' : top - (j + 1) = m := by omega
      exact ⟨_, p, hm' ▸ hp⟩
  rcases hdown (top - n) (Nat.sub_le top n) with ⟨y, e, hy⟩
  have hn' : top - (top - n) = n := by omega
  exact ⟨y, e, hn' ▸ hy⟩

end

end Settled

/-! ## The invariant of the chain state -/

/-- What holds between two calls. -/
@[mk_iff]
structure ChainInv (k : Nat) (s : ChainStateInner C) : Prop where
  store : StoreInv C.bitcoin C.genesisHash k s.chainstore
  forks : s.chainstore.metadata.forkCount ≤ s.chainstore.metadata.forkFileSize
  tree : Tree C s.view (s.chainstore.metadata.headersFileSize + s.chainstore.metadata.forkCount)
  settled : Settled C s.view s.bestBlock.depth
  best : ∃ d, OnChain s.view s.bestBlock.bestBlock d s.bestBlock.depth

namespace ChainInv

variable {k : Nat} {s s' : ChainStateInner C}

theorem quiet (h : ChainInv k s) (hs : Quiet k s s') : ChainInv k s' := by
  rw [chainInv_iff, hs.view, hs.metadata, hs.bestBlock]
  exact ⟨hs.inv, ((chainInv_iff ..).mp h).2⟩

theorem onChain_at (h : ChainInv k s) (hn : n ≤ s.bestBlock.depth) :
    ∃ x d, OnChain s.view x d n := by
  rcases h.best with ⟨b, hb⟩
  exact h.settled.exists_onChain h.tree hb hn

theorem bound_lt (h : ChainInv k s) : s.chainstore.metadata.headersFileSize +
    s.chainstore.metadata.forkCount + 1 < walkRounds s := by
  have hforks := h.forks
  unfold walkRounds
  omega

end ChainInv

end Floresta.ChainState
