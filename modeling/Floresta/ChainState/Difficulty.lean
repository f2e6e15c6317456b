import Floresta.ChainState.Growth
import Floresta.ChainState.Invalidation
import Floresta.Lib.Rounding

/-!
# Difficulty — the target that the next header needs

Bitcoin Core computes the difficulty bits of a block from its parent and the ancestors of the
parent.  `get_next_required_work` computes a target instead, of which `validate_header` takes the
bits, and it gets there in another way: the time span is unsigned, the target of the last block is
unpacked and packed again, and the limit is the one that survives this.  If the lookup of ancestors
is right, both agree for every stored parent.
-/

namespace Floresta

variable {l : List BlockHeader} {t : Nat}
variable {h : BlockHeader} {n word : Nat}

/-- What is asked of the target arithmetic of the `bitcoin` crate, for the targets up to the limit of
the network: packing rounds down, and `from_next_work_required` scales by the time span, within a
quarter and four times the intended one. -/
structure ProofOfWork.Retargets (W : ProofOfWork) (params : ChainParams) (powLimit : Nat) : Prop where
  compact : ∀ t ≤ powLimit, W.toCompactLossy (W.target (W.toCompactLossy t)) = W.toCompactLossy t
  round_le : ∀ t ≤ powLimit, W.target (W.toCompactLossy t) ≤ t
  round_mono : ∀ {t u}, t ≤ u → u ≤ powLimit →
    W.target (W.toCompactLossy t) ≤ W.target (W.toCompactLossy u)
  attainable : params.params.maxAttainableTarget = W.target (W.toCompactLossy powLimit)
  retarget : params.params.noPowRetargeting = false → ∀ bits timespan, W.target bits ≤ powLimit →
    W.fromNextWorkRequired bits timespan params = W.toCompactLossy
      (min (W.target bits * max (params.powTargetTimespan / 4)
        (min timespan (params.powTargetTimespan * 4)) / params.powTargetTimespan)
        params.params.maxAttainableTarget)

namespace ChainState

open Prog FlatChainStore

variable {C : ChainContext} {k : Nat} {s s' start : ChainStateInner C} {header : BlockHeader}

/-! ## The rule of Bitcoin Core -/

namespace Core

variable (W : ProofOfWork) (params : ChainParams) (powLimit : Nat)

/-- `CalculateNextWorkRequired`; the time span is a signed number. -/
def calculateNextWorkRequired (last first : BlockHeader) : UInt32 :=
  if params.params.noPowRetargeting then last.bits
  else
    let targetTimespan : Int := params.powTargetTimespan
    let actualTimespan : Int := last.time - first.time
    let actualTimespan := max (targetTimespan / 4) (min actualTimespan (targetTimespan * 4))
    let bits := if params.enforceBip94 then first.bits else last.bits
    W.toCompactLossy
      (min (W.target bits * actualTimespan.toNat / params.powTargetTimespan) powLimit)

/-- The bits of the last block that was not mined under the minimum-difficulty rule, or of the first
one of the epoch.  The blocks are listed from the last one down to the genesis block. -/
def lastUsualBits : List BlockHeader → UInt32
  | [] => W.toCompactLossy powLimit
  | block :: ancestors =>
    if ancestors.length % 2016 ≠ 0 ∧ block.bits = W.toCompactLossy powLimit then
      lastUsualBits ancestors
    else block.bits

/-- `GetNextWorkRequired`, for a block on top of these ones. -/
def getNextWorkRequired (blocks : List BlockHeader) (next : BlockHeader) : UInt32 :=
  match blocks with
  | [] => W.toCompactLossy powLimit
  | last :: _ =>
    if blocks.length % 2016 ≠ 0 then
      if params.params.allowMinDifficultyBlocks then
        if last.time + params.params.powTargetSpacing * 2 < next.time then
          W.toCompactLossy powLimit
        else lastUsualBits W powLimit blocks
      else last.bits
    else calculateNextWorkRequired W params powLimit last (blocks.getD 2015 last)

end Core

/-! ## Bits that are packed targets -/

/-- The target is within the limit, and packing it again gives the same bits. -/
structure Packed (W : ProofOfWork) (powLimit : Nat) (bits : UInt32) : Prop where
  compact : W.toCompactLossy (W.target bits) = bits
  limit : W.target bits ≤ powLimit

/-- So are the bits of all stored headers. -/
def AllPacked (C : ChainContext) (powLimit : Nat) (V : HeaderMap) : Prop :=
  ∀ x d, V x = some d → Packed C.pow powLimit d.header.bits

/-- A span before the beginning of the epoch counts like an empty one. -/
theorem clamped_timespan (t last first : Nat) :
    (max ((t : Int) / 4) (min ((last : Int) - first) ((t : Int) * 4))).toNat =
      max (t / 4) (min (last - first) (t * 4)) := by
  omega

section Laws

variable {powLimit : Nat} (hlaw : C.pow.Retargets C.parameters powLimit)

include hlaw

theorem packed_compact (ht : t ≤ powLimit) : Packed C.pow powLimit (C.pow.toCompactLossy t) :=
  ⟨hlaw.compact t ht, (hlaw.round_le t ht).trans ht⟩

theorem maxAttainable_le : C.parameters.params.maxAttainableTarget ≤ powLimit := by
  rw [hlaw.attainable]
  exact hlaw.round_le powLimit (Nat.le_refl _)

theorem compact_maxAttainable :
    C.pow.toCompactLossy C.parameters.params.maxAttainableTarget = C.pow.toCompactLossy powLimit := by
  rw [hlaw.attainable]
  exact hlaw.compact powLimit (Nat.le_refl _)

/-- It makes no difference which of the two limits a target is cut at. -/
theorem compact_min_limit (t : Nat) :
    C.pow.toCompactLossy (min t C.parameters.params.maxAttainableTarget) =
      C.pow.toCompactLossy (min t powLimit) := by
  have hle := maxAttainable_le hlaw
  rcases Nat.le_total t C.parameters.params.maxAttainableTarget with hsmall | hlarge
  · rw [Nat.min_eq_left hsmall, Nat.min_eq_left (hsmall.trans hle)]
  -- between the two limits everything is rounded to the lower one
  have hbetween : C.pow.target (C.pow.toCompactLossy (min t powLimit)) =
      C.pow.target (C.pow.toCompactLossy powLimit) := by
    refine Nat.le_antisymm (hlaw.round_mono (Nat.min_le_right _ _) (Nat.le_refl _)) ?_
    rw [← compact_maxAttainable hlaw]
    exact hlaw.round_mono (Nat.le_min.mpr ⟨hlarge, hle⟩) (Nat.min_le_right _ _)
  rw [Nat.min_eq_right hlarge, compact_maxAttainable hlaw, ← hlaw.compact _ (Nat.min_le_right t _),
    hbetween, hlaw.compact powLimit (Nat.le_refl _)]

theorem compact_calcNextWorkRequired (hretarget : C.parameters.params.noPowRetargeting = false)
    {last first : BlockHeader} (hlast : Packed C.pow powLimit last.bits)
    (hfirst : Packed C.pow powLimit first.bits) :
    C.pow.toCompactLossy (min (Consensus.calcNextWorkRequired C.pow C.parameters last first)
        C.parameters.params.maxAttainableTarget) =
      Core.calculateNextWorkRequired C.pow C.parameters powLimit last first := by
  unfold Consensus.calcNextWorkRequired Core.calculateNextWorkRequired
  have hlimit : C.pow.target (if C.parameters.enforceBip94 then first.bits else last.bits) ≤
      powLimit := by
    split
    · exact hfirst.limit
    · exact hlast.limit
  simp only [hretarget, Bool.false_eq_true, if_false, hlaw.retarget hretarget _ _ hlimit,
    clamped_timespan]
  generalize C.pow.target _ * _ / _ = scaled
  have hbound : min scaled C.parameters.params.maxAttainableTarget ≤ powLimit :=
    (Nat.min_le_right _ _).trans (maxAttainable_le hlaw)
  -- the crate has packed the target already, and it is below the limit
  have hcut : C.pow.target (C.pow.toCompactLossy
      (min scaled C.parameters.params.maxAttainableTarget)) ≤
      C.parameters.params.maxAttainableTarget :=
    (hlaw.round_le _ hbound).trans (Nat.min_le_right _ _)
  rw [Nat.min_eq_left hcut, hlaw.compact _ hbound]
  exact compact_min_limit hlaw scaled

end Laws

/-! ## The stored headers of a run -/

/-- A step leaves the stored headers as they are, or adds one that has passed its checks. -/
theorem Step.stored (hinv : ChainInv k s) (hstep : Step s s') {x : BlockHash} {e : DiskBlockHeader}
    (he : s'.view x = some e) :
    (∃ d, s.view x = some d ∧ d.header = e.header) ∨
      ∃ hash, (validateHeader e.header s).1 = .ok hash := by
  have hsame : Keeps s.view s'.view → Unadded s.view s'.view →
      ∃ d, s.view x = some d ∧ d.header = e.header := by
    intro hkeeps hunadded
    cases hd : s.view x with
    | none =>
      rw [hunadded x hd] at he
      cases he
    | some d =>
      rcases hkeeps x d hd with ⟨e', he', heq⟩
      rw [Option.some.inj (he'.symm.trans he)] at heq
      exact ⟨d, rfl, heq.symm⟩
  rcases hstep with ⟨call, hready⟩
  have heffect := (Call.effect hinv hready).2
  have hkeeps := heffect.keeps
  cases heffect with
  | revalidated h => exact .inl (hsame hkeeps h.unadded)
  | accepted hready _ _ =>
    rcases hinv.accept_cases hready with hquiet | ⟨n, hash, -, hvalid, hgrown⟩
    · exact .inl (hsame hkeeps (hquiet.view ▸ Unadded.refl))
    · rcases hgrown.only x e he with rfl | hold
      · exact .inr ⟨hash, hvalid⟩
      · exact .inl hold
  | invalidated hinvalidated =>
    refine .inl (hsame hkeeps fun y hy => (hinvalidated.rest y fun a n ha => ?_).trans hy)
    rw [ha.entry] at hy
    cases hy
  | switched hd _ hswitched =>
    refine .inl (hsame hkeeps fun y hy => hswitched.domain y hy ?_)
    rintro rfl
    rw [hd] at hy
    cases hy

section Packing

variable {powLimit : Nat} (hlaw : C.pow.Retargets C.parameters powLimit)
  (hall : AllPacked C powLimit s.view)

include hall

theorem within_lastRealDifficulty_packed (hh : Packed C.pow powLimit h.bits) (n : Nat) :
    Within (Quiet k s) Proper (lastRealDifficulty h n : ChainM C _)
      (Packed C.pow powLimit ·.bits) := by
  refine Within.loop (P := fun m p => p.2 = m ∧ Packed C.pow powLimit p.1.bits)
    (fun m p hp => ?_) ⟨rfl, hh⟩
    (Nat.lt_succ_self n)
  rcases hp with ⟨rfl, hbits⟩
  refine Within.ite (fun hcond => ?_) fun _ => Within.pure hbits
  have hpos : p.2 ≠ 0 := by
    intro hzero
    exact hcond.1 (by rw [hzero])
  refine Within.bind (within_getDiskBlockHeader _) fun parent hparent => Within.pure ?_
  exact ⟨_, Nat.sub_lt (Nat.pos_of_ne_zero hpos) Nat.one_pos, rfl, hall _ _ hparent⟩

include hlaw

/-- The required bits are packed, whatever the lookup of ancestors answers. -/
theorem within_required_packed {last : BlockHeader} (hlast : Packed C.pow powLimit last.bits) (n : Nat)
    (next : BlockHeader) :
    Within (Quiet k s) Proper (getNextRequiredWork last n next : ChainM C _)
      fun target => Packed C.pow powLimit (C.pow.toCompactLossy target) := by
  have hsame : ∀ {bits}, Packed C.pow powLimit bits →
      Packed C.pow powLimit (C.pow.toCompactLossy (C.pow.target bits)) := by
    intro bits hbits
    rw [hbits.compact]
    exact hbits
  have hmax := packed_compact hlaw (maxAttainable_le hlaw)
  refine Within.ite (fun _ => Within.ite (fun _ => Within.pure (hsame hlast)) fun _ =>
    Within.ite (fun _ => Within.pure hmax) fun _ => ?_) fun _ =>
    Within.ite (fun _ => ?_) fun _ => Within.pure (hsame hlast)
  · exact Within.bind (within_lastRealDifficulty_packed hall hlast _) fun h hh =>
      Within.pure (hsame hh)
  · refine Within.bind (within_getAncestorAtHeight _ _ _) fun first _ => Within.pure ?_
    -- the target is cut at the limit
    split
    · rename_i hlt
      exact packed_compact hlaw ((Nat.le_of_lt hlt).trans (maxAttainable_le hlaw))
    · exact hmax

theorem validated_packed (hinv : ChainInv k s) {hash : BlockHash}
    (hvalid : (validateHeader header s).1 = .ok hash) : Packed C.pow powLimit header.bits := by
  have hrun := within_validateHeader_target header
    (fun d n hd => within_required_packed hlaw hall (hall _ _ hd) _ _) s (Quiet.refl hinv.store)
  unfold wp at hrun
  rw [hvalid] at hrun
  rcases hrun.2 with ⟨-, d, n, target, -, -, hpacked, hbits⟩
  rw [hbits]
  exact hpacked

end Packing

/-- In every run, all stored headers have packed bits if the genesis block has. -/
theorem Reaches.allPacked {powLimit : Nat} (hlaw : C.pow.Retargets C.parameters powLimit)
    (hstart : ChainInv k start) (hfirst : AllPacked C powLimit start.view)
    (hreach : Reaches start s) : AllPacked C powLimit s.view := by
  induction hreach with
  | refl => exact hfirst
  | @tail s s' hreach hstep ih =>
    have hinv := Reaches.inv hreach hstart
    intro x e he
    rcases hstep.stored hinv he with ⟨d, hd, heq⟩ | ⟨hash, hvalid⟩
    · rw [← heq]
      exact ih x d hd
    · exact validated_packed hlaw ih hinv hvalid

/-! ## Agreement -/

theorem Lineage.eq_cons {V : HeaderMap} (hl : Lineage C V h l) : ∃ ancestors, l = h :: ancestors := by
  cases hl with
  | genesis => exact ⟨_, rfl⟩
  | child => exact ⟨_, rfl⟩

theorem Lineage.getD_above {V : HeaderMap} {y z : BlockHeader}
    (hl : Lineage C V h l) (hy : Above V y h n) (hn : n < l.length) : l.getD n z = y := by
  induction hy generalizing l with
  | self =>
    rcases hl.eq_cons with ⟨ancestors, rfl⟩
    rfl
  | child hd _ ih =>
    cases hl with
    | genesis => exact absurd (Nat.lt_of_succ_lt_succ hn) (Nat.not_lt_zero _)
    | child _ hd' hl =>
      rw [Option.some.inj (hd'.symm.trans hd)] at hl
      exact ih hl (Nat.lt_of_succ_lt_succ hn)

section Agreement

variable {powLimit : Nat} (hlaw : C.pow.Retargets C.parameters powLimit)
  (hall : AllPacked C powLimit s.view)

include hlaw hall

/-- The search for the last usual block goes the same way, and stops at the same block. -/
theorem within_lastRealDifficulty_core {E : Fault → Prop}
    (hh : Packed C.pow powLimit h.bits) (hl : Lineage C s.view h l)
    (hn : l.length = n + 1) :
    Within (Quiet k s) E (lastRealDifficulty h n : ChainM C _) fun y =>
      Packed C.pow powLimit y.bits ∧ y.bits = Core.lastUsualBits C.pow powLimit l := by
  refine Within.loop (P := fun m p => p.2 = m ∧ Packed C.pow powLimit p.1.bits ∧
    ∃ l', Lineage C s.view p.1 l' ∧ l'.length = m + 1 ∧
      Core.lastUsualBits C.pow powLimit l' = Core.lastUsualBits C.pow powLimit l)
    (fun m p hp => ?_) ⟨rfl, hh, l, hl, hn, rfl⟩ (Nat.lt_succ_self n)
  rcases hp with ⟨rfl, hbits, l', hl', hlength, hsame⟩
  rcases hl'.eq_cons with ⟨ancestors, rfl⟩
  have hheight : ancestors.length = p.2 := Nat.succ.inj hlength
  rw [Core.lastUsualBits, hheight, ← compact_maxAttainable hlaw] at hsame
  refine Within.ite (fun hcond => ?_) fun hcond => Within.pure ⟨hbits, ?_⟩
  · rw [if_pos hcond] at hsame
    cases hl' with
    | genesis => exact absurd (by rw [← hheight]; rfl) hcond.1
    | child _ hd hrest =>
      refine Within.bind_eq (within_getDiskBlockHeader_stored hd) (Within.pure ?_)
      obtain ⟨m, hm⟩ : ∃ m, p.2 = m + 1 :=
        Nat.exists_eq_succ_of_ne_zero fun hzero => hcond.1 (by rw [hzero])
      rw [hm, Nat.add_sub_cancel]
      exact ⟨m, Nat.lt_succ_self m, rfl, hall _ _ hd, ancestors, hrest, hheight.trans hm, hsame⟩
  · rw [if_neg hcond] at hsame
    exact hsame

theorem within_required_core {E : Fault → Prop} (hinv : ChainInv k s) {x : BlockHash}
    {d : DiskBlockHeader} (hd : s.view x = some d)
    (hn : d.height = some n) (hl : Lineage C s.view d.header l)
    (htrue : ∀ t ≤ n, ∃ y, Above s.view y d.header (n - t) ∧
      (getAncestorAtHeight d.header n t s).1 = .ok y) (next : BlockHeader) :
    Within (Quiet k s) E (getNextRequiredWork d.header (n + 1) next : ChainM C _) fun target =>
      C.pow.toCompactLossy target =
        Core.getNextWorkRequired C.pow C.parameters powLimit l next := by
  have hlast : Packed C.pow powLimit d.header.bits := hall x d hd
  have hlength : l.length = n + 1 := by
    rcases hinv.tree.rooted x d hd with ⟨m, -, hbranch, hheight⟩
    rw [hl.length_eq hbranch, hheight n hn]
  obtain ⟨ancestors, hcons⟩ := hl.eq_cons
  have hrule : Core.getNextWorkRequired C.pow C.parameters powLimit l next =
      if (n + 1) % 2016 ≠ 0 then
        if C.parameters.params.allowMinDifficultyBlocks then
          if d.header.time + C.parameters.params.powTargetSpacing * 2 < next.time then
            C.pow.toCompactLossy powLimit
          else Core.lastUsualBits C.pow powLimit l
        else d.header.bits
      else Core.calculateNextWorkRequired C.pow C.parameters powLimit d.header
        (l.getD 2015 d.header) := by
    rw [← hlength, hcons]
    rfl
  rw [hrule]
  by_cases hepoch : (n + 1) % 2016 = 0
  · -- a new epoch
    rw [if_neg (not_not.mpr hepoch)]
    cases hretarget : C.parameters.params.noPowRetargeting with
    | true =>
      unfold getNextRequiredWork Core.calculateNextWorkRequired
      rw [if_neg (not_not.mpr hepoch), hretarget]
      exact Within.pure hlast.compact
    | false =>
      rcases htrue (n + 1 - DIFFCHANGE_INTERVAL) (by unfold DIFFCHANGE_INTERVAL; omega) with
        ⟨first, habove, hanswer⟩
      have hdistance : n - (n + 1 - DIFFCHANGE_INTERVAL) = 2015 := by
        unfold DIFFCHANGE_INTERVAL
        omega
      rw [hdistance] at habove
      rw [hl.getD_above habove (by omega)]
      -- the answer in the given state is the one of every state that differs in the cache only
      have hfirst : Within (Quiet k s) E (getAncestorAtHeight d.header n
          (n + 1 - DIFFCHANGE_INTERVAL) : ChainM C _) (· = first) := by
        refine (((uniform_getAncestorAtHeight _ _ _).within (Quiet.refl hinv.store)).imp ?_).mono ?_
        · intro fault hfault
          rw [hanswer] at hfault
          cases hfault
        · intro y hy
          rw [hanswer] at hy
          exact (Except.ok.inj hy).symm
      refine (within_required_retarget hretarget hepoch hfirst).mono ?_
      rintro target rfl
      rcases habove.stored hd rfl with ⟨z, e, he, rfl⟩
      exact compact_calcNextWorkRequired hlaw hretarget hlast (hall z e he)
  · rw [if_pos hepoch]
    cases hmin : C.parameters.params.allowMinDifficultyBlocks with
    | false =>
      refine (within_required_same hmin hepoch).mono ?_
      rintro target rfl
      exact hlast.compact
    | true =>
      rw [if_pos rfl]
      by_cases hlate : d.header.time + C.parameters.params.powTargetSpacing * 2 < next.time
      · rw [if_pos hlate]
        refine (within_required_late hmin hepoch hlate).mono ?_
        rintro target rfl
        exact compact_maxAttainable hlaw
      · rw [if_neg hlate]
        unfold getNextRequiredWork
        rw [if_pos hepoch, hmin]
        simp only [Bool.not_true, Bool.false_eq_true, if_false, if_neg hlate, Nat.add_sub_cancel]
        refine Within.bind (within_lastRealDifficulty_core hlaw hall hlast hl hlength) ?_
        rintro y ⟨hpacked, hbits⟩
        exact Within.pure (hpacked.compact.trans hbits)

end Agreement

/-- In every state that is reached from a new chain state, the target that is required on top of a
stored header has the bits that Bitcoin Core computes from the header and its ancestors, if the
lookup of ancestors is right. -/
theorem requiredWork_eq_core {powLimit : Nat} (hlaw : C.pow.Retargets C.parameters powLimit)
    (hbits : Packed C.pow powLimit C.genesisHeader.bits) {config : FlatChainStoreConfig}
    (hnew : Created config start) (hreach : Reaches start s)
    {x : BlockHash} {d : DiskBlockHeader} {n : Nat} (hd : s.view x = some d)
    (hn : d.height = some n)
    (htrue : ∀ t ≤ n, ∃ y, Above s.view y d.header (n - t) ∧
      (getAncestorAtHeight d.header n t s).1 = .ok y) (next : BlockHeader) :
    ∃ l target, Lineage C s.view d.header l ∧
      (getNextRequiredWork d.header (n + 1) next s).1 = .ok target ∧
      C.pow.toCompactLossy target =
        Core.getNextWorkRequired C.pow C.parameters powLimit l next := by
  have hstart := new_inv hnew.isNew
  have hfirst : AllPacked C powLimit start.view := by
    intro y e he
    rw [(new_only hnew.isNew he).2]
    exact hbits
  have hinv := hreach.inv hstart
  have hall := Reaches.allPacked hlaw hstart hfirst hreach
  rcases hinv.tree.rooted x d hd with ⟨m, -, hbranch, -⟩
  rcases Lineage.exists_of_branch hbranch with ⟨l, hl, -⟩
  rcases (within_required_core hlaw hall hinv hd hn hl htrue next).exists_ok
    (Quiet.refl hinv.store) with ⟨target, htarget, hcore⟩
  exact ⟨l, target, hl, htarget, hcore⟩

end ChainState

/-! ### The packed targets of the crate -/

namespace ChainContext
namespace Retarget

open Rounding

def rounded (t : Nat) : Nat := round (b := 256) (m := 2 ^ 23) (by norm_num) (by norm_num) t

def exponent (t : Nat) : Nat := dropped (b := 256) (m := 2 ^ 23) (by norm_num) (by norm_num) t

theorem pow_256 (i : Nat) : 256 ^ i = 2 ^ (8 * i) := by
  rw [Nat.pow_mul]

theorem testBit_23 (hword : word < 2 ^ 24) : word.testBit 23 = decide (2 ^ 23 ≤ word) := by
  rw [Nat.testBit_eq_decide_div_mod_eq, decide_eq_decide]
  omega

theorem target_pack {size : Nat} (hsize : size < 256) (hword : word < 2 ^ 24) :
    target (UInt32.ofNat (word + size * 2 ^ 24)) =
      let mantissa := if size ≤ 3 then word / 2 ^ (8 * (3 - size)) else word
      if 2 ^ 23 ≤ mantissa then 0 else mantissa * 2 ^ (8 * (size - 3)) := by
  have hbits : (UInt32.ofNat (word + size * 2 ^ 24)).toNat = word + size * 2 ^ 24 := by
    rw [UInt32.toNat_ofNat', Nat.mod_eq_of_lt]
    omega
  have hsplit : (word + size * 2 ^ 24) / 2 ^ 24 = size ∧ (word + size * 2 ^ 24) % 2 ^ 24 = word := by
    omega
  unfold target
  rw [hbits, hsplit.1, hsplit.2]

theorem target_pack_exact {size t : Nat} (hsize : size ≤ 3)
    (hword : word = t * 2 ^ (8 * (3 - size))) (hlt : word < 2 ^ 24) (ht : t < 2 ^ 23) :
    target (UInt32.ofNat (word + size * 2 ^ 24)) = t := by
  have hexact : word / 2 ^ (8 * (3 - size)) = t := by
    rw [hword, Nat.mul_div_cancel _ (Nat.pow_pos (by norm_num))]
  rw [target_pack (by omega) hlt]
  simp only [if_pos hsize, hexact, if_neg (Nat.not_le.mpr ht), Nat.sub_eq_zero_of_le hsize,
    Nat.mul_zero, Nat.pow_zero, Nat.mul_one]

theorem target_compact_small (ht : t < 2 ^ 23) : target (toCompactLossy t) = t := by
  rcases Nat.eq_zero_or_pos t with rfl | hpos
  · decide +kernel
  have hlog : 2 ^ t.log2 ≤ t := Nat.log2_self_le (Nat.ne_of_gt hpos)
  have hupper : t < 2 ^ (t.log2 + 1) := Nat.lt_log2_self
  have hbound : t.log2 < 23 := (Nat.pow_lt_pow_iff_right (by norm_num)).mp (hlog.trans_lt ht)
  unfold toCompactLossy
  rw [if_neg (Nat.ne_of_gt hpos)]
  obtain ⟨size, hsize⟩ : ∃ size, (t.log2 + 8) / 8 = size := ⟨_, rfl⟩
  have hshift : t * 2 ^ (8 * (3 - size)) < 2 ^ 24 := by
    -- the number of bits is at most that of the bytes
    have hbytes : t < 2 ^ (8 * size) :=
      hupper.trans_le (Nat.pow_le_pow_right (by norm_num) (by omega))
    calc t * 2 ^ (8 * (3 - size)) < 2 ^ (8 * size) * 2 ^ (8 * (3 - size)) :=
          Nat.mul_lt_mul_of_pos_right hbytes (Nat.pow_pos (by norm_num))
      _ = 2 ^ 24 := by
          rw [← Nat.pow_add]
          congr 1
          omega
  have hthree : size ≤ 3 := by omega
  simp only [hsize, if_pos hthree]
  split
  · rename_i hsign
    rw [testBit_23 hshift, decide_eq_true_eq] at hsign
    -- a sign bit would be set: the size is one more, and there is room for it
    have htwo : size ≤ 2 := by
      by_contra hlarge
      obtain rfl : size = 3 := by omega
      omega
    have hunshift : t * 2 ^ (8 * (3 - size)) / 2 ^ 8 = t * 2 ^ (8 * (3 - (size + 1))) := by
      have hstep : 8 * (3 - size) = 8 * (3 - (size + 1)) + 8 := by omega
      rw [hstep, Nat.pow_add, ← Nat.mul_assoc, Nat.mul_div_cancel _ (by norm_num)]
    exact target_pack_exact (by omega) hunshift (by omega) ht
  · exact target_pack_exact hthree rfl hshift ht

theorem toCompactLossy_large (ht : 2 ^ 23 ≤ t) :
    0 < exponent t ∧
      toCompactLossy t = UInt32.ofNat (t / 256 ^ exponent t + (exponent t + 3) * 2 ^ 24) := by
  have hpos : t ≠ 0 := by omega
  have hlower : 2 ^ t.log2 ≤ t := Nat.log2_self_le hpos
  have hupper : t < 2 ^ (t.log2 + 1) := Nat.lt_log2_self
  have hlog : 23 ≤ t.log2 := by
    have hlt := (Nat.pow_lt_pow_iff_right (a := 2) (by norm_num)).mp (ht.trans_lt hupper)
    omega
  obtain ⟨i, hi⟩ : ∃ i, (t.log2 + 8) / 8 = i + 3 := ⟨(t.log2 + 8) / 8 - 3, by omega⟩
  have hword : t / 256 ^ i < 2 ^ 24 := by
    rw [Nat.div_lt_iff_lt_mul (Nat.pow_pos (by norm_num)), pow_256, ← Nat.pow_add]
    exact hupper.trans_le (Nat.pow_le_pow_right (by norm_num) (by omega))
  -- the bytes up to the second of the mantissa do not fit
  have hdrop : ∀ j < i, 2 ^ 23 ≤ t / 256 ^ j := by
    intro j hj
    rw [Nat.le_div_iff_mul_le (Nat.pow_pos (by norm_num)), pow_256, ← Nat.pow_add]
    exact (Nat.pow_le_pow_right (by norm_num) (by omega)).trans hlower
  unfold toCompactLossy
  simp only [if_neg hpos, hi, Nat.add_sub_cancel, ← pow_256]
  have hshift : (if i + 3 ≤ 3 then t * 256 ^ (3 - (i + 3)) else t / 256 ^ i) = t / 256 ^ i := by
    rcases Nat.eq_zero_or_pos i with rfl | hipos
    · simp
    · rw [if_neg (by omega)]
  rw [hshift, testBit_23 hword]
  by_cases hsign : 2 ^ 23 ≤ t / 256 ^ i
  · have hmantissa : t / 256 ^ (i + 1) = t / 256 ^ i / 2 ^ 8 := by
      rw [Nat.pow_succ, ← Nat.div_div_eq_div_mul]
      norm_num
    have hexp : exponent t = i + 1 := by
      refine dropped_eq _ _ ?_ fun j hj => ?_
      · rw [hmantissa]
        omega
      · rcases Nat.lt_succ_iff_lt_or_eq.mp hj with hlt | rfl
        · exact hdrop j hlt
        · exact hsign
    rw [if_pos (decide_eq_true hsign), hexp, hmantissa, Nat.add_right_comm i 3 1]
    exact ⟨Nat.succ_pos i, rfl⟩
  · have hexp : exponent t = i := dropped_eq _ _ (Nat.lt_of_not_le hsign) hdrop
    have hipos : 0 < i := by
      by_contra hzero
      obtain rfl : i = 0 := by omega
      simp only [Nat.pow_zero, Nat.div_one] at hsign
      exact hsign ht
    rw [if_neg (by simpa using hsign), hexp]
    exact ⟨hipos, rfl⟩

theorem exponent_small (ht : t < 2 ^ 23) : exponent t = 0 :=
  dropped_eq _ _ (by simpa using ht) fun i hi => absurd hi (Nat.not_lt_zero i)

theorem rounded_small (ht : t < 2 ^ 23) : rounded t = t := by
  have hzero : dropped _ _ t = 0 := exponent_small ht
  unfold rounded Rounding.round
  rw [hzero, Nat.pow_zero, Nat.div_one, Nat.mul_one]

theorem target_compact (ht : t < 2 ^ 224) : target (toCompactLossy t) = rounded t := by
  rcases Nat.lt_or_ge t (2 ^ 23) with hsmall | hlarge
  · rw [rounded_small hsmall]
    exact target_compact_small hsmall
  rcases toCompactLossy_large hlarge with ⟨hpos, hbits⟩
  have hmantissa : t / 256 ^ exponent t < 2 ^ 23 := mantissa_lt _ _ t
  -- twenty-eight bytes have at most twenty-six dropped ones
  have hexponent : exponent t < 28 := by
    by_contra hge
    have hle : 2 ^ 23 * 256 ^ 27 ≤ t := le_mantissa _ _ (show 27 < exponent t by omega)
    norm_num at hle ht
    omega
  rw [hbits, target_pack (by omega) (by omega)]
  simp only [if_neg (show ¬ exponent t + 3 ≤ 3 by omega), if_neg (Nat.not_le.mpr hmantissa),
    Nat.add_sub_cancel, ← pow_256]
  rfl

theorem compact_rounded (t : Nat) : toCompactLossy (rounded t) = toCompactLossy t := by
  rcases Nat.lt_or_ge t (2 ^ 23) with hsmall | hlarge
  · rw [rounded_small hsmall]
  rcases toCompactLossy_large hlarge with ⟨hpos, hbits⟩
  have hexponent : exponent (rounded t) = exponent t := dropped_round _ _ (by norm_num) t
  have hmantissa : rounded t / 256 ^ exponent t = t / 256 ^ exponent t := mantissa_round _ _ t
  have hrounded : 2 ^ 23 ≤ rounded t := by
    have hle : 2 ^ 23 * 256 ^ 0 ≤ rounded t := le_round _ _ (by norm_num) hpos
    rw [Nat.pow_zero, Nat.mul_one] at hle
    exact hle
  rw [(toCompactLossy_large hrounded).2, hexponent, hmantissa, hbits]

/-- The span is at most four times the intended one, so the next target is at most four times the
last one. -/
theorem scaled_le (target timespan intended : Nat) :
    target * max (intended / 4) (min timespan (intended * 4)) / intended ≤ target * 4 := by
  refine Nat.div_le_of_le_mul ?_
  calc target * max (intended / 4) (min timespan (intended * 4))
      ≤ target * (intended * 4) := Nat.mul_le_mul_left _ (by omega)
    _ = intended * (target * 4) := by ring

theorem retargets (allowMin : Bool) : pow.Retargets (parameters allowMin) (2 ^ 224 - 1) where
  compact := by
    intro t ht
    change toCompactLossy (target (toCompactLossy t)) = toCompactLossy t
    rw [target_compact (by omega), compact_rounded]
  round_le := by
    intro t ht
    change target (toCompactLossy t) ≤ t
    rw [target_compact (by omega)]
    exact round_le _ _ t
  round_mono := by
    intro t u htu hu
    change target (toCompactLossy t) ≤ target (toCompactLossy u)
    rw [target_compact (by omega), target_compact (by omega)]
    exact round_mono _ _ (by norm_num) htu
  attainable := by
    change 0xffff * 2 ^ 208 = target (toCompactLossy (2 ^ 224 - 1))
    decide +kernel
  retarget := by
    intro hretarget bits timespan _
    change fromNextWorkRequired bits timespan (parameters allowMin) = toCompactLossy _
    unfold fromNextWorkRequired
    rw [hretarget, if_neg Bool.false_ne_true]
    dsimp only
    rw [← Nat.min_assoc, Nat.min_eq_left (scaled_le _ _ _)]
    rfl

end Retarget
end ChainContext

namespace ChainState

open Prog FlatChainStore ChainContext

namespace Sample

/-- A block that comes late, and one that comes soon after it. -/
def lateTimes (n : Nat) : Nat := if n = 1 then 1300 else 1400

def late₁ : BlockHeader := Retarget.mined lateTimes (fun _ => Retarget.easy) 1
def late₂ : BlockHeader := Retarget.mined lateTimes (fun _ => Retarget.easy) 2
def late₃ : BlockHeader := Retarget.mined lateTimes (fun _ => Retarget.easy) 3

end Sample

open Sample in
/-- On a test network, a block on top of two blocks with the easiest target. -/
theorem requiredWork_eq_core_soon : ∃ start s d l target,
    new (retarget true) (createChainStore Sample.config) none = .ok start ∧
    Reaches start s ∧ s.view ((retarget true).blockHash late₂) = some d ∧
    d.height = some 2 ∧ Lineage (retarget true) s.view d.header l ∧
    (getNextRequiredWork d.header 3 late₃ s).1 = .ok target ∧
    Retarget.toCompactLossy target =
      Core.getNextWorkRequired Retarget.pow (Retarget.parameters true) (2 ^ 224 - 1) l late₃ := by
  have hpacked : Packed (retarget true).pow (2 ^ 224 - 1) (retarget true).genesisHeader.bits := by
    change Packed Retarget.pow _ Retarget.easy
    exact ⟨by decide +kernel, by decide +kernel⟩
  have hrun : afterTested (retarget true) Sample.config spareFor [late₁, late₂]
      (fun s => decide (s.bestBlock.bestBlock = (retarget true).blockHash late₂ ∧
        s.bestBlock.depth = 2)) = true := by
    decide +kernel
  rcases afterTested_eq_true rounds Retarget.counting.genesisHash_ne_zero id
    (fun h => acceptReady_of_spare h.chain) hrun with ⟨start, s, hnew, hreach, hheaders, -, hcheck⟩
  rcases of_decide_eq_true hcheck with ⟨htip, hdepth⟩
  have hinv := hheaders.chain
  rcases hinv.best with ⟨d, hd⟩
  rw [htip, hdepth] at hd
  have htrue : ∀ t ≤ 2, ∃ y, Above s.view y d.header (2 - t) ∧
      (getAncestorAtHeight d.header 2 t s).1 = .ok y := by
    intro t ht
    have hlookup := within_ancestor (E := fun _ => False) hinv hd.entry hd.height ht
      (.inl (Nat.le_of_eq hdepth.symm))
    rcases hlookup.exists_ok (Quiet.refl hinv.store) with ⟨y, hy, habove⟩
    exact ⟨y, habove, hy⟩
  rcases requiredWork_eq_core (Retarget.retargets true) hpacked
    ⟨rounds, Retarget.counting.genesisHash_ne_zero, none, hnew⟩ hreach.reaches hd.entry hd.height
    htrue late₃ with
    ⟨l, target, hl, htarget, hcore⟩
  exact ⟨start, _, d, l, target, hnew, hreach.reaches, hd.entry, hd.height, hl, htarget, hcore⟩

end ChainState
end Floresta
