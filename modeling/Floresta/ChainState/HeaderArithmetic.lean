import Floresta.ChainState.Difficulty

/-!
# HeaderArithmetic — the integers of `validate_header`

Heights and times are `u32`, the spacing of the blocks is `u64`.  With overflow checks, an operation
that leaves its type stops the program; without them it wraps around.  Here every operation of
`validate_header` and of what it calls is written with its check.  The heights of stored headers and
the conditions around the operations exclude all failures but one: `check_bip94_time` subtracts ten
minutes from the time of the parent, which a miner chooses.
-/

namespace Floresta.ChainState

open Prog FlatChainStore

variable {C : ChainContext} {k : Nat} {s start : ChainStateInner C} {header : BlockHeader}

/-! ## Checked operations -/

namespace Checked

def add (width a b : Nat) : Except Fault Nat :=
  if a + b < 2 ^ width then .ok (a + b) else .error (.panicked "attempt to add with overflow")

def sub (a b : Nat) : Except Fault Nat :=
  if b ≤ a then .ok (a - b) else .error (.panicked "attempt to subtract with overflow")

def mul (width a b : Nat) : Except Fault Nat :=
  if a * b < 2 ^ width then .ok (a * b) else .error (.panicked "attempt to multiply with overflow")

def rem (a b : Nat) : Except Fault Nat :=
  if b = 0 then .error (.panicked "attempt to calculate the remainder with a divisor of zero")
  else .ok (a % b)

def checkBip94Time (block prevBlock : BlockHeader) : Except Fault Unit := do
  let earliest ← sub prevBlock.time 600
  if block.time < earliest then .error (.error (.blockValidation .bip94TimeWarp)) else .ok ()

def lastRealDifficulty (header : BlockHeader) (height : Nat) : ChainM C BlockHeader :=
  Prog.loop .diverged (fun (p : BlockHeader × Nat) => do
    if p.2 % 2016 ≠ 0 ∧
        p.1.bits = C.pow.toCompactLossy C.parameters.params.maxAttainableTarget then
      let parent ← getAncestor p.1
      let below ← Prog.lift (sub p.2 1)
      pure (.inl (parent.header, below))
    else pure (.inr p.1)) (height + 1) (header, height)

/-- The time span is a saturating subtraction in the source, as it is here. -/
def getNextRequiredWork (lastBlock : BlockHeader) (nextHeight : Nat) (nextHeader : BlockHeader) :
    ChainM C Nat := do
  let params := C.parameters.params
  if nextHeight % 2016 ≠ 0 then
    if !params.allowMinDifficultyBlocks then pure (C.pow.target lastBlock.bits)
    else do
      let spacing ← Prog.lift (mul 64 params.powTargetSpacing 2)
      let latest ← Prog.lift (add 64 lastBlock.time spacing)
      if latest < nextHeader.time then pure params.maxAttainableTarget
      else do
        let height ← Prog.lift (sub nextHeight 1)
        let header ← lastRealDifficulty lastBlock height
        pure (C.pow.target header.bits)
  else if !params.noPowRetargeting then do
    let lastHeight ← Prog.lift (sub nextHeight 1)
    let firstHeight ← Prog.lift (sub nextHeight DIFFCHANGE_INTERVAL)
    let firstBlock ← getAncestorAtHeight lastBlock lastHeight firstHeight
    let target := Consensus.calcNextWorkRequired C.pow C.parameters lastBlock firstBlock
    pure (if target < params.maxAttainableTarget then target else params.maxAttainableTarget)
  else pure (C.pow.target lastBlock.bits)

def checkBip94Block (block : BlockHeader) (height : Nat) : ChainM C Unit := do
  if !C.parameters.enforceBip94 then pure ()
  else do
    let position ← Prog.lift (rem height C.parameters.params.minerConfirmationWindow)
    if position ≠ 0 then pure ()
    else do
      let prevHeader ← getAncestor block
      Prog.lift (checkBip94Time block prevHeader.header)

def validateHeader (blockHeader : BlockHeader) : ChainM C BlockHash := do
  let blockHash ← check (Fallible.okOr (Consensus.validatePow C.bitcoin C.pow blockHeader)
    (.blockValidation .notEnoughPow))
  let prevBlock ← getAncestor blockHeader
  let prevHeight ← check (Fallible.okOr prevBlock.height
    (.blockValidation .blockExtendsAnOrphanChain))
  let height ← Prog.lift (add 32 prevHeight 1)
  let expectedTarget ← getNextRequiredWork prevBlock.header height blockHeader
  check (Fallible.require (blockHeader.bits = C.pow.toCompactLossy expectedTarget)
    (.blockValidation .badDiffBits))
  checkBip94Block blockHeader height
  check (Fallible.require
    (Consensus.minHeaderVersion C.parameters.params height ≤ blockHeader.version)
    (.blockValidation .badVersion))
  pure blockHash

/-! ### Operations that stay in range -/

theorem add_eq {width a b : Nat} (h : a + b < 2 ^ width) : add width a b = .ok (a + b) := if_pos h

theorem sub_eq {a b : Nat} (h : b ≤ a) : sub a b = .ok (a - b) := if_pos h

theorem mul_eq {width a b : Nat} (h : a * b < 2 ^ width) : mul width a b = .ok (a * b) := if_pos h

theorem rem_eq {a b : Nat} (h : b ≠ 0) : rem a b = .ok (a % b) := if_neg h

theorem lift_ok_bind {α β : Type} {x : Except Fault α} {a : α} (hx : x = .ok a)
    (f : α → ChainM C β) : (Prog.lift x >>= f) = f a := by
  rw [hx]
  rfl

/-- The subtraction stays in range exactly if the parent is not in the first ten minutes, and then
the check is the comparison of the integers. -/
theorem checkBip94Time_iff (block prevBlock : BlockHeader) :
    (checkBip94Time block prevBlock = .ok () ↔ prevBlock.time ≤ block.time + 600) ↔
      600 ≤ prevBlock.time := by
  unfold checkBip94Time
  rcases Nat.lt_or_ge prevBlock.time 600 with hearly | hlate
  · -- the program stops, and any time is late enough
    have hpanic : sub prevBlock.time 600 =
        .error (.panicked "attempt to subtract with overflow") := if_neg (Nat.not_le.mpr hearly)
    rw [hpanic]
    refine iff_of_false (fun hexact => ?_) (Nat.not_le.mpr hearly)
    cases hexact.mpr (by omega)
  · rw [sub_eq hlate]
    refine iff_of_true ?_ hlate
    simp only [bind, Except.bind]
    split
    · exact iff_of_false nofun (by omega)
    · exact iff_of_true rfl (by omega)

/-- The wrapping subtraction is the checked one then. -/
theorem checkBip94Time_eq {block prevBlock : BlockHeader} (hlate : 600 ≤ prevBlock.time)
    (htime : prevBlock.time < 2 ^ 32) : checkBip94Time block prevBlock =
      (Consensus.checkBip94Time block prevBlock).mapError .error := by
  have hwrap : (prevBlock.time + (2 ^ 32 - 600)) % 2 ^ 32 = prevBlock.time - 600 := by omega
  unfold checkBip94Time Consensus.checkBip94Time Fallible.require
  rw [sub_eq hlate, hwrap]
  simp only [bind, Except.bind, not_lt]
  split
  · rw [if_neg (by omega)]
    rfl
  · rw [if_pos (by omega)]
    rfl

/-! ### The checked program and the plain one -/

theorem agrees_lastRealDifficulty (h : BlockHeader) (n : Nat) :
    Agrees (Quiet k s) (lastRealDifficulty h n : ChainM C _)
      (ChainState.lastRealDifficulty h n) := by
  refine Agrees.loop (E := Proper) (P := fun _ => True) (fun p _ => ?_) (fun p _ => ?_) _ trivial
  · refine Agrees.ite (fun hcond => ?_) fun _ => Agrees.refl _
    -- the round goes on at a height that is not a multiple of the interval
    have hpos : 1 ≤ p.2 := Nat.pos_of_ne_zero fun hzero => hcond.1 (by rw [hzero])
    refine Agrees.bind (Agrees.refl _) (within_getDiskBlockHeader _) fun parent _ => ?_
    rw [lift_ok_bind (sub_eq hpos)]
    exact Agrees.refl _
  · refine Within.ite (fun hcond => ?_) fun _ => Within.pure trivial
    have hpos : 1 ≤ p.2 := Nat.pos_of_ne_zero fun hzero => hcond.1 (by rw [hzero])
    refine Within.bind (within_getDiskBlockHeader _) fun parent _ => ?_
    rw [lift_ok_bind (sub_eq hpos)]
    exact Within.pure trivial

theorem agrees_getNextRequiredWork {last : BlockHeader} (n : Nat) (next : BlockHeader)
    (htime : last.time + C.parameters.params.powTargetSpacing * 2 < 2 ^ 64) :
    Agrees (Quiet k s) (getNextRequiredWork last (n + 1) next : ChainM C _)
      (ChainState.getNextRequiredWork last (n + 1) next) := by
  have hlast : 1 ≤ n + 1 := Nat.succ_pos n
  refine Agrees.ite (fun _ => Agrees.ite (fun _ => Agrees.refl _) fun _ => ?_) fun hepoch =>
    Agrees.ite (fun _ => ?_) fun _ => Agrees.refl _
  · rw [lift_ok_bind (mul_eq (by omega)), lift_ok_bind (add_eq htime)]
    refine Agrees.ite (fun _ => Agrees.refl _) fun _ => ?_
    rw [lift_ok_bind (sub_eq hlast)]
    exact Agrees.bind (agrees_lastRealDifficulty last _) (within_lastRealDifficulty _ _)
      fun _ _ => Agrees.refl _
  · -- a positive multiple of the interval is not below it
    have hfirst : DIFFCHANGE_INTERVAL ≤ n + 1 := by
      unfold DIFFCHANGE_INTERVAL
      omega
    rw [lift_ok_bind (sub_eq hlast), lift_ok_bind (sub_eq hfirst)]
    exact Agrees.refl _

theorem agrees_checkBip94Block (hwindow : C.parameters.params.minerConfirmationWindow ≠ 0) {n : Nat}
    (hearly : C.parameters.enforceBip94 = true →
      n % C.parameters.params.minerConfirmationWindow = 0 →
      ∀ p, s.view header.prevBlockhash = some p → 600 ≤ p.header.time ∧ p.header.time < 2 ^ 32) :
    Agrees (Quiet k s) (checkBip94Block header n : ChainM C _)
      (ChainState.checkBip94Block header n) := by
  unfold checkBip94Block ChainState.checkBip94Block
  cases henforced : C.parameters.enforceBip94 with
  | false => exact Agrees.refl _
  | true =>
    simp only [Bool.not_true, Bool.false_eq_true, if_false, false_or]
    rw [lift_ok_bind (rem_eq hwindow)]
    refine Agrees.ite (fun _ => Agrees.refl _) fun hposition => ?_
    refine Agrees.bind (Agrees.refl _) (within_getDiskBlockHeader _) fun p hp => ?_
    rcases hearly henforced (not_not.mp hposition) p hp with ⟨hlate, htime⟩
    rw [checkBip94Time_eq hlate htime]
    exact Agrees.refl _

end Checked

/-! ## Headers that stay in range -/

/-- No operation of `validate_header` leaves its type, and where the rule of BIP94 applies, it
compares the integers. -/
structure InRange (s : ChainStateInner C) (header : BlockHeader) : Prop where
  checked : Checked.validateHeader header s = validateHeader header s
  panics : ∀ msg, (Checked.validateHeader header s).1 ≠ .error (.panicked msg)
  bip94 : ∀ p n, s.view header.prevBlockhash = some p → p.height = some n →
    C.parameters.enforceBip94 = true →
    (n + 1) % C.parameters.params.minerConfirmationWindow = 0 →
    (Checked.checkBip94Time header p.header = .ok () ↔ p.header.time ≤ header.time + 600)

/-- In every state that is reached from a new chain state, a header stays in range if and only if
its parent is not in the first ten minutes of the clock, where the rule of BIP94 applies.  The times
are `u32`, and the constants are those of a network. -/
theorem validateHeader_inRange_iff
    (hspacing : 2 ^ 32 + C.parameters.params.powTargetSpacing * 2 ≤ 2 ^ 64)
    (hwindow : C.parameters.params.minerConfirmationWindow ≠ 0) {config : FlatChainStoreConfig}
    (hnew : Created config start) (hreach : Reaches start s)
    (hfiles : s.chainstore.metadata.headersFileSize + s.chainstore.metadata.forkFileSize + 1 < 2 ^ 32)
    (htimes : ∀ x d, s.view x = some d → d.header.time < 2 ^ 32) :
    InRange s header ↔ ∀ p n, s.view header.prevBlockhash = some p →
      p.height = some n → C.parameters.enforceBip94 = true →
      (n + 1) % C.parameters.params.minerConfirmationWindow = 0 → 600 ≤ p.header.time := by
  have hinv := hreach.inv (new_inv hnew.isNew)
  have hquiet := Quiet.refl hinv.store
  refine ⟨fun h p n hp hn he hw => ?_, fun hearly => ?_⟩
  · exact (Checked.checkBip94Time_iff header p.header).mp (h.bip94 p n hp hn he hw)
  have hagrees : Agrees (Quiet (indexBits config) s) (Checked.validateHeader header : ChainM C _)
      (validateHeader header) := by
    refine Agrees.bind (Agrees.refl _) (within_check fun _ _ => trivial) fun hash _ => ?_
    refine Agrees.bind (Agrees.refl _) (within_getDiskBlockHeader _) fun p hp => ?_
    have hheight : ∀ n, Fallible.okOr p.height
        (BlockchainError.blockValidation .blockExtendsAnOrphanChain) = .ok n →
        p.height = some n := fun n h => Fallible.okOr_eq_ok.mp h
    refine Agrees.bind (Agrees.refl _) (within_check hheight) fun n hn => ?_
    -- the parent stands in one of the two files, with its ancestors
    have hbound : n + 1 < 2 ^ 32 := by
      rcases hinv.tree.rooted _ p hp with ⟨m, hm, -, hmn⟩
      have hforks := hinv.forks
      have hnm := hmn n hn
      omega
    have htime := htimes _ p hp
    rw [Checked.lift_ok_bind (Checked.add_eq hbound)]
    refine Agrees.bind (Checked.agrees_getNextRequiredWork n header (by omega))
      (within_getNextRequiredWork _ _ _) fun target _ => ?_
    refine Agrees.bind (Agrees.refl _) (within_check fun _ _ => trivial) fun _ _ => ?_
    refine Agrees.bind (Checked.agrees_checkBip94Block hwindow fun he hw q hq => ?_)
      (within_checkBip94Block _ _) fun _ _ => Agrees.refl _
    rw [Option.some.inj (hq.symm.trans hp)]
    exact ⟨hearly p n hp hn he hw, htime⟩
  have hsame := hagrees s hquiet
  refine ⟨hsame, fun msg hpanic => ?_, fun p n hp hn he hw => ?_⟩
  · have hrun := (within_validateHeader header) s hquiet
    unfold wp at hrun
    rw [← hsame, hpanic] at hrun
    rcases hrun.2 with ⟨e, he⟩
    cases he
  · exact (Checked.checkBip94Time_iff header p.header).mpr (hearly p n hp hn he hw)

/-! ## An epoch in the first ten minutes

A network with minimum-difficulty blocks and BIP94, and a first epoch whose blocks come at an even
pace, or all have the time of the genesis block. -/

namespace Early

open ChainContext ChainContext.Retarget

def testnet4 : ChainContext :=
  { retarget true with parameters := { parameters true with enforceBip94 := true } }

def e (pace : Nat) : Nat → BlockHeader := mined (pace * ·) fun _ => easy

/-- The first header of the next epoch, with a quarter of the target. -/
def e₂₀₁₆ : BlockHeader := { e 0 2016 with bits := hard }

theorem counting_testnet4 : Counting testnet4 :=
  ⟨rfl, fun _ => rfl, rfl, fun _ hn => minHeaderVersion_le hn⟩

variable {pace : Nat} (hpace : pace ≤ 1200)

include hpace

theorem required_e {start s : ChainStateInner testnet4} {n : Nat} (hn : n < 2015)
    (hs : Alone 13 start (e pace) n s) :
    Within (Quiet 13 s) (fun _ => False)
      (getNextRequiredWork (e pace n) (n + 1) (e pace (n + 1)) : ChainM testnet4 _)
      fun target => easy = toCompactLossy target := by
  have hall : ∀ x d, s.view x = some d → d.header.bits = easy := by
    intro x d hd
    rcases hs.only x d hd with ⟨i, -, heq⟩
    rw [heq]
    rfl
  have heasy : easy = toCompactLossy (testnet4.pow.target easy) := by decide +kernel
  have hsoon : ¬ (e pace n).time + testnet4.parameters.params.powTargetSpacing * 2 <
      (e pace (n + 1)).time := by
    change ¬ pace * n + 1200 < pace * (n + 1)
    rw [Nat.mul_succ]
    omega
  refine (within_required_usual rfl (by omega) hsoon (hs.branch (Nat.le_refl n)) rfl
    hall).mono ?_
  rintro target rfl
  exact heasy

theorem run_e {start : ChainStateInner testnet4}
    (hnew : new testnet4 (createChainStore config) none = .ok start) :
    ∃ s, HeaderRun AcceptReady start s ∧ Alone 13 start (e pace) 2015 s := by
  refine mined_run counting_testnet4 hnew (Nat.mul_zero pace) rfl (by norm_num) (fun _ => .inl rfl)
    (fun n hn => .inr ?_) fun n hn s hs => required_e hpace hn hs
  have hwindow : testnet4.parameters.params.minerConfirmationWindow = 2016 := rfl
  rw [hwindow]
  omega

omit hpace in
theorem required_e₂₀₁₆ {start s : ChainStateInner testnet4} (hs : Alone 13 start (e 0) 2015 s) :
    Within (Quiet 13 s) (fun _ => False)
      (getNextRequiredWork (e 0 2015) 2016 e₂₀₁₆ : ChainM testnet4 _)
      fun target => hard = toCompactLossy target := by
  have hfirst : 2015 + 1 - DIFFCHANGE_INTERVAL ≤ 2015 := by decide
  refine (within_required_retarget rfl rfl (hs.within_ancestor hfirst)).mono ?_
  rintro target rfl
  decide +kernel

omit hpace in
/-- Every check before the rule of BIP94 passes. -/
theorem within_e₂₀₁₆ {start s : ChainStateInner testnet4} (hs : Alone 13 start (e 0) 2015 s)
    {p : DiskBlockHeader} (hp : s.view e₂₀₁₆.prevBlockhash = some p)
    (hheight : p.height = some 2015) (hheader : p.header = e 0 2015) :
    Within (Quiet 13 s) (· = .panicked "attempt to subtract with overflow")
      (Checked.validateHeader e₂₀₁₆ : ChainM testnet4 _) fun _ => False := by
  refine Within.bind (Within.lift (P := fun _ => True) ?_) fun _ _ => ?_
  · have hpow : Consensus.validatePow testnet4.bitcoin testnet4.pow e₂₀₁₆ =
        some (testnet4.blockHash e₂₀₁₆) := by decide +kernel
    rw [hpow]
    trivial
  refine Within.bind_eq (within_getDiskBlockHeader_stored hp) ?_
  refine Within.bind_eq (a := 2015) (Within.lift ?_) ?_
  · rw [hheight]
    rfl
  rw [Checked.lift_ok_bind (Checked.add_eq (by norm_num)), hheader]
  refine Within.bind ((Checked.agrees_getNextRequiredWork 2015 e₂₀₁₆ (by decide)).within
    (required_e₂₀₁₆ hs).weaken) fun target htarget => ?_
  refine Within.bind (Within.lift (P := fun _ => True) ?_) fun _ _ => ?_
  · have hbits : e₂₀₁₆.bits = testnet4.pow.toCompactLossy target := htarget
    rw [Fallible.require, if_pos hbits]
    trivial
  refine Within.bind (P := fun _ => False) ?_ fun _ => False.elim
  have hposition : Checked.rem (2015 + 1) testnet4.parameters.params.minerConfirmationWindow =
      .ok 0 := rfl
  unfold Checked.checkBip94Block
  rw [if_neg (by decide), Checked.lift_ok_bind hposition, if_neg (by decide)]
  refine Within.bind_eq (within_getDiskBlockHeader_stored hp) ?_
  rw [hheader]
  exact Within.lift rfl

end Early

open Early ChainContext ChainContext.Retarget in
/-- The blocks come a second apart, so that the last one of the epoch is late enough. -/
theorem validateHeader_inRange_iff_first :
    ∃ start s p, new testnet4 (createChainStore config) none = .ok start ∧
      HeaderRun AcceptReady start s ∧ s.view (e 1 2016).prevBlockhash = some p ∧
      p.height = some 2015 ∧ p.header.time = 2015 ∧ InRange s (e 1 2016) := by
  have hstart : fromNew testnet4 config (fun _ => true) = true := by decide +kernel
  rcases fromNew_eq_true hstart with ⟨start, hnew, -⟩
  have hpace : 1 ≤ 1200 := by decide
  rcases run_e hpace hnew with ⟨s, hrun, hs⟩
  rcases hs.chain 2015 (Nat.le_refl _) with ⟨p, hp, hheader⟩
  have hparent : (e 1 2016).prevBlockhash = testnet4.blockHash (e 1 2015) := by decide +kernel
  have hview : s.view (e 1 2016).prevBlockhash = some p := hparent ▸ hp.entry
  have htime : p.header.time = 2015 := by
    rw [hheader]
    rfl
  refine ⟨start, s, p, hnew, hrun, hview, hp.height, htime, (validateHeader_inRange_iff (by decide)
    (by decide) (counting_testnet4.created hnew) hrun.reaches ?_ ?_).mpr ?_⟩
  · rcases files_new counting_testnet4 hnew with ⟨hheaders, hforks, -⟩
    rw [hs.headersFileSize, hs.forkFileSize]
    omega
  · intro x d hd
    rcases hs.only x d hd with ⟨i, hi, heq⟩
    rw [heq]
    change 1 * i < 2 ^ 32
    omega
  · intro q n hq _ _ _
    rw [Option.some.inj (hq.symm.trans hview), htime]
    decide

open Early ChainContext ChainContext.Retarget in
/-- The header is not too early for BIP94, and the program stops at it; without overflow checks it
refuses it. -/
theorem validateHeader_panics :
    ∃ start s, new testnet4 (createChainStore config) none = .ok start ∧
      HeaderRun AcceptReady start s ∧
      (∃ p, s.view e₂₀₁₆.prevBlockhash = some p ∧ p.height = some 2015 ∧
        p.header.time ≤ e₂₀₁₆.time + 600 ∧
        Consensus.checkBip94Time e₂₀₁₆ p.header = .error (.blockValidation .bip94TimeWarp)) ∧
      (Checked.validateHeader e₂₀₁₆ s).1 =
        .error (.panicked "attempt to subtract with overflow") ∧ ¬ InRange s e₂₀₁₆ := by
  have hstart : fromNew testnet4 config (fun _ => true) = true := by decide +kernel
  rcases fromNew_eq_true hstart with ⟨start, hnew, -⟩
  rcases run_e (Nat.zero_le _) hnew with ⟨s, hrun, hs⟩
  rcases hs.chain 2015 (Nat.le_refl _) with ⟨p, hp, hheader⟩
  have hparent : e₂₀₁₆.prevBlockhash = testnet4.blockHash (e 0 2015) := by decide +kernel
  have hview : s.view e₂₀₁₆.prevBlockhash = some p := hparent ▸ hp.entry
  have hpanics : (Checked.validateHeader e₂₀₁₆ s).1 =
      .error (.panicked "attempt to subtract with overflow") := by
    have hout := (within_e₂₀₁₆ hs hview hp.height hheader s (Quiet.refl hs.headers.chain.store)).2
    cases hanswer : (Checked.validateHeader e₂₀₁₆ s).1 with
    | error fault =>
      rw [hanswer] at hout
      exact congrArg Except.error hout
    | ok hash =>
      rw [hanswer] at hout
      exact hout.elim
  refine ⟨start, s, hnew, hrun, ⟨p, hview, hp.height, ?_⟩, hpanics,
    fun hrange => hrange.panics _ hpanics⟩
  rw [hheader]
  exact ⟨by decide, by decide +kernel⟩

end Floresta.ChainState
