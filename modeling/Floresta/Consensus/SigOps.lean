import Floresta.Consensus.Transactions
import Mathlib.Algebra.BigOperators.Ring.List
import Mathlib.Algebra.Ring.Nat

/-!
# SigOps — the contextual count of signature operations

`sigops.rs` counts on the instructions that rust-bitcoin reads from a script, and remembers the
number of the last push.  Bitcoin Core scans the bytes and remembers the last opcode.  `Core` states
Core's functions on bytes; the two agree for every transaction, map and set of flags, up to the
largest `usize`, at which the code saturates.

What is assumed of rust-bitcoin (`FollowsGrammar`): its iterator yields the instructions of the
script grammar and one error at a malformed push, `is_push_only` is the test of the grammar, and the
legacy count is Core's.
-/

namespace Floresta

/-! ## Bitcoin Core's functions -/

namespace Core

/-- The length of a push, and what follows the bytes that encode it. -/
def pushSize (opcode : UInt8) (pc : Script) : Option (Nat × Script) :=
  if opcode < 0x4c then some (opcode.toNat, pc)
  else if opcode = 0x4c then
    match pc with
    | a :: pc => some (a.toNat, pc)
    | _ => none
  else if opcode = 0x4d then
    match pc with
    | a :: b :: pc => some (a.toNat + 2 ^ 8 * b.toNat, pc)
    | _ => none
  else
    match pc with
    | a :: b :: c :: d :: pc =>
      some (a.toNat + 2 ^ 8 * b.toNat + 2 ^ 16 * c.toNat + 2 ^ 24 * d.toNat, pc)
    | _ => none

/-- `GetScriptOp`: the opcode, the bytes it pushes and the rest of the script. -/
def getOp : Script → Option (UInt8 × Bytes × Script)
  | [] => none
  | opcode :: pc =>
    if opcode ≤ 0x4e then do
      let (size, pc) ← pushSize opcode pc
      if pc.length < size then none else some (opcode, pc.take size, pc.drop size)
    else some (opcode, [], pc)

/-- The loop of `CScript::GetSigOpCount(bool)`; every round reads at least one byte. -/
def sigOpLoop (accurate : Bool) : Nat → Script → UInt8 → Nat → Nat
  | fuel + 1, pc, lastOpcode, n =>
    match getOp pc with
    | none => n
    | some (opcode, _, pc) =>
      let n :=
        if opcode = 0xac ∨ opcode = 0xad then n + 1
        else if opcode = 0xae ∨ opcode = 0xaf then
          if accurate ∧ 0x51 ≤ lastOpcode ∧ lastOpcode ≤ 0x60 then
            n + (lastOpcode.toNat - 0x50)
          else n + 20
        else n
      sigOpLoop accurate fuel pc opcode n
  | 0, _, _, n => n

/-- `CScript::GetSigOpCount(bool)`, from `OP_INVALIDOPCODE`. -/
def getSigOpCount (accurate : Bool) (script : Script) : Nat :=
  sigOpLoop accurate script.length script 0xff 0

/-- The loop over a `scriptSig`: what it pushes last, if it only pushes. -/
def pushLoop : Nat → Script → Bytes → Option Bytes
  | fuel + 1, pc, data =>
    if pc = [] then some data
    else
      match getOp pc with
      | none => none
      | some (opcode, data, pc) => if 0x60 < opcode then none else pushLoop fuel pc data
  | 0, _, data => some data

def lastPushed (scriptSig : Script) : Option Bytes := pushLoop scriptSig.length scriptSig []

/-- `CScript::IsPushOnly`. -/
def isPushOnly (script : Script) : Bool := (lastPushed script).isSome

/-- `CScript::IsWitnessProgram`: the version and the program. -/
def isWitnessProgram : Script → Option (Nat × Bytes)
  | version :: size :: program =>
    if program.length < 2 ∨ 40 < program.length then none
    else if version ≠ 0 ∧ (version < 0x51 ∨ 0x60 < version) then none
    else if size.toNat = program.length then
      some (if version = 0 then 0 else version.toNat - 0x50, program)
    else none
  | _ => none

def witnessSigOps (version : Nat) (program : Bytes) (witness : Witness) : Nat :=
  if version = 0 then
    if program.length = 20 then 1
    else if program.length = 32 then
      match witness.getLast? with
      | some script => getSigOpCount true script
      | none => 0
    else 0
  else 0

/-- `CScript::GetSigOpCount(const CScript&)` of a P2SH output. -/
def p2shSigOps (scriptSig : Script) : Nat :=
  match lastPushed scriptSig with
  | some subscript => getSigOpCount true subscript
  | none => 0

def countWitnessSigOps (scriptSig scriptPubKey : Script) (witness : Witness) : Nat :=
  match isWitnessProgram scriptPubKey with
  | some (version, program) => witnessSigOps version program witness
  | none =>
    if Script.isP2sh scriptPubKey ∧ isPushOnly scriptSig then
      match isWitnessProgram ((lastPushed scriptSig).getD []) with
      | some (version, program) => witnessSigOps version program witness
      | none => 0
    else 0

def getLegacySigOpCount (tx : Transaction) : Nat :=
  (tx.input.map fun input => getSigOpCount false input.scriptSig).sum +
    (tx.output.map fun out => getSigOpCount false out.scriptPubkey).sum

/-- The script of `AccessCoin`: empty for an outpoint that the map lacks. -/
def coinScript (utxos : UtxoMap) (outpoint : OutPoint) : Script :=
  ((utxos.lookup outpoint).map fun utxo => utxo.txout.scriptPubkey).getD []

def getP2SHSigOpCount (tx : Transaction) (utxos : UtxoMap) : Nat :=
  (tx.input.map fun input =>
    if Script.isP2sh (coinScript utxos input.previousOutput) then p2shSigOps input.scriptSig
    else 0).sum

def getTransactionSigOpCost (tx : Transaction) (utxos : UtxoMap) (flags : Nat) : Nat :=
  let legacy := getLegacySigOpCount tx * WITNESS_SCALE_FACTOR
  if tx.isCoinbase then legacy
  else
    let p2sh := if flags &&& VERIFY_P2SH ≠ 0 then
      getP2SHSigOpCount tx utxos * WITNESS_SCALE_FACTOR else 0
    let witness := (tx.input.map fun input =>
      if flags &&& VERIFY_WITNESS ≠ 0 then
        countWitnessSigOps input.scriptSig (coinScript utxos input.previousOutput) input.witness
      else 0).sum
    legacy + p2sh + witness

/-! ### The grammar as a list of instructions -/

def instruction (opcode : UInt8) (data : Bytes) : Instruction :=
  if opcode ≤ 0x4e then .pushBytes data else .op opcode

/-- The instructions of a script; a malformed push ends it with `none`. -/
def instructionLoop : Nat → Script → List (Option Instruction)
  | fuel + 1, pc =>
    if pc = [] then []
    else
      match getOp pc with
      | none => [none]
      | some (opcode, data, pc) => some (instruction opcode data) :: instructionLoop fuel pc
  | 0, _ => []

def instructions (script : Script) : List (Option Instruction) :=
  instructionLoop script.length script

end Core

/-- What is assumed of rust-bitcoin. -/
structure Bitcoin.FollowsGrammar (B : Bitcoin) : Prop where
  instructions : ∀ script, (B.instructions script).map Except.toOption = Core.instructions script
  isPushOnly : ∀ script, B.isPushOnly script = Core.isPushOnly script
  legacy : ∀ tx, B.totalSigopCost tx =
    saturatingMul (Core.getLegacySigOpCount tx) WITNESS_SCALE_FACTOR

namespace Consensus

variable {B : Bitcoin}

/-! ## The two scanners -/

def pushedNumber (lastOpcode : UInt8) : Option Nat :=
  if 0x51 ≤ lastOpcode ∧ lastOpcode ≤ 0x60 then some (lastOpcode.toNat - 0x50) else none

theorem pushedNumber_eq_none {opcode : UInt8} (h : opcode < 0x51 ∨ 0x60 < opcode) :
    pushedNumber opcode = none := by
  refine if_neg ?_
  rintro ⟨hlow, hhigh⟩
  rcases h with h | h
  · exact absurd hlow (UInt8.not_le.mpr h)
  · exact absurd hhigh (UInt8.not_le.mpr h)

theorem countSigopsStep_eq (n : Nat) (lastOpcode opcode : UInt8) (data : Bytes) :
    countSigopsStep (n, pushedNumber lastOpcode) (Core.instruction opcode data) =
      (if opcode = 0xac ∨ opcode = 0xad then n + 1
        else if opcode = 0xae ∨ opcode = 0xaf then
          if 0x51 ≤ lastOpcode ∧ lastOpcode ≤ 0x60 then n + (lastOpcode.toNat - 0x50) else n + 20
        else n, pushedNumber opcode) := by
  unfold countSigopsStep Core.instruction
  by_cases hpush : opcode ≤ 0x4e
  · -- a push is none of the opcodes that count
    have hnone : pushedNumber opcode = none := 
      pushedNumber_eq_none (.inl (UInt8.lt_of_le_of_lt hpush (by decide)))
    have hsig : ¬ (opcode = 0xac ∨ opcode = 0xad) := by
      rintro (rfl | rfl)
      all_goals exact absurd hpush (by decide)
    have hmulti : ¬ (opcode = 0xae ∨ opcode = 0xaf) := by
      rintro (rfl | rfl)
      all_goals exact absurd hpush (by decide)
    rw [if_pos hpush, if_neg hsig, if_neg hmulti, hnone]
  rw [if_neg hpush]
  dsimp only
  by_cases hsig : opcode = 0xac ∨ opcode = 0xad
  · have hnone : pushedNumber opcode = none := by
      rcases hsig with rfl | rfl
      all_goals rfl
    rw [if_pos hsig, if_pos hsig, hnone]
  rw [if_neg hsig, if_neg hsig]
  by_cases hmulti : opcode = 0xae ∨ opcode = 0xaf
  · have hnone : pushedNumber opcode = none := by
      rcases hmulti with rfl | rfl
      all_goals rfl
    rw [if_pos hmulti, if_pos hmulti, hnone]
    by_cases hlast : 0x51 ≤ lastOpcode ∧ lastOpcode ≤ 0x60
    · rw [if_pos hlast, pushedNumber, if_pos hlast]
      rfl
    · rw [if_neg hlast, pushedNumber, if_neg hlast]
      rfl
  rw [if_neg hmulti, if_neg hmulti, pushedNumber]
  split
  · rfl
  · rfl

/-- What the iterator yields before the first error. -/
def untilError : List (Option Instruction) → List Instruction
  | some i :: rest => i :: untilError rest
  | _ => []

theorem parsedInstructions_eq (l : List (Except String Instruction)) :
    parsedInstructions l = untilError (l.map Except.toOption) := by
  induction l with
  | nil => rfl
  | cons x l ih =>
    cases x with
    | error e => rfl
    | ok i =>
      rw [parsedInstructions, ih]
      rfl

theorem sigOpLoop_eq (fuel : Nat) (pc : Script) (lastOpcode : UInt8) (n : Nat) :
    ((untilError (Core.instructionLoop fuel pc)).foldl countSigopsStep
      (n, pushedNumber lastOpcode)).1 = Core.sigOpLoop true fuel pc lastOpcode n := by
  induction fuel generalizing pc lastOpcode n with
  | zero => rfl
  | succ fuel ih =>
    unfold Core.instructionLoop Core.sigOpLoop
    by_cases hnil : pc = []
    · subst hnil
      rfl
    rw [if_neg hnil]
    cases hop : Core.getOp pc with
    | none => rfl
    | some r =>
      rcases r with ⟨opcode, data, pc'⟩
      simp only [untilError, List.foldl_cons, countSigopsStep_eq, ih, true_and]

theorem countSigopsAccurate_eq (h : B.FollowsGrammar) (script : Script) :
    countSigopsAccurate B script = Core.getSigOpCount true script := by
  have hstart : pushedNumber 0xff = none := rfl
  unfold countSigopsAccurate
  rw [parsedInstructions_eq, h.instructions, ← hstart]
  exact sigOpLoop_eq _ _ _ _

/-! ## The redeem script -/

def pushedBytes : Option Instruction → Bytes
  | some (.pushBytes bytes) => bytes
  | _ => []

theorem getOp_data {pc pc' : Script} {opcode : UInt8} {data : Bytes}
    (h : Core.getOp pc = some (opcode, data, pc')) :
    pushedBytes (some (Core.instruction opcode data)) = data := by
  cases pc with
  | nil => cases h
  | cons op pc =>
    simp only [Core.getOp] at h
    split at h
    next hpush =>
      rcases Option.bind_eq_some_iff.mp h with ⟨⟨size, rest⟩, -, h⟩
      dsimp only at h
      split at h
      · cases h
      · cases h
        rw [Core.instruction, if_pos hpush]
        rfl
    next hpush =>
      cases h
      rw [Core.instruction, if_neg hpush]
      rfl

theorem pushLoop_eq {fuel : Nat} {pc : Script} {data last : Bytes}
    (h : Core.pushLoop fuel pc data = some last) :
    ((Core.instructionLoop fuel pc).getLast?.map pushedBytes).getD data = last := by
  induction fuel generalizing pc data with
  | zero => exact Option.some.inj h
  | succ fuel ih =>
    unfold Core.pushLoop at h
    unfold Core.instructionLoop
    by_cases hnil : pc = []
    · rw [if_pos hnil] at h ⊢
      exact Option.some.inj h
    rw [if_neg hnil] at h ⊢
    cases hop : Core.getOp pc with
    | none =>
      rw [hop] at h
      cases h
    | some r =>
      rcases r with ⟨opcode, data', pc'⟩
      rw [hop] at h
      dsimp only at h ⊢
      split at h
      · cases h
      have hlast := ih h
      rw [List.getLast?_cons]
      cases hrest : (Core.instructionLoop fuel pc').getLast? with
      | none =>
        rw [hrest] at hlast
        exact (getOp_data hop).trans hlast
      | some i =>
        rw [hrest] at hlast
        exact hlast

/-- The redeem script is what Core's loop pushes last; where there is none, nothing is counted either
way. -/
theorem pushedRedeemScript_eq (h : B.FollowsGrammar) (scriptSig : Script) :
    (pushedRedeemScript B scriptSig).getD [] = (Core.lastPushed scriptSig).getD [] := by
  unfold pushedRedeemScript
  rw [h.isPushOnly, Core.isPushOnly]
  cases hlast : Core.lastPushed scriptSig with
  | none => rfl
  | some last =>
    have hpushed := pushLoop_eq hlast
    have hmap : (Core.instructionLoop scriptSig.length scriptSig).getLast? =
        (B.instructions scriptSig).getLast?.map Except.toOption := by
      rw [← List.getLast?_map, h.instructions]
      rfl
    rw [hmap] at hpushed
    rw [if_pos (by rfl)]
    cases hinstr : (B.instructions scriptSig).getLast? with
    | none =>
      rw [hinstr] at hpushed
      exact hpushed
    | some i =>
      rw [hinstr] at hpushed
      cases i with
      | error e => exact hpushed
      | ok i =>
        cases i with
        | pushBytes bytes => exact hpushed
        | op opcode => exact hpushed

/-! ## Witness programs -/

theorem uint8_eq_iff (a : UInt8) (n : Nat) (h : n < 256) : a = UInt8.ofNat n ↔ a.toNat = n := by
  rw [← UInt8.toNat_inj, UInt8.toNat_ofNat', Nat.mod_eq_of_lt h]

theorem isWitnessProgram_cons (version size : UInt8) (program : Bytes) :
    Core.isWitnessProgram (version :: size :: program) =
      if Script.isWitnessProgram (version :: size :: program) then
        some (if version = 0 then 0 else version.toNat - 0x50, program)
      else none := by
  have hversion : version = 0 ↔ version.toNat = 0 := uint8_eq_iff version 0 (by decide)
  have h51 : (0x51 : UInt8).toNat = 0x51 := rfl
  have h60 : (0x60 : UInt8).toNat = 0x60 := rfl
  simp only [Core.isWitnessProgram]
  generalize (if version = 0 then 0 else version.toNat - 0x50) = v
  simp only [Script.isWitnessProgram, Bool.and_eq_true, Bool.or_eq_true, decide_eq_true_eq,
    UInt8.le_iff_toNat_le, UInt8.lt_iff_toNat_lt, ne_eq, hversion, h51, h60]
  split
  · rw [if_neg (by omega)]
  split
  · rw [if_neg (by omega)]
  split
  · rw [if_pos (by omega)]
  · rw [if_neg (by omega)]

theorem isWitnessProgram_isSome (script : Script) :
    (Core.isWitnessProgram script).isSome = Script.isWitnessProgram script := by
  match script with
  | [] => rfl
  | [_] => rfl
  | version :: size :: program =>
    rw [isWitnessProgram_cons]
    split
    next h => rw [h, Option.isSome_some]
    next h => rw [Bool.eq_false_iff.mpr h, Option.isSome_none]

theorem versionZero_iff {script : Script} {n : Nat} (hmin : 2 ≤ n) (hmax : n ≤ 40) :
    (script.length = n + 2 ∧ script.take 2 = [0, UInt8.ofNat n]) ↔
      ∃ program, Core.isWitnessProgram script = some (0, program) ∧ program.length = n := by
  have hbyte : ∀ size : UInt8, size = UInt8.ofNat n ↔ size.toNat = n :=
    fun size => uint8_eq_iff size n (by omega)
  match script with
  | [] => simp [Core.isWitnessProgram]
  | [_] => simp [Core.isWitnessProgram]
  | version :: size :: program =>
    have hversion : version = 0 ↔ version.toNat = 0 := uint8_eq_iff version 0 (by decide)
    have h51 : (0x51 : UInt8).toNat = 0x51 := rfl
    have h60 : (0x60 : UInt8).toNat = 0x60 := rfl
    rw [isWitnessProgram_cons]
    constructor
    · rintro ⟨hlen, htake⟩
      cases htake
      have hprogram : program.length = n := Nat.succ.inj (Nat.succ.inj hlen)
      have hsize : (UInt8.ofNat n).toNat = n := (hbyte _).mp rfl
      refine ⟨program, ?_, hprogram⟩
      refine if_pos ?_
      simp only [Script.isWitnessProgram, Bool.and_eq_true, Bool.or_eq_true, decide_eq_true_eq,
        hsize, hprogram]
      exact ⟨⟨⟨.inl trivial, hmin⟩, hmax⟩, trivial⟩
    · rintro ⟨program', hsome, hlen⟩
      split at hsome
      next hprogram =>
        rcases Prod.mk.inj (Option.some.inj hsome) with ⟨hzero, rfl⟩
        simp only [Script.isWitnessProgram, Bool.and_eq_true, Bool.or_eq_true,
          decide_eq_true_eq, UInt8.le_iff_toNat_le, hversion, h51, h60] at hprogram
        -- the versions from 1 on are at least `OP_1`
        have hv : version.toNat = 0 := by
          simp only [hversion] at hzero
          split at hzero
          · assumption
          · omega
        have hsize : size = UInt8.ofNat n := (hbyte size).mpr (hprogram.2 ▸ hlen)
        rw [hversion.mpr hv, hsize]
        exact ⟨congrArg (· + 2) hlen, rfl⟩
      next => cases hsome

theorem isP2wpkh_iff (script : Script) : Script.isP2wpkh script = true ↔
    ∃ program, Core.isWitnessProgram script = some (0, program) ∧ program.length = 20 := by
  rw [← versionZero_iff (by decide) (by decide), Script.isP2wpkh, Bool.and_eq_true,
    decide_eq_true_eq, decide_eq_true_eq]
  rfl

theorem isP2wsh_iff (script : Script) : Script.isP2wsh script = true ↔
    ∃ program, Core.isWitnessProgram script = some (0, program) ∧ program.length = 32 := by
  rw [← versionZero_iff (by decide) (by decide), Script.isP2wsh, Bool.and_eq_true,
    decide_eq_true_eq, decide_eq_true_eq]
  rfl

/-- What Core counts for a script that may be a witness program. -/
def programSigOps (script : Script) (witness : Witness) : Nat :=
  match Core.isWitnessProgram script with
  | some (version, program) => Core.witnessSigOps version program witness
  | none => 0

theorem programSigOps_eq (h : B.FollowsGrammar) (script : Script) (witness : Witness) :
    (if Script.isP2wpkh script then 1
      else if Script.isP2wsh script then
        match witness.getLast? with
        | some script => countSigopsAccurate B script
        | none => 0
      else 0) = programSigOps script witness := by
  unfold programSigOps
  by_cases hkey : Script.isP2wpkh script
  · rcases (isP2wpkh_iff script).mp hkey with ⟨program, hprogram, hlen⟩
    rw [if_pos hkey, hprogram]
    simp [Core.witnessSigOps, hlen]
  rw [if_neg hkey]
  by_cases hscript : Script.isP2wsh script
  · rcases (isP2wsh_iff script).mp hscript with ⟨program, hprogram, hlen⟩
    rw [if_pos hscript, hprogram]
    simp [Core.witnessSigOps, hlen, countSigopsAccurate_eq h]
  rw [if_neg hscript]
  -- a program of another version or size counts nothing
  cases hprogram : Core.isWitnessProgram script with
  | none => rfl
  | some p =>
    rcases p with ⟨version, program⟩
    dsimp only [Core.witnessSigOps]
    by_cases hzero : version = 0
    · subst hzero
      rw [if_pos rfl, if_neg fun hlen => hkey ((isP2wpkh_iff script).mpr ⟨program, hprogram, hlen⟩),
        if_neg fun hlen => hscript ((isP2wsh_iff script).mpr ⟨program, hprogram, hlen⟩)]
    · rw [if_neg hzero]

theorem witnessSigopCost_eq (h : B.FollowsGrammar) (input : TxIn) (prevout : Script) :
    witnessSigopCost B input prevout =
      Core.countWitnessSigOps input.scriptSig prevout input.witness := by
  have hempty : programSigOps [] input.witness = 0 := rfl
  unfold witnessSigopCost witnessProgram Core.countWitnessSigOps
  rw [← isWitnessProgram_isSome]
  cases hprogram : Core.isWitnessProgram prevout with
  | some p =>
    rw [Option.isSome_some, if_pos rfl]
    dsimp only
    refine (programSigOps_eq h prevout input.witness).trans ?_
    rw [programSigOps, hprogram]
  | none =>
    rw [Option.isSome_none, if_neg Bool.false_ne_true]
    dsimp only
    by_cases hp2sh : Script.isP2sh prevout
    · rw [if_pos hp2sh]
      have hcore : (if Script.isP2sh prevout ∧ Core.isPushOnly input.scriptSig then
          programSigOps ((Core.lastPushed input.scriptSig).getD []) input.witness else 0) =
            programSigOps ((pushedRedeemScript B input.scriptSig).getD []) input.witness := by
        rw [pushedRedeemScript_eq h]
        by_cases hpush : Core.isPushOnly input.scriptSig
        · rw [if_pos ⟨hp2sh, hpush⟩]
        · rw [if_neg fun hboth => hpush hboth.2]
          unfold Core.isPushOnly at hpush
          rw [Option.not_isSome_iff_eq_none.mp hpush]
          exact hempty.symm
      refine Eq.trans ?_ hcore.symm
      cases pushedRedeemScript B input.scriptSig with
      | none => exact hempty.symm
      | some program => exact programSigOps_eq h program input.witness
    · rw [if_neg hp2sh, if_neg fun hboth => hp2sh hboth.1]

theorem p2shSigopCost_eq (h : B.FollowsGrammar) (input : TxIn) (prevout : Script) :
    p2shSigopCost B input prevout =
      saturatingMul (if Script.isP2sh prevout then Core.p2shSigOps input.scriptSig else 0)
        WITNESS_SCALE_FACTOR := by
  have hempty : Core.getSigOpCount true [] = 0 := rfl
  unfold p2shSigopCost
  by_cases hp2sh : Script.isP2sh prevout
  · rw [if_pos hp2sh, if_pos hp2sh]
    have hcore : Core.p2shSigOps input.scriptSig =
        Core.getSigOpCount true ((pushedRedeemScript B input.scriptSig).getD []) := by
      rw [pushedRedeemScript_eq h, Core.p2shSigOps]
      cases Core.lastPushed input.scriptSig with
      | none => exact hempty.symm
      | some subscript => rfl
    rw [hcore]
    cases pushedRedeemScript B input.scriptSig with
    | none => rfl
    | some redeem =>
      dsimp only
      rw [countSigopsAccurate_eq h]
      rfl
  · rw [if_neg hp2sh, if_neg hp2sh]
    rfl

/-! ## Whole transactions -/

def inputSigOps (utxos : UtxoMap) (flags : Nat) (input : TxIn) : Nat :=
  let prevout := Core.coinScript utxos input.previousOutput
  (if flags &&& VERIFY_P2SH ≠ 0 then
    (if Script.isP2sh prevout then Core.p2shSigOps input.scriptSig else 0) * WITNESS_SCALE_FACTOR
    else 0) +
  if flags &&& VERIFY_WITNESS ≠ 0 then
    Core.countWitnessSigOps input.scriptSig prevout input.witness
  else 0

theorem inputSigopCost_eq (h : B.FollowsGrammar) (utxos : UtxoMap) (flags cost : Nat)
    (input : TxIn) :
    inputSigopCost B utxos flags (min cost (2 ^ 64 - 1)) input =
      min (cost + inputSigOps utxos flags input) (2 ^ 64 - 1) := by
  unfold inputSigopCost inputSigOps Core.coinScript
  cases utxos.lookup input.previousOutput with
  | none =>
    -- the script of a coin that is not there has no signature operations
    have hwitness : Core.countWitnessSigOps input.scriptSig [] input.witness = 0 := rfl
    have hp2sh : Script.isP2sh [] = false := rfl
    simp [hwitness, hp2sh]
  | some utxo =>
    simp only [witnessSigopCost_eq h, p2shSigopCost_eq h, Option.map_some, Option.getD_some,
      saturatingAdd, saturatingMul]
    split
    all_goals split
    all_goals omega

theorem foldl_inputSigopCost (h : B.FollowsGrammar) (utxos : UtxoMap) (flags : Nat)
    (inputs : List TxIn) (cost : Nat) :
    inputs.foldl (inputSigopCost B utxos flags) (min cost (2 ^ 64 - 1)) =
      min (cost + (inputs.map (inputSigOps utxos flags)).sum) (2 ^ 64 - 1) := by
  induction inputs generalizing cost with
  | nil => rfl
  | cons input inputs ih =>
    rw [List.foldl_cons, inputSigopCost_eq h, ih, List.map_cons, List.sum_cons, Nat.add_assoc]

theorem getTransactionSigOpCost_eq {tx : Transaction} (hcoinbase : tx.isCoinbase = false)
    (utxos : UtxoMap) (flags : Nat) :
    Core.getTransactionSigOpCost tx utxos flags =
      Core.getLegacySigOpCount tx * WITNESS_SCALE_FACTOR +
        (tx.input.map (inputSigOps utxos flags)).sum := by
  have hsum : (tx.input.map (inputSigOps utxos flags)).sum =
      (if flags &&& VERIFY_P2SH ≠ 0 then
        Core.getP2SHSigOpCount tx utxos * WITNESS_SCALE_FACTOR else 0) +
      (tx.input.map fun input => if flags &&& VERIFY_WITNESS ≠ 0 then
        Core.countWitnessSigOps input.scriptSig (Core.coinScript utxos input.previousOutput)
          input.witness else 0).sum := by
    unfold inputSigOps Core.getP2SHSigOpCount
    rw [List.sum_map_add]
    congr 1
    split
    · rw [← List.sum_map_mul_right]
    · exact List.sum_eq_zero (by simp)
  simp only [Core.getTransactionSigOpCost, hcoinbase, Bool.false_eq_true, if_false, hsum,
    Nat.add_assoc]

theorem inputSigOps_of_flags {flags : Nat} (h : flags &&& (VERIFY_P2SH ||| VERIFY_WITNESS) = 0)
    (utxos : UtxoMap) (input : TxIn) : inputSigOps utxos flags input = 0 := by
  rw [Nat.and_or_distrib_left, Nat.or_eq_zero_iff] at h
  simp [inputSigOps, h.1, h.2]

/-- The cost of a transaction is Core's, up to the largest `usize`. -/
theorem sigopCost_eq_core (h : B.FollowsGrammar) (tx : Transaction) (utxos : UtxoMap)
    (flags : Nat) :
    sigopCost B tx utxos flags = min (Core.getTransactionSigOpCost tx utxos flags) (2 ^ 64 - 1) ∧
      (Core.getTransactionSigOpCost tx utxos flags < 2 ^ 64 →
        sigopCost B tx utxos flags = Core.getTransactionSigOpCost tx utxos flags) := by
  have hcost : sigopCost B tx utxos flags =
      min (Core.getTransactionSigOpCost tx utxos flags) (2 ^ 64 - 1) := by
    unfold sigopCost
    rw [h.legacy, saturatingMul]
    by_cases hcoinbase : tx.isCoinbase = true
    · simp [Core.getTransactionSigOpCost, hcoinbase]
    rw [getTransactionSigOpCost_eq (Bool.eq_false_iff.mpr hcoinbase)]
    by_cases hflags : flags &&& (VERIFY_P2SH ||| VERIFY_WITNESS) = 0
    · have hzero : (tx.input.map (inputSigOps utxos flags)).sum = 0 := by
        refine List.sum_eq_zero fun n hn => ?_
        rcases List.mem_map.mp hn with ⟨input, -, rfl⟩
        exact inputSigOps_of_flags hflags utxos input
      rw [if_pos (.inr hflags), hzero, Nat.add_zero]
    · rw [if_neg fun hor => hor.elim hcoinbase hflags]
      exact foldl_inputSigopCost h utxos flags tx.input _
  refine ⟨hcost, fun hlt => ?_⟩
  rw [hcost]
  exact Nat.min_eq_left (Nat.le_pred_of_lt hlt)

namespace Sample

def grammar : Bitcoin :=
  { Bitcoin.sample with
    instructions := fun script => (Core.instructions script).map fun i =>
      i.elim (.error "unexpected end of script") .ok
    isPushOnly := Core.isPushOnly
    totalSigopCost := fun tx => saturatingMul (Core.getLegacySigOpCount tx) WITNESS_SCALE_FACTOR }

theorem grammar_follows : grammar.FollowsGrammar := by
  refine ⟨fun script => ?_, fun _ => rfl, fun _ => rfl⟩
  refine (List.map_map).trans (List.map_id'' ?_ _)
  intro i
  cases i with
  | none => rfl
  | some i => rfl

def multisig : Script := [0x52, 0xae]

def p2sh : Script := [0xa9, 0x14] ++ List.replicate 20 0 ++ [0x87]

def p2wsh : Script := [0x00, 0x20] ++ List.replicate 32 0

/-- Spends a P2SH output with `OP_PUSHDATA1` and a P2WSH output. -/
def mixedSpend : Transaction where
  version := 2
  lockTime := .blocks 0
  input := [⟨⟨1, 0⟩, [0x4c, 2] ++ multisig, 0, []⟩, ⟨⟨1, 1⟩, [], 0, [multisig]⟩]
  output := [⟨Amount.ZERO, [0xac]⟩]

def coins : UtxoMap :=
  (Finmap.insert ⟨1, 0⟩ ⟨⟨Amount.ZERO, p2sh⟩, false, 0, 0⟩ ∅).insert ⟨1, 1⟩
    ⟨⟨Amount.ZERO, p2wsh⟩, false, 0, 0⟩

end Sample

open Sample in
/-- One legacy operation, two in the redeem script and two in the witness script. -/
theorem sigopCost_eq_core_spend :
    sigopCost grammar mixedSpend coins (VERIFY_P2SH ||| VERIFY_WITNESS) = 4 + 4 * 2 + 2 := by
  have hcore : Core.getTransactionSigOpCost mixedSpend coins (VERIFY_P2SH ||| VERIFY_WITNESS) =
      14 := by
    decide +kernel
  have heq := (sigopCost_eq_core grammar_follows mixedSpend coins
    (VERIFY_P2SH ||| VERIFY_WITNESS)).2 (by rw [hcore]; decide)
  rw [heq, hcore]

end Consensus
end Floresta
