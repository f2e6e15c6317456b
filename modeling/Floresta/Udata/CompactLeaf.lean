import Floresta.Udata.Proof

/-!
# CompactLeaf — compact leaves against the leaves they stand for

A peer describes a spent output by its header code, its amount and the kind of its scriptPubKey.
`processProof` rebuilds the committed leaf from that and from the spending input.  It does so for
every spend except those of P2PKH and P2SH outputs whose scriptSig does not end in a data push:
there the rebuilding looks at the last instruction only and gives up, although the hashed data was
pushed before it.
-/

namespace Floresta.Udata

open Fallible

variable {counts : HashMap Txid Nat} {tx : Transaction} {input : TxIn}

/-! ## Created outputs -/

/-- An output that a block added to the accumulator, at a height that a header code can hold. -/
structure CreatedOutput (B : Bitcoin) where
  block : Block
  blockHash : BlockHash
  height : Nat
  tx : Transaction
  vout : Nat
  txout : TxOut
  mem : tx ∈ block.txdata
  output : tx.output[vout]? = some txout
  spendable : Consensus.isUnspendable txout.scriptPubkey = false
  unspent : (⟨B.computeTxid tx, UInt32.ofNat vout⟩ : OutPoint) ∉ getInputOutpoints block.txdata
  height_pos : 1 ≤ height
  height_lt : height < 2 ^ 31

namespace CreatedOutput

variable {B : Bitcoin} (c : CreatedOutput B)

def outpoint : OutPoint := ⟨B.computeTxid c.tx, UInt32.ofNat c.vout⟩

/-- The hash `getBlockAdds` puts into the accumulator for the output. -/
def leafHash : Hash256 :=
  getLeafHashes B (B.computeTxid c.tx) c.tx.isCoinbase (UInt32.ofNat c.vout) c.txout c.height
    c.blockHash

/-- What a peer sends for the output. -/
def compact : CompactLeafData :=
  ⟨headerCode c.height c.tx.isCoinbase, UInt64.ofNat c.txout.value.sat,
    getScriptType c.txout.scriptPubkey⟩

/-- What validation should learn about the output, up to the time it is not asked for. -/
def utxoData (creationTime : Nat) : UtxoData :=
  ⟨c.txout, c.tx.isCoinbase, c.height, creationTime⟩

theorem leafHash_mem_adds : NodeHash.some c.leafHash ∈ getBlockAdds B c.block c.height c.blockHash := by
  have hidx : (c.txout, c.vout) ∈ c.tx.output.zipIdx :=
    List.mem_zipIdx_iff_getElem?.mpr c.output
  refine List.mem_flatMap.mpr ⟨c.tx, c.mem, List.mem_filterMap.mpr ⟨_, hidx, ?_⟩⟩
  have hspent := c.unspent
  simp [c.spendable, hspent, leafHash]

theorem compact_headerCode : c.compact.headerCode = headerCode c.height c.tx.isCoinbase := rfl

theorem compact_height : (c.compact.headerCode >>> 1).toNat = c.height := by
  have hcode := headerCode_toNat c.height_lt c.tx.isCoinbase
  rw [compact_headerCode, height_eq, hcode]
  cases c.tx.isCoinbase <;> simp
  omega

theorem compact_flag : (c.compact.headerCode &&& 1 != 0) = c.tx.isCoinbase := by
  have hcode := headerCode_toNat c.height_lt c.tx.isCoinbase
  rw [compact_headerCode, flag_eq, hcode]
  cases c.tx.isCoinbase <;> simp

theorem compact_amount : Amount.fromSat c.compact.amount.toNat = c.txout.value := by
  have hlt := c.txout.value.lt
  apply Amount.ext
  simp only [compact, Amount.fromSat, UInt64.toNat_ofNat']
  omega

end CreatedOutput

/-! ## Satisfied scripts -/

variable (B : Bitcoin)

/-- The data of the last push of a script, whatever instructions follow it. -/
def lastPushed (script : Script) : Option Bytes :=
  (B.instructions script).reverse.findSome? fun
    | .ok (.pushBytes b) => some b
    | _ => none

/-- What an input that satisfies `spk` reveals: the preimage of the hash in a standard script is
the last push of the scriptSig, or the last witness element. -/
structure Reveals (spk : Script) (input : TxIn) : Prop where
  p2pkh : Script.isP2pkh spk = true →
    ∃ b, lastPushed B input.scriptSig = some b ∧ newP2pkh (B.hash160 b) = spk
  p2sh : Script.isP2sh spk = true →
    ∃ b, lastPushed B input.scriptSig = some b ∧ newP2sh (B.hash160 b) = spk
  p2wpkh : Script.isP2wpkh spk = true →
    ∃ w, input.witness.getLast? = some w ∧ newP2wpkh (B.hash160 w) = spk
  p2wsh : Script.isP2wsh spk = true →
    ∃ w, input.witness.getLast? = some w ∧ newP2wsh (B.sha256 w) = spk

/-- For an output whose script is rebuilt from the scriptSig, the scriptSig ends in a data push. -/
def EndsInPush (spk : Script) (input : TxIn) : Prop :=
  Script.isP2pkh spk = true ∨ Script.isP2sh spk = true →
    ∃ b, (B.instructions input.scriptSig).getLast? = some (.ok (.pushBytes b))

theorem lastPushed_of_getLast {script : Script} {b : Bytes}
    (h : (B.instructions script).getLast? = some (.ok (.pushBytes b))) :
    lastPushed B script = some b := by
  have hhead : (B.instructions script).reverse.head? = some (.ok (.pushBytes b)) := by
    simpa using h
  cases hrev : (B.instructions script).reverse with
  | nil => simp [hrev] at hhead
  | cons i rest =>
    have hi : i = .ok (.pushBytes b) := by simpa [hrev] using hhead
    simp [lastPushed, hrev, hi]

theorem lastPush_ok_iff {b : Bytes} :
    lastPush B input = .ok b ↔
      (B.instructions input.scriptSig).getLast? = some (.ok (.pushBytes b)) := by
  unfold lastPush
  split <;> simp_all

/-! ## Rebuilding one leaf -/

variable {B}

theorem reconstruct_compact (c : CreatedOutput B)
    (hreveals : Reveals B c.txout.scriptPubkey input)
    (hpush : EndsInPush B c.txout.scriptPubkey input) :
    reconstructScriptPubkey B c.compact input = .ok c.txout.scriptPubkey := by
  unfold reconstructScriptPubkey CreatedOutput.compact getScriptType
  by_cases h1 : Script.isP2pkh c.txout.scriptPubkey = true
  · rcases hpush (.inl h1) with ⟨b, hb⟩
    rcases hreveals.p2pkh h1 with ⟨b', hb', hspk⟩
    have hbb : b = b' := Option.some.inj ((lastPushed_of_getLast B hb).symm.trans hb')
    have hlast := (lastPush_ok_iff B).mpr hb
    simp [h1, getPkHash, hlast, hbb, hspk]
  · by_cases h2 : Script.isP2sh c.txout.scriptPubkey = true
    · rcases hpush (.inr h2) with ⟨b, hb⟩
      rcases hreveals.p2sh h2 with ⟨b', hb', hspk⟩
      have hbb : b = b' := Option.some.inj ((lastPushed_of_getLast B hb).symm.trans hb')
      have hlast := (lastPush_ok_iff B).mpr hb
      simp [h1, h2, getScriptHash, hlast, hbb, hspk]
    · by_cases h3 : Script.isP2wpkh c.txout.scriptPubkey = true
      · rcases hreveals.p2wpkh h3 with ⟨w, hw, hspk⟩
        simp [h1, h2, h3, getWitnessPkHash, lastWitness, hw, hspk]
      · by_cases h4 : Script.isP2wsh c.txout.scriptPubkey = true
        · rcases hreveals.p2wsh h4 with ⟨w, hw, hspk⟩
          simp [h1, h2, h3, h4, getWitnessScriptHash, lastWitness, hw, hspk]
        · simp [h1, h2, h3, h4]

theorem reconstruct_compact_error (c : CreatedOutput B)
    (hpush : ¬ EndsInPush B c.txout.scriptPubkey input) :
    ∃ e, reconstructScriptPubkey B c.compact input = .error e := by
  have hkind : Script.isP2pkh c.txout.scriptPubkey = true ∨
      Script.isP2sh c.txout.scriptPubkey = true := by
    by_contra h
    exact hpush fun hlegacy => absurd hlegacy h
  have hlast : ∀ b, lastPush B input ≠ .ok b := by
    intro b hb
    exact hpush fun _ => ⟨b, (lastPush_ok_iff B).mp hb⟩
  cases hpushed : lastPush B input with
  | ok b => exact absurd hpushed (hlast b)
  | error e =>
    refine ⟨e, ?_⟩
    unfold reconstructScriptPubkey CreatedOutput.compact getScriptType
    by_cases h1 : Script.isP2pkh c.txout.scriptPubkey = true
    · simp [h1, getPkHash, hpushed]
    · have h2 : Script.isP2sh c.txout.scriptPubkey = true := hkind.resolve_left h1
      simp [h1, h2, getScriptHash, hpushed]

section Loop

variable {ε : Type} {fromLeaf : UtreexoLeafError → ε}
variable {getBlockHash : Nat → Except ε BlockHash} {getMtp : Nat → Except ε Nat}

/-- The chain knows the block of the output, and the median time before it. -/
structure KnownTo (getBlockHash : Nat → Except ε BlockHash) (getMtp : Nat → Except ε Nat)
    (c : CreatedOutput B) : Prop where
  blockHash : getBlockHash c.height = .ok c.blockHash
  mtp : ∃ t, getMtp (c.height - 1) = .ok t

theorem processLeaf_compact (c : CreatedOutput B) {txid : Txid}
    {vin : Nat} (hin : input.previousOutput = c.outpoint) (hknown : KnownTo getBlockHash getMtp c)
    (hreveals : Reveals B c.txout.scriptPubkey input)
    (hpush : EndsInPush B c.txout.scriptPubkey input) :
    ∃ t, processLeaf B fromLeaf getBlockHash getMtp tx txid input vin c.compact =
      .ok (c.leafHash, input.previousOutput, c.utxoData t) := by
  have hheight := c.compact_height
  have hflag := c.compact_flag
  have hspk := reconstruct_compact c hreveals hpush
  have hgenesis : c.height ≠ GENESIS_HEIGHT := Nat.one_le_iff_ne_zero.mp c.height_pos
  have hdata : reconstructLeafData B c.compact input c.blockHash =
      .ok ⟨c.blockHash, c.outpoint, headerCode c.height c.tx.isCoinbase, c.txout⟩ := by
    simp only [reconstructLeafData, hspk, c.compact_amount, c.compact_headerCode, hin]
    rfl
  have htime : ∃ t, (if tx.isBip68Enabled && B.isTimeLocked input.sequence then
      getMtp (c.height - 1) else .ok 0) = .ok t := by
    rcases hknown.mtp with ⟨t, ht⟩
    by_cases h : (tx.isBip68Enabled && B.isTimeLocked input.sequence) = true
    · exact ⟨t, by simp [h, ht]⟩
    · exact ⟨0, by simp [h]⟩
  rcases htime with ⟨t, ht⟩
  refine ⟨t, ?_⟩
  simp only [processLeaf, bind_eq_ok, require_eq_ok, pure_eq_ok]
  refine ⟨(), by rw [hheight]; exact hgenesis, c.blockHash, by rw [hheight, hknown.blockHash],
    ⟨c.blockHash, c.outpoint, headerCode c.height c.tx.isCoinbase, c.txout⟩,
    by rw [hdata]; rfl, t, by rw [hheight]; exact ht, ?_⟩
  rw [hheight, hflag, hin]
  rfl

theorem processLeaf_compact_error (c : CreatedOutput B) {txid : Txid}
    {vin : Nat} (hknown : KnownTo getBlockHash getMtp c)
    (hpush : ¬ EndsInPush B c.txout.scriptPubkey input) :
    ∃ e, processLeaf B fromLeaf getBlockHash getMtp tx txid input vin c.compact = .error e := by
  rcases reconstruct_compact_error c hpush with ⟨kind, hkind⟩
  have hheight := c.compact_height
  have hgenesis : c.height ≠ GENESIS_HEIGHT := Nat.one_le_iff_ne_zero.mp c.height_pos
  have hdata : reconstructLeafData B c.compact input c.blockHash = .error kind := by
    simp [reconstructLeafData, hkind]
  refine ⟨fromLeaf ⟨c.compact, txid, vin, kind⟩, ?_⟩
  simp only [processLeaf, bind_eq_error, require_eq_ok, require_eq_error]
  refine .inr ⟨(), by rw [hheight]; exact hgenesis, .inr ⟨c.blockHash,
    by rw [hheight, hknown.blockHash], .inl ?_⟩⟩
  rw [hdata]
  rfl

/-! ## Rebuilding the leaves of a block -/

/-- The inputs of a list that name no output of the block. -/
def externalInputs (counts : HashMap Txid Nat) (inputs : List TxIn) : List TxIn :=
  inputs.filter fun i => !isSameBlockOutput counts i.previousOutput

variable (origin : OutPoint → CreatedOutput B)

/-- The input spends the output `origin` has for its outpoint, and reveals what that asks for. -/
structure ValidSpend (getBlockHash : Nat → Except ε BlockHash) (getMtp : Nat → Except ε Nat)
    (origin : OutPoint → CreatedOutput B) (input : TxIn) : Prop where
  outpoint : input.previousOutput = (origin input.previousOutput).outpoint
  known : KnownTo getBlockHash getMtp (origin input.previousOutput)
  reveals : Reveals B (origin input.previousOutput).txout.scriptPubkey input

/-- The scriptSig of a legacy spend ends in a push. -/
def PushTail (input : TxIn) : Prop :=
  EndsInPush B (origin input.previousOutput).txout.scriptPubkey input

def Holds (utxos : UtxoMap) (o : OutPoint) : Prop :=
  ∃ t, utxos.lookup o = some ((origin o).utxoData t)

def leafHashes (ext : List TxIn) : List Hash256 :=
  ext.map fun i => (origin i.previousOutput).leafHash

def compactLeaves (ext : List TxIn) : List CompactLeafData :=
  ext.map fun i => (origin i.previousOutput).compact

/-- How a part of the loop that handles the external inputs `ext` can end: with all of them
rebuilt, or with an error because one of them has no push at the end. -/
def Outcome (ext : List TxIn) (more : List CompactLeafData) (del : List Hash256) (utxos : UtxoMap)
    (r : Except ε ProofState) : Prop :=
  ((∀ i ∈ ext, PushTail origin i) ∧
    ∃ utxos', r = .ok ⟨more, del ++ leafHashes origin ext, utxos'⟩ ∧
      (∀ o, Holds origin utxos o → Holds origin utxos' o) ∧
      ∀ i ∈ ext, Holds origin utxos' i.previousOutput) ∨
  ((∃ i ∈ ext, ¬ PushTail origin i) ∧ ∃ e, r = .error e)

variable {origin}

theorem Outcome.bind {ext1 ext2 : List TxIn} {more1 more : List CompactLeafData}
    {del : List Hash256} {utxos : UtxoMap} {r : Except ε ProofState}
    {f : ProofState → Except ε ProofState} (h1 : Outcome origin ext1 more1 del utxos r)
    (h2 : ∀ utxos', Outcome origin ext2 more (del ++ leafHashes origin ext1) utxos'
      (f ⟨more1, del ++ leafHashes origin ext1, utxos'⟩)) :
    Outcome origin (ext1 ++ ext2) more del utxos (r >>= f) := by
  rcases h1 with ⟨hpush1, utxos1, rfl, hkeep1, hheld1⟩ | ⟨⟨i, hi, hbad⟩, e, rfl⟩
  · rcases h2 utxos1 with ⟨hpush2, utxos2, hr, hkeep2, hheld2⟩ | ⟨⟨i, hi, hbad⟩, e, hr⟩
    · refine .inl ⟨?_, utxos2, ?_, ?_, ?_⟩
      · intro i hi
        rcases List.mem_append.mp hi with hi | hi
        · exact hpush1 i hi
        · exact hpush2 i hi
      · change f _ = _
        rw [hr]
        simp [leafHashes]
      · intro o ho
        exact hkeep2 o (hkeep1 o ho)
      · intro i hi
        rcases List.mem_append.mp hi with hi | hi
        · exact hkeep2 _ (hheld1 i hi)
        · exact hheld2 i hi
    · exact .inr ⟨⟨i, List.mem_append_right _ hi, hbad⟩, e, hr⟩
  · exact .inr ⟨⟨i, List.mem_append_left _ hi, hbad⟩, e, rfl⟩

theorem processInput_outcome {i : TxIn} {vin : Nat}
    (hvalid : ∀ j ∈ externalInputs counts [i], ValidSpend getBlockHash getMtp origin j)
    (more : List CompactLeafData) (del : List Hash256) (utxos : UtxoMap) :
    Outcome origin (externalInputs counts [i]) more del utxos
      (processInput B fromLeaf getBlockHash getMtp counts tx
        ⟨compactLeaves origin (externalInputs counts [i]) ++ more, del, utxos⟩ (i, vin)) := by
  by_cases hsame : isSameBlockOutput counts i.previousOutput = true
  · have hext : externalInputs counts [i] = [] := by simp [externalInputs, hsame]
    rw [hext]
    refine .inl ⟨by simp, utxos, ?_, fun o ho => ho, by simp⟩
    simp [processInput, hsame, compactLeaves, leafHashes]
  · have hext : externalInputs counts [i] = [i] := by simp [externalInputs, hsame]
    rw [hext] at hvalid ⊢
    have hspend := hvalid i (by simp)
    by_cases hpush : PushTail origin i
    · have hleaf : ∃ t, processLeaf B fromLeaf getBlockHash getMtp tx (B.computeTxid tx) i vin
          (origin i.previousOutput).compact = .ok ((origin i.previousOutput).leafHash,
            i.previousOutput, (origin i.previousOutput).utxoData t) :=
        processLeaf_compact _ hspend.outpoint hspend.known hspend.reveals hpush
      rcases hleaf with ⟨t, ht⟩
      refine .inl ⟨by simpa using hpush, utxos.insert i.previousOutput
        ((origin i.previousOutput).utxoData t), ?_, ?_, ?_⟩
      · simp [processInput, hsame, compactLeaves, leafHashes, ht]
      · rintro o ⟨t', ht'⟩
        by_cases ho : o = i.previousOutput
        · subst ho
          exact ⟨t, by simp⟩
        · exact ⟨t', by rw [Finmap.lookup_insert_of_ne _ ho]; exact ht'⟩
      · intro j hj
        rw [List.mem_singleton.mp hj]
        exact ⟨t, by simp⟩
    · have hleaf : ∃ e, processLeaf B fromLeaf getBlockHash getMtp tx (B.computeTxid tx) i vin
          (origin i.previousOutput).compact = .error e :=
        processLeaf_compact_error _ hspend.known hpush
      rcases hleaf with ⟨e, he⟩
      refine .inr ⟨⟨i, by simp, hpush⟩, e, ?_⟩
      simp [processInput, hsame, compactLeaves, he]

/-- A loop over parts of the transactions, each of which handles the external inputs it has. -/
theorem Outcome.foldlM {α : Type} {inputs : α → List TxIn} {step : ProofState → α → Except ε ProofState}
    (hstep : ∀ x more del utxos,
      (∀ j ∈ externalInputs counts (inputs x), ValidSpend getBlockHash getMtp origin j) →
      Outcome origin (externalInputs counts (inputs x)) more del utxos
        (step ⟨compactLeaves origin (externalInputs counts (inputs x)) ++ more, del, utxos⟩ x))
    (xs : List α)
    (hvalid : ∀ j ∈ externalInputs counts (xs.flatMap inputs),
      ValidSpend getBlockHash getMtp origin j)
    (more : List CompactLeafData) (del : List Hash256) (utxos : UtxoMap) :
    Outcome origin (externalInputs counts (xs.flatMap inputs)) more del utxos
      (xs.foldlM step
        ⟨compactLeaves origin (externalInputs counts (xs.flatMap inputs)) ++ more, del, utxos⟩) := by
  induction xs generalizing del utxos with
  | nil =>
    refine .inl ⟨by simp [externalInputs], utxos, ?_, fun o ho => ho, by simp [externalInputs]⟩
    simp [externalInputs, compactLeaves, leafHashes]
  | cons x xs ih =>
    rw [List.flatMap_cons, externalInputs, List.filter_append] at hvalid ⊢
    rw [compactLeaves, List.map_append, List.append_assoc, List.foldlM_cons]
    refine Outcome.bind (hstep x _ del utxos fun j hj => hvalid j (List.mem_append_left _ hj)) ?_
    exact fun utxos' => ih (fun j hj => hvalid j (List.mem_append_right _ hj)) _ utxos'

theorem processTxs_outcome (txs : List Transaction)
    (hvalid : ∀ j ∈ externalInputs counts (txs.flatMap Transaction.input),
      ValidSpend getBlockHash getMtp origin j)
    (more : List CompactLeafData) (del : List Hash256) (utxos : UtxoMap) :
    Outcome origin (externalInputs counts (txs.flatMap Transaction.input)) more del utxos
      (txs.foldlM (processTx B fromLeaf getBlockHash getMtp counts)
        ⟨compactLeaves origin (externalInputs counts (txs.flatMap Transaction.input)) ++ more,
          del, utxos⟩) := by
  refine Outcome.foldlM (fun tx more del utxos hvalid => ?_) txs hvalid more del utxos
  have hinputs : tx.input.zipIdx.flatMap (fun p => [p.1]) = tx.input := by
    rw [← List.map_eq_flatMap, List.zipIdx_map_fst]
  rw [← hinputs] at hvalid ⊢
  exact Outcome.foldlM (fun p _ _ _ hvalid => processInput_outcome hvalid _ _ _) _ hvalid more del
    utxos

end Loop

/-! ## The wire -/

/-- Byte strings survive the wire. -/
def BytesRoundTrip (B : Bitcoin) (bytes : Bytes) : Prop :=
  ∀ rest, B.decodeBytes (B.encodeBytes bytes ++ rest) = .ok (bytes, rest)

theorem decodeKind_encodeKind (kind : ScriptPubKeyKind)
    (hbytes : ∀ script, kind = .other script → BytesRoundTrip B script) (rest : Bytes) :
    decodeKind B (encodeKind B kind ++ rest) = .ok (kind, rest) := by
  cases kind with
  | other script =>
    have hscript := hbytes script rfl rest
    simp [encodeKind, decodeKind, hscript]
  | pubKeyHash => rfl
  | witnessV0PubKeyHash => rfl
  | scriptHash => rfl
  | witnessV0ScriptHash => rfl

/-! ## Compact leaves of a block -/

/-- The inputs after the coinbase that name no output of the block. -/
def spendingInputs (B : Bitcoin) (txs : List Transaction) : List TxIn :=
  externalInputs (sameBlockTransactions B txs) ((txs.drop 1).flatMap Transaction.input)

/-- The deletion hashes are those that were added for the spent outputs, and the map carries the
outputs with their value, script, height and coinbase flag. -/
def LeavesReproduced {ε : Type} (fromLeaf : UtreexoLeafError → ε)
    (getBlockHash : Nat → Except ε BlockHash) (getMtp : Nat → Except ε Nat)
    (origin : OutPoint → CreatedOutput B) (txs : List Transaction) : Prop :=
  ∃ utxos, processProof B fromLeaf getBlockHash getMtp
      (compactLeaves origin (spendingInputs B txs)) txs =
      .ok (leafHashes origin (spendingInputs B txs), utxos) ∧
    ∀ i ∈ spendingInputs B txs, Holds origin utxos i.previousOutput ∧
      NodeHash.some (origin i.previousOutput).leafHash ∈
        getBlockAdds B (origin i.previousOutput).block (origin i.previousOutput).height
          (origin i.previousOutput).blockHash

/-- Every script kind is read back as it was written, given that its script is. -/
def KindsRoundTrip (B : Bitcoin) : Prop :=
  ∀ kind rest, (∀ script, kind = .other script → BytesRoundTrip B script) →
    decodeKind B (encodeKind B kind ++ rest) = .ok (kind, rest)

/-- **Compact leaf data reproduces the committed leaf exactly when every legacy scriptSig ends in a
data push.**  Script kinds always survive the wire. -/
theorem leavesReproduced_iff {ε : Type} (fromLeaf : UtreexoLeafError → ε)
    (getBlockHash : Nat → Except ε BlockHash) (getMtp : Nat → Except ε Nat)
    (origin : OutPoint → CreatedOutput B) (txs : List Transaction)
    (hvalid : ∀ i ∈ spendingInputs B txs, ValidSpend getBlockHash getMtp origin i) :
    (LeavesReproduced fromLeaf getBlockHash getMtp origin txs ∧ KindsRoundTrip B) ↔
      ∀ i ∈ spendingInputs B txs, PushTail origin i := by
  have hwire : KindsRoundTrip B := fun kind rest h => decodeKind_encodeKind kind h rest
  have hout : Outcome origin (spendingInputs B txs) [] [] ∅
      ((txs.drop 1).foldlM (processTx B fromLeaf getBlockHash getMtp (sameBlockTransactions B txs))
        ⟨compactLeaves origin (spendingInputs B txs), [], ∅⟩) := by
    simpa [spendingInputs] using processTxs_outcome (txs.drop 1) hvalid [] [] ∅
  rcases hout with ⟨hpush, utxos, hr, -, hheld⟩ | ⟨⟨i, hi, hbad⟩, e, hr⟩
  · constructor
    · intro _
      exact hpush
    · intro _
      refine ⟨⟨utxos, ?_, ?_⟩, hwire⟩
      · simp only [processProof, bind_eq_ok, pure_eq_ok]
        exact ⟨_, hr, rfl⟩
      · intro i hi
        exact ⟨hheld i hi, (origin i.previousOutput).leafHash_mem_adds⟩
  · constructor
    · rintro ⟨⟨utxos, hok, -⟩, -⟩
      simp only [processProof, bind_eq_ok, pure_eq_ok] at hok
      rcases hok with ⟨st, hst, -⟩
      rw [hr] at hst
      cases hst
    · intro hall
      exact absurd (hall i hi) hbad

/-! ### A P2PKH spend with and without a trailing opcode -/

namespace Sample

open Bitcoin

def publicKey : Bytes := [2, 3]

def keyScript : Script := newP2pkh (sample.hash160 publicKey)

def mint : Transaction :=
  ⟨1, .blocks 0, [⟨OutPoint.null, [0, 0], 0xffffffff, []⟩], [⟨Amount.fromSat 50, keyScript⟩]⟩

def mintBlock : Block := ⟨⟨1, 0, 0, 0, 0, 9⟩, [mint]⟩

def created : CreatedOutput sample where
  block := mintBlock
  blockHash := sample.blockHash mintBlock.header
  height := 5
  tx := mint
  vout := 0
  txout := ⟨Amount.fromSat 50, keyScript⟩
  mem := by simp [mintBlock]
  output := rfl
  spendable := by decide +kernel
  unspent := by decide +kernel
  height_pos := by decide
  height_lt := by decide

def knownHashes (height : Nat) : Except BlockchainError BlockHash :=
  if height = 5 then .ok created.blockHash else .error .blockNotPresent

/-- A block whose second transaction spends the output with the given scriptSig. -/
def spendWith (scriptSig : Script) : List Transaction :=
  [{ mint with version := 2 }, ⟨1, .blocks 0, [⟨created.outpoint, scriptSig, 0xffffffff, []⟩], []⟩]

/-- `<signature> <public key>`. -/
def plainSig : Script := [1, 7, 2, 2, 3]

/-- `<signature> <public key> OP_NOP`, which satisfies the script as well. -/
def nopSig : Script := plainSig ++ [0x61]

theorem validSpend {scriptSig : Script}
    (hlast : lastPushed sample scriptSig = some publicKey) :
    ∀ i ∈ spendingInputs sample (spendWith scriptSig),
      ValidSpend knownHashes (fun _ => .ok 0) (fun _ => created) i := by
  intro i hi
  have hmem := (List.mem_filter.mp hi).1
  have heq : i = ⟨created.outpoint, scriptSig, 0xffffffff, []⟩ := by
    simpa [spendWith] using hmem
  subst heq
  refine ⟨rfl, ⟨rfl, 0, rfl⟩, ?_⟩
  refine ⟨fun _ => ⟨publicKey, hlast, rfl⟩, ?_, ?_, ?_⟩
  · intro h
    exact absurd h (by decide +kernel)
  · intro h
    exact absurd h (by decide +kernel)
  · intro h
    exact absurd h (by decide +kernel)

end Sample

open Sample Bitcoin in
theorem leavesReproduced_iff_plain :
    LeavesReproduced BlockchainError.utreexoLeaf knownHashes (fun _ => .ok 0)
      (fun _ => created) (spendWith plainSig) := by
  have hvalid : ∀ i ∈ spendingInputs sample (spendWith plainSig),
      ValidSpend knownHashes (fun _ => .ok 0) (fun _ => created) i :=
    validSpend (by decide +kernel)
  have hlast : (sample.instructions plainSig).getLast? =
      some (.ok (.pushBytes publicKey)) := by
    decide +kernel
  have hpush : ∀ i ∈ spendingInputs sample (spendWith plainSig),
      PushTail (fun _ => created) i := by
    intro i hi
    have hmem := (List.mem_filter.mp hi).1
    have heq : i = ⟨created.outpoint, plainSig, 0xffffffff, []⟩ := by
      simpa [spendWith] using hmem
    rw [heq]
    exact fun _ => ⟨publicKey, hlast⟩
  exact ((leavesReproduced_iff BlockchainError.utreexoLeaf knownHashes (fun _ => .ok 0)
    (fun _ => created) (spendWith plainSig) hvalid).mpr hpush).1

open Sample Bitcoin in
/-- The public key is there, and the proof is refused for the opcode after it. -/
theorem leavesReproduced_fails_on_nop :
    (∀ i ∈ spendingInputs sample (spendWith nopSig),
      ValidSpend knownHashes (fun _ => .ok 0) (fun _ => created) i) ∧
    processProof sample .utreexoLeaf knownHashes (fun _ => .ok 0)
      [created.compact] (spendWith nopSig) =
      .error (BlockchainError.utreexoLeaf ⟨created.compact,
        sample.computeTxid ⟨1, .blocks 0,
          [⟨created.outpoint, nopSig, 0xffffffff, []⟩], []⟩, 0, .notPushBytes⟩) ∧
    ¬ LeavesReproduced BlockchainError.utreexoLeaf knownHashes (fun _ => .ok 0)
      (fun _ => created) (spendWith nopSig) := by
  have hinputs : spendingInputs sample (spendWith nopSig) =
      [⟨created.outpoint, nopSig, 0xffffffff, []⟩] := by
    decide +kernel
  have herr : processProof sample .utreexoLeaf knownHashes (fun _ => .ok 0)
      [created.compact] (spendWith nopSig) =
      .error (BlockchainError.utreexoLeaf ⟨created.compact,
        sample.computeTxid ⟨1, .blocks 0,
          [⟨created.outpoint, nopSig, 0xffffffff, []⟩], []⟩, 0, .notPushBytes⟩) := by
    decide +kernel
  refine ⟨validSpend (by decide +kernel), herr, ?_⟩
  rintro ⟨utxos, hok, -⟩
  rw [hinputs] at hok
  have hleaves : compactLeaves (fun _ => created)
      [⟨created.outpoint, nopSig, 0xffffffff, []⟩] = [created.compact] := by
    simp [compactLeaves]
  rw [hleaves, herr] at hok
  cases hok

end Floresta.Udata
