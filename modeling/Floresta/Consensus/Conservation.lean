import Floresta.Consensus.Transactions
import Floresta.Lib.Ledger

/-!
# Conservation — what an accepted list of transactions did to the coins

The scratch map of `verifyBlockTransactions` follows a run of the abstract ledger: the coinbase
outputs are inserted first, then every transaction spends entries that are present and creates
entries under a txid that the list has not used.  Single spends, the order of creation and the
bound on the created value are read off that run.
-/

namespace Floresta.Consensus

open Fallible Ledger

variable (B : Bitcoin) (K : Kernel) {tx : Transaction} {p : OutPoint × UtxoData}
variable {txid : Txid} {flags height : Nat} {cutoff : LockTimeCutoff} {verifyScript : Bool}

/-! ## The ledger of a block -/

def inputOutpoints (tx : Transaction) : List OutPoint :=
  tx.input.map TxIn.previousOutput

/-- The outpoints named by the inputs of the transactions after the first. -/
def consumedOutpoints (txs : List Transaction) : List OutPoint :=
  (txs.drop 1).flatMap inputOutpoints

def IsOutputOf (txs : List Transaction) (o : OutPoint) : Prop :=
  ∃ t ∈ txs, ∃ v < t.output.length, o = ⟨B.computeTxid t, UInt32.ofNat v⟩

instance (txs : List Transaction) (o : OutPoint) : Decidable (IsOutputOf B txs o) :=
  inferInstanceAs (Decidable
    (∃ t ∈ txs, ∃ v < t.output.length, o = ⟨B.computeTxid t, UInt32.ofNat v⟩))

/-- The outputs of a transaction, as the entries the scratch map gets for them. -/
def outputEntries (txid : Txid) (isCoinbase : Bool) (height : Nat) (cutoff : LockTimeCutoff)
    (outputs : List TxOut) : List (OutPoint × UtxoData) :=
  outputs.zipIdx.map fun p =>
    (⟨txid, UInt32.ofNat p.2⟩, ⟨p.1, isCoinbase, height, cutoff.value⟩)

/-- A transaction after the coinbase, as a transaction of the ledger. -/
def spendTx (height : Nat) (cutoff : LockTimeCutoff) (tx : Transaction) :
    Ledger.Tx OutPoint UtxoData :=
  ⟨inputOutpoints tx, outputEntries (B.computeTxid tx) false height cutoff tx.output⟩

/-- The supplied outputs together with every output of the list. -/
def availableOutputs (height : Nat) (cutoff : LockTimeCutoff) (utxos : UtxoMap)
    (txs : List Transaction) : UtxoMap :=
  txs.zipIdx.foldl (fun utxos p =>
    insertOutputs (B.computeTxid p.1) (p.2 = 0) height cutoff utxos p.1.output) utxos

/-- The value of an outpoint of the map, zero for an outpoint it does not hold. -/
def valueAt (utxos : UtxoMap) (o : OutPoint) : Nat :=
  match utxos.lookup o with
  | some u => u.txout.value.sat
  | none => 0

def outputSum (tx : Transaction) : Nat :=
  (tx.output.map fun o => o.value.sat).sum

theorem insertOutputs_eq (txid : Txid) (isCoinbase : Bool) (height : Nat)
    (cutoff : LockTimeCutoff) (utxos : UtxoMap) (outputs : List TxOut) :
    insertOutputs txid isCoinbase height cutoff utxos outputs =
      insertAll utxos (outputEntries txid isCoinbase height cutoff outputs) := by
  simp [insertOutputs, insertAll, outputEntries, List.foldl_map]

theorem outputEntries_txid {isCoinbase : Bool} {outputs : List TxOut}
    (hp : p ∈ outputEntries txid isCoinbase height cutoff outputs) :
    p.1.txid = txid ∧ p.2.isCoinbase = isCoinbase ∧ p.2.creationHeight = height := by
  rcases List.mem_map.mp hp with ⟨q, -, rfl⟩
  exact ⟨rfl, rfl, rfl⟩

theorem outputEntries_outpoint {isCoinbase : Bool} {outputs : List TxOut}
    (hp : p ∈ outputEntries txid isCoinbase height cutoff outputs) :
    ∃ v < outputs.length, p.1 = ⟨txid, UInt32.ofNat v⟩ := by
  rcases List.mem_map.mp hp with ⟨q, hq, rfl⟩
  exact ⟨q.2, List.snd_lt_of_mem_zipIdx hq, rfl⟩

theorem availableOutputs_cons (height : Nat) (cutoff : LockTimeCutoff) (utxos : UtxoMap)
    (coinbase : Transaction) (rest : List Transaction) :
    availableOutputs B height cutoff utxos (coinbase :: rest) =
      created (insertOutputs (B.computeTxid coinbase) true height cutoff utxos coinbase.output)
        (rest.map (spendTx B height cutoff)) := by
  have key : ∀ (rest : List Transaction) (n : Nat) (utxos : UtxoMap),
      (rest.zipIdx (n + 1)).foldl (fun utxos p =>
        insertOutputs (B.computeTxid p.1) (p.2 = 0) height cutoff utxos p.1.output) utxos =
      created utxos (rest.map (spendTx B height cutoff)) := by
    intro rest
    induction rest with
    | nil => intro n utxos; rfl
    | cons tx rest ih =>
      intro n utxos
      rw [List.zipIdx_cons, List.foldl_cons, ih]
      simp [created, spendTx, insertOutputs_eq]
  simpa [availableOutputs] using key rest 0 _

/-! ## Single transactions -/

theorem totalOutValue_ok {v : Amount} (h : totalOutValue tx = .ok v) :
    v.sat = outputSum tx := by
  refine foldlM_inv (I := fun done s => s.sat = (done.map fun o => o.value.sat).sum)
    tx.output ?_ rfl h
  intro done out rest s s' _ hs hstep
  rw [addOutValue, okOr_eq_ok, Amount.checkedAdd_eq_some] at hstep
  simp [hstep, hs]

theorem checkTransactionContextFree_ok {v : Amount}
    (h : checkTransactionContextFree B tx = .ok v) :
    tx.input ≠ [] ∧ (∀ i ∈ tx.input, i.previousOutput.isNull = false) ∧ v.sat = outputSum tx := by
  simp only [checkTransactionContextFree, bind_eq_ok, require_eq_ok, pure_eq_ok, exists_and_left,
    exists_const] at h
  rcases h with ⟨hne, -, u, hloop, -, w, hw, -, rfl⟩
  refine ⟨hne, ?_, totalOutValue_ok hw⟩
  refine foldlM_inv (I := fun done _ => ∀ i ∈ done, i.previousOutput.isNull = false)
    tx.input ?_ (by simp) hloop
  intro done i rest s s' _ hdone hi
  simp only [checkInputContextFree, bind_eq_ok, require_eq_ok] at hi
  rcases hi with ⟨-, hnull, -⟩
  exact forall_mem_snoc hdone hnull

theorem takeUtxo_ok {input : TxIn} {utxos utxos' : UtxoMap} {u : UtxoData}
    (h : takeUtxo input utxos txid = .ok (u, utxos')) :
    utxos.lookup input.previousOutput = some u ∧ utxos' = utxos.erase input.previousOutput := by
  unfold takeUtxo at h
  cases hlook : utxos.lookup input.previousOutput with
  | none =>
    rw [hlook] at h
    cases h
  | some w =>
    rw [hlook] at h
    cases h
    exact ⟨rfl, rfl⟩

theorem validateScriptSize_ok {script : Script} {u : Unit}
    (h : validateScriptSize script txid = .ok u) : isUnspendable script = false := by
  unfold validateScriptSize at h
  cases hu : isUnspendable script with
  | true =>
    simp only [hu, if_true] at h
    cases h
  | false => rfl

/-- What the input loop checks of a spent entry. -/
structure SpendChecked (height : Nat) (u : UtxoData) : Prop where
  matured : coinbaseMatured u height = true
  spendable : isUnspendable u.txout.scriptPubkey = false

theorem spendInput_ok
    {st st' : SpendState} {input : TxIn} (h : spendInput B tx height cutoff st input = .ok st') :
    ∃ u, st.utxos.lookup input.previousOutput = some u ∧
      st'.utxos = st.utxos.erase input.previousOutput ∧
      SpendChecked height u ∧
      st'.inValue.sat = st.inValue.sat + u.txout.value.sat := by
  simp only [spendInput, bind_eq_ok, require_eq_ok, pure_eq_ok, okOr_eq_ok, Prod.exists,
    exists_and_left, exists_const, Amount.checkedAdd_eq_some] at h
  rcases h with ⟨u, utxos, htake, hmat, -, _, hsize, inValue, hval, rfl⟩
  rcases takeUtxo_ok htake with ⟨hlook, rfl⟩
  exact ⟨u, hlook, rfl, ⟨hmat, validateScriptSize_ok hsize⟩, hval⟩

/-- What the input loop of a transaction has done after the inputs `done`. -/
structure SpendInv (M : UtxoMap) (height : Nat) (done : List TxIn) (st : SpendState)
    (vs : List (OutPoint × UtxoData)) : Prop where
  spends : Spends M (done.map TxIn.previousOutput) vs
  utxos : st.utxos = eraseAll M (done.map TxIn.previousOutput)
  inValue : st.inValue.sat = (vs.map fun p => p.2.txout.value.sat).sum
  checked : ∀ p ∈ vs, SpendChecked height p.2

theorem spendInputs_inv {M : UtxoMap} {st : SpendState}
    (h : tx.input.foldlM (spendInput B tx height cutoff) ⟨M, Amount.ZERO, []⟩ = .ok st) :
    ∃ vs, SpendInv M height tx.input st vs := by
  refine foldlM_inv (I := fun done st => ∃ vs, SpendInv M height done st vs) tx.input ?_ ?_ h
  · rintro done i rest st st' - ⟨vs, hinv⟩ hstep
    rcases spendInput_ok B hstep with ⟨u, hlook, hutxos, hmat, hval⟩
    rw [hinv.utxos, lookup_eraseAll] at hlook
    split at hlook
    · cases hlook
    · rename_i hnew
      refine ⟨vs ++ [(i.previousOutput, u)], ⟨?_, ?_, ?_⟩, ?_, ?_, ?_⟩
      · simp [hinv.spends.keys]
      · rw [List.map_append]
        exact nodup_snoc hinv.spends.nodup hnew
      · exact forall_mem_snoc hinv.spends.lookup hlook
      · rw [hutxos, hinv.utxos, List.map_append, List.map_singleton, eraseAll_concat]
      · simp [hval, hinv.inValue]
      · exact forall_mem_snoc hinv.checked hmat
  · exact ⟨[], ⟨rfl, by simp, by simp⟩, rfl, rfl, by simp⟩

theorem verifyTransaction_ok {M M' : UtxoMap} {inValue outValue : Amount}
    (h : verifyTransaction B K tx M height cutoff verifyScript flags =
      .ok (M', inValue, outValue)) :
    (tx.input ≠ [] ∧ ∀ i ∈ tx.input, i.previousOutput.isNull = false) ∧
      M' = eraseAll M (inputOutpoints tx) ∧ outValue.sat = outputSum tx ∧
      outValue.sat ≤ inValue.sat ∧
      ∃ vs, Spends M (inputOutpoints tx) vs ∧
        inValue.sat = (vs.map fun p => p.2.txout.value.sat).sum ∧
        ∀ p ∈ vs, SpendChecked height p.2 := by
  simp only [verifyTransaction, bind_eq_ok, require_eq_ok, pure_eq_ok, exists_and_left,
    exists_const, Prod.mk.injEq] at h
  rcases h with ⟨v, hfree, st, hloop, -, hle, -, -, rfl, rfl, rfl⟩
  rcases checkTransactionContextFree_ok B hfree with ⟨hne, hnull, hsum⟩
  rcases spendInputs_inv B hloop with ⟨vs, hinv⟩
  exact ⟨⟨hne, hnull⟩, hinv.utxos, hsum, hle, vs, hinv.spends, hinv.inValue, hinv.checked⟩

/-! ## The transaction loop -/

theorem verifyBlockStep_first {st st' : BlockState}
    (h : verifyBlockStep B K height cutoff verifyScript flags st (tx, 0) = .ok st') :
    tx.isCoinbase = true ∧ st'.fee = st.fee ∧
      st'.utxos = insertOutputs (B.computeTxid tx) true height cutoff st.utxos tx.output := by
  simp only [verifyBlockStep, verifyNth, if_true, bind_eq_ok, require_eq_ok, pure_eq_ok,
    Prod.exists, exists_and_left, exists_const, Prod.mk.injEq] at h
  rcases h with ⟨-, -, M', fee, ⟨hcb, -, -, rfl, rfl⟩, rfl⟩
  exact ⟨hcb, rfl, by simp⟩

theorem verifyBlockStep_later {st st' : BlockState} {n : Nat} (hn : n ≠ 0)
    (h : verifyBlockStep B K height cutoff verifyScript flags st (tx, n) = .ok st') :
    ∃ M' inValue outValue,
      verifyTransaction B K tx st.utxos height cutoff verifyScript flags =
        .ok (M', inValue, outValue) ∧
      st'.fee.sat = st.fee.sat + (inValue.sat - outValue.sat) ∧
      st'.utxos = insertOutputs (B.computeTxid tx) false height cutoff M' tx.output := by
  simp only [verifyBlockStep, verifyNth, if_neg hn, bind_eq_ok, require_eq_ok, pure_eq_ok,
    okOr_eq_ok, Prod.exists, exists_and_left, exists_const, Prod.mk.injEq,
    Amount.checkedAdd_eq_some] at h
  rcases h with ⟨-, -, M', fee, ⟨M'', inValue, outValue, htx, fee', hfee, rfl, rfl⟩, rfl⟩
  refine ⟨M'', inValue, outValue, htx, ?_, by simp [hn]⟩
  simpa using hfee

theorem verifyBlockTransactions_ok {utxos : UtxoMap} {txs : List Transaction} {subsidy : Amount}
    (h : verifyBlockTransactions B K height cutoff utxos txs subsidy verifyScript flags = .ok ()) :
    ∃ coinbase rest st0 st, txs = coinbase :: rest ∧ coinbase.isCoinbase = true ∧
      st0.fee = Amount.ZERO ∧
      st0.utxos =
        insertOutputs (B.computeTxid coinbase) true height cutoff utxos coinbase.output ∧
      (rest.zipIdx 1).foldlM (verifyBlockStep B K height cutoff verifyScript flags) st0 = .ok st ∧
      outputSum coinbase ≤ st.fee.sat + subsidy.sat := by
  cases txs with
  | nil => cases h
  | cons coinbase rest =>
    simp only [verifyBlockTransactions, List.zipIdx_cons, List.foldlM_cons, bind_eq_ok,
      require_eq_ok, okOr_eq_ok, Amount.checkedAdd_eq_some] at h
    rcases h with ⟨st, ⟨st0, hfirst, hloop⟩, allowed, hallowed, total, htotal, hle⟩
    rcases verifyBlockStep_first B K hfirst with ⟨hcb, hfee, hutxos⟩
    refine ⟨coinbase, rest, st0, st, rfl, hcb, hfee, hutxos, hloop, ?_⟩
    rw [← totalOutValue_ok htotal, ← hallowed]
    exact hle

theorem inputOutpoints_stripWitness (tx : Transaction) :
    inputOutpoints tx.stripWitness = inputOutpoints tx := by
  simp [inputOutpoints, Transaction.stripWitness, Function.comp_def]

theorem isCoinbase_input (h : tx.isCoinbase = true) :
    inputOutpoints tx = [OutPoint.null] := by
  unfold Transaction.isCoinbase at h
  split at h
  · rename_i i hin
    simpa [inputOutpoints, hin, OutPoint.isNull] using h
  · cases h

/-- What the transaction loop has done after the coinbase and the transactions `done`. -/
structure BlockInv (height : Nat) (cutoff : LockTimeCutoff) (coinbase : Transaction)
    (M : UtxoMap) (done : List Transaction) (st : BlockState)
    (spent : List (OutPoint × UtxoData)) : Prop where
  run : Run M (done.map (spendTx B height cutoff)) spent st.utxos
  txids : ((coinbase :: done).map B.computeTxid).Nodup
  nonNull : ∀ tx ∈ done, tx.input ≠ [] ∧ ∀ i ∈ tx.input, i.previousOutput.isNull = false
  value : st.fee.sat + (done.map outputSum).sum =
    (spent.map fun p => p.2.txout.value.sat).sum
  checked : ∀ p ∈ spent, SpendChecked height p.2

section Loop

variable {height : Nat} {cutoff : LockTimeCutoff} {verifyScript : Bool} {flags : Nat}
variable {coinbase : Transaction} {M : UtxoMap} {txs done : List Transaction}
variable {st : BlockState} {spent : List (OutPoint × UtxoData)}

/-- A transaction that passed its input loop has a txid of its own: an earlier one with the same
txid would have spent the same outputs. -/
theorem BlockInv.txid_fresh (hinv : BlockInv B height cutoff coinbase M done st spent)
    (hcb : coinbase.isCoinbase = true) (hinj : B.TxidInjectiveOn txs)
    (hsub : ∀ t ∈ coinbase :: done, t ∈ txs) (htx : tx ∈ txs)
    (hne : tx.input ≠ []) (hnull : ∀ i ∈ tx.input, i.previousOutput.isNull = false)
    {vs : List (OutPoint × UtxoData)} (hspends : Spends st.utxos (inputOutpoints tx) vs) :
    B.computeTxid tx ∉ (coinbase :: done).map B.computeTxid := by
  intro hmem
  rcases List.mem_map.mp hmem with ⟨t, ht, heq⟩
  have hins : inputOutpoints t = inputOutpoints tx := by
    have hstrip := hinj t (hsub t ht) tx htx heq
    rw [← inputOutpoints_stripWitness t, ← inputOutpoints_stripWitness tx, hstrip]
  rcases List.exists_mem_of_ne_nil _ hne with ⟨i, hi⟩
  have ho : i.previousOutput ∈ inputOutpoints t := hins ▸ List.mem_map_of_mem hi
  rcases List.mem_cons.mp ht with rfl | ht
  · rw [isCoinbase_input hcb, List.mem_singleton] at ho
    have := hnull i hi
    simp [OutPoint.isNull, ho] at this
  · -- `t` has removed this output from the map, and nothing puts it back.
    have hkey : i.previousOutput ∈ spent.map Prod.fst := by
      rw [hinv.run.spent_keys, List.mem_flatMap]
      exact ⟨spendTx B height cutoff t, List.mem_map_of_mem ht, ho⟩
    have hvs : i.previousOutput ∈ vs.map Prod.fst := by
      rw [hspends.keys, ← hins]
      exact ho
    rcases List.mem_map.mp hvs with ⟨p, hp, hpo⟩
    have hlook := hspends.lookup p hp
    rw [hpo, hinv.run.lookup, if_pos hkey] at hlook
    cases hlook

theorem spendTx_fresh
    (hM : ∀ o ∈ M, o.txid = B.computeTxid coinbase ∨ ¬ IsOutputOf B txs o)
    (htx : tx ∈ txs)
    (hnew : B.computeTxid tx ∉ (coinbase :: done).map B.computeTxid) :
    ∀ p ∈ (spendTx B height cutoff tx).outs,
      p.1 ∉ created M (done.map (spendTx B height cutoff)) := by
  intro p hp hmem
  have hpt : p.1.txid = B.computeTxid tx := (outputEntries_txid hp).1
  rcases mem_created.mp hmem with hold | ⟨ltx, hltx, u, hu⟩
  · rcases hM _ hold with heq | hne
    · exact hnew (by simp [← heq, hpt])
    · exact hne ⟨tx, htx, outputEntries_outpoint hp⟩
  · rcases List.mem_map.mp hltx with ⟨t, ht, rfl⟩
    have hut : p.1.txid = B.computeTxid t := (outputEntries_txid hu).1
    exact hnew (List.mem_map.mpr ⟨t, List.mem_cons_of_mem _ ht, hut ▸ hpt⟩)

theorem BlockInv.step (hcb : coinbase.isCoinbase = true) (hinj : B.TxidInjectiveOn txs)
    (hM : ∀ o ∈ M, o.txid = B.computeTxid coinbase ∨ ¬ IsOutputOf B txs o)
    (hsub : ∀ t ∈ coinbase :: done, t ∈ txs) (htx : tx ∈ txs)
    (hinv : BlockInv B height cutoff coinbase M done st spent) {n : Nat} (hn : n ≠ 0)
    {st' : BlockState}
    (h : verifyBlockStep B K height cutoff verifyScript flags st (tx, n) = .ok st') :
    ∃ vs, BlockInv B height cutoff coinbase M (done ++ [tx]) st' (spent ++ vs) := by
  rcases verifyBlockStep_later B K hn h with ⟨M', inValue, outValue, hverify, hfee, hutxos⟩
  rcases verifyTransaction_ok B K hverify with
    ⟨⟨hne, hnull⟩, rfl, hout, hle, vs, hspends, hin, hmat⟩
  have hnew := hinv.txid_fresh B hcb hinj hsub htx hne hnull hspends
  refine ⟨vs, ?_, ?_, ?_, ?_, ?_⟩
  · rw [hutxos, insertOutputs_eq, List.map_append, List.map_singleton]
    exact Run.snoc (spendTx B height cutoff tx) vs hinv.run hspends
      (spendTx_fresh B hM htx hnew)
  · rw [← List.cons_append, List.map_append, List.map_singleton]
    exact nodup_snoc hinv.txids hnew
  · exact forall_mem_snoc hinv.nonNull ⟨hne, hnull⟩
  · have hval := hinv.value
    simp only [List.map_append, List.map_singleton, List.sum_append, List.sum_singleton]
    omega
  · intro p hp
    rcases List.mem_append.mp hp with hp | hp
    · exact hinv.checked p hp
    · exact hmat p hp

theorem blockInv_of_loop {rest : List Transaction} {st0 : BlockState}
    (hcb : coinbase.isCoinbase = true) (hinj : B.TxidInjectiveOn (coinbase :: rest))
    (hM : ∀ o ∈ st0.utxos, o.txid = B.computeTxid coinbase ∨
      ¬ IsOutputOf B (coinbase :: rest) o)
    (hfee : st0.fee = Amount.ZERO)
    (h : (rest.zipIdx 1).foldlM (verifyBlockStep B K height cutoff verifyScript flags) st0 =
      .ok st) :
    ∃ spent, BlockInv B height cutoff coinbase st0.utxos rest st spent := by
  refine foldlM_zipIdx_inv
    (I := fun done st => ∃ spent, BlockInv B height cutoff coinbase st0.utxos done st spent)
    1 rest ?_ ?_ h
  · rintro done tx post st st' hrest ⟨spent, hinv⟩ hstep
    have hsub : ∀ t ∈ coinbase :: done, t ∈ coinbase :: rest := by
      intro t ht
      rcases List.mem_cons.mp ht with rfl | ht
      · simp
      · simp [hrest, ht]
    rcases hinv.step B K hcb hinj hM hsub (by simp [hrest]) (by omega) hstep with ⟨vs, hinv'⟩
    exact ⟨spent ++ vs, hinv'⟩
  · exact ⟨[], Run.nil, by simp, by simp, by simp [hfee], by simp⟩

end Loop

/-! ## Accepted blocks -/

theorem insertOutputs_keys {utxos : UtxoMap} {coinbase : Transaction} {txs : List Transaction}
    (hsupplied : ∀ o ∈ utxos, ¬ IsOutputOf B txs o) :
    ∀ o ∈ insertOutputs (B.computeTxid coinbase) true height cutoff utxos coinbase.output,
      o.txid = B.computeTxid coinbase ∨ ¬ IsOutputOf B txs o := by
  intro o ho
  rw [insertOutputs_eq, mem_insertAll] at ho
  rcases ho with ho | ⟨u, hu⟩
  · exact .inr (hsupplied o ho)
  · exact .inl (outputEntries_txid hu).1

theorem blockInv_of_accepted {utxos : UtxoMap} {txs : List Transaction} {subsidy : Amount}
    (hinj : B.TxidInjectiveOn txs) (hsupplied : ∀ o ∈ utxos, ¬ IsOutputOf B txs o)
    (h : verifyBlockTransactions B K height cutoff utxos txs subsidy verifyScript flags = .ok ()) :
    ∃ coinbase rest st spent, txs = coinbase :: rest ∧ coinbase.isCoinbase = true ∧
      BlockInv B height cutoff coinbase
        (insertOutputs (B.computeTxid coinbase) true height cutoff utxos coinbase.output)
        rest st spent ∧
      outputSum coinbase ≤ st.fee.sat + subsidy.sat := by
  rcases verifyBlockTransactions_ok B K h with
    ⟨coinbase, rest, st0, st, rfl, hcb, hfee, hutxos, hloop, hreward⟩
  have hM : ∀ o ∈ st0.utxos, o.txid = B.computeTxid coinbase ∨
      ¬ IsOutputOf B (coinbase :: rest) o := by
    rw [hutxos]
    exact insertOutputs_keys B hsupplied
  rcases blockInv_of_loop B K hcb hinj hM hfee hloop with ⟨spent, hinv⟩
  exact ⟨coinbase, rest, st, spent, rfl, hcb, hutxos ▸ hinv, hreward⟩

theorem not_isCoinbase_of_nonNull
    (h : ∀ i ∈ tx.input, i.previousOutput.isNull = false) : tx.isCoinbase = false := by
  unfold Transaction.isCoinbase
  split
  · rename_i i hin
    exact h i (by simp [hin])
  · rfl

section Accepted

variable {height : Nat} {cutoff : LockTimeCutoff} {utxos : UtxoMap} {coinbase : Transaction}
variable {rest : List Transaction} {st : BlockState} {spent : List (OutPoint × UtxoData)}

section

variable (hinv : BlockInv B height cutoff coinbase (insertOutputs (B.computeTxid coinbase) true height
  cutoff utxos coinbase.output) rest st spent)

include hinv

theorem BlockInv.consumed : consumedOutpoints (coinbase :: rest) = spent.map Prod.fst := by
  rw [hinv.run.spent_keys, List.flatMap_map]
  rfl

theorem BlockInv.available (hp : p ∈ spent) :
    (availableOutputs B height cutoff utxos (coinbase :: rest)).lookup p.1 = some p.2 := by
  rw [availableOutputs_cons]
  exact hinv.run.spent_created.2 p hp

/-- An input of a later transaction spends a supplied output or one of an earlier transaction. -/
theorem BlockInv.earlier {pre post : List Transaction} (hrest : rest = pre ++ tx :: post)
    {o : OutPoint} (ho : o ∈ inputOutpoints tx) :
    o ∈ utxos ∨ ∃ t ∈ coinbase :: pre, ∃ v < t.output.length,
      o = ⟨B.computeTxid t, UInt32.ofNat v⟩ := by
  have hmem := hinv.run.spent_earlier (pre.map (spendTx B height cutoff))
    (spendTx B height cutoff tx) (post.map (spendTx B height cutoff)) (by simp [hrest]) o ho
  rw [mem_created, insertOutputs_eq, mem_insertAll] at hmem
  rcases hmem with (hold | ⟨u, hu⟩) | ⟨ltx, hltx, u, hu⟩
  · exact .inl hold
  · exact .inr ⟨coinbase, by simp, outputEntries_outpoint hu⟩
  · rcases List.mem_map.mp hltx with ⟨t, ht, rfl⟩
    exact .inr ⟨t, List.mem_cons_of_mem _ ht, outputEntries_outpoint hu⟩

/-- Every spent entry was supplied, or is an output of the coinbase or of a later transaction. -/
theorem BlockInv.origin (hp : p ∈ spent) :
    utxos.lookup p.1 = some p.2 ∨
      p ∈ outputEntries (B.computeTxid coinbase) true height cutoff coinbase.output ∨
      ∃ t ∈ rest, p ∈ outputEntries (B.computeTxid t) false height cutoff t.output := by
  have hkey : ∀ (txs : List Transaction) (M : UtxoMap),
      (created M (txs.map (spendTx B height cutoff))).lookup p.1 = some p.2 →
      M.lookup p.1 = some p.2 ∨
        ∃ t ∈ txs, p ∈ outputEntries (B.computeTxid t) false height cutoff t.output := by
    intro txs
    induction txs with
    | nil =>
      intro M h
      exact .inl h
    | cons t txs ih =>
      intro M h
      rcases ih (insertAll M (spendTx B height cutoff t).outs) h with h | ⟨t', ht', h⟩
      · rcases lookup_insertAll_cases h with hout | ⟨hold, -⟩
        · exact .inr ⟨t, by simp, hout⟩
        · exact .inl hold
      · exact .inr ⟨t', List.mem_cons_of_mem _ ht', h⟩
  rcases hkey rest _ (hinv.run.spent_created.2 p hp) with h | h
  · rw [insertOutputs_eq] at h
    rcases lookup_insertAll_cases h with hout | ⟨hold, -⟩
    · exact .inr (.inl hout)
    · exact .inl hold
  · exact .inr (.inr h)

theorem BlockInv.creationHeight (hp : p ∈ spent) :
    utxos.lookup p.1 = some p.2 ∨ p.2.creationHeight = height := by
  rcases hinv.origin B hp with h | h | ⟨t, -, h⟩
  · exact .inl h
  · exact .inr (outputEntries_txid h).2.2
  · exact .inr (outputEntries_txid h).2.2

theorem BlockInv.spentValue :
    ((consumedOutpoints (coinbase :: rest)).map
      (valueAt (availableOutputs B height cutoff utxos (coinbase :: rest)))).sum =
      (spent.map fun p => p.2.txout.value.sat).sum := by
  rw [hinv.consumed, List.map_map]
  congr 1
  refine List.map_congr_left ?_
  intro p hp
  simp [valueAt, hinv.available B hp]

end

end Accepted

theorem coinbaseMatured_iff {u : UtxoData} (h : u.creationHeight + 100 < 2 ^ 32) :
    coinbaseMatured u height = true ↔ (u.isCoinbase = true → u.creationHeight + 100 ≤ height) := by
  unfold coinbaseMatured
  rw [Nat.mod_eq_of_lt h]
  cases u.isCoinbase <;> simp

/-- **No inflation and no double spend inside a block.**  In an accepted list only the first
transaction is a coinbase, every output is consumed once and after its creation, coinbase outputs
are consumed after a hundred blocks, and the outputs are worth at most the subsidy and the consumed
outputs together. -/
theorem verifyBlockTransactions_conserves (height : Nat) (cutoff : LockTimeCutoff)
    (utxos : UtxoMap) (txs : List Transaction) (subsidy : Amount) (verifyScript : Bool)
    (flags : Nat) (hinj : B.TxidInjectiveOn txs)
    (hsupplied : ∀ o ∈ utxos, ∀ t ∈ txs, o.txid ≠ B.computeTxid t)
    (hheight : height + 100 < 2 ^ 32)
    (hcreation : ∀ o u, utxos.lookup o = some u → u.creationHeight + 100 < 2 ^ 32)
    (h : verifyBlockTransactions B K height cutoff utxos txs subsidy verifyScript flags = .ok ()) :
    (∃ coinbase rest, txs = coinbase :: rest ∧ coinbase.isCoinbase = true ∧
      ∀ t ∈ rest, t.isCoinbase = false) ∧
    (consumedOutpoints txs).Nodup ∧
    (∀ pre tx post, txs = pre ++ tx :: post → pre ≠ [] → ∀ o ∈ inputOutpoints tx,
      o ∈ utxos ∨ ∃ t ∈ pre, ∃ v < t.output.length, o = ⟨B.computeTxid t, UInt32.ofNat v⟩) ∧
    (∀ o ∈ consumedOutpoints txs,
      ∃ u, (availableOutputs B height cutoff utxos txs).lookup o = some u ∧
        (u.isCoinbase = true → u.creationHeight + 100 ≤ height)) ∧
    (txs.map outputSum).sum ≤ subsidy.sat +
      ((consumedOutpoints txs).map (valueAt (availableOutputs B height cutoff utxos txs))).sum := by
  have hforeign : ∀ o ∈ utxos, ¬ IsOutputOf B txs o := by
    rintro o ho ⟨t, ht, v, -, rfl⟩
    exact hsupplied _ ho t ht rfl
  rcases blockInv_of_accepted B K hinj hforeign h with
    ⟨coinbase, rest, st, spent, rfl, hcb, hinv, hreward⟩
  refine ⟨⟨coinbase, rest, rfl, hcb, ?_⟩, ?_, ?_, ?_, ?_⟩
  · intro t ht
    exact not_isCoinbase_of_nonNull (hinv.nonNull t ht).2
  · rw [hinv.consumed]
    exact hinv.run.nodup_spent
  · intro pre tx post htxs hpre o ho
    cases pre with
    | nil => exact absurd rfl hpre
    | cons c pre =>
      cases htxs
      exact hinv.earlier B rfl ho
  · intro o ho
    rw [hinv.consumed] at ho
    rcases List.mem_map.mp ho with ⟨p, hp, rfl⟩
    refine ⟨p.2, hinv.available B hp, (coinbaseMatured_iff ?_).mp (hinv.checked p hp).matured⟩
    rcases hinv.creationHeight B hp with hold | hnew
    · exact hcreation _ _ hold
    · rw [hnew]
      exact hheight
  · rw [hinv.spentValue]
    have hval := hinv.value
    simp only [List.map_cons, List.sum_cons]
    omega

/-! ### A block with a same-block spend -/

namespace Sample

def kernel : Kernel where
  parseTransaction _ := .ok ()
  parseScriptPubkey _ := .ok ()
  precompute _ _ := .ok ()
  verify _ _ _ _ := .ok ()

def coin : OutPoint := ⟨7, 0⟩

/-- The output of a coinbase of a height. -/
def minedAt (height : Nat) : UtxoMap :=
  Finmap.singleton coin ⟨⟨Amount.fromSat 100, [0x51]⟩, true, height, 0⟩

def coinbaseTx : Transaction :=
  ⟨1, .blocks 0, [⟨OutPoint.null, [0, 0], 0xffffffff, []⟩], [⟨Amount.fromSat 70, [0x51]⟩]⟩

def spend (o : OutPoint) (value : Nat) : Transaction :=
  ⟨1, .blocks 0, [⟨o, [], 0xffffffff, []⟩], [⟨Amount.fromSat value, [0x51]⟩]⟩

/-- The second transaction after the coinbase spends the output of the first. -/
def txs : List Transaction :=
  [coinbaseTx, spend coin 90, spend ⟨Bitcoin.sample.computeTxid (spend coin 90), 0⟩ 80]

end Sample

open Sample Bitcoin in
theorem verifyBlockTransactions_conserves_sample :
    verifyBlockTransactions sample kernel 101 (.mtp 0) (minedAt 1) txs
        (Amount.fromSat 50) true 0 = .ok () ∧
      (consumedOutpoints txs).length = 2 ∧ (consumedOutpoints txs).Nodup := by
  have hok : verifyBlockTransactions sample kernel 101 (.mtp 0) (minedAt 1)
      txs (Amount.fromSat 50) true 0 = .ok () := by
    decide +kernel
  refine ⟨hok, rfl, ?_⟩
  refine (verifyBlockTransactions_conserves sample kernel 101 (.mtp 0) (minedAt 1)
    txs (Amount.fromSat 50) true 0 ?_ ?_ (by decide) ?_ hok).2.1
  · unfold Bitcoin.TxidInjectiveOn
    decide +kernel
  · intro o ho
    rw [minedAt, Finmap.mem_singleton] at ho
    subst ho
    decide +kernel
  · intro o u hu
    have ho : o = coin := by
      have := Finmap.mem_of_lookup_eq_some hu
      rwa [minedAt, Finmap.mem_singleton] at this
    subst ho
    rw [minedAt, Finmap.lookup_singleton_eq] at hu
    cases hu
    decide

open Sample Bitcoin in
/-- The output of a coinbase of the height `2 ^ 32 - 50` is spent at the height 60: the height from
which it may be spent wraps around. -/
theorem verifyBlockTransactions_spends_young :
    sample.TxidInjectiveOn txs ∧
    (∀ o ∈ minedAt (2 ^ 32 - 50), ∀ t ∈ txs, o.txid ≠ sample.computeTxid t) ∧
    verifyBlockTransactions sample kernel 60 (.mtp 0) (minedAt (2 ^ 32 - 50)) txs
        (Amount.fromSat 50) true 0 = .ok () ∧
    coin ∈ consumedOutpoints txs ∧ ∃ u, (minedAt (2 ^ 32 - 50)).lookup coin = some u ∧
      u.isCoinbase = true ∧ ¬ u.creationHeight + 100 ≤ 60 := by
  refine ⟨?_, ?_, by decide +kernel, by decide, _, Finmap.lookup_singleton_eq, rfl, by decide⟩
  · unfold Bitcoin.TxidInjectiveOn
    decide +kernel
  · intro o ho
    rw [minedAt, Finmap.mem_singleton] at ho
    subst ho
    decide +kernel

end Floresta.Consensus
