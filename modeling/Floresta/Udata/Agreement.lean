import Floresta.Consensus.Conservation
import Floresta.Udata.Proof

/-!
# Agreement — accumulator bookkeeping against transaction validation

Three functions look at the same inputs and outputs: `processProof` pairs leaves with inputs,
`verifyBlockTransactions` removes outputs from a map, `getBlockAdds` filters the created outputs.
For an accepted block they describe one update of the UTXO set.

A coin is a `LeafData`: the output with its outpoint, its block and its height.  The reference UTXO
set is a multiset of coins, and the accumulator holds their leaf hashes.
-/

namespace Floresta.Udata

open Fallible Ledger Consensus

variable (B : Bitcoin) {leaf : CompactLeafData} {t : Transaction}
variable {txs : List Transaction} {txid : Txid} {tx : Transaction} {o : OutPoint} {c : LeafData}

/-! ## Coins -/

/-- The coin behind an entry of the UTXO map, given the hash of the block that created it. -/
def coinOf (blockHash : BlockHash) (o : OutPoint) (u : UtxoData) : LeafData :=
  ⟨blockHash, o, headerCode u.creationHeight u.isCoinbase, u.txout⟩

def txCoins (height : Nat) (blockHash : BlockHash) (tx : Transaction) : List LeafData :=
  tx.output.zipIdx.map fun p =>
    ⟨blockHash, ⟨B.computeTxid tx, UInt32.ofNat p.2⟩, headerCode height tx.isCoinbase, p.1⟩

def blockCoins (height : Nat) (blockHash : BlockHash) (txs : List Transaction) : List LeafData :=
  txs.flatMap (txCoins B height blockHash)

/-- A coin that can be spent, and that the block itself does not spend. -/
def survives (txs : List Transaction) (c : LeafData) : Bool :=
  !isUnspendable c.utxo.scriptPubkey && !decide (c.prevout ∈ consumedOutpoints txs)

def createdCoins (height : Nat) (blockHash : BlockHash) (txs : List Transaction) :
    List LeafData :=
  (blockCoins B height blockHash txs).filter (survives txs)

/-- The outpoints of the inputs after the coinbase that spend no output of the block, in order. -/
def externalOutpoints (txs : List Transaction) : List OutPoint :=
  (consumedOutpoints txs).filter fun o => ¬ IsOutputOf B txs o

/-! ## Outputs of the same block -/

theorem sameBlockTransactions_lookup (hinj : B.TxidInjectiveOn txs) (ht : t ∈ txs) :
    (sameBlockTransactions B txs).lookup (B.computeTxid t) = some t.output.length := by
  -- Every transaction that writes this txid has the same outputs, so the last one has them too.
  have key : ∀ (rest : List Transaction) (m : HashMap Txid Nat), (∀ t' ∈ rest, t' ∈ txs) →
      (t ∈ rest ∨ m.lookup (B.computeTxid t) = some t.output.length) →
      (rest.foldl (fun m tx => m.insert (B.computeTxid tx) tx.output.length) m).lookup
        (B.computeTxid t) = some t.output.length := by
    intro rest
    induction rest with
    | nil =>
      intro m _ h
      rcases h with h | h
      · simp at h
      · exact h
    | cons t' rest ih =>
      intro m hsub h
      refine ih _ (fun x hx => hsub x (List.mem_cons_of_mem _ hx)) ?_
      by_cases heq : B.computeTxid t = B.computeTxid t'
      · have hstrip := hinj t ht t' (hsub t' (by simp)) heq
        have hout : t'.output = t.output := by
          simpa [Transaction.stripWitness] using (congrArg Transaction.output hstrip).symm
        exact .inr (by simp [lookup_insert_eq, heq, hout])
      · rcases h with h | h
        · rcases List.mem_cons.mp h with rfl | h
          · exact absurd rfl heq
          · exact .inl h
        · exact .inr (by simpa [lookup_insert_eq, heq] using h)
  exact key txs ∅ (fun _ h => h) (.inl ht)

theorem sameBlockTransactions_mem {n : Nat}
    (h : (sameBlockTransactions B txs).lookup txid = some n) :
    ∃ t ∈ txs, B.computeTxid t = txid ∧ t.output.length = n := by
  have key : ∀ (rest : List Transaction) (m : HashMap Txid Nat),
      (rest.foldl (fun m tx => m.insert (B.computeTxid tx) tx.output.length) m).lookup txid =
        some n →
      (∃ t ∈ rest, B.computeTxid t = txid ∧ t.output.length = n) ∨ m.lookup txid = some n := by
    intro rest
    induction rest with
    | nil =>
      intro m h
      exact .inr h
    | cons t rest ih =>
      intro m h
      rcases ih _ h with ⟨t', ht', hrest⟩ | hm
      · exact .inl ⟨t', List.mem_cons_of_mem _ ht', hrest⟩
      · rw [lookup_insert_eq] at hm
        by_cases heq : txid = B.computeTxid t
        · rw [if_pos heq] at hm
          exact .inl ⟨t, by simp, heq.symm, Option.some.inj hm⟩
        · rw [if_neg heq] at hm
          exact .inr hm
  rcases key txs ∅ h with h | h
  · exact h
  · simp at h

/-- The txid and output count test finds exactly the outpoints of the block's own outputs. -/
theorem isSameBlockOutput_iff (hinj : B.TxidInjectiveOn txs)
    (hlen : ∀ t ∈ txs, t.output.length < 2 ^ 32) (o : OutPoint) :
    isSameBlockOutput (sameBlockTransactions B txs) o = true ↔ IsOutputOf B txs o := by
  unfold isSameBlockOutput
  constructor
  · intro h
    cases hlook : (sameBlockTransactions B txs).lookup o.txid with
    | none => simp [hlook] at h
    | some n =>
      have hlt : o.vout.toNat < n := by simpa [hlook] using h
      rcases sameBlockTransactions_mem B hlook with ⟨t, ht, htxid, hn⟩
      refine ⟨t, ht, o.vout.toNat, hn ▸ hlt, ?_⟩
      rw [htxid, UInt32.ofNat_toNat]
  · rintro ⟨t, ht, v, hv, rfl⟩
    have hlook := sameBlockTransactions_lookup B hinj ht
    have hvout : (UInt32.ofNat v).toNat = v :=
      Nat.mod_eq_of_lt (Nat.lt_trans hv (hlen t ht))
    simp [hlook, hvout, hv]

/-! ## The leaves paired with inputs -/

section Proof

variable {ε : Type} (fromLeaf : UtreexoLeafError → ε)
variable (getBlockHash : Nat → Except ε BlockHash) (getMtp : Nat → Except ε Nat)

/-- `v` is a deletion hash with the entry it stands for: the entry's coin has that leaf hash, and
its block is the one the chain has at the entry's height. -/
def IsDeletion (v : Hash256 × OutPoint × UtxoData) : Prop :=
  v.2.2.creationHeight ≠ GENESIS_HEIGHT ∧ v.2.2.creationHeight < 2 ^ 31 ∧
    ∃ blockHash, getBlockHash v.2.2.creationHeight = .ok blockHash ∧
      v.1 = leafDataHash B (coinOf blockHash v.2.1 v.2.2)

theorem reconstructLeafData_ok {input : TxIn} {blockHash : BlockHash}
    {data : LeafData} (h : reconstructLeafData B leaf input blockHash = .ok data) :
    data.blockHash = blockHash ∧ data.prevout = input.previousOutput ∧
      data.headerCode = leaf.headerCode := by
  simp only [reconstructLeafData, bind_eq_ok, pure_eq_ok] at h
  rcases h with ⟨spk, -, rfl⟩
  exact ⟨rfl, rfl, rfl⟩

theorem leafErr_ok {α : Type} {vin : Nat}
    {x : Except LeafErrorKind α} {a : α} (h : leafErr fromLeaf leaf txid vin x = .ok a) :
    x = .ok a := by
  cases x with
  | ok b => simpa [leafErr] using h
  | error e => simp [leafErr] at h

theorem processLeaf_ok {input : TxIn} {vin : Nat} {v : Hash256 × OutPoint × UtxoData}
    (h : processLeaf B fromLeaf getBlockHash getMtp tx txid input vin leaf = .ok v) :
    v.2.1 = input.previousOutput ∧ IsDeletion B getBlockHash v := by
  simp only [processLeaf, bind_eq_ok, require_eq_ok, pure_eq_ok, exists_and_left,
    exists_const] at h
  rcases h with ⟨hgenesis, hash, hhash, data, hdata, time, -, rfl⟩
  rcases reconstructLeafData_ok B (leafErr_ok fromLeaf hdata) with ⟨hbh, hprev, hcode⟩
  refine ⟨hprev, hgenesis, height_lt _, hash, hhash, ?_⟩
  have hsplit := headerCode_split leaf.headerCode
  have hdata' : data = ⟨hash, data.prevout, leaf.headerCode, data.utxo⟩ := by
    cases data
    simp_all
  simp only [coinOf, hsplit]
  rw [← hdata']

/-- What the two loops have done after the inputs with the outpoints `done`. -/
structure ProofInv (txs : List Transaction) (done : List OutPoint) (st : ProofState)
    (vs : List (Hash256 × OutPoint × UtxoData)) : Prop where
  delHashes : st.delHashes = vs.map Prod.fst
  utxos : st.utxos = insertAll ∅ (vs.map Prod.snd)
  deletions : ∀ v ∈ vs, IsDeletion B getBlockHash v
  -- once the leaves have run out, the remaining inputs get none
  paired : vs.map (fun v => v.2.1) <+:
    done.filter fun o => !isSameBlockOutput (sameBlockTransactions B txs) o
  complete : st.leaves ≠ [] → vs.map (fun v => v.2.1) =
    done.filter fun o => !isSameBlockOutput (sameBlockTransactions B txs) o

variable {txs : List Transaction} {done : List OutPoint} {st st' : ProofState}
variable {vs : List (Hash256 × OutPoint × UtxoData)}

theorem ProofInv.step (hinv : ProofInv B getBlockHash txs done st vs) {p : TxIn × Nat}
    (h : processInput B fromLeaf getBlockHash getMtp (sameBlockTransactions B txs) tx st p =
      .ok st') :
    ∃ vs', ProofInv B getBlockHash txs (done ++ [p.1.previousOutput]) st' vs' := by
  unfold processInput at h
  by_cases hsame : isSameBlockOutput (sameBlockTransactions B txs) p.1.previousOutput = true
  · -- no leaf is taken, and the outpoint is filtered out
    rw [if_pos hsame] at h
    cases h
    exact ⟨vs, hinv.delHashes, hinv.utxos, hinv.deletions, by simpa [hsame] using hinv.paired,
      by simpa [hsame] using hinv.complete⟩
  · rw [if_neg hsame] at h
    cases hleaves : st.leaves with
    | nil =>
      rw [hleaves] at h
      cases h
      refine ⟨vs, hinv.delHashes, hinv.utxos, hinv.deletions, ?_, ?_⟩
      · rw [List.filter_append]
        exact hinv.paired.trans (List.prefix_append _ _)
      · intro hne
        exact absurd hleaves hne
    | cons leaf leaves =>
      rw [hleaves] at h
      simp only [bind_eq_ok, pure_eq_ok, Prod.exists] at h
      rcases h with ⟨delHash, prevout, utxo, hleaf, rfl⟩
      rcases processLeaf_ok B fromLeaf getBlockHash getMtp hleaf with ⟨hprev, hdel⟩
      have hfull := hinv.complete (by simp [hleaves])
      have hnew : (vs ++ [(delHash, prevout, utxo)]).map (fun v => v.2.1) =
          (done ++ [p.1.previousOutput]).filter
            fun o => !isSameBlockOutput (sameBlockTransactions B txs) o := by
        have hprev' : prevout = p.1.previousOutput := hprev
        simp [hfull, hsame, hprev']
      refine ⟨vs ++ [(delHash, prevout, utxo)], ?_, ?_, ?_, ?_, fun _ => hnew⟩
      · simp [hinv.delHashes]
      · simp [hinv.utxos, insertAll]
      · exact forall_mem_snoc hinv.deletions hdel
      · rw [hnew]

theorem processProof_inv {leaves : List CompactLeafData} {delHashes : List Hash256}
    {utxos : UtxoMap}
    (h : processProof B fromLeaf getBlockHash getMtp leaves txs = .ok (delHashes, utxos)) :
    ∃ vs st, delHashes = st.delHashes ∧ utxos = st.utxos ∧
      ProofInv B getBlockHash txs (consumedOutpoints txs) st vs := by
  simp only [processProof, bind_eq_ok, pure_eq_ok, Prod.mk.injEq] at h
  rcases h with ⟨st, hloop, rfl, rfl⟩
  have hinv : ∃ vs, ProofInv B getBlockHash txs ((txs.drop 1).flatMap inputOutpoints) st vs := by
    refine foldlM_inv
      (I := fun done st => ∃ vs, ProofInv B getBlockHash txs (done.flatMap inputOutpoints) st vs)
      (txs.drop 1) ?_ ?_ hloop
    · rintro done tx rest s s' - ⟨vs, hinv⟩ htx
      have hinner : ∃ vs, ProofInv B getBlockHash txs
          (done.flatMap inputOutpoints ++ inputOutpoints tx) s' vs := by
        refine foldlM_zipIdx_inv (I := fun ins st => ∃ vs, ProofInv B getBlockHash txs
          (done.flatMap inputOutpoints ++ ins.map TxIn.previousOutput) st vs) 0 tx.input ?_ ?_ htx
        · rintro ins i more t t' - ⟨ws, hws⟩ hstep
          rcases hws.step B fromLeaf getBlockHash getMtp hstep with ⟨ws', hws'⟩
          exact ⟨ws', by simpa using hws'⟩
        · exact ⟨vs, by simpa using hinv⟩
      simpa using hinner
    · exact ⟨[], rfl, rfl, by simp, by simp, by simp⟩
  rcases hinv with ⟨vs, hinv⟩
  exact ⟨vs, st, rfl, rfl, hinv⟩

end Proof

/-! ## Accepted blocks -/

/-- A block whose proof was processed and whose transactions were accepted with the outputs that
came out of it, together with everything the two functions were given. -/
structure AcceptedBlock (B : Bitcoin) (K : Kernel) (ε : Type) where
  block : Block
  height : Nat
  leaves : List CompactLeafData
  fromLeaf : UtreexoLeafError → ε
  getBlockHash : Nat → Except ε BlockHash
  getMtp : Nat → Except ε Nat
  cutoff : LockTimeCutoff
  subsidy : Amount
  verifyScript : Bool
  flags : Nat
  delHashes : List Hash256
  utxos : UtxoMap
  processed : processProof B fromLeaf getBlockHash getMtp leaves block.txdata =
    .ok (delHashes, utxos)
  verified : verifyBlockTransactions B K height cutoff utxos block.txdata subsidy verifyScript
    flags = .ok ()
  txidInjective : B.TxidInjectiveOn block.txdata
  -- the block size bounds output indexes to `u32`
  outputCount : ∀ t ∈ block.txdata, t.output.length < 2 ^ 32

theorem consumedOutpoints_mem (ho : o ∈ consumedOutpoints txs) :
    ∃ pre tx post, txs.drop 1 = pre ++ tx :: post ∧ o ∈ inputOutpoints tx := by
  rcases List.mem_flatMap.mp ho with ⟨tx, htx, hin⟩
  rcases List.append_of_mem htx with ⟨pre, post, heq⟩
  exact ⟨pre, tx, post, heq, hin⟩

theorem prefix_eq_of_subset {α : Type} {l1 l2 : List α} (h : l1 <+: l2) (hnodup : l2.Nodup)
    (hsub : ∀ a ∈ l2, a ∈ l1) : l1 = l2 := by
  rcases h with ⟨r, rfl⟩
  cases r with
  | nil => simp
  | cons a r =>
    have hdisj := (List.nodup_append.mp hnodup).2.2
    exact absurd rfl (hdisj a (hsub a (by simp)) a (by simp))

namespace AcceptedBlock

variable {B : Bitcoin} {K : Kernel} {ε : Type} (a : AcceptedBlock B K ε)

theorem deletions :
    ∃ vs : List (Hash256 × OutPoint × UtxoData), a.delHashes = vs.map Prod.fst ∧
      a.utxos = insertAll ∅ (vs.map Prod.snd) ∧
      (∀ v ∈ vs, IsDeletion B a.getBlockHash v) ∧
      vs.map (fun v => v.2.1) <+: externalOutpoints B a.block.txdata := by
  rcases processProof_inv B a.fromLeaf a.getBlockHash a.getMtp a.processed with
    ⟨vs, st, hdel, hutxos, hinv⟩
  have hfilter : externalOutpoints B a.block.txdata = (consumedOutpoints a.block.txdata).filter
      fun o => !isSameBlockOutput (sameBlockTransactions B a.block.txdata) o := by
    apply List.filter_congr
    intro o _
    have hiff := isSameBlockOutput_iff B a.txidInjective a.outputCount o
    by_cases h : IsOutputOf B a.block.txdata o
    · simp [h, hiff.mpr h]
    · have hsame : isSameBlockOutput (sameBlockTransactions B a.block.txdata) o = false := by
        simpa using mt hiff.mp h
      simp [h, hsame]
  refine ⟨vs, hdel.trans hinv.delHashes, hutxos.trans hinv.utxos, hinv.deletions, ?_⟩
  rw [hfilter]
  exact hinv.paired

theorem utxos_external (ho : o ∈ a.utxos) :
    o ∈ externalOutpoints B a.block.txdata := by
  rcases a.deletions with ⟨vs, -, hutxos, -, hprefix⟩
  have hkey : o ∈ (vs.map Prod.snd).map Prod.fst := by
    simpa only [hutxos, mem_insertAll_empty] using ho
  apply hprefix.subset
  simpa [Function.comp_def] using hkey

theorem utxos_foreign : ∀ o ∈ a.utxos, ¬ IsOutputOf B a.block.txdata o := by
  intro o ho
  have hmem := a.utxos_external ho
  simpa using (List.mem_filter.mp hmem).2

theorem blockInv :
    ∃ coinbase rest st spent, a.block.txdata = coinbase :: rest ∧ coinbase.isCoinbase = true ∧
      BlockInv B a.height a.cutoff coinbase
        (insertOutputs (B.computeTxid coinbase) true a.height a.cutoff a.utxos coinbase.output)
        rest st spent ∧
      outputSum coinbase ≤ st.fee.sat + a.subsidy.sat :=
  blockInv_of_accepted B K a.txidInjective a.utxos_foreign a.verified

theorem consumed_nodup : (consumedOutpoints a.block.txdata).Nodup := by
  rcases a.blockInv with ⟨coinbase, rest, st, spent, htxs, -, hinv, -⟩
  rw [htxs, hinv.consumed]
  exact hinv.run.nodup_spent

theorem external_nodup : (externalOutpoints B a.block.txdata).Nodup :=
  a.consumed_nodup.filter _

theorem external_mem_utxos (ho : o ∈ externalOutpoints B a.block.txdata) :
    o ∈ a.utxos := by
  rcases List.mem_filter.mp ho with ⟨hcons, hext⟩
  have hnot : ¬ IsOutputOf B a.block.txdata o := by simpa using hext
  rcases a.blockInv with ⟨coinbase, rest, st, spent, htxs, -, hinv, -⟩
  rcases consumedOutpoints_mem hcons with ⟨pre, tx, post, hrest, hin⟩
  have hrest' : rest = pre ++ tx :: post := by simpa [htxs] using hrest
  rcases hinv.earlier B hrest' hin with hold | ⟨t, ht, v, hv, heq⟩
  · exact hold
  · refine absurd ⟨t, ?_, v, hv, heq⟩ hnot
    rcases List.mem_cons.mp ht with rfl | ht
    · simp [htxs]
    · simp [htxs, hrest', ht]

theorem deletions_complete :
    ∃ vs : List (Hash256 × OutPoint × UtxoData), a.delHashes = vs.map Prod.fst ∧
      vs.map (fun v => v.2.1) = externalOutpoints B a.block.txdata ∧
      ∀ v ∈ vs, IsDeletion B a.getBlockHash v ∧ a.utxos.lookup v.2.1 = some v.2.2 := by
  rcases a.deletions with ⟨vs, hdel, hutxos, hdeletion, hprefix⟩
  have hsub : ∀ o ∈ externalOutpoints B a.block.txdata, o ∈ vs.map fun v => v.2.1 := by
    intro o ho
    have hmem : o ∈ (vs.map Prod.snd).map Prod.fst := by
      simpa only [hutxos, mem_insertAll_empty] using a.external_mem_utxos ho
    simpa [Function.comp_def] using hmem
  have heq := prefix_eq_of_subset hprefix a.external_nodup hsub
  have hkeys : ((vs.map Prod.snd).map Prod.fst).Nodup := by
    have hext := a.external_nodup
    rw [← heq] at hext
    simpa [Function.comp_def] using hext
  refine ⟨vs, hdel, heq, ?_⟩
  intro v hv
  refine ⟨hdeletion v hv, ?_⟩
  rw [hutxos]
  exact lookup_insertAll_of_mem hkeys (List.mem_map_of_mem hv)

/-! ### Consumed coins -/

/-- The coin an outpoint stands for: its entry in the validated map, and the block the chain has at
the entry's height. -/
def coinAt (o : OutPoint) : Option LeafData := do
  let u ← a.utxos.lookup o
  let blockHash ← (a.getBlockHash u.creationHeight).toOption
  some (coinOf blockHash o u)

def consumedCoins : List LeafData :=
  (externalOutpoints B a.block.txdata).filterMap a.coinAt

theorem coinAt_deletion {v : Hash256 × OutPoint × UtxoData}
    (h : IsDeletion B a.getBlockHash v ∧ a.utxos.lookup v.2.1 = some v.2.2) :
    ∃ c, a.coinAt v.2.1 = some c ∧ leafDataHash B c = v.1 ∧ c.prevout = v.2.1 := by
  rcases h with ⟨⟨-, -, blockHash, hhash, hleaf⟩, hlook⟩
  refine ⟨coinOf blockHash v.2.1 v.2.2, ?_, hleaf.symm, rfl⟩
  simp [coinAt, hlook, hhash, Except.toOption]

/-- The deletion hashes are the leaf hashes of the consumed coins, one for each input that spends an
output of an earlier block, in input order. -/
theorem delHashes_eq :
    a.delHashes = a.consumedCoins.map (leafDataHash B) ∧
      a.consumedCoins.map LeafData.prevout = externalOutpoints B a.block.txdata := by
  rcases a.deletions_complete with ⟨vs, hdel, hext, hvs⟩
  have key : ∀ ws : List (Hash256 × OutPoint × UtxoData), (∀ v ∈ ws, v ∈ vs) →
      ((ws.map fun v => v.2.1).filterMap a.coinAt).map (leafDataHash B) = ws.map Prod.fst ∧
      ((ws.map fun v => v.2.1).filterMap a.coinAt).map LeafData.prevout =
        ws.map fun v => v.2.1 := by
    intro ws
    induction ws with
    | nil => simp
    | cons v ws ih =>
      intro hsub
      rcases ih (fun w hw => hsub w (List.mem_cons_of_mem _ hw)) with ⟨ih1, ih2⟩
      rcases a.coinAt_deletion (hvs v (hsub v (by simp))) with ⟨c, hc, hhash, hprev⟩
      constructor
      · simp only [List.map_cons, List.filterMap_cons, hc, hhash, ih1]
      · simp only [List.map_cons, List.filterMap_cons, hc, hprev, ih2]
  rcases key vs (fun v hv => hv) with ⟨hhash, hprev⟩
  rw [hext] at hhash hprev
  exact ⟨hdel.trans hhash.symm, hprev⟩

/-! ### Created coins -/

def blockHash : BlockHash := B.blockHash a.block.header

def createdCoins : List LeafData :=
  Udata.createdCoins B a.height a.blockHash a.block.txdata

def adds : List NodeHash :=
  getBlockAdds B a.block a.height a.blockHash

/-- The set of all inputs holds the null outpoint beside the consumed ones, and no output has it. -/
theorem mem_getInputOutpoints (ht : t ∈ a.block.txdata) {v : Nat}
    (hv : v < t.output.length) :
    (⟨B.computeTxid t, UInt32.ofNat v⟩ : OutPoint) ∈ getInputOutpoints a.block.txdata ↔
      (⟨B.computeTxid t, UInt32.ofNat v⟩ : OutPoint) ∈ consumedOutpoints a.block.txdata := by
  rcases a.blockInv with ⟨coinbase, rest, st, spent, htxs, hcb, -, -⟩
  have hnull : (⟨B.computeTxid t, UInt32.ofNat v⟩ : OutPoint) ≠ OutPoint.null := by
    intro heq
    have hvout : (UInt32.ofNat v).toNat = (0xffffffff : UInt32).toNat :=
      congrArg (fun o : OutPoint => o.vout.toNat) heq
    have hlen := a.outputCount t ht
    simp at hvout
    omega
  have hall : getInputOutpoints a.block.txdata =
      (inputOutpoints coinbase ++ consumedOutpoints a.block.txdata).toFinset := by
    rw [htxs]
    rfl
  rw [hall, isCoinbase_input hcb]
  simp [hnull]

theorem txAdds_eq (ht : t ∈ a.block.txdata) :
    txAdds B (getInputOutpoints a.block.txdata) a.height a.blockHash t =
      ((txCoins B a.height a.blockHash t).filter (survives a.block.txdata)).map
        fun c => NodeHash.some (leafDataHash B c) := by
  unfold txAdds txCoins
  rw [List.filter_map, List.map_map, ← List.filterMap_eq_map, List.filterMap_filter]
  apply List.filterMap_congr
  intro p hp
  have hmem := a.mem_getInputOutpoints ht (List.snd_lt_of_mem_zipIdx hp)
  by_cases hu : isUnspendable p.1.scriptPubkey = true
  · simp [survives, hu]
  · by_cases hs : (⟨B.computeTxid t, UInt32.ofNat p.2⟩ : OutPoint) ∈
        consumedOutpoints a.block.txdata
    · simp [survives, hmem.mpr hs, hs]
    · simp [survives, hu, hs, mt hmem.mp hs, getLeafHashes_eq]

theorem adds_eq : a.adds = a.createdCoins.map fun c => NodeHash.some (leafDataHash B c) := by
  unfold adds getBlockAdds createdCoins Udata.createdCoins blockCoins
  rw [List.filter_flatMap, List.map_flatMap]
  apply List.flatMap_congr
  intro t ht
  exact a.txAdds_eq ht

theorem txCoins_prevout_nodup {height : Nat} {blockHash : BlockHash}
    (hlen : t.output.length < 2 ^ 32) :
    ((txCoins B height blockHash t).map LeafData.prevout).Nodup := by
  have hsnd : (t.output.zipIdx.map Prod.snd).Nodup := by
    simpa [List.zipIdx_map_snd] using List.nodup_range'
  have hmap : (txCoins B height blockHash t).map LeafData.prevout =
      (t.output.zipIdx.map Prod.snd).map
        fun v => (⟨B.computeTxid t, UInt32.ofNat v⟩ : OutPoint) := by
    unfold txCoins
    rw [List.map_map, List.map_map]
    rfl
  rw [hmap]
  refine List.Nodup.map_on ?_ hsnd
  intro v hv w hw heq
  have hv' : v < t.output.length := by
    rcases List.mem_map.mp hv with ⟨p, hp, rfl⟩
    exact List.snd_lt_of_mem_zipIdx hp
  have hw' : w < t.output.length := by
    rcases List.mem_map.mp hw with ⟨p, hp, rfl⟩
    exact List.snd_lt_of_mem_zipIdx hp
  have hvout : (UInt32.ofNat v).toNat = (UInt32.ofNat w).toNat :=
    congrArg (fun o : OutPoint => o.vout.toNat) heq
  simp at hvout
  omega

theorem blockCoins_prevout_nodup :
    ((blockCoins B a.height a.blockHash a.block.txdata).map LeafData.prevout).Nodup := by
  rcases a.blockInv with ⟨coinbase, rest, st, spent, htxs, -, hinv, -⟩
  have htxids : (a.block.txdata.map B.computeTxid).Nodup := by
    rw [htxs]
    exact hinv.txids
  unfold blockCoins
  rw [List.map_flatMap]
  refine List.nodup_flatMap.mpr ⟨fun t ht => txCoins_prevout_nodup (a.outputCount t ht), ?_⟩
  refine (List.pairwise_map.mp htxids).imp ?_
  intro t t' hne o ho ho'
  rcases List.mem_map.mp ho with ⟨c, hc, rfl⟩
  rcases List.mem_map.mp ho' with ⟨c', hc', heq⟩
  rcases List.mem_map.mp hc with ⟨p, -, rfl⟩
  rcases List.mem_map.mp hc' with ⟨q, -, rfl⟩
  exact hne (congrArg OutPoint.txid heq).symm

theorem blockCoins_nodup : (blockCoins B a.height a.blockHash a.block.txdata).Nodup :=
  a.blockCoins_prevout_nodup.of_map

theorem createdCoins_nodup : a.createdCoins.Nodup :=
  a.blockCoins_nodup.filter _

theorem blockCoins_height (hc : c ∈ blockCoins B a.height a.blockHash a.block.txdata) :
    ∃ isCoinbase, c.headerCode = headerCode a.height isCoinbase := by
  rcases List.mem_flatMap.mp hc with ⟨t, -, hct⟩
  rcases List.mem_map.mp hct with ⟨p, -, rfl⟩
  exact ⟨t.isCoinbase, rfl⟩

end AcceptedBlock

/-! ## Chains of accepted blocks -/

section Chain

variable {B : Bitcoin} {K : Kernel} {ε : Type}

/-- The reference UTXO set: every block removes the coins it consumed and adds those it left. -/
def utxoSet (chain : List (AcceptedBlock B K ε)) : Multiset LeafData :=
  chain.foldl (fun coins a => coins - ↑a.consumedCoins + ↑a.createdCoins) 0

/-- `LeafRun chain leaves`: the accumulator took every deletion of the chain as a leaf it holds, and
holds `leaves` at the end. -/
inductive LeafRun : List (AcceptedBlock B K ε) → Multiset NodeHash → Prop
  | nil : LeafRun [] 0
  | snoc {chain : List (AcceptedBlock B K ε)} {leaves : Multiset NodeHash}
      (a : AcceptedBlock B K ε) (hrun : LeafRun chain leaves)
      (hdel : (↑(a.delHashes.map NodeHash.some) : Multiset NodeHash) ≤ leaves) :
      LeafRun (chain ++ [a]) (leaves - ↑(a.delHashes.map NodeHash.some) + ↑a.adds)

def chainCoins (chain : List (AcceptedBlock B K ε)) : List LeafData :=
  chain.flatMap fun a => a.consumedCoins ++ a.createdCoins

/-- Different coins of the list have different leaf hashes. -/
def CollisionFree (B : Bitcoin) (coins : List LeafData) : Prop :=
  ∀ c ∈ coins, ∀ c' ∈ coins, leafDataHash B c = leafDataHash B c' → c = c'

theorem CollisionFree.mono {coins coins' : List LeafData} (h : CollisionFree B coins')
    (hsub : coins ⊆ coins') : CollisionFree B coins := by
  intro c hc c' hc'
  exact h c (hsub hc) c' (hsub hc')

def leafNode (B : Bitcoin) (c : LeafData) : NodeHash :=
  NodeHash.some (leafDataHash B c)

theorem utxoSet_concat (chain : List (AcceptedBlock B K ε)) (a : AcceptedBlock B K ε) :
    utxoSet (chain ++ [a]) = utxoSet chain - ↑a.consumedCoins + ↑a.createdCoins := by
  simp [utxoSet]

theorem mem_utxoSet {chain : List (AcceptedBlock B K ε)} (hc : c ∈ utxoSet chain) :
    ∃ a ∈ chain, c ∈ a.createdCoins := by
  induction chain using List.reverseRecOn with
  | nil => simp [utxoSet] at hc
  | append_singleton chain a ih =>
    rw [utxoSet_concat, Multiset.mem_add] at hc
    rcases hc with hc | hc
    · have hold : c ∈ utxoSet chain := Multiset.mem_of_le (Multiset.sub_le_self _ _) hc
      rcases ih hold with ⟨a', ha', hca'⟩
      exact ⟨a', by simp [ha'], hca'⟩
    · exact ⟨a, by simp, hc⟩

theorem consumedCoins_le {chain : List (AcceptedBlock B K ε)} {a : AcceptedBlock B K ε}
    (hcoll : CollisionFree B (chainCoins (chain ++ [a])))
    (hdel : (↑(a.delHashes.map NodeHash.some) : Multiset NodeHash) ≤
      (utxoSet chain).map (leafNode B)) :
    (↑a.consumedCoins : Multiset LeafData) ≤ utxoSet chain := by
  have hmap : (↑a.consumedCoins : Multiset LeafData).map (leafNode B) ≤
      (utxoSet chain).map (leafNode B) := by
    have hdels : a.delHashes.map NodeHash.some = a.consumedCoins.map (leafNode B) := by
      rw [a.delHashes_eq.1, List.map_map]
      rfl
    rw [hdels] at hdel
    exact hdel
  refine le_of_map_le_map ?_ hmap
  intro c hc c' hc' heq
  rcases mem_utxoSet hc' with ⟨a', ha', hca'⟩
  have hin : c ∈ chainCoins (chain ++ [a]) :=
    List.mem_flatMap.mpr ⟨a, by simp, List.mem_append_left _ hc⟩
  have hin' : c' ∈ chainCoins (chain ++ [a]) :=
    List.mem_flatMap.mpr ⟨a', by simp [ha'], List.mem_append_right _ hca'⟩
  exact hcoll c hin c' hin' (NodeHash.some.inj heq)

theorem chainCoins_concat_subset (chain : List (AcceptedBlock B K ε)) (a : AcceptedBlock B K ε) :
    chainCoins chain ⊆ chainCoins (chain ++ [a]) := by
  intro c hc
  simp only [chainCoins, List.flatMap_append, List.mem_append]
  exact .inl hc

theorem leafRun_eq {chain : List (AcceptedBlock B K ε)} {leaves : Multiset NodeHash}
    (hrun : LeafRun chain leaves) (hcoll : CollisionFree B (chainCoins chain)) :
    leaves = (utxoSet chain).map (leafNode B) := by
  induction hrun with
  | nil => simp [utxoSet]
  | snoc a hrun hdel ih =>
    rename_i chain leaves
    have hleaves := ih (hcoll.mono (chainCoins_concat_subset chain a))
    rw [hleaves] at hdel ⊢
    have hle := consumedCoins_le hcoll hdel
    -- The set splits into the consumed coins and the rest, before and after hashing.
    rcases Multiset.le_iff_exists_add.mp hle with ⟨rest, hrest⟩
    have hdels : (↑(a.delHashes.map NodeHash.some) : Multiset NodeHash) =
        (↑a.consumedCoins : Multiset LeafData).map (leafNode B) := by
      rw [a.delHashes_eq.1, List.map_map]
      rfl
    have hadds : (↑a.adds : Multiset NodeHash) =
        (↑a.createdCoins : Multiset LeafData).map (leafNode B) := by
      rw [a.adds_eq]
      rfl
    calc
      (utxoSet chain).map (leafNode B) - ↑(a.delHashes.map NodeHash.some) + ↑a.adds
          = rest.map (leafNode B) + (↑a.createdCoins : Multiset LeafData).map (leafNode B) := by
        rw [hdels, hadds, hrest, Multiset.map_add, add_tsub_cancel_left]
      _ = (utxoSet (chain ++ [a])).map (leafNode B) := by
        rw [utxoSet_concat, hrest, add_tsub_cancel_left, Multiset.map_add]

theorem leafRun_consumed {chain : List (AcceptedBlock B K ε)} {leaves : Multiset NodeHash}
    (hrun : LeafRun chain leaves) (hcoll : CollisionFree B (chainCoins chain)) :
    ∀ pre a post, chain = pre ++ a :: post →
      (↑a.consumedCoins : Multiset LeafData) ≤ utxoSet pre := by
  induction hrun with
  | nil =>
    intro pre a post heq
    simp at heq
  | snoc last hrun hdel ih =>
    rename_i chain leaves
    have hcoll' := hcoll.mono (chainCoins_concat_subset chain last)
    intro pre a post heq
    rcases List.eq_nil_or_concat post with rfl | ⟨post, b, rfl⟩
    · rcases List.append_inj' heq rfl with ⟨rfl, hlast⟩
      cases hlast
      rw [leafRun_eq hrun hcoll'] at hdel
      exact consumedCoins_le hcoll hdel
    · have heq' : chain ++ [last] = (pre ++ a :: post) ++ [b] := by simpa using heq
      rcases List.append_inj' heq' rfl with ⟨hpre, -⟩
      exact ih hcoll' pre a post hpre

theorem height_unique {a a' : AcceptedBlock B K ε} (hbound : a.height < 2 ^ 31)
    (hbound' : a'.height < 2 ^ 31)
    (hc : c ∈ blockCoins B a.height a.blockHash a.block.txdata)
    (hc' : c ∈ blockCoins B a'.height a'.blockHash a'.block.txdata) : a.height = a'.height := by
  rcases a.blockCoins_height hc with ⟨b, hb⟩
  rcases a'.blockCoins_height hc' with ⟨b', hb'⟩
  have hcode := headerCode_toNat hbound b
  have hcode' := headerCode_toNat hbound' b'
  rw [← hb] at hcode
  rw [← hb'] at hcode'
  cases b <;> cases b' <;> simp at hcode hcode' <;> omega

/-- Blocks at different heights create different coins, so the reference set has none twice. -/
theorem utxoSet_nodup {chain : List (AcceptedBlock B K ε)}
    (hheights : (chain.map AcceptedBlock.height).Nodup)
    (hbound : ∀ a ∈ chain, a.height < 2 ^ 31) : (utxoSet chain).Nodup := by
  induction chain using List.reverseRecOn with
  | nil => simp [utxoSet]
  | append_singleton chain a ih =>
    rw [List.map_append, List.map_singleton, List.nodup_append] at hheights
    rcases hheights with ⟨hold, -, hdisj⟩
    have hnodup := ih hold (fun a' ha' => hbound a' (by simp [ha']))
    rw [utxoSet_concat, Multiset.nodup_add]
    refine ⟨Multiset.nodup_of_le (Multiset.sub_le_self _ _) hnodup,
      Multiset.coe_nodup.mpr a.createdCoins_nodup, Multiset.disjoint_left.mpr ?_⟩
    intro c hc hc'
    have hcold : c ∈ utxoSet chain := Multiset.mem_of_le (Multiset.sub_le_self _ _) hc
    rcases mem_utxoSet hcold with ⟨a', ha', hca'⟩
    have hheight : a'.height = a.height :=
      height_unique (hbound a' (by simp [ha'])) (hbound a (by simp))
        (List.mem_filter.mp hca').1 (List.mem_filter.mp hc').1
    exact hdisj _ (List.mem_map_of_mem ha') _ (by simp) hheight

/-- **Accumulator bookkeeping and transaction validation agree on the UTXO set.**  In every accepted
block the deletions are the consumed coins of earlier blocks and the additions the created coins
that survive it; along a chain the accumulator holds exactly the leaf hashes of the reference
set. -/
theorem accumulator_agrees_with_validation (chain : List (AcceptedBlock B K ε))
    (hheights : (chain.map AcceptedBlock.height).Nodup)
    (hbound : ∀ a ∈ chain, a.height < 2 ^ 31)
    (hcoll : CollisionFree B (chainCoins chain)) :
    (∀ a ∈ chain,
      a.delHashes = a.consumedCoins.map (leafDataHash B) ∧
      a.consumedCoins.map LeafData.prevout = externalOutpoints B a.block.txdata ∧
      (externalOutpoints B a.block.txdata).Nodup ∧
      (∀ o, o ∈ a.utxos ↔ o ∈ externalOutpoints B a.block.txdata) ∧
      (∀ o ∈ a.utxos, o ∈ consumedOutpoints a.block.txdata) ∧
      a.adds = a.createdCoins.map (leafNode B) ∧ a.adds.Nodup) ∧
    ∀ leaves, LeafRun chain leaves →
      leaves = (utxoSet chain).map (leafNode B) ∧ (utxoSet chain).Nodup ∧ leaves.Nodup ∧
      ∀ pre a post, chain = pre ++ a :: post →
        (↑a.consumedCoins : Multiset LeafData) ≤ utxoSet pre := by
  constructor
  · intro a ha
    have hsep : ∀ c ∈ a.createdCoins, ∀ c' ∈ a.createdCoins, leafNode B c = leafNode B c' →
        c = c' := by
      intro c hc c' hc' heq
      exact hcoll c (List.mem_flatMap.mpr ⟨a, ha, List.mem_append_right _ hc⟩)
        c' (List.mem_flatMap.mpr ⟨a, ha, List.mem_append_right _ hc'⟩) (NodeHash.some.inj heq)
    refine ⟨a.delHashes_eq.1, a.delHashes_eq.2, a.external_nodup,
      fun o => ⟨a.utxos_external, a.external_mem_utxos⟩, ?_, a.adds_eq, ?_⟩
    · intro o ho
      exact (List.mem_filter.mp (a.utxos_external ho)).1
    · rw [a.adds_eq]
      exact List.Nodup.map_on hsep a.createdCoins_nodup
  · intro leaves hrun
    have hleaves := leafRun_eq hrun hcoll
    have hnodup := utxoSet_nodup hheights hbound
    refine ⟨hleaves, hnodup, ?_, leafRun_consumed hrun hcoll⟩
    rw [hleaves]
    refine Multiset.Nodup.map_on ?_ hnodup
    intro c hc c' hc' heq
    rcases mem_utxoSet hc with ⟨a, ha, hca⟩
    rcases mem_utxoSet hc' with ⟨a', ha', hca'⟩
    exact hcoll c (List.mem_flatMap.mpr ⟨a, ha, List.mem_append_right _ hca⟩)
      c' (List.mem_flatMap.mpr ⟨a', ha', List.mem_append_right _ hca'⟩) (NodeHash.some.inj heq)

end Chain

/-! ### A chain of two blocks -/

namespace Sample

open Consensus.Sample Bitcoin

def header (nonce : UInt32) : BlockHeader := ⟨1, 0, 0, 0, 0, nonce⟩

/-- A block with only a coinbase, and a block that spends it a hundred blocks later. -/
def firstBlock : Block := ⟨header 1, [coinbaseTx]⟩

def minted : OutPoint := ⟨sample.computeTxid coinbaseTx, 0⟩

def secondBlock : Block :=
  ⟨header 2, [{ coinbaseTx with version := 2 }, spend minted 60,
    spend ⟨sample.computeTxid (spend minted 60), 0⟩ 50]⟩

def blockHashes (height : Nat) : Except BlockchainError BlockHash :=
  if height = 1 then .ok (sample.blockHash (header 1)) else .error .blockNotPresent

def leaves : List CompactLeafData := [⟨3, 70, .other [0x51]⟩]

def utxo : UtxoData := ⟨⟨Amount.fromSat 70, [0x51]⟩, true, 1, 0⟩

def first : AcceptedBlock sample kernel BlockchainError where
  block := firstBlock
  height := 1
  leaves := []
  fromLeaf := .utreexoLeaf
  getBlockHash := blockHashes
  getMtp _ := .ok 0
  cutoff := .mtp 0
  subsidy := Amount.fromSat 70
  verifyScript := true
  flags := 0
  delHashes := []
  utxos := ∅
  processed := by decide +kernel
  verified := by decide +kernel
  txidInjective := by
    unfold Bitcoin.TxidInjectiveOn
    decide +kernel
  outputCount := by decide +kernel

def second : AcceptedBlock sample kernel BlockchainError where
  block := secondBlock
  height := 101
  leaves := leaves
  fromLeaf := .utreexoLeaf
  getBlockHash := blockHashes
  getMtp _ := .ok 0
  cutoff := .mtp 0
  subsidy := Amount.fromSat 70
  verifyScript := true
  flags := 0
  delHashes := [leafDataHash sample
    (coinOf (sample.blockHash (header 1)) minted utxo)]
  utxos := Finmap.singleton minted utxo
  processed := by decide +kernel
  verified := by decide +kernel
  txidInjective := by
    unfold Bitcoin.TxidInjectiveOn
    decide +kernel
  outputCount := by decide +kernel

end Sample

open Sample in
theorem accumulator_agrees_with_validation_sample :
    ∃ leaves, LeafRun [first, second] leaves ∧
      leaves = (utxoSet [first, second]).map (leafNode Bitcoin.sample) ∧
      Multiset.card leaves = 2 := by
  have hcoll : CollisionFree Bitcoin.sample (chainCoins [first, second]) := by
    unfold CollisionFree
    decide +kernel
  have hrun : ∃ leaves, LeafRun [first, second] leaves ∧
      Multiset.card leaves = 2 :=
    ⟨_, LeafRun.snoc second
      (LeafRun.snoc first LeafRun.nil (by decide +kernel))
      (by decide +kernel), by decide +kernel⟩
  rcases hrun with ⟨leaves, hrun, hcard⟩
  have hagree := accumulator_agrees_with_validation [first, second]
    (by decide +kernel) (by decide +kernel) hcoll
  exact ⟨leaves, hrun, (hagree.2 leaves hrun).1, hcard⟩

end Floresta.Udata
