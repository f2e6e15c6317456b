import Mathlib.Algebra.Order.BigOperators.Group.List
import Mathlib.Algebra.Order.Group.Nat
import Floresta.Lib.Ledger
import Floresta.Wallet.Scan

/-!
# Books — the wallet agrees with itself

`Consistent` says what ties the parts of the cache together: the script set is the set of tracked
addresses, the index holds the unspent outputs of every address under their owner, each of them can
be found in the database, and a balance is the worth of the address's outputs.  Every write of the
cache is a rewrite of one address (`Writes`), after any number of new addresses.
-/

namespace Floresta.Wallet

open Fallible AddressCacheInner Ledger

variable (B : Bitcoin) (M : Miniscript) {hash : Hash256} {a a' : CachedAddress}
  {index : HashMap OutPoint Hash256} {o : OutPoint} {tx : Transaction} {item : Item}
variable {s : AddressCacheInner} {address : CachedAddress} {value vin : Nat} {txid : Txid}
  {items : List Item}

/-! ## Coins -/

/-- The output that an outpoint names, among the transactions `U`. -/
def coin (U : List Transaction) (o : OutPoint) : Option TxOut :=
  (U.find? fun t => B.computeTxid t = o.txid).bind fun t => t.output[o.vout.toNat]?

def worth (U : List Transaction) (o : OutPoint) : Nat :=
  (coin B U o).elim 0 fun out => out.value.sat

section Coins

variable {B} {U : List Transaction}

/-- Transactions with one txid have the same outputs, so any of them may be asked. -/
theorem coin_eq (hU : B.TxidInjectiveOn U) (htx : tx ∈ U)
    (ho : B.computeTxid tx = o.txid) : coin B U o = tx.output[o.vout.toNat]? := by
  unfold coin
  cases hfind : U.find? fun t => B.computeTxid t = o.txid with
  | none =>
    have := List.find?_eq_none.mp hfind tx htx
    simp [ho] at this
  | some t =>
    have htxid : B.computeTxid t = o.txid := by simpa using List.find?_some hfind
    have hstrip := hU t (List.mem_of_find?_eq_some hfind) tx htx (htxid.trans ho.symm)
    have hout : t.output = tx.output := by
      have := congrArg Transaction.output hstrip
      simpa [Transaction.stripWitness] using this
    simp [hout]

end Coins

/-! ## Consistency -/

/-- The script set is the set of tracked addresses, and the index holds their outputs. -/
structure Indexed (s : AddressCacheInner) : Prop where
  stats : s.database.stats.isSome
  tracked : ∀ h, h ∈ s.scriptSet ↔ h ∈ s.addressMap
  own : ∀ h a, s.addressMap.lookup h = some a → a.scriptHash = h
  index : ∀ o h, s.utxoIndex.lookup o = some h ↔
    ∃ a, s.addressMap.lookup h = some a ∧ o ∈ a.utxos
  nodup : ∀ h a, s.addressMap.lookup h = some a → a.utxos.Nodup

/-- The outputs are those of stored transactions, and the balances are what they are worth. -/
structure Consistent (U : List Transaction) (s : AddressCacheInner) : Prop extends Indexed s where
  records : ∀ txid ct, s.database.transactions.lookup txid = some ct →
    ct.tx ∈ U ∧ B.computeTxid ct.tx = txid
  recorded : ∀ h a o, s.addressMap.lookup h = some a → o ∈ a.utxos →
    o.txid ∈ s.database.transactions ∧
      ∃ out, coin B U o = some out ∧ getSpkHash B out.scriptPubkey = h
  balance : ∀ h a, s.addressMap.lookup h = some a → a.balance = (a.utxos.map (worth B U)).sum

/-- The cache with one address rewritten and a new index; the stored transactions stay. -/
structure Writes (s s' : AddressCacheInner) (hash : Hash256) (address : CachedAddress)
    (index : HashMap OutPoint Hash256) : Prop where
  addressMap : ∀ h, s'.addressMap.lookup h = if h = hash then some address else s.addressMap.lookup h
  scriptSet : s'.scriptSet = s.scriptSet
  utxoIndex : s'.utxoIndex = index
  transactions : s'.database.transactions = s.database.transactions
  stats : s'.database.stats = s.database.stats

def CachedAddress.noted (address : CachedAddress) (txid : Txid) : CachedAddress :=
  if txid ∈ address.transactions then address
  else { address with transactions := address.transactions ++ [txid] }

abbrev Debits (s s' : AddressCacheInner) (hash : Hash256) (a : CachedAddress) (o : OutPoint)
    (value : Nat) (txid : Txid) : Prop :=
  Writes s s' hash
    (CachedAddress.noted { a with balance := a.balance - value, utxos := a.utxos.erase o } txid)
    (s.utxoIndex.erase o)

abbrev Credits (s s' : AddressCacheInner) (hash : Hash256) (a : CachedAddress) (o : OutPoint)
    (value : Nat) (txid : Txid) : Prop :=
  Writes s s' hash
    (CachedAddress.noted { a with
      utxos := a.utxos ++ [o]
      balance := (a.balance + value) % 2 ^ 64 } txid) (s.utxoIndex.insert o hash)

section Noted

variable (address : CachedAddress) (txid : Txid)

@[simp] theorem CachedAddress.noted_utxos : (address.noted txid).utxos = address.utxos := by
  unfold CachedAddress.noted
  split <;> rfl

@[simp] theorem CachedAddress.noted_balance : (address.noted txid).balance = address.balance := by
  unfold CachedAddress.noted
  split <;> rfl

@[simp] theorem CachedAddress.noted_scriptHash :
    (address.noted txid).scriptHash = address.scriptHash := by
  unfold CachedAddress.noted
  split <;> rfl

end Noted

section Writes

variable {B M}

theorem noteTransaction_writes (s : AddressCacheInner) (hash : Hash256) (address : CachedAddress)
    (txid : Txid) :
    Writes s (s.noteTransaction hash address txid) hash (address.noted txid) s.utxoIndex := by
  unfold noteTransaction CachedAddress.noted
  split
  · exact ⟨fun h => lookup_insert_eq _ _ _ _, rfl, rfl, rfl, rfl⟩
  · exact ⟨fun h => lookup_insert_eq _ _ _ _, rfl, rfl, rfl, rfl⟩

theorem saveMempoolTx_writes
    (h : s.addressMap.lookup hash = some address) (cached : CachedTransaction) :
    Writes s (s.saveMempoolTx hash cached) hash (address.noted cached.hash) s.utxoIndex := by
  unfold saveMempoolTx
  rw [h]
  exact noteTransaction_writes s hash address cached.hash

theorem saveNonMempoolTx_spend_eq {input : TxIn}
    (h : s.addressMap.lookup hash = some address) (hvalue : value ≤ address.balance)
    (hin : tx.input[vin]? = some input) (ho : input.previousOutput ∈ address.utxos)
    (cached : CachedTransaction) :
    s.saveNonMempoolTx B tx true value vin hash cached =
      .ok ({ s with utxoIndex := s.utxoIndex.erase input.previousOutput }.noteTransaction hash
        { address with
          balance := address.balance - value
          utxos := address.utxos.erase input.previousOutput } cached.hash) := by
  have hspend : spendUtxo address s.utxoIndex tx value vin =
      .ok ({ address with
        balance := address.balance - value
        utxos := address.utxos.erase input.previousOutput },
        s.utxoIndex.erase input.previousOutput) := by
    simp only [spendUtxo, bind_eq_ok, require_eq_ok, okOr_eq_ok]
    refine ⟨(), hvalue, input, hin, ?_⟩
    rw [if_pos ho]
    rfl
  unfold saveNonMempoolTx
  simp only [h, if_true, hspend]
  rfl

theorem saveNonMempoolTx_pay_eq
    (h : s.addressMap.lookup hash = some address) (tx : Transaction) (value vout : Nat)
    (cached : CachedTransaction) :
    s.saveNonMempoolTx B tx false value vout hash cached =
      .ok ({ s with utxoIndex := s.utxoIndex.insert (outPoint B tx vout) hash }.noteTransaction hash
        { address with
          utxos := address.utxos ++ [outPoint B tx vout]
          balance := (address.balance + value) % 2 ^ 64 } cached.hash) := by
  unfold saveNonMempoolTx
  simp only [h]
  rfl

theorem noteTransaction_writes_index (s : AddressCacheInner) (index : HashMap OutPoint Hash256)
    (hash : Hash256) (address : CachedAddress) (txid : Txid) :
    Writes s ({ s with utxoIndex := index }.noteTransaction hash address txid) hash
      (address.noted txid) index := by
  have hnote := noteTransaction_writes { s with utxoIndex := index } hash address txid
  exact { hnote with }

theorem saveNonMempoolTx_spend {input : TxIn} (h : s.addressMap.lookup hash = some address)
    (hvalue : value ≤ address.balance) (hin : tx.input[vin]? = some input)
    (ho : input.previousOutput ∈ address.utxos) (cached : CachedTransaction) :
    Ensures (s.saveNonMempoolTx B tx true value vin hash cached) fun s' =>
      Debits s s' hash address input.previousOutput value cached.hash :=
  ⟨_, saveNonMempoolTx_spend_eq h hvalue hin ho cached, noteTransaction_writes_index ..⟩

theorem saveNonMempoolTx_pay
    (h : s.addressMap.lookup hash = some address) (tx : Transaction) (value vout : Nat)
    (cached : CachedTransaction) :
    Ensures (s.saveNonMempoolTx B tx false value vout hash cached) fun s' =>
      Credits s s' hash address (outPoint B tx vout) value cached.hash :=
  ⟨_, saveNonMempoolTx_pay_eq h tx value vout cached, noteTransaction_writes_index ..⟩

theorem saveNonMempoolTx_covers {s' : AddressCacheInner} {cached : CachedTransaction}
    (h : s.addressMap.lookup hash = some address)
    (hok : s.saveNonMempoolTx B tx true value vin hash cached = .ok s') :
    value ≤ address.balance := by
  simp only [saveNonMempoolTx, h, if_true, spendUtxo, bind_eq_ok, require_eq_ok] at hok
  rcases hok with ⟨_, ⟨_, hvalue, -⟩, -⟩
  exact hvalue

/-- Saving a transaction notes it on its address; outputs are only given to this address. -/
theorem saveTx_ok {s' : AddressCacheInner} {index : Nat} {isSpend : Bool}
    {record : CachedTransaction} (hok : saveTx B s tx value index isSpend hash record = .ok s') :
    (s.addressMap.lookup hash = none ∧ s' = s) ∨
      ∃ a address utxoIndex, s.addressMap.lookup hash = some a ∧
        s' = { s with utxoIndex := utxoIndex }.noteTransaction hash address record.hash ∧
        address.scriptHash = a.scriptHash ∧ address.transactions = a.transactions ∧
        ∀ o h, utxoIndex.lookup o = some h → s.utxoIndex.lookup o = some h ∨ h = hash := by
  unfold saveTx saveNonMempoolTx saveMempoolTx at hok
  cases ha : s.addressMap.lookup hash with
  | none =>
    rw [ha] at hok
    split at hok <;> cases hok <;> exact .inl ⟨rfl, rfl⟩
  | some a =>
    rw [ha] at hok
    refine .inr ⟨a, ?_⟩
    split at hok
    · cases isSpend with
      | true =>
        rcases bind_eq_ok.mp hok with ⟨⟨address, utxoIndex⟩, hspend, hok⟩
        cases hok
        simp only [spendUtxo, bind_eq_ok] at hspend
        rcases hspend with ⟨-, -, input, -, hspend⟩
        split at hspend
        · cases hspend
          refine ⟨_, _, rfl, rfl, rfl, rfl, fun o h ho => .inl ?_⟩
          rw [lookup_erase_eq] at ho
          split at ho
          · cases ho
          · exact ho
        · cases hspend
          exact ⟨_, _, rfl, rfl, rfl, rfl, fun _ _ => Or.inl⟩
      | false =>
        cases hok
        refine ⟨_, _, rfl, rfl, rfl, rfl, fun o h ho => ?_⟩
        rw [lookup_insert_eq] at ho
        split at ho
        · exact .inr (Option.some.inj ho).symm
        · exact .inl ho
    · cases hok
      exact ⟨a, s.utxoIndex, rfl, rfl, rfl, rfl, fun _ _ => Or.inl⟩

end Writes

/-! ## What keeps the books consistent -/

section Lookup

variable {B} {s s' : AddressCacheInner}

theorem lookup_cacheAddress {script : Script} {h : Hash256} {a : CachedAddress}
    (ha : (s.cacheAddress B script).addressMap.lookup h = some a) :
    s.addressMap.lookup h = some a ∨ (h ∉ s.addressMap ∧ a = CachedAddress.new h script) := by
  unfold cacheAddress at ha
  dsimp only at ha
  split at ha
  · exact .inl ha
  next hnew =>
    rw [lookup_insert_eq] at ha
    split at ha
    next heq =>
      subst heq
      exact .inr ⟨hnew, (Option.some.inj ha).symm⟩
    · exact .inl ha

theorem Writes.lookup {a' : CachedAddress}
    (hw : Writes s s' hash a' index) {h : Hash256} {b : CachedAddress}
    (hb : s'.addressMap.lookup h = some b) :
    (h = hash ∧ b = a') ∨ (h ≠ hash ∧ s.addressMap.lookup h = some b) := by
  rw [hw.addressMap] at hb
  split at hb
  next heq => exact .inl ⟨heq, (Option.some.inj hb).symm⟩
  next hne => exact .inr ⟨hne, hb⟩

theorem look_touched {M : Miniscript} (htracked : ∀ h, h ∈ s.scriptSet ↔ h ∈ s.addressMap)
    (hown : ∀ h a, s.addressMap.lookup h = some a → a.scriptHash = h)
    (htouches : item.touches B s = some hash)
    (hlook : look B M s item = .ok s') :
    ∃ value proof index isSpend, hash ∈ s.addressMap ∧
      MerkleProof.fromBlock B item.place.block item.place.position = .ok proof ∧
      s.cacheTransaction B M item.tx item.place.height value proof item.place.position index isSpend
        hash = .ok s' := by
  cases item with
  | input place tx txin vin =>
    rcases look_input_ok htouches hlook with ⟨a, value, proof, ha, hproof, hok⟩
    rw [hown hash a ha] at hok
    exact ⟨value, proof, vin, true, Finmap.mem_of_lookup_eq_some ha, hproof, hok⟩
  | output place tx out vout =>
    rcases Item.touches_output.mp htouches with ⟨hmem, rfl⟩
    rcases look_output_ok hmem hlook with ⟨proof, hproof, hok⟩
    exact ⟨out.value.sat, proof, vout, false, (htracked _).mp hmem, hproof, hok⟩

end Lookup

namespace Indexed

variable {B} {s s' : AddressCacheInner}

theorem mem_addressMap (h : Indexed s) (hmem : hash ∈ s.scriptSet) :
    ∃ a, s.addressMap.lookup hash = some a :=
  Finmap.mem_iff.mp ((h.tracked hash).mp hmem)

theorem cacheAddress (h : Indexed s) (script : Script) : Indexed (s.cacheAddress B script) := by
  refine ⟨?_, ?_, ?_, ?_, ?_⟩
  · unfold AddressCacheInner.cacheAddress
    dsimp only
    split <;> exact h.stats
  · intro h'
    unfold AddressCacheInner.cacheAddress
    dsimp only
    split
    · exact h.tracked h'
    · rw [Finset.mem_insert, h.tracked, Finmap.mem_insert]
  · intro h' a ha
    rcases lookup_cacheAddress ha with ha | ⟨-, rfl⟩
    · exact h.own h' a ha
    · rfl
  · intro o h'
    have hgrows := (Grows.refl s).cacheAddress (B := B) script
    rw [hgrows.utxoIndex, h.index]
    constructor
    · rintro ⟨a, ha, ho⟩
      exact ⟨a, hgrows.addressMap h' a ha, ho⟩
    · rintro ⟨a, ha, ho⟩
      rcases lookup_cacheAddress ha with ha | ⟨-, rfl⟩
      · exact ⟨a, ha, ho⟩
      · exact absurd ho List.not_mem_nil
  · intro h' a ha
    rcases lookup_cacheAddress ha with ha | ⟨-, rfl⟩
    · exact h.nodup h' a ha
    · exact List.nodup_nil

theorem stable : Stable B Indexed where
  cacheAddress _ script h := h.cacheAddress script
  derivedIndex _ _ h := { h with }
  saveStats _ _ h := { h with stats := rfl }

section

variable (h : Indexed s) (ha : s.addressMap.lookup hash = some a)

include h ha

/-- One address is rewritten: what its new outputs have to satisfy. -/
theorem writes (hw : Writes s s' hash a' index) (hown : a'.scriptHash = hash)
    (hnodup : a'.utxos.Nodup)
    (hindex : ∀ o h', index.lookup o = some h' ↔ if h' = hash then o ∈ a'.utxos else
      s.utxoIndex.lookup o = some h') : Indexed s' := by
  refine ⟨?_, ?_, ?_, ?_, ?_⟩
  · rw [hw.stats]
    exact h.stats
  · intro h'
    rw [hw.scriptSet, h.tracked, Finmap.mem_iff, Finmap.mem_iff, hw.addressMap]
    by_cases heq : h' = hash
    · subst heq
      simp [ha]
    · simp [heq]
  · intro h' b hb
    rcases hw.lookup hb with ⟨rfl, rfl⟩ | ⟨-, hb⟩
    · exact hown
    · exact h.own h' b hb
  · intro o h'
    rw [hw.utxoIndex, hindex]
    by_cases heq : h' = hash
    · subst heq
      simp [hw.addressMap]
    · rw [if_neg heq, h.index, hw.addressMap, if_neg heq]
  · intro h' b hb
    rcases hw.lookup hb with ⟨-, rfl⟩ | ⟨-, hb⟩
    · exact hnodup
    · exact h.nodup h' b hb

theorem index_same (hutxos : a'.utxos = a.utxos) (o : OutPoint) (h' : Hash256) :
    s.utxoIndex.lookup o = some h' ↔
      if h' = hash then o ∈ a'.utxos else s.utxoIndex.lookup o = some h' := by
  by_cases heq : h' = hash
  · subst heq
    rw [if_pos rfl, h.index, ha, hutxos]
    simp
  · rw [if_neg heq]

theorem index_erase (ho : o ∈ a.utxos) (hutxos : a'.utxos = a.utxos.erase o) (o' : OutPoint)
    (h' : Hash256) :
    (s.utxoIndex.erase o).lookup o' = some h' ↔
      if h' = hash then o' ∈ a'.utxos else s.utxoIndex.lookup o' = some h' := by
  rw [lookup_erase_eq]
  by_cases heq : h' = hash
  · subst heq
    rw [if_pos rfl, hutxos, (h.nodup h' a ha).mem_erase_iff]
    by_cases hoo : o' = o
    · simp [hoo]
    · rw [if_neg hoo, h.index, ha]
      simp [hoo]
  · rw [if_neg heq]
    by_cases hoo : o' = o
    · -- the output has one owner
      subst hoo
      have howner := (h.index o' hash).mpr ⟨a, ha, ho⟩
      simp [howner, Ne.symm heq]
    · rw [if_neg hoo]

theorem index_insert (hnew : s.utxoIndex.lookup o = none) (hutxos : a'.utxos = a.utxos ++ [o])
    (o' : OutPoint) (h' : Hash256) :
    (s.utxoIndex.insert o hash).lookup o' = some h' ↔
      if h' = hash then o' ∈ a'.utxos else s.utxoIndex.lookup o' = some h' := by
  rw [lookup_insert_eq, hutxos]
  by_cases hoo : o' = o
  · subst hoo
    by_cases heq : h' = hash
    · simp [heq]
    · simp [heq, Ne.symm heq, hnew]
  · rw [if_neg hoo]
    by_cases heq : h' = hash
    · subst heq
      rw [if_pos rfl, h.index, ha]
      simp [hoo]
    · rw [if_neg heq]

end

theorem not_mem_utxos (h : Indexed s) {a : CachedAddress}
    (ha : s.addressMap.lookup hash = some a) (hnew : s.utxoIndex.lookup o = none) :
    o ∉ a.utxos := by
  intro ho
  have := (h.index o hash).mpr ⟨a, ha, ho⟩
  rw [hnew] at this
  cases this

end Indexed

namespace Consistent

variable {B} {U : List Transaction} {s s' : AddressCacheInner}

theorem cacheAddress (h : Consistent B U s) (script : Script) :
    Consistent B U (s.cacheAddress B script) := by
  have htxs := ((Grows.refl s).cacheAddress (B := B) script).transactions
  refine ⟨h.toIndexed.cacheAddress script, ?_, ?_, ?_⟩
  · rw [htxs]
    exact h.records
  · intro h' a o ha ho
    rw [htxs]
    rcases lookup_cacheAddress ha with ha | ⟨-, rfl⟩
    · exact h.recorded h' a o ha ho
    · exact absurd ho List.not_mem_nil
  · intro h' a ha
    rcases lookup_cacheAddress ha with ha | ⟨-, rfl⟩
    · exact h.balance h' a ha
    · rfl

theorem stable : Stable B (Consistent B U) where
  cacheAddress _ script h := h.cacheAddress script
  derivedIndex _ _ h :=
    ⟨(Indexed.stable (B := B)).derivedIndex _ _ h.toIndexed, h.records, h.recorded, h.balance⟩
  saveStats _ _ h :=
    ⟨(Indexed.stable (B := B)).saveStats _ _ h.toIndexed, h.records, h.recorded, h.balance⟩

theorem saveTransaction (h : Consistent B U s) {ct : CachedTransaction} (htx : ct.tx ∈ U) :
    Consistent B U { s with database := s.database.saveTransaction B ct } := by
  refine ⟨{ h with }, ?_, ?_, h.balance⟩
  · intro txid ct' hct'
    have hlookup : (s.database.transactions.insert (B.computeTxid ct.tx) ct).lookup txid = some ct' :=
      hct'
    rw [lookup_insert_eq] at hlookup
    split at hlookup
    next heq =>
      cases hlookup
      exact ⟨htx, heq.symm⟩
    · exact h.records txid ct' hlookup
  · intro hash a o ha ho
    have hold := h.recorded hash a o ha ho
    exact ⟨Finmap.mem_insert.mpr (.inr hold.1), hold.2⟩

/-- One address is rewritten: what its new outputs have to satisfy. -/
theorem writes (h : Consistent B U s)
    (ha : s.addressMap.lookup hash = some a)
    (hw : Writes s s' hash a' index) (hown : a'.scriptHash = hash) (hnodup : a'.utxos.Nodup)
    (hrec : ∀ o ∈ a'.utxos, o.txid ∈ s.database.transactions ∧
      ∃ out, coin B U o = some out ∧ getSpkHash B out.scriptPubkey = hash)
    (hbal : a'.balance = (a'.utxos.map (worth B U)).sum)
    (hindex : ∀ o h', index.lookup o = some h' ↔
      if h' = hash then o ∈ a'.utxos else s.utxoIndex.lookup o = some h') :
    Consistent B U s' := by
  refine ⟨h.toIndexed.writes ha hw hown hnodup hindex, ?_, ?_, ?_⟩
  · rw [hw.transactions]
    exact h.records
  · intro h' b o hb ho
    rw [hw.transactions]
    rcases hw.lookup hb with ⟨rfl, rfl⟩ | ⟨-, hb⟩
    · exact hrec o ho
    · exact h.recorded h' b o hb ho
  · intro h' b hb
    rcases hw.lookup hb with ⟨-, rfl⟩ | ⟨-, hb⟩
    · exact hbal
    · exact h.balance h' b hb

theorem noted (h : Consistent B U s) {a : CachedAddress} (ha : s.addressMap.lookup hash = some a)
    (hw : Writes s s' hash (a.noted txid) s.utxoIndex) : Consistent B U s' := by
  refine h.writes ha hw ?_ ?_ ?_ ?_ (h.index_same ha (a.noted_utxos txid))
  · simpa using h.own hash a ha
  · simpa using h.nodup hash a ha
  · intro o ho
    exact h.recorded hash a o ha (by simpa using ho)
  · simpa using h.balance hash a ha

theorem spend (h : Consistent B U s) {a : CachedAddress}
    (ha : s.addressMap.lookup hash = some a) (ho : o ∈ a.utxos)
    (hw : Debits s s' hash a o (worth B U o) txid) : Consistent B U s' := by
  refine h.writes ha hw ?_ ?_ ?_ ?_ (h.index_erase ha ho (CachedAddress.noted_utxos _ txid))
  · simpa using h.own hash a ha
  · simpa using (h.nodup hash a ha).erase o
  · intro o' ho'
    simp only [CachedAddress.noted_utxos] at ho'
    exact h.recorded hash a o' ha (List.mem_of_mem_erase ho')
  · simp only [CachedAddress.noted_balance, CachedAddress.noted_utxos, h.balance hash a ha]
    have hperm := (List.perm_cons_erase ho).map (worth B U)
    have hsum := hperm.sum_eq
    simp only [List.map_cons, List.sum_cons] at hsum
    omega

theorem pay (h : Consistent B U s) {a : CachedAddress}
    (ha : s.addressMap.lookup hash = some a) {out : TxOut}
    (hcoin : coin B U o = some out) (hout : getSpkHash B out.scriptPubkey = hash)
    (htx : o.txid ∈ s.database.transactions) (hnew : s.utxoIndex.lookup o = none)
    (hfits : (a.utxos.map (worth B U)).sum + out.value.sat < 2 ^ 64)
    (hw : Credits s s' hash a o out.value.sat txid) :
    Consistent B U s' := by
  have hnotMem := h.not_mem_utxos ha hnew
  have hworth : worth B U o = out.value.sat := by simp [worth, hcoin]
  refine h.writes ha hw ?_ ?_ ?_ ?_ (h.index_insert ha hnew (CachedAddress.noted_utxos _ txid))
  · simpa using h.own hash a ha
  · simp only [CachedAddress.noted_utxos]
    exact (h.nodup hash a ha).append (List.nodup_singleton o) (by simpa using hnotMem)
  · intro o' ho'
    simp only [CachedAddress.noted_utxos, List.mem_append, List.mem_singleton] at ho'
    rcases ho' with ho' | rfl
    · exact h.recorded hash a o' ha ho'
    · exact ⟨htx, out, hcoin, hout⟩
  · simp only [CachedAddress.noted_balance, CachedAddress.noted_utxos, h.balance hash a ha,
      Nat.mod_eq_of_lt hfits, List.map_append, List.sum_append, List.map_cons, List.map_nil,
      List.sum_cons, List.sum_nil, hworth, Nat.add_zero]

end Consistent

/-! ## What the books say -/

def paid (items : List Item) : List (OutPoint × TxOut) := items.filterMap (Item.pays B)

def spent (items : List Item) : List OutPoint := items.filterMap Item.spends

def unspent (items : List Item) : List (OutPoint × TxOut) :=
  (paid B items).filter fun p => p.1 ∉ spent items

def total (outs : List (OutPoint × TxOut)) : Nat := (outs.map fun p => p.2.value.sat).sum

/-- The wallet after looking at `items`: `since h` tells how many of them had been looked at when
`h` became tracked, and is `n` as long as it is not.  The outputs of an address are those that were
paid to it since then and are not spent. -/
structure Books (U : List Transaction) (items : List Item) (n : Nat) (since : Hash256 → Nat)
    (s : AddressCacheInner) : Prop where
  consistent : Consistent B U s
  bound : ∀ h, since h ≤ n
  untracked : ∀ h, h ∉ s.scriptSet → since h = n
  coins : ∀ o out, (o, out) ∈ paid B items → coin B U o = some out
  exact : ∀ h a, s.addressMap.lookup h = some a → ∀ o, o ∈ a.utxos ↔
    (∃ out, (o, out) ∈ paid B (items.drop (since h)) ∧ getSpkHash B out.scriptPubkey = h) ∧
      o ∉ spent items

section Lists

variable {B}

theorem paid_append (l r : List Item) : paid B (l ++ r) = paid B l ++ paid B r :=
  List.filterMap_append

theorem spent_append (l r : List Item) : spent (l ++ r) = spent l ++ spent r :=
  List.filterMap_append

theorem mem_spent_concat :
    o ∈ spent (items ++ [item]) ↔ o ∈ spent items ∨ item.spends = some o := by
  simp [spent, List.filterMap_append, List.mem_filterMap]

theorem mem_paid_concat {p : OutPoint × TxOut} :
    p ∈ paid B (items ++ [item]) ↔ p ∈ paid B items ∨ item.pays B = some p := by
  simp [paid, List.filterMap_append, List.mem_filterMap]

theorem mem_paid_drop_concat {k : Nat} {p : OutPoint × TxOut} :
    p ∈ paid B ((items ++ [item]).drop k) ↔
      p ∈ paid B (items.drop k) ∨ (k ≤ items.length ∧ item.pays B = some p) := by
  by_cases hk : k ≤ items.length
  · rw [List.drop_append_of_le_length hk]
    simp [paid, List.filterMap_append, List.mem_filterMap, hk]
  · have hall : (items ++ [item]).drop k = [] := List.drop_eq_nil_of_le (by simp; omega)
    have hold : items.drop k = [] := List.drop_eq_nil_of_le (by omega)
    simp [hall, hold, hk, paid]

theorem sum_worth_le {U : List Transaction} {os : List OutPoint} {outs : List (OutPoint × TxOut)}
    (hnodup : os.Nodup)
    (h : ∀ o ∈ os, ∃ out, (o, out) ∈ outs ∧ coin B U o = some out) :
    (os.map (worth B U)).sum ≤ total outs := by
  -- pair every output with its coin: a list without repetitions inside `outs`
  have hpair : ∀ o ∈ os, (o, (coin B U o).getD ⟨Amount.ZERO, []⟩) ∈ outs := by
    intro o ho
    rcases h o ho with ⟨out, hmem, hcoin⟩
    simpa [hcoin] using hmem
  have hsub : (os.map fun o => (o, (coin B U o).getD ⟨Amount.ZERO, []⟩)) ⊆ outs := by
    intro p hp
    rcases List.mem_map.mp hp with ⟨o, ho, rfl⟩
    exact hpair o ho
  have hnodup' : (os.map fun o => (o, (coin B U o).getD ⟨Amount.ZERO, []⟩)).Nodup :=
    hnodup.map fun _ _ heq => congrArg Prod.fst heq
  rcases hnodup'.subperm hsub with ⟨l, hperm, hsublist⟩
  calc
    (os.map (worth B U)).sum
        = ((os.map fun o => (o, (coin B U o).getD ⟨Amount.ZERO, []⟩)).map
            fun p => p.2.value.sat).sum := by
          rw [List.map_map]
          refine congrArg List.sum (List.map_congr_left fun o ho => ?_)
          rcases h o ho with ⟨out, -, hcoin⟩
          simp [worth, hcoin]
    _ = (l.map fun p => p.2.value.sat).sum := ((hperm.map _).sum_eq).symm
    _ ≤ total outs := (hsublist.map _).sum_le_sum fun _ _ => Nat.zero_le _

end Lists

end Floresta.Wallet
